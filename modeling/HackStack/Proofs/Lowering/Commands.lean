import HackStack.Proofs.Lowering.Comparisons

/-!
# The code of a command

`Implements` relates lines of code to the commands that they stand for: a machine that stands at the code goes
forward to its end and does there what the reference machine does, or it traps where a command misses a cell.
The relation is kept by appending, so it holds of a whole translation once it holds of every command.
-/

namespace HackStack

open Asm Template

namespace Reference

/-! ## Runs of the reference machine -/

/-- Whether some command of a run misses a cell, where all commands up to it keep their stack cells clear. -/
def Strays : List Located → Memory → Prop
  | [], _ => False
  | c :: rest, ram => Clear ram c.2 ∧ (Inside c.1 ram c.2 → Strays rest (step c.1 ram c.2))

theorem run_append : ∀ (cs ds : List Located) (ram : Memory), run (cs ++ ds) ram = run ds (run cs ram)
  | [], _, _ => rfl
  | c :: cs, ds, ram => run_append cs ds (step c.1 ram c.2)

theorem size_run : ∀ (cs : List Located) (ram : Memory), (run cs ram).size = ram.size
  | [], _ => rfl
  | c :: cs, ram => (size_run cs (step c.1 ram c.2)).trans (size_step c.1 ram c.2)

theorem fits_append : ∀ {cs ds : List Located} {ram : Memory},
    Fits (cs ++ ds) ram ↔ Fits cs ram ∧ Fits ds (run cs ram)
  | [], _, _ => by simp [Fits, run]
  | c :: cs, ds, ram => by
    rw [List.cons_append, Fits, Fits, fits_append, run]
    simp only [and_assoc]

theorem strays_append : ∀ {cs ds : List Located} {ram : Memory}, Strays (cs ++ ds) ram →
    Strays cs ram ∨ Fits cs ram ∧ Strays ds (run cs ram)
  | [], _, _, h => .inr ⟨trivial, h⟩
  | c :: cs, ds, ram, ⟨hclear, h⟩ => by
    by_cases hin : Inside c.1 ram c.2
    · obtain h | ⟨hfits, h⟩ := strays_append (h hin)
      · exact .inl ⟨hclear, fun _ => h⟩
      · exact .inr ⟨⟨hclear, hin, hfits⟩, h⟩
    · exact .inl ⟨hclear, fun h => absurd h hin⟩

end Reference

open Reference

/-! ## Code that implements commands -/

/-- Whether lines can be written and do what commands do, wherever they stand in a program. -/
structure Implements (ls : List Line) (cs : List Located) : Prop where
  legal : ∀ l ∈ ls, l.Legal
  forward : ∀ {σ : Text → UInt16} {m : Machine}, Standard σ → Placed m.rom σ m.pc.toNat ls → m.rom.size ≤ 65535 →
    16 ≤ m.ram.size → Fits cs m.ram →
    ∃ m', Machine.Forward m m' ∧ m'.ram = run cs m.ram ∧ m'.pc.toNat = m.pc.toNat + (instructions ls).length
  trapped : ∀ {σ : Text → UInt16} {m : Machine}, Standard σ → Placed m.rom σ m.pc.toNat ls → m.rom.size ≤ 65535 →
    16 ≤ m.ram.size → Strays cs m.ram →
    ∃ m' t, Machine.Forward m m' ∧ m'.halted = false ∧ m'.trap? = some t

namespace Implements

theorem nil : Implements [] [] where
  legal := by simp
  forward := fun {_ m} _ _ _ _ _ => ⟨m, .refl m, rfl, rfl⟩
  trapped := fun _ _ _ _ h => h.elim

theorem append {xs ys : List Line} {cs ds : List Located} (hx : Implements xs cs) (hy : Implements ys ds) :
    Implements (xs ++ ys) (cs ++ ds) where
  legal := List.forall_mem_append.mpr ⟨hx.legal, hy.legal⟩
  forward := by
    intro σ m hσ hp hs hsize hfits
    rw [placed_append] at hp
    rw [fits_append] at hfits
    obtain ⟨m₁, hf₁, hram₁, hpc₁⟩ := hx.forward hσ hp.1 hs hsize hfits.1
    have hsize₁ : m₁.ram.size = m.ram.size := by rw [hram₁, size_run]
    obtain ⟨m₂, hf₂, hram₂, hpc₂⟩ := hy.forward (m := m₁) hσ (by rw [hpc₁, hf₁.rom]; exact hp.2) (hf₁.rom ▸ hs)
      (hsize₁ ▸ hsize) (hram₁ ▸ hfits.2)
    refine ⟨m₂, hf₁.trans hf₂, ?_, ?_⟩
    · rw [hram₂, hram₁, run_append]
    · rw [hpc₂, hpc₁, instructions_append, List.length_append, Nat.add_assoc]
  trapped := by
    intro σ m hσ hp hs hsize hstrays
    rw [placed_append] at hp
    obtain hstrays | ⟨hfits, hstrays⟩ := strays_append hstrays
    · exact hx.trapped hσ hp.1 hs hsize hstrays
    · obtain ⟨m₁, hf₁, hram₁, hpc₁⟩ := hx.forward hσ hp.1 hs hsize hfits
      have hsize₁ : m₁.ram.size = m.ram.size := by rw [hram₁, size_run]
      obtain ⟨m₂, t, hf₂, hh, ht⟩ := hy.trapped (m := m₁) hσ (by rw [hpc₁, hf₁.rom]; exact hp.2) (hf₁.rom ▸ hs)
        (hsize₁ ▸ hsize) (hram₁ ▸ hstrays)
      exact ⟨m₂, t, hf₁.trans hf₂, hh, ht⟩

theorem remark {ls : List Line} {cs : List Located} {text : Text} (ht : Text.lineFeed ∉ text)
    (h : Implements ls cs) : Implements (.remark text :: ls) cs where
  legal := List.forall_mem_cons.mpr ⟨ht, h.legal⟩
  forward := h.forward
  trapped := h.trapped

theorem nothing {first : Nat} {c : Command} (hstep : ∀ ram, step first ram c = ram)
    (hin : ∀ ram, Inside first ram c) : Implements [] [(first, c)] where
  legal := by simp
  forward := fun {_ m} _ _ _ _ _ => ⟨m, .refl m, (hstep m.ram).symm, rfl⟩
  trapped := fun {_ m} _ _ _ _ h => (h.2 (hin m.ram)).elim

section
variable {ls : List Line} {first : Nat} {c : Command}

theorem of_effects (hplain : ∀ l ∈ ls, Plain l)
    (hin : ∀ σ (s : Data), Standard σ → 16 ≤ s.ram.size → Clear s.ram c → Inside first s.ram c →
      ∃ s', effects σ ls s = some s' ∧ s'.ram = step first s.ram c)
    (hout : ∀ σ (s : Data), Standard σ → 16 ≤ s.ram.size → Clear s.ram c → ¬ Inside first s.ram c →
      effects σ ls s = none) : Implements ls [(first, c)] where
  legal := legal_of_plain hplain
  forward := by
    intro σ m hσ hp hrom hsize hfits
    obtain ⟨s', he, hram⟩ := hin σ m.data hσ hsize hfits.1 hfits.2.1
    obtain ⟨m', hf, hd, hpc⟩ := Machine.forward_straight hp hrom (straight_of_plain hplain hσ) he
    exact ⟨m', hf, (congrArg Data.ram hd).trans hram, hpc⟩
  trapped := by
    intro σ m hσ hp hrom hsize hstrays
    by_cases hi : Inside first m.ram c
    · exact (hstrays.2 hi).elim
    · exact Machine.trapped_straight hp hrom (straight_of_plain hplain hσ) (hout σ m.data hσ hsize hstrays.1 hi)

end

/-! ## Assembled programs -/

section
variable {ls : List Line} {cs : List Located} (h : Implements ls cs) {p : Program}
variable (hp : assemble (render ls) = .ok p) (hwords : p.words.size ≤ 65535)
variable {m : Machine} (hram : 16 ≤ m.ram.size) {limit : Option Nat}
variable (hlimit : ∀ n, limit = some n → p.words.size ≤ n)
include h hp hwords hram hlimit

/-- The assembled code of commands that find their cells halts where the reference machine stops. -/
theorem run_halted (hfits : Fits cs m.ram) :
    ∃ m', (m.load p).run limit = (m', .halted) ∧ m'.ram = run cs m.ram ∧ m'.pc.toNat = p.words.size ∧
      m'.steps ≤ p.words.size := by
  obtain ⟨hplaced, hcount, htable⟩ := assemble_render h.legal hp
  obtain ⟨m', hf, hram', hpc⟩ :=
    h.forward (m := m.load p) (standard_of_extends htable) hplaced hwords hram hfits
  have hpc : m'.pc.toNat = p.words.size := by rw [hpc, hcount]; exact Nat.zero_add _
  have hsteps : m'.steps ≤ p.words.size := by
    have := hf.steps.2
    have h0 : (m.load p).steps = 0 := rfl
    have h1 : (m.load p).pc.toNat = 0 := rfl
    omega
  have hhalted : m'.halted = true := by
    have hrom : m'.rom.size = p.words.size := by rw [hf.rom]; rfl
    simp [Machine.halted, hrom, hpc]
  obtain ⟨fuel, hrun⟩ := Machine.run_forward hf fun n hn => Nat.le_trans hsteps (hlimit n hn)
  refine ⟨m', ?_, hram', hpc, hsteps⟩
  rw [hrun, Machine.runFor, if_pos hhalted]

/-- The assembled code of commands of which one misses a cell ends in a trap. -/
theorem run_trapped (hstrays : Strays cs m.ram) : ∃ m' t, (m.load p).run limit = (m', .trapped t) := by
  obtain ⟨hplaced, hcount, htable⟩ := assemble_render h.legal hp
  obtain ⟨m', t, hf, hhalted, htrap⟩ :=
    h.trapped (m := m.load p) (standard_of_extends htable) hplaced hwords hram hstrays
  have hsteps : m'.steps < p.words.size := by
    have := hf.steps.2
    have h0 : (m.load p).steps = 0 := rfl
    have h1 : (m.load p).pc.toNat = 0 := rfl
    have hrom : m'.rom.size = p.words.size := by rw [hf.rom]; rfl
    simp only [Machine.halted, decide_eq_false_iff_not] at hhalted
    omega
  have hreached : m'.reached limit = false := by
    unfold Machine.reached
    cases limit with
    | none => rfl
    | some n =>
      have := hlimit n rfl
      simp only [decide_eq_false_iff_not]
      omega
  obtain ⟨fuel, hrun⟩ := Machine.run_forward hf fun n hn => Nat.le_trans (Nat.le_of_lt hsteps) (hlimit n hn)
  refine ⟨m', t, ?_⟩
  rw [hrun, Machine.runFor, hhalted, hreached, htrap]
  rfl

end

/-! ## Operators -/

section
variable {op : Operator} {first : Nat}

theorem inside_operator {ram : Memory} :
    Inside first ram (.arithmetic op.name) ↔
      ∀ cell ∈ stackCells (ram.read 0) (.arithmetic op.name), cell.toNat < ram.size := by
  simp [Inside, segmentCell?]

section
variable {f : UInt16 → UInt16} (hm : op.meaning = .unary f)
include hm

theorem unary (pre : List Line) {comp : Computation} (hr : comp.readsMemory = true) (hpre : ∀ l ∈ pre, Plain l)
    (he : ∀ σ s, ∃ d, effects σ pre s = some { s with d := d } ∧ ∀ y, comp.value d y = f y) :
    Implements (pre ++ (pointToTop ++ [assign [.m] comp])) [(first, .arithmetic op.name)] := by
  refine of_effects ?_ ?_ ?_
  · refine List.forall_mem_append.mpr ⟨hpre, List.forall_mem_append.mpr ⟨plain_fixed (by simp), ?_⟩⟩
    simp [plain_assign]
  · intro σ s hσ hsize hclear hin
    rw [inside_operator, cells_unary hm] at hin
    obtain ⟨d, hpre, hd⟩ := he σ s
    rw [effects_append, hpre, Option.bind_some, step_operator, hm]
    exact effects_top (s := { s with d := d }) hσ hsize hr hd (hin _ List.mem_cons_self)
  · intro σ s hσ hsize hclear hout
    rw [inside_operator, cells_unary hm] at hout
    obtain ⟨d, hpre, -⟩ := he σ s
    rw [effects_append, hpre, Option.bind_some]
    exact effects_top_beyond (s := { s with d := d }) hσ hsize comp (by simpa using hout)

end

section
variable {f : UInt16 → UInt16 → UInt16} (hm : op.meaning = .binary f)
include hm

theorem clear_binary {ram : Memory} (h : Clear ram (.arithmetic op.name)) :
    ram.read 0 - 2 ≠ 0 ∧ ram.read 0 - 1 ≠ 0 := by
  unfold Clear at h
  rw [cells_binary hm] at h
  exact ⟨(h _ (by simp)).1, (h _ (by simp)).1⟩

theorem inside_binary {ram : Memory} :
    Inside first ram (.arithmetic op.name) ↔
      (ram.read 0 - 2).toNat < ram.size ∧ (ram.read 0 - 1).toNat < ram.size := by
  rw [inside_operator, cells_binary hm]
  simp

theorem outside_binary {ram : Memory} (h : ¬ Inside first ram (.arithmetic op.name)) :
    ram.size ≤ (ram.read 0 - 2).toNat ∨ ram.size ≤ (ram.read 0 - 1).toNat := by
  rw [inside_binary hm] at h
  omega

theorem binary {comp : Computation} (hr : comp.readsMemory = true) (hf : ∀ x y, comp.value y x = f x y) :
    Implements (Template.binary comp) [(first, .arithmetic op.name)] := by
  refine of_effects ?_ ?_ ?_
  · refine List.forall_mem_append.mpr ⟨plain_fixed (by simp), ?_⟩
    simp [plain_assign]
  · intro σ s hσ hsize hclear hin
    obtain ⟨h2, h1⟩ := clear_binary hm hclear
    obtain ⟨hin2, hin1⟩ := (inside_binary hm).mp hin
    rw [step_operator, hm]
    exact effects_binary hσ hsize h2 h1 hin2 hin1 hr hf
  · intro σ s hσ hsize hclear hout
    exact effects_binary_beyond hσ hsize (clear_binary hm hclear).2 (outside_binary hm hout) comp

theorem compare {ifNot : Jump} (hf : ∀ x y, truthWord (!ifNot.holds (x - y)) = f x y) (k : Nat) :
    Implements (compare ifNot k) [(first, .arithmetic op.name)] where
  legal := legal_compare ifNot k
  forward := by
    intro σ m hσ hp hrom hsize hfits
    obtain ⟨h2, h1⟩ := clear_binary hm hfits.1
    obtain ⟨hin2, hin1⟩ := (inside_binary hm).mp hfits.2.1
    obtain ⟨m', hf', hram, hpc⟩ := forward_compare hσ hrom hsize hp h2 h1 hin2 hin1
    refine ⟨m', hf', ?_, hpc⟩
    rw [hram, run, step_operator, hm, run, ← funext₂ hf]
  trapped := by
    intro σ m hσ hp hrom hsize hstrays
    by_cases hi : Inside first m.ram (.arithmetic op.name)
    · exact (hstrays.2 hi).elim
    · exact trapped_compare hσ hrom hsize hp (clear_binary hm hstrays.1).2 (outside_binary hm hi)

end

end

end Implements

theorem Operator.implements (op : Operator) (first k : Nat) : Implements (op.code k) [(first, .arithmetic op.name)] := by
  cases op with
  | add => exact .binary rfl rfl fun x y => UInt16.add_comm y x
  | sub => exact .binary rfl rfl fun x y => rfl
  | and => exact .binary rfl rfl fun x y => UInt16.and_comm y x
  | or => exact .binary rfl rfl fun x y => UInt16.or_comm y x
  | eq => exact .compare rfl (fun x y => by simp [Jump.holds]) k
  | gt => exact .compare rfl (fun x y => congrArg truthWord (Jump.not_holds_le (x - y))) k
  | lt => exact .compare rfl (fun x y => congrArg truthWord (Jump.not_holds_ge (x - y))) k
  | not => exact .unary rfl [] rfl (by simp) fun σ s => ⟨s.d, rfl, fun y => rfl⟩
  | neg =>
    refine .unary rfl [assign [.d] .zero] rfl ?_ fun σ s => ⟨0, ?_, ?_⟩
    · simp [plain_assign]
    · rw [effects_register σ [] rfl (by decide)]
      simp [effects, assigned, Computation.value]
    · intro y
      exact UInt16.zero_sub y

/-! ## Pushes and pops -/

namespace Generator

section
variable {g : Generator} (hg : g.usesSymbols = false) {index : Nat} {segment : Segment} (hindex : index < segment.size)
variable (hslot : segment = .statics → g.staticFirst + index < Segment.staticSize)
include hg hindex hslot

theorem plain_entry :
    (∀ l ∈ g.loadValue segment index, Plain l) ∧ ∀ l ∈ g.loadAddress segment index, Plain l := by
  have hassign : ∀ (r : Register) (comp : Computation), Plain (assign [r] comp) := fun r => plain_assign (by simp)
  have hconstant : ∀ n : Nat, n < 32768 → Plain (load (.constant n)) := by
    intro n hn
    refine plain_load (Nat.le_of_lt_succ hn) fun σ _ => ?_
    rw [wordUnder, toNat_toUInt16 (by omega)]
    exact Nat.le_of_lt_succ hn
  cases segment with
  | constant => simp [loadValue, loadAddress, hassign, hconstant index hindex]
  | locals =>
    have hb : Plain (load (.symbol (ascii "LCL"))) := plain_symbol 1 (by decide) (by decide) fun _ h => h.lcl
    simp [loadValue, loadAddress, baseSymbol, hassign, hb, hconstant index hindex]
  | arguments =>
    have hb : Plain (load (.symbol (ascii "ARG"))) := plain_symbol 2 (by decide) (by decide) fun _ h => h.arg
    simp [loadValue, loadAddress, baseSymbol, hassign, hb, hconstant index hindex]
  | this =>
    have hb : Plain (load (.symbol (ascii "THIS"))) := plain_symbol 3 (by decide) (by decide) fun _ h => h.this
    simp [loadValue, loadAddress, baseSymbol, hassign, hb, hconstant index hindex]
  | that =>
    have hb : Plain (load (.symbol (ascii "THAT"))) := plain_symbol 4 (by decide) (by decide) fun _ h => h.that
    simp [loadValue, loadAddress, baseSymbol, hassign, hb, hconstant index hindex]
  | temp =>
    have hb : Plain (load (.symbol (ascii "R5"))) := plain_symbol 5 (by decide) (by decide) fun _ h => h.r5
    have hindex : index < 8 := hindex
    simp [loadValue, loadAddress, baseSymbol, hassign, hb, hconstant index (by omega)]
  | pointer =>
    have hb : Plain (load (pointerRegister index)) := by
      have hindex : index < 2 := hindex
      obtain rfl | rfl : index = 0 ∨ index = 1 := by omega
      · exact plain_symbol 3 (by decide) (by decide) fun _ h => h.this
      · exact plain_symbol 4 (by decide) (by decide) fun _ h => h.that
    simp [loadValue, loadAddress, hassign, hb]
  | statics =>
    have hb : Plain (load (g.staticOperand index)) := by
      have hslot : g.staticFirst + index < 240 := hslot rfl
      simp only [staticOperand, hg, Bool.false_eq_true, if_false, Segment.staticBase]
      exact hconstant _ (by omega)
    simp [loadValue, loadAddress, hassign, hb]

theorem implements_push :
    Implements (g.loadValue segment index ++ pushData) [(g.staticFirst, .push segment.name index)] := by
  have hcells : ∀ ram : Memory, Inside g.staticFirst ram (.push segment.name index) ↔
      (ram.read 0).toNat < ram.size ∧
        ∀ a, address? g.staticFirst ram index segment = some a → a.toNat < ram.size := by
    intro ram
    simp [Inside, stackCells, segmentCell?, Segment.ofName?_name]
  refine .of_effects ?_ ?_ ?_
  · exact List.forall_mem_append.mpr ⟨(plain_entry hg hindex hslot).1, plain_fixed (by simp)⟩
  · intro σ s hσ hsize hclear hin
    obtain ⟨htop, hentry⟩ := (hcells s.ram).mp hin
    obtain ⟨a, he⟩ := effects_loadValue hσ hg hindex hsize hentry
    have hpush := effects_pushData (s := ⟨a, value g.staticFirst s.ram index segment, s.ram⟩) hσ hsize
      (hclear _ List.mem_cons_self).1 htop
    rw [effects_append, he, Option.bind_some]
    exact ⟨_, hpush, by simp [step, Segment.ofName?_name]⟩
  · intro σ s hσ hsize hclear hout
    rw [hcells, not_and_or] at hout
    rw [effects_append]
    by_cases hentry : ∀ a, address? g.staticFirst s.ram index segment = some a → a.toNat < s.ram.size
    · obtain ⟨a, he⟩ := effects_loadValue hσ hg hindex hsize hentry
      rw [he, Option.bind_some]
      exact effects_pushData_beyond hσ hsize (Nat.le_of_not_lt (hout.resolve_right (not_not_intro hentry)))
    · push Not at hentry
      obtain ⟨address, ha, hbeyond⟩ := hentry
      rw [effects_loadValue_beyond hσ hg hindex hsize ha hbeyond, Option.bind_none]

theorem implements_pop (hc : segment ≠ .constant) :
    Implements (g.loadAddress segment index ++ popToAddress) [(g.staticFirst, .pop segment.name index)] := by
  have haddress : ∀ ram, ∃ a, address? g.staticFirst ram index segment = some a := by
    intro ram
    cases segment with
    | constant => exact absurd rfl hc
    | _ => exact ⟨_, rfl⟩
  have hcells : ∀ ram a, address? g.staticFirst ram index segment = some a →
      (Inside g.staticFirst ram (.pop segment.name index) ↔
        (ram.read 0 - 1).toNat < ram.size ∧ a.toNat < ram.size) := by
    intro ram a ha
    simp [Inside, stackCells, segmentCell?, Segment.ofName?_name, ha]
  refine .of_effects ?_ ?_ ?_
  · exact List.forall_mem_append.mpr ⟨(plain_entry hg hindex hslot).2, plain_fixed (by simp)⟩
  · intro σ s hσ hsize hclear hin
    obtain ⟨address, ha⟩ := haddress s.ram
    obtain ⟨htop, hentry⟩ := (hcells s.ram address ha).mp hin
    obtain ⟨a, he⟩ := effects_loadAddress hσ hg hindex hsize ha
    obtain ⟨h0, h13⟩ := hclear _ List.mem_cons_self
    obtain ⟨s', hs', hram⟩ := effects_popToAddress (s := ⟨a, address, s.ram⟩) hσ hsize h0 h13 htop hentry
    refine ⟨s', ?_, ?_⟩
    · rw [effects_append, he, Option.bind_some, hs']
    · simp [step, Segment.ofName?_name, ha, hram]
  · intro σ s hσ hsize hclear hout
    obtain ⟨address, ha⟩ := haddress s.ram
    rw [hcells s.ram address ha] at hout
    obtain ⟨a, he⟩ := effects_loadAddress hσ hg hindex hsize ha
    obtain ⟨h0, h13⟩ := hclear _ List.mem_cons_self
    rw [effects_append, he, Option.bind_some]
    exact effects_popToAddress_beyond (s := ⟨a, address, s.ram⟩) hσ hsize h0 h13 (by simp only; omega)

end

end Generator

end HackStack
