import HackStack.Proofs.Lowering.StaticSymbols
import Mathlib.Data.List.Perm.Subperm

/-!
# Two machines in step

Two machines hold mirrored code, one with slots and one with symbols for static cells. As long as no instruction
reaches a reserved cell through a pointer, a step of both keeps the program counters equal and the data tied: the two
always stand at the same line, and what a jump tests is the same in both.
-/

namespace HackStack

open Asm Template

def twins (S : Nat → Text → Prop) (σ' : Text → UInt16) (v v' : UInt16) : Prop :=
  ∃ n name, S n name ∧ v = n.toUInt16 ∧ v' = σ' name

/-- Whether the symbols of two programs fit together: registers and labels have the same address in both, and the
static variables are in static cells of their own. -/
structure Linked (L : Text → Prop) (S : Nat → Text → Prop) (σ σ' : Text → UInt16) : Prop where
  registers : ∀ name w, initialTable[name]? = some w → σ name = w ∧ σ' name = w
  labels : ∀ name, L name → σ name = σ' name ∧ (σ name).toNat ≤ maxConstant
  slots : ∀ n name, S n name → 16 ≤ n ∧ n ≤ 255
  symbols : ∀ n name, S n name → 16 ≤ (σ' name).toNat ∧ (σ' name).toNat ≤ 255
  unique : ∀ n name n' name', S n name → S n' name' → (n = n' ↔ σ' name = σ' name')

section
variable {L : Text → Prop} {S : Nat → Text → Prop} {σ σ' : Text → UInt16} (hlink : Linked L S σ σ')
include hlink

theorem Linked.toNat_slot {n : Nat} {name : Text} (h : S n name) : n.toUInt16.toNat = n := by
  have := hlink.slots n name h
  exact toNat_toUInt16 (by omega)

theorem Linked.static : Static (twins S σ') where
  left := by
    rintro v v' ⟨n, name, hs, rfl, rfl⟩
    rw [hlink.toNat_slot hs]
    exact hlink.slots n name hs
  right := by
    rintro v v' ⟨n, name, hs, rfl, rfl⟩
    exact hlink.symbols n name hs
  unique := by
    rintro v v' w w' ⟨n, name, hs, rfl, rfl⟩ ⟨n', name', hs', rfl, rfl⟩
    rw [← hlink.unique n name n' name' hs hs', ← UInt16.toNat_inj, hlink.toNat_slot hs, hlink.toNat_slot hs']

end

/-- Whether the next instruction, if it reaches a memory word through the stack pointer or the pointer of a segment,
reaches none that is reserved. -/
def Machine.Keeps (purposes : List Purpose) (m : Machine) : Prop :=
  purposes[m.pc.toNat]?.any Purpose.pointed = true → ¬ Reserved m.a.toNat

instance (purposes : List Purpose) (m : Machine) : Decidable (m.Keeps purposes) :=
  inferInstanceAs (Decidable (purposes[m.pc.toNat]?.any Purpose.pointed = true → ¬ Reserved m.a.toNat))

/-! ## Mirrored programs -/

/-- Two programs in the memory of their machines: their words, addresses of symbols, and the purposes of the
instructions. -/
structure Programs where
  rom : Array UInt16
  rom' : Array UInt16
  σ : Text → UInt16
  σ' : Text → UInt16
  purposes : List Purpose

namespace Programs

section
variable (P : Programs) (L : Text → Prop) (S : Nat → Text → Prop)

/-- Whether mirrored code stands in both programs from an address on, up to their end. -/
def StandsAt (pc : Nat) (τ : Ties) : Prop :=
  ∃ ls ls', Placed P.rom P.σ pc ls ∧ Placed P.rom' P.σ' pc ls' ∧ Mirrors L S τ ls ls' (P.purposes.drop pc) ∧
    pc + (instructions ls).length = P.rom.size

/-- Whether two programs are mirrored as a whole: from their start on, and from every label on. -/
structure Mirrored : Prop where
  linked : Linked L S P.σ P.σ'
  size : P.rom.size = P.rom'.size
  start : P.StandsAt L S 0 {}
  label : ∀ name, L name → P.StandsAt L S (P.σ name).toNat {}

/-- Whether two machines are at the same place of the two programs, with tied data. -/
structure InStep (m m' : Machine) : Prop where
  rom : m.rom = P.rom
  rom' : m'.rom = P.rom'
  pc : m.pc = m'.pc
  data : ∃ τ : Ties, P.StandsAt L S m.pc.toNat τ ∧ τ.Holds P.σ (twins S P.σ') m.data m'.data

end

section
variable {P : Programs} {L : Text → Prop} {S : Nat → Text → Prop}

theorem standsAt_next {pc : Nat} {p : Purpose} {ps : List Purpose} {τ : Ties} {i : Instruction} {ls ls' : List Line}
    (hps : P.purposes.drop pc = p :: ps) (hm : Mirrors L S τ ls ls' ps) (hplaced : Placed P.rom P.σ (pc + 1) ls)
    (hplaced' : Placed P.rom' P.σ' (pc + 1) ls')
    (hend : pc + (instructions (.instruction i :: ls)).length = P.rom.size) : P.StandsAt L S (pc + 1) τ := by
  refine ⟨ls, ls', hplaced, hplaced', ?_, ?_⟩
  · rw [← List.drop_drop, hps]
    exact hm
  · rw [instructions, List.length_cons] at hend
    omega

variable (hP : P.Mirrored L S)
include hP

/-! ## One step -/

section
variable {m m' : Machine} (h : P.InStep L S m m')
include h

theorem inStep_of_halted (hh : m.halted = true) : P.InStep L S m.step.1 m'.step.1 := by
  have hh' : m'.halted = true := by
    simp only [Machine.halted, decide_eq_true_eq, h.rom, h.rom', ← h.pc] at hh ⊢
    rw [← hP.size]
    exact hh
  rw [Machine.step_halted hh, Machine.step_halted hh']
  exact h

theorem inStep_next {τ : Ties} {s s' : Data} (hs : P.StandsAt L S (m.pc.toNat + 1) τ)
    (hd : τ.Holds P.σ (twins S P.σ') s s') : P.InStep L S (m.next s) (m'.next s') := by
  refine ⟨h.rom, h.rom', ?_, ?_⟩
  · show m.pc + 1 = m'.pc + 1
    rw [h.pc]
  · have hpc : (m.next s).pc.toNat = (m.pc.toNat + 1) % 65536 := UInt16.toNat_add _ _
    rw [hpc]
    by_cases hend : m.pc.toNat + 1 < 65536
    · rw [Nat.mod_eq_of_lt hend]
      exact ⟨τ, hs, hd⟩
    · have hlt := m.pc.toNat_lt
      have hzero : (m.pc.toNat + 1) % 65536 = 0 := by omega
      rw [hzero]
      exact ⟨{}, hP.start, ⟨trivial, trivial, trivial, hd.alike⟩⟩

theorem inStep_straight {i i' : Instruction} {τ : Ties} {s s' : Data}
    (hw : m.rom[m.pc.toNat]? = some (wordUnder P.σ i)) (hw' : m'.rom[m'.pc.toNat]? = some (wordUnder P.σ' i'))
    (hi : i.Straight P.σ) (hi' : i'.Straight P.σ') (he : i.effect P.σ m.data = some s)
    (he' : i'.effect P.σ' m'.data = some s') (hs : P.StandsAt L S (m.pc.toNat + 1) τ)
    (hd : τ.Holds P.σ (twins S P.σ') s s') : P.InStep L S m.step.1 m'.step.1 := by
  obtain ⟨ht, hex⟩ := Machine.step_some hw hi he
  obtain ⟨ht', hex'⟩ := Machine.step_some hw' hi' he'
  rw [Machine.step_eq_execute (Machine.halted_of_word hw).1 ht, Machine.step_eq_execute (Machine.halted_of_word hw').1 ht',
    hex, hex']
  exact inStep_next hP h hs hd

theorem inStep_load {operand operand' : Operand} {τ : Ties} {x : Tie}
    (hw : m.rom[m.pc.toNat]? = some (wordUnder P.σ (.load operand)))
    (hw' : m'.rom[m'.pc.toNat]? = some (wordUnder P.σ' (.load operand')))
    (hle : (wordUnder P.σ (.load operand)).toNat ≤ maxConstant)
    (hle' : (wordUnder P.σ' (.load operand')).toNat ≤ maxConstant)
    (hx : x.Holds P.σ (twins S P.σ') (wordUnder P.σ (.load operand)) (wordUnder P.σ' (.load operand')))
    (hs : P.StandsAt L S (m.pc.toNat + 1) { τ with a := x })
    (hd : τ.Holds P.σ (twins S P.σ') m.data m'.data) : P.InStep L S m.step.1 m'.step.1 :=
  inStep_straight hP h hw hw' (straight_load hle) (straight_load hle') rfl rfl hs ⟨hx, hd.d, hd.scratch, hd.alike⟩

theorem inStep_assign {dest : List Register} {comp : Computation}
    {pointed : Bool} {τ τ' : Ties} (hw : m.rom[m.pc.toNat]? = some (computeWord dest comp none))
    (hw' : m'.rom[m'.pc.toNat]? = some (computeWord dest comp none)) (hp : pointed = true → ¬ Reserved m.a.toNat)
    (ha : τ.assign pointed dest comp = some τ') (hs : P.StandsAt L S (m.pc.toNat + 1) τ')
    (hd : τ.Holds P.σ (twins S P.σ') m.data m'.data) : P.InStep L S m.step.1 m'.step.1 := by
  have hword : m.rom[m.pc.toNat]? = some (wordUnder P.σ (.compute dest comp none)) := hw
  have hword' : m'.rom[m'.pc.toNat]? = some (wordUnder P.σ' (.compute dest comp none)) := hw'
  rcases Ties.assign_sound hP.linked.static hd hp ha with ⟨he, he'⟩ | ⟨t, t', he, he', ht⟩
  · obtain ⟨_, htrap⟩ := Machine.step_none hword he
    obtain ⟨_, htrap'⟩ := Machine.step_none hword' he'
    rw [Machine.step_trapped htrap, Machine.step_trapped htrap']
    exact h
  · exact inStep_straight hP h hword hword' rfl rfl he he' hs ht

theorem inStep_jump {comp : Computation} {j : Jump} {τ : Ties} {name : Text}
    (hw : m.rom[m.pc.toNat]? = some (computeWord [] comp (some j)))
    (hw' : m'.rom[m'.pc.toNat]? = some (computeWord [] comp (some j))) (hr : comp.readsMemory = false)
    (hshared : (comp.tie τ.d τ.a).isShared = true) (ha : τ.a = .target name) (hname : L name)
    (hs : P.StandsAt L S (m.pc.toNat + 1) τ) (hd : τ.Holds P.σ (twins S P.σ') m.data m'.data) :
    P.InStep L S m.step.1 m'.step.1 := by
  have hvalue : comp.value m.d m.a = comp.value m'.d m'.a := (comp.tie_holds hd.d hd.a).shared hshared
  have hm : m.a = P.σ name ∧ m'.a = P.σ name := by
    have := hd.a
    rw [ha] at this
    exact this
  rw [Machine.step_eq_execute (Machine.halted_of_word hw).1 (Machine.trap?_jump hr hw),
    Machine.step_eq_execute (Machine.halted_of_word hw').1 (Machine.trap?_jump hr hw'),
    Machine.execute_jump hr hw, Machine.execute_jump hr hw', ← hvalue]
  by_cases hj : j.holds (comp.value m.d m.a) = true
  · simp only [hj, if_true]
    refine ⟨h.rom, h.rom', hm.1.trans hm.2.symm, {}, ?_, trivial, trivial, trivial, hd.alike⟩
    show P.StandsAt L S m.a.toNat {}
    rw [hm.1]
    exact hP.label name hname
  · simp only [hj]
    exact inStep_next hP h hs hd

theorem inStep_mirrors {τ : Ties} {ls ls' : List Line} {ps : List Purpose} (hkeeps : m.Keeps P.purposes)
    (hm : Mirrors L S τ ls ls' ps) (hplaced : Placed P.rom P.σ m.pc.toNat ls)
    (hplaced' : Placed P.rom' P.σ' m.pc.toNat ls') (hps : P.purposes.drop m.pc.toNat = ps)
    (hend : m.pc.toNat + (instructions ls).length = P.rom.size) (hd : τ.Holds P.σ (twins S P.σ') m.data m'.data) :
    P.InStep L S m.step.1 m'.step.1 := by
  have hword : ∀ w, P.rom[m.pc.toNat]? = some w → m.rom[m.pc.toNat]? = some w := by
    rw [h.rom]
    exact fun _ => id
  have hword' : ∀ w, P.rom'[m.pc.toNat]? = some w → m'.rom[m'.pc.toNat]? = some w := by
    rw [h.rom', ← h.pc]
    exact fun _ => id
  induction hm with
  | nil τ =>
    refine inStep_of_halted hP h ?_
    simp only [instructions, List.length_nil, Nat.add_zero] at hend
    simp [Machine.halted, h.rom, hend]
  | forget _ ih => exact ih hplaced hplaced' hps hend ⟨trivial, trivial, trivial, hd.alike⟩
  | remark text _ ih => exact ih hplaced hplaced' hps hend hd
  | label _ _ ih => exact ih hplaced.2 hplaced'.2 hps hend ⟨trivial, trivial, trivial, hd.alike⟩
  | @register τ ls ls' ps name w hw hle hm _ =>
    have hs := standsAt_next hps hm hplaced.2 hplaced'.2 hend
    obtain ⟨hσ, hσ'⟩ := hP.linked.registers name w hw
    exact inStep_load hP h (x := .word w) (hword _ hplaced.1) (hword' _ hplaced'.1) (by rwa [wordUnder, hσ])
      (by rwa [wordUnder, hσ']) ⟨hσ, hσ'⟩ hs hd
  | @constant τ ls ls' ps n hle hm _ =>
    have hs := standsAt_next hps hm hplaced.2 hplaced'.2 hend
    have hn : n.toUInt16.toNat ≤ maxConstant := by rwa [toNat_toUInt16 (Nat.lt_of_le_of_lt hle (by decide))]
    exact inStep_load hP h (x := .word n.toUInt16) (hword _ hplaced.1) (hword' _ hplaced'.1) hn hn ⟨rfl, rfl⟩ hs hd
  | @target τ ls ls' ps name hname hm _ =>
    have hs := standsAt_next hps hm hplaced.2 hplaced'.2 hend
    obtain ⟨hσ, hle⟩ := hP.linked.labels name hname
    exact inStep_load hP h (x := .target name) (hword _ hplaced.1) (hword' _ hplaced'.1) hle
      (by rwa [wordUnder, ← hσ]) ⟨rfl, hσ.symm⟩ hs hd
  | @static τ ls ls' ps n name hstatic hm _ =>
    have hs := standsAt_next hps hm hplaced.2 hplaced'.2 hend
    have hslot := hP.linked.slots n name hstatic
    have hsymbol := hP.linked.symbols n name hstatic
    have hn : n.toUInt16.toNat ≤ maxConstant := by
      rw [hP.linked.toNat_slot hstatic]
      exact Nat.le_trans hslot.2 (by decide)
    exact inStep_load hP h (x := .twin) (hword _ hplaced.1) (hword' _ hplaced'.1) hn
      (Nat.le_trans hsymbol.2 (by decide)) ⟨n, name, hstatic, rfl, rfl⟩ hs hd
  | @assign τ τ' ls ls' ps p dest comp ha hm _ =>
    have hs := standsAt_next hps hm hplaced.2 hplaced'.2 hend
    have hp : P.purposes[m.pc.toNat]? = some p := by rw [← Nat.add_zero m.pc.toNat, ← List.getElem?_drop, hps]; rfl
    have hreach : p.pointed = true → ¬ Reserved m.a.toNat := fun hpointed => hkeeps (by rw [hp]; exact hpointed)
    exact inStep_assign hP h (hword _ hplaced.1) (hword' _ hplaced'.1) hreach ha hs hd
  | jump hr hshared ha hname hm _ =>
    have hs := standsAt_next hps hm hplaced.2 hplaced'.2 hend
    exact inStep_jump hP h (hword _ hplaced.1) (hword' _ hplaced'.1) hr hshared ha hname hs hd

theorem inStep_step (hkeeps : m.Keeps P.purposes) :
    P.InStep L S m.step.1 m'.step.1 := by
  obtain ⟨τ, ⟨ls, ls', hplaced, hplaced', hm, hend⟩, hd⟩ := h.data
  exact inStep_mirrors hP h hkeeps hm hplaced hplaced' rfl hend hd

end

/-! ## Runs -/

theorem inStep_after : ∀ {n : Nat} {m m' : Machine}, P.InStep L S m m' → (∀ k < n, (m.after k).Keeps P.purposes) →
    P.InStep L S (m.after n) (m'.after n)
  | 0, _, _, h, _ => h
  | n + 1, m, m', h, hkeeps =>
    @inStep_after n m.step.1 m'.step.1 (inStep_step hP h (hkeeps 0 (Nat.succ_pos n))) fun k hk =>
      hkeeps (k + 1) (Nat.succ_lt_succ hk)

end

/-! ## Assembled programs -/

section
variable {P : Programs} {L : Text → Prop} {S : Nat → Text → Prop}

/-- A label has the same address in both programs, and mirrored code stands behind it. -/
theorem standsAt_label {τ : Ties} {ls ls' : List Line} {ps : List Purpose} {pc : Nat} {name : Text}
    (h : Mirrors L S τ ls ls' ps) (hplaced : Placed P.rom P.σ pc ls) (hplaced' : Placed P.rom' P.σ' pc ls')
    (hps : P.purposes.drop pc = ps) (hend : pc + (instructions ls).length = P.rom.size) (hname : .label name ∈ ls') :
    P.σ name = P.σ' name ∧ (P.σ name).toNat ≤ maxConstant ∧ P.StandsAt L S (P.σ name).toNat {} := by
  have hnext : ∀ {pc : Nat} {p : Purpose} {ps : List Purpose} {i : Instruction} {ls : List Line},
      P.purposes.drop pc = p :: ps → pc + (instructions (.instruction i :: ls)).length = P.rom.size →
      P.purposes.drop (pc + 1) = ps ∧ pc + 1 + (instructions ls).length = P.rom.size := by
    intro pc p ps i ls hps hend
    rw [instructions, List.length_cons] at hend
    rw [← List.drop_drop, hps]
    exact ⟨rfl, by omega⟩
  induction h generalizing pc with
  | nil => cases hname
  | forget _ ih => exact ih hplaced hplaced' hps hend hname
  | remark _ _ ih => exact ih hplaced hplaced' hps hend (by simpa using hname)
  | @label τ ls ls' ps other hdot hm ih =>
    rw [List.mem_cons, Line.label.injEq] at hname
    rcases hname with rfl | hname
    · obtain ⟨⟨haddress, hle⟩, hplaced⟩ := hplaced
      obtain ⟨⟨haddress', -⟩, hplaced'⟩ := hplaced'
      refine ⟨UInt16.toNat_inj.mp (haddress.trans haddress'.symm), haddress.symm ▸ hle, ?_⟩
      rw [haddress]
      exact ⟨ls, ls', hplaced, hplaced', hps.symm ▸ hm, hend⟩
    · exact ih hplaced.2 hplaced'.2 hps hend hname
  | register _ _ _ _ ih | constant _ _ ih | target _ _ ih | static _ _ ih | assign _ _ ih | jump _ _ _ _ _ ih =>
    obtain ⟨hps, hend⟩ := hnext hps hend
    rw [List.mem_cons] at hname
    exact ih hplaced.2 hplaced'.2 hps hend (hname.resolve_left (by simp [load, Template.assign, Template.jump]))

end

end Programs

/-- Whether every static variable has a slot and a symbol of its own. -/
structure Separate (S : Nat → Text → Prop) : Prop where
  symbol : ∀ n name, S n name → isSymbol name = true ∧ 46 ∈ name
  slot : ∀ n name, S n name → 16 ≤ n ∧ n ≤ 255
  unique : ∀ n name n' name', S n name → S n' name' → (n = n' ↔ name = name')

section
variable {S : Nat → Text → Prop} (hS : Separate S)
include hS

theorem Separate.length_le {vs : List Text} (hnodup : vs.Nodup) (hvs : ∀ name ∈ vs, ∃ n, S n name) :
    vs.length ≤ 240 := by
  choose! slot hslot using hvs
  have hslots : (vs.map slot).Nodup := by
    refine hnodup.map_on fun name hm name' hm' heq => ?_
    exact (hS.unique _ _ _ _ (hslot name hm) (hslot name' hm')).mp heq
  have hrange : vs.map slot ⊆ List.range' 16 240 := by
    intro n hn
    obtain ⟨name, hm, rfl⟩ := List.mem_map.mp hn
    have := hS.slot _ _ (hslot name hm)
    rw [List.mem_range'_1]
    omega
  have hlength := (List.subperm_of_subset hslots hrange).length_le
  rwa [List.length_map, List.length_range'] at hlength

variable {ls ls' : List Line} {ps : List Purpose} (h : Mirrors (fun name => .label name ∈ ls') S {} ls ls' ps)
variable {p p' : Program} (hl : ∀ l ∈ ls, l.Legal)
include h hl

theorem Mirrors.linked (hp : assemble (render ls) = .ok p) (hp' : assemble (render ls') = .ok p')
    (hlabels : ∀ name, .label name ∈ ls' →
      p.symbols.address name = p'.symbols.address name ∧ (p.symbols.address name).toNat ≤ maxConstant) :
    Linked (fun name => .label name ∈ ls') (fun n name => S n name ∧ load (.symbol name) ∈ ls') p.symbols.address
      p'.symbols.address := by
  have hl' := h.legal (fun n name hs => (hS.symbol n name hs).1) hl
  have htable := (assemble_render hl hp).2.2
  have htable' := (assemble_render hl' hp').2.2
  obtain ⟨bound, next, vs, hvs, hmem⟩ :=
    h.allocated (fun _ => id) (fun n name hs => (hS.symbol n name hs).2) hl' hp'
  have hcount : vs.length ≤ 240 := hS.length_le hvs.nodup fun name hm => ((hmem name).mp hm).1
  have hmem' : ∀ n name, S n name ∧ load (.symbol name) ∈ ls' → name ∈ vs :=
    fun n name hs => (hmem name).mpr ⟨⟨n, hs.1⟩, hs.2⟩
  refine ⟨?_, hlabels, fun n name hs => hS.slot n name hs.1, ?_, ?_⟩
  · intro name w hw
    unfold SymbolTable.address
    rw [htable name w hw, htable' name w hw]
    exact ⟨rfl, rfl⟩
  · intro n name hs
    have hindex := List.idxOf_lt_length_of_mem (hmem' n name hs)
    rw [toNat_variable hvs (by omega) (hmem' n name hs)]
    omega
  · intro n name n' name' hs hs'
    rw [hS.unique n name n' name' hs.1 hs'.1, variable_injective hvs (by omega) (hmem' n name hs) (hmem' n' name' hs')]

theorem Mirrors.mirrored (hp : assemble (render ls) = .ok p) (hp' : assemble (render ls') = .ok p') :
    (Programs.mk p.words p'.words p.symbols.address p'.symbols.address ps).Mirrored (fun name => .label name ∈ ls')
      fun n name => S n name ∧ load (.symbol name) ∈ ls' := by
  have hl' := h.legal (fun n name hs => (hS.symbol n name hs).1) hl
  obtain ⟨hplaced, hsize, -⟩ := assemble_render hl hp
  obtain ⟨hplaced', hsize', -⟩ := assemble_render hl' hp'
  have hloaded : Mirrors (fun name => .label name ∈ ls') (fun n name => S n name ∧ load (.symbol name) ∈ ls') {}
      ls ls' ps := h.mono (fun _ => id) fun l hm n name hload hs => ⟨hs, hload ▸ hm⟩
  have hend : 0 + (instructions ls).length = p.words.size := by rw [hsize, Nat.zero_add]
  have hlabel := fun name (hname : .label name ∈ ls') => Programs.standsAt_label
    (P := ⟨p.words, p'.words, p.symbols.address, p'.symbols.address, ps⟩) hloaded hplaced hplaced' rfl hend hname
  refine ⟨h.linked hS hl hp hp' fun name hm => ⟨(hlabel name hm).1, (hlabel name hm).2.1⟩, ?_,
    ⟨ls, ls', hplaced, hplaced', hloaded, hend⟩, fun name hm => (hlabel name hm).2.2⟩
  show p.words.size = p'.words.size
  rw [hsize, hsize', h.instructions_length]

end

end HackStack
