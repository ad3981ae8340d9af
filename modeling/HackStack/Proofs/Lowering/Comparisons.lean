import HackStack.Proofs.Lowering.Templates

/-!
# The code of a comparison

A comparison is the only template with jumps. Each of its two jumps goes to a label of the same template, so a
machine that stands at its code goes forward to its end, or traps because an operand does not exist.
-/

namespace HackStack

open Asm Template

/-! ## Words that load -/

theorem straight_assign (σ : Text → UInt16) (dest : List Register) (comp : Computation) :
    (Instruction.compute dest comp none).Straight σ := rfl

theorem straight_load {σ : Text → UInt16} {operand : Operand}
    (h : (wordUnder σ (.load operand)).toNat ≤ maxConstant) : (Instruction.load operand).Straight σ :=
  Machine.computes_eq_false h

/-! ## Jumps -/

namespace Machine

section
variable {m : Machine} {comp : Computation} {j : Jump} (hr : comp.readsMemory = false)
variable (hw : m.rom[m.pc.toNat]? = some (computeWord [] comp (some j)))
include hr hw

theorem trap?_jump : m.trap? = none := trap?_computeWord hw (by simp [hr])

theorem execute_jump :
    m.execute m.word =
      { m with pc := if j.holds (comp.value m.d m.a) then m.a else m.pc + 1, steps := m.steps + 1 } := by
  obtain ⟨-, hword⟩ := halted_of_word hw
  rw [hword, execute_computeWord]
  simp [Computation.outcome, hr]

theorem forward_jump (hj : j.holds (comp.value m.d m.a) = true) (ht : m.pc.toNat < m.a.toNat) :
    ∃ m', Forward m m' ∧ m'.data = m.data ∧ m'.pc = m.a := by
  have he := execute_jump hr hw
  rw [if_pos hj] at he
  refine ⟨_, .single (halted_of_word hw).1 (trap?_jump hr hw) ?_, ?_, ?_⟩
  · rw [he]; exact ht
  · rw [he]; rfl
  · rw [he]

theorem forward_fallthrough (hj : j.holds (comp.value m.d m.a) = false) (hs : m.rom.size ≤ 65535) :
    ∃ m', Forward m m' ∧ m'.data = m.data ∧ m'.pc.toNat = m.pc.toNat + 1 := by
  have he := execute_jump hr hw
  rw [hj] at he
  have hpc := toNat_pc_add_one hw hs
  refine ⟨_, .single (halted_of_word hw).1 (trap?_jump hr hw) ?_, ?_, ?_⟩
  · rw [he]; exact hpc ▸ Nat.lt_succ_self _
  · rw [he]; rfl
  · rw [he]; exact hpc

end

end Machine

namespace Template

/-! ## Plain lines -/

/-- Whether a line can be written and goes on to the next one, under all tables with the predefined symbols. -/
def Plain (l : Line) : Prop := l.Legal ∧ ∀ σ, Standard σ → ∀ i, l = .instruction i → i.Straight σ

theorem plain_assign {dest : List Register} (h : dest.Nodup) (comp : Computation) : Plain (assign dest comp) := by
  refine ⟨h, fun σ _ i hi => ?_⟩
  cases hi
  rfl

theorem plain_load {operand : Operand} (hl : (Instruction.load operand).Legal)
    (hσ : ∀ σ, Standard σ → (wordUnder σ (.load operand)).toNat ≤ maxConstant) : Plain (load operand) := by
  refine ⟨hl, fun σ h i hi => ?_⟩
  cases hi
  exact straight_load (hσ σ h)

theorem plain_symbol {name : Text} (n : UInt16) (hname : isSymbol name = true) (hn : n.toNat ≤ maxConstant)
    (hσ : ∀ σ, Standard σ → σ name = n) : Plain (load (.symbol name)) :=
  plain_load hname fun σ h => by rw [wordUnder, hσ σ h]; exact hn

theorem plain_stackPointer : Plain stackPointer := plain_symbol 0 (by decide) (by decide) fun _ h => h.sp

theorem plain_scratch : Plain scratch := plain_symbol 13 (by decide) (by decide) fun _ h => h.r13

theorem plain_fixed {ls : List Line} (h : ls ∈ [popOperands, pointToTop, pushData, popToAddress]) :
    ∀ l ∈ ls, Plain l := by
  simp only [List.mem_cons, List.not_mem_nil, or_false] at h
  rcases h with rfl | rfl | rfl | rfl <;>
    simp [popOperands, pointToTop, pushData, popToAddress, plain_stackPointer, plain_scratch, plain_assign]

section
variable {ls : List Line} (h : ∀ l ∈ ls, Plain l)
include h

theorem legal_of_plain : ∀ l ∈ ls, l.Legal := fun l hl => (h l hl).1

theorem straight_of_plain {σ : Text → UInt16} (hσ : Standard σ) : ∀ i ∈ instructions ls, i.Straight σ :=
  fun i hi => (h _ (mem_instructions hi)).2 σ hσ i rfl

end

theorem straight_append {σ : Text → UInt16} {xs ys : List Line} (hx : ∀ i ∈ instructions xs, i.Straight σ)
    (hy : ∀ i ∈ instructions ys, i.Straight σ) : ∀ i ∈ instructions (xs ++ ys), i.Straight σ := by
  rw [instructions_append]
  exact List.forall_mem_append.mpr ⟨hx, hy⟩

/-! ## Comparisons -/

theorem isSymbol_falseLabel (k : Nat) : isSymbol (falseLabel k) = true := isSymbol_numbered (by decide) k

theorem isSymbol_continueLabel (k : Nat) : isSymbol (continueLabel k) = true := isSymbol_numbered (by decide) k

theorem legal_compare (ifNot : Jump) (k : Nat) : ∀ l ∈ compare ifNot k, l.Legal := by
  have hpop : ∀ l ∈ popOperands, l.Legal := legal_of_plain (plain_fixed (by simp))
  have htop : ∀ l ∈ pointToTop, l.Legal := legal_of_plain (plain_fixed (by simp))
  unfold compare
  simp only [List.forall_mem_append]
  refine ⟨⟨⟨⟨⟨hpop, ?_⟩, htop⟩, ?_⟩, htop⟩, ?_⟩ <;>
    simp [assign, load, jump, Line.Legal, Instruction.Legal, isSymbol_falseLabel, isSymbol_continueLabel]

def compareTail (ifNot : Jump) (k : Nat) : List Line :=
  jump .d ifNot ::
    ((pointToTop ++ [assign [.m] .minusOne, load (.symbol (continueLabel k))]) ++ jump .zero .always ::
      .label (falseLabel k) :: ((pointToTop ++ [assign [.m] .zero]) ++ [.label (continueLabel k)]))

theorem compare_eq (ifNot : Jump) (k : Nat) :
    compare ifNot k =
      (popOperands ++ [assign [.d] (.yMinusD .m), load (.symbol (falseLabel k))]) ++ compareTail ifNot k := by
  simp [compare, compareTail]

section
variable {σ : Text → UInt16} (hσ : Standard σ) {s : Data} (hsize : 16 ≤ s.ram.size)
include hσ hsize

theorem effects_difference (name : Text) (h2 : s.ram.read 0 - 2 ≠ 0) (h1 : s.ram.read 0 - 1 ≠ 0)
    (hin2 : (s.ram.read 0 - 2).toNat < s.ram.size) (hin1 : (s.ram.read 0 - 1).toNat < s.ram.size) :
    effects σ (popOperands ++ [assign [.d] (.yMinusD .m), load (.symbol name)]) s =
      some ⟨σ name, s.ram.read (s.ram.read 0 - 2) - s.ram.read (s.ram.read 0 - 1),
        s.ram.write 0 (s.ram.read 0 - 1)⟩ := by
  rw [effects_append, effects_popOperands hσ hsize h1 hin1, Option.bind_some, effects_assign, effects_load]
  · simp [effects, assigned, Computation.value, Computation.readsMemory, wordUnder, Memory.read_write_ne h2.symm]
  · simpa using hin2

theorem effects_difference_beyond (name : Text) (h1 : s.ram.read 0 - 1 ≠ 0)
    (hout : s.ram.size ≤ (s.ram.read 0 - 2).toNat ∨ s.ram.size ≤ (s.ram.read 0 - 1).toNat) :
    effects σ (popOperands ++ [assign [.d] (.yMinusD .m), load (.symbol name)]) s = none := by
  rw [effects_append]
  by_cases hin : (s.ram.read 0 - 1).toNat < s.ram.size
  · rw [effects_popOperands hσ hsize h1 hin, Option.bind_some, effects_beyond σ _ (.inl rfl)]
    simpa using hout.resolve_right (by omega)
  · rw [effects_popOperands_beyond hσ hsize (by omega), Option.bind_none]

theorem effects_answer {comp : Computation} {v : UInt16} (hv : ∀ x y, comp.value x y = v)
    (hin : (s.ram.read 0 - 1).toNat < s.ram.size) (ls : List Line) :
    effects σ (pointToTop ++ assign [.m] comp :: ls) s =
      effects σ ls ⟨s.ram.read 0 - 1, s.d, s.ram.write (s.ram.read 0 - 1) v⟩ := by
  rw [effects_append, effects_pointToTop hσ hsize, Option.bind_some, effects_assign]
  · simp [assigned, hv]
  · simpa using hin

end

section
variable {σ : Text → UInt16} (hσ : Standard σ) {m : Machine} {ifNot : Jump} {k : Nat}
include hσ

theorem straight_compareHead (hp : Placed m.rom σ m.pc.toNat (compare ifNot k)) :
    ∀ i ∈ instructions (popOperands ++ [assign [.d] (.yMinusD .m), load (.symbol (falseLabel k))]), i.Straight σ := by
  rw [compare_eq, compareTail, placed_append] at hp
  obtain ⟨-, -, hp⟩ := hp
  rw [placed_append] at hp
  obtain ⟨-, -, ⟨hfalse, hmax⟩, -⟩ := hp
  refine straight_append (straight_of_plain (plain_fixed (by simp)) hσ) ?_
  simpa [instructions, assign, load, straight_assign] using straight_load (hfalse ▸ hmax)

variable (hs : m.rom.size ≤ 65535) (hsize : 16 ≤ m.ram.size)
include hs hsize

/-- Both ways from the first jump of a comparison lead to its end, since both labels stand in it. -/
theorem forward_compareTail (hp : Placed m.rom σ m.pc.toNat (compareTail ifNot k)) (ha : m.a = σ (falseLabel k))
    (hin : (m.data.ram.read 0 - 1).toNat < m.ram.size) :
    ∃ m', Machine.Forward m m' ∧
      m'.ram = m.data.ram.write (m.data.ram.read 0 - 1) (truthWord (!ifNot.holds m.d)) ∧
      m'.pc.toNat = m.pc.toNat + (instructions (compareTail ifNot k)).length := by
  obtain ⟨hjump, hp⟩ := hp
  rw [placed_append] at hp
  obtain ⟨hyes, hskip, ⟨hfalse, -⟩, hp⟩ := hp
  rw [placed_append] at hp
  obtain ⟨hno, ⟨hcontinue, hmax⟩, -⟩ := hp
  have hstraight : ∀ i ∈ instructions pointToTop, i.Straight σ := straight_of_plain (plain_fixed (by simp)) hσ
  by_cases hj : ifNot.holds m.d = true
  · obtain ⟨m₁, hf₁, hd₁, hpc₁⟩ := Machine.forward_jump rfl hjump hj (by rw [ha, hfalse]; omega)
    rw [← hfalse, ← ha, ← hpc₁, ← hf₁.rom] at hno
    obtain ⟨m₂, hf₂, hd₂, hpc₂⟩ := Machine.forward_straight hno (hf₁.rom ▸ hs)
      (straight_append hstraight (by simp [instructions, assign, straight_assign]))
      (hd₁ ▸ effects_answer hσ hsize (fun _ _ => rfl) hin [])
    refine ⟨m₂, hf₁.trans hf₂, ?_, ?_⟩
    · rw [hj, ← hd₁]
      exact congrArg Data.ram hd₂
    · rw [hpc₂, hpc₁, ha, hfalse]
      rfl
  · rw [Bool.not_eq_true] at hj
    obtain ⟨m₁, hf₁, hd₁, hpc₁⟩ := Machine.forward_fallthrough rfl hjump hj hs
    rw [← hpc₁, ← hf₁.rom] at hyes hskip
    obtain ⟨m₂, hf₂, hd₂, hpc₂⟩ := Machine.forward_straight hyes (hf₁.rom ▸ hs)
      (straight_append hstraight (by
        simpa [instructions, assign, load, straight_assign] using straight_load (hcontinue ▸ hmax)))
      (hd₁ ▸ effects_answer hσ hsize (fun _ _ => rfl) hin [load (.symbol (continueLabel k))])
    rw [← hpc₂, ← hf₂.rom] at hskip
    have ha₂ : m₂.a = σ (continueLabel k) := congrArg Data.a hd₂
    obtain ⟨m₃, hf₃, hd₃, hpc₃⟩ := Machine.forward_jump rfl hskip rfl (by
      rw [ha₂, hcontinue, hpc₂, hpc₁]
      simp [instructions, pointToTop, stackPointer, assign, load])
    refine ⟨m₃, hf₁.trans (hf₂.trans hf₃), ?_, ?_⟩
    · rw [hj, ← hd₁]
      exact congrArg Data.ram (hd₃.trans hd₂)
    · rw [hpc₃, ha₂, hcontinue]
      rfl

section
variable (hp : Placed m.rom σ m.pc.toNat (compare ifNot k))
include hp

theorem forward_compare (h2 : m.data.ram.read 0 - 2 ≠ 0) (h1 : m.data.ram.read 0 - 1 ≠ 0)
    (hin2 : (m.data.ram.read 0 - 2).toNat < m.ram.size) (hin1 : (m.data.ram.read 0 - 1).toNat < m.ram.size) :
    ∃ m', Machine.Forward m m' ∧
      m'.ram = Reference.operate m.ram (.binary fun x y => truthWord (!ifNot.holds (x - y))) ∧
      m'.pc.toNat = m.pc.toNat + (instructions (compare ifNot k)).length := by
  have hstraight := straight_compareHead hσ hp
  rw [compare_eq, placed_append] at hp
  obtain ⟨hhead, htail⟩ := hp
  obtain ⟨m₁, hf₁, hd₁, hpc₁⟩ := Machine.forward_straight hhead hs hstraight
    (effects_difference hσ hsize (falseLabel k) h2 h1 hin2 hin1)
  have hsp : m₁.data.ram.read 0 - 1 = m.data.ram.read 0 - 2 := by
    have hzero : (0 : UInt16).toNat < m.data.ram.size := register_inside hsize (by decide)
    rw [hd₁]
    simp only [Memory.read_write_self hzero]
    grind
  have hsize₁ : m₁.ram.size = m.ram.size := by
    rw [show m₁.ram = _ from congrArg Data.ram hd₁, Memory.size_write]
    rfl
  rw [← hpc₁, ← hf₁.rom] at htail
  obtain ⟨m₂, hf₂, hram₂, hpc₂⟩ := forward_compareTail hσ (hf₁.rom ▸ hs) (hsize₁ ▸ hsize) htail
    (congrArg Data.a hd₁) (by rw [hsp, hsize₁]; exact hin2)
  refine ⟨m₂, hf₁.trans hf₂, ?_, ?_⟩
  · rw [hram₂, hsp, show m₁.d = _ from congrArg Data.d hd₁, hd₁, Memory.write_comm h2.symm]
    rfl
  · rw [hpc₂, hpc₁, compare_eq, instructions_append (popOperands ++ _), List.length_append]
    omega

theorem trapped_compare (h1 : m.data.ram.read 0 - 1 ≠ 0)
    (hout : m.ram.size ≤ (m.data.ram.read 0 - 2).toNat ∨ m.ram.size ≤ (m.data.ram.read 0 - 1).toNat) :
    ∃ m' t, Machine.Forward m m' ∧ m'.halted = false ∧ m'.trap? = some t := by
  have hstraight := straight_compareHead hσ hp
  rw [compare_eq, placed_append] at hp
  exact Machine.trapped_straight hp.1 hs hstraight (effects_difference_beyond hσ hsize (falseLabel k) h1 hout)

end

end

end Template

end HackStack
