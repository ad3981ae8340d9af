import HackStack.Proofs.Lowering.Requests
import HackStack.Proofs.Machine.Ends

/-!
# Code that only goes on

Generated code has no jumps but those of a comparison, which go to labels further down in it. So a machine that stands
at such code goes forward to its end or into a trap, whatever is in the memory. This is kept by appending, as long as
what the code loads is no computing word.
-/

namespace HackStack

open Asm Template

/-! ## Lines -/

/-- Whether all that lines load is executed as a load. -/
def LoadsSmall (σ : Text → UInt16) (ls : List Line) : Prop :=
  ∀ operand, load operand ∈ ls → (wordUnder σ (.load operand)).toNat ≤ maxConstant

/-- Whether a machine that stands at lines proceeds to their end, if their loads are executed as such. -/
structure Onward (ls : List Line) : Prop where
  proceeds : ∀ {σ : Text → UInt16} {m : Machine}, m.rom.size ≤ 65535 → Placed m.rom σ m.pc.toNat ls →
    LoadsSmall σ ls → m.Proceeds fun m' => m'.pc.toNat = m.pc.toNat + (instructions ls).length

def Asm.Line.isJumpless : Line → Bool
  | .instruction (.compute _ _ jump) => jump.isNone
  | _ => true

theorem LoadsSmall.mono {σ : Text → UInt16} {xs ys : List Line} (h : LoadsSmall σ ys) (hsub : xs ⊆ ys) :
    LoadsSmall σ xs :=
  fun operand hl => h operand (hsub hl)

theorem LoadsSmall.straight {σ : Text → UInt16} {ls : List Line} (hl : LoadsSmall σ ls)
    (h : ls.all Line.isJumpless = true) : ∀ i ∈ instructions ls, i.Straight σ := by
  intro i hi
  have hmem := mem_instructions hi
  cases i with
  | load operand => exact straight_load (hl operand hmem)
  | compute dest comp jump => exact Option.isNone_iff_eq_none.mp (List.all_eq_true.mp h _ hmem)

theorem a_of_effects_load {σ : Text → UInt16} (ls : List Line) {s s' : Data} {name : Text}
    (h : effects σ (ls ++ [load (.symbol name)]) s = some s') : s'.a = σ name := by
  rw [effects_append] at h
  obtain ⟨s₁, -, h⟩ := Option.bind_eq_some_iff.mp h
  rw [effects_load, effects, Option.some.injEq] at h
  exact (congrArg Data.a h).symm

namespace Onward

theorem nil : Onward [] where
  proceeds := fun {_ m} _ _ _ => ⟨m, .refl m, .inl rfl⟩

theorem append {xs ys : List Line} (hx : Onward xs) (hy : Onward ys) : Onward (xs ++ ys) := by
  refine ⟨fun {σ m} hs hp hl => ?_⟩
  rw [placed_append] at hp
  refine (hx.proceeds hs hp.1 (hl.mono (List.subset_append_left xs ys))).then ?_
  intro m' hf hpc
  have hp' : Placed m'.rom σ m'.pc.toNat ys := by
    rw [hf.rom, hpc]
    exact hp.2
  refine (hy.proceeds (hf.rom ▸ hs) hp' (hl.mono (List.subset_append_right xs ys))).mono ?_
  intro m'' hpc'
  rw [hpc', hpc, instructions_append, List.length_append, Nat.add_assoc]

theorem of_isJumpless {ls : List Line} (h : ls.all Line.isJumpless = true) : Onward ls := by
  refine ⟨fun {σ m} hs hp hl => ?_⟩
  exact (Machine.proceeds_straight hs hp (hl.straight h)).mono fun m' h => h.2

/-- Both ways from the first jump of a comparison lead to its end, since both labels stand in it. -/
theorem compareTail {ifNot : Jump} {k : Nat} {σ : Text → UInt16} {m : Machine} (hs : m.rom.size ≤ 65535)
    (hp : Placed m.rom σ m.pc.toNat (compareTail ifNot k)) (hl : LoadsSmall σ (Template.compareTail ifNot k))
    (ha : m.a = σ (falseLabel k)) :
    m.Proceeds fun m' => m'.pc.toNat = m.pc.toNat + (instructions (Template.compareTail ifNot k)).length := by
  have hyesSmall : LoadsSmall σ (pointToTop ++ [assign [.m] .minusOne, load (.symbol (continueLabel k))]) := by
    apply hl.mono
    intro l h
    exact List.mem_cons_of_mem _ (List.mem_append_left _ h)
  have hnoSmall : LoadsSmall σ (pointToTop ++ [assign [.m] .zero]) := by
    apply hl.mono
    intro l h
    have hrest := List.mem_append_left [.label (continueLabel k)] h
    exact List.mem_cons_of_mem _ (List.mem_append_right _ (List.mem_cons_of_mem _ (List.mem_cons_of_mem _ hrest)))
  obtain ⟨hjump, hp⟩ := hp
  rw [placed_append] at hp
  obtain ⟨hyes, hskip, ⟨hfalse, -⟩, hp⟩ := hp
  rw [placed_append] at hp
  obtain ⟨hno, ⟨hcontinue, -⟩, -⟩ := hp
  by_cases hj : ifNot.holds m.d = true
  · obtain ⟨m₁, hf₁, -, hpc₁⟩ := Machine.forward_jump rfl hjump hj (by rw [ha, hfalse]; omega)
    rw [← hfalse, ← ha, ← hpc₁, ← hf₁.rom] at hno
    refine hf₁.proceeds (((of_isJumpless rfl).proceeds (hf₁.rom ▸ hs) hno hnoSmall).mono ?_)
    intro m₂ hpc₂
    rw [hpc₂, hpc₁, ha, hfalse]
    rfl
  · rw [Bool.not_eq_true] at hj
    obtain ⟨m₁, hf₁, -, hpc₁⟩ := Machine.forward_fallthrough rfl hjump hj hs
    rw [← hpc₁, ← hf₁.rom] at hyes hskip
    refine hf₁.proceeds ((Machine.proceeds_straight (hf₁.rom ▸ hs) hyes (hyesSmall.straight rfl)).then ?_)
    rintro m₂ hf₂ ⟨he, hpc₂⟩
    rw [← hpc₂, ← hf₂.rom] at hskip
    have ha₂ : m₂.a = σ (continueLabel k) := a_of_effects_load (pointToTop ++ [assign [.m] .minusOne]) he
    obtain ⟨m₃, hf₃, -, hpc₃⟩ := Machine.forward_jump rfl hskip rfl (by
      rw [ha₂, hcontinue, hpc₂, hpc₁]
      simp [instructions, pointToTop, stackPointer, assign, load])
    refine ⟨m₃, hf₃, .inl (?_ : m₃.pc.toNat = _)⟩
    rw [hpc₃, ha₂, hcontinue]
    rfl

theorem compare (ifNot : Jump) (k : Nat) : Onward (compare ifNot k) := by
  refine ⟨fun {σ m} hs hp hl => ?_⟩
  rw [compare_eq] at hp hl ⊢
  rw [placed_append] at hp
  refine (Machine.proceeds_straight hs hp.1 ((hl.mono (List.subset_append_left _ _)).straight rfl)).then ?_
  rintro m₁ hf₁ ⟨he, hpc₁⟩
  have ha₁ : m₁.a = σ (falseLabel k) := a_of_effects_load (popOperands ++ [assign [.d] (.yMinusD .m)]) he
  have hp₁ : Placed m₁.rom σ m₁.pc.toNat (Template.compareTail ifNot k) := by
    rw [hf₁.rom, hpc₁]
    exact hp.2
  refine (compareTail (hf₁.rom ▸ hs) hp₁ (hl.mono (List.subset_append_right _ _)) ha₁).mono ?_
  intro m₂ hpc₂
  rw [hpc₂, hpc₁, instructions_append (popOperands ++ _), List.length_append, Nat.add_assoc]

end Onward

theorem Operator.onward (op : Operator) (k : Nat) : Onward (op.code k) := by
  cases op with
  | eq | gt | lt => exact .compare _ k
  | add | sub | and | or | not | neg => exact .of_isJumpless rfl

namespace Generator

theorem isJumpless_entryCode (g : Generator) (pops : Bool) (segment : Segment) (index : Nat) :
    (g.entryCode pops segment index).all Line.isJumpless = true := by
  cases segment <;> cases pops <;> rfl

theorem onward_emission {g g' : Generator} {r : Request} {plan : Plan} (h : g.lower r = .ok (plan, g')) :
    Onward (g'.emission r plan) := by
  have hplan : Onward plan.lines := by
    obtain ⟨op, -, rfl, -⟩ | ⟨pops, segment, index, -, -, rfl⟩ := lower_cases h
    · exact op.onward _
    · exact .of_isJumpless (isJumpless_entryCode g' pops segment index)
  unfold emission
  split
  · have hremark : Onward [.remark r.toText] := .of_isJumpless rfl
    exact hremark.append hplan
  · exact hplan

end Generator

end HackStack
