import HackStack.Machine

/-!
# What a computing word does

The word of a computing instruction is taken apart again by the machine: the arithmetic unit computes the value
that the mnemonic stands for, the destination bits select the named registers, and the jump bits test the sign
of the value.
-/

namespace HackStack

namespace Asm

def Computation.readsMemory : Computation → Bool
  | .y i | .notY i | .negY i | .incY i | .swappedIncY i | .decY i | .dPlusY i | .swappedDPlusY i | .dMinusY i
  | .yMinusD i | .dAndY i | .swappedDAndY i | .dOrY i | .swappedDOrY i => i = .m
  | _ => false

/-- The value of a computation on the data register `x` and the second input `w`. -/
def Computation.value (x w : UInt16) : Computation → UInt16
  | .zero => 0
  | .one => 1
  | .minusOne => -1
  | .d => x
  | .notD => ~~~x
  | .negD => -x
  | .incD | .swappedIncD => x + 1
  | .decD => x - 1
  | .y _ => w
  | .notY _ => ~~~w
  | .negY _ => -w
  | .incY _ | .swappedIncY _ => w + 1
  | .decY _ => w - 1
  | .dPlusY _ | .swappedDPlusY _ => x + w
  | .dMinusY _ => x - w
  | .yMinusD _ => w - x
  | .dAndY _ | .swappedDAndY _ => x &&& w
  | .dOrY _ | .swappedDOrY _ => x ||| w

def Jump.holds (v : UInt16) : Jump → Bool
  | .gt => 0 < signedWord v
  | .eq => signedWord v = 0
  | .ge => 0 ≤ signedWord v
  | .lt => signedWord v < 0
  | .ne => signedWord v ≠ 0
  | .le => signedWord v ≤ 0
  | .always => true

theorem Jump.not_holds_le (v : UInt16) : (!Jump.le.holds v) = decide (0 < signedWord v) := by
  rw [Jump.holds, ← decide_not]
  exact decide_eq_decide.mpr Int.not_le

theorem Jump.not_holds_ge (v : UInt16) : (!Jump.ge.holds v) = decide (signedWord v < 0) := by
  rw [Jump.holds, ← decide_not]
  exact decide_eq_decide.mpr Int.not_le

/-! ## The arithmetic unit -/

theorem not_and_word (x y : UInt16) : ~~~(x &&& y) = ~~~x ||| ~~~y := by
  apply UInt16.toBitVec_inj.1
  simp [BitVec.not_and]

-- Each case shows what the control bits make of the inputs; the rest is arithmetic modulo 2^16.
theorem alu_code (x w : UInt16) (c : Computation) : Machine.alu x w (c.code &&& 0x3F) = c.value x w := by
  cases c with
  | zero => rfl
  | one => show ~~~(~~~0 + ~~~0) = (1 : UInt16); decide
  | minusOne => show ~~~0 + 0 = (-1 : UInt16); decide
  | d => show x &&& ~~~0 = x; simp
  | notD => show ~~~(x &&& ~~~0) = ~~~x; simp
  | negD => show ~~~(x + ~~~0) = -x; simp only [UInt16.not_eq_neg_sub]; grind
  | incD | swappedIncD => show ~~~(~~~x + ~~~0) = x + 1; simp only [UInt16.not_eq_neg_sub]; grind
  | decD => show x + ~~~0 = x - 1; simp only [UInt16.not_eq_neg_sub]; grind
  | y i => cases i <;> (show ~~~0 &&& w = w; simp)
  | notY i => cases i <;> (show ~~~(~~~0 &&& w) = ~~~w; simp)
  | negY i => cases i <;> (show ~~~(~~~0 + w) = -w; simp only [UInt16.not_eq_neg_sub]; grind)
  | incY i | swappedIncY i =>
    cases i <;> (show ~~~(~~~0 + ~~~w) = w + 1; simp only [UInt16.not_eq_neg_sub]; grind)
  | decY i => cases i <;> (show ~~~0 + w = w - 1; simp only [UInt16.not_eq_neg_sub]; grind)
  | dPlusY i | swappedDPlusY i => cases i <;> rfl
  | dMinusY i => cases i <;> (show ~~~(~~~x + w) = x - w; simp only [UInt16.not_eq_neg_sub]; grind)
  | yMinusD i => cases i <;> (show ~~~(x + ~~~w) = w - x; simp only [UInt16.not_eq_neg_sub]; grind)
  | dAndY i | swappedDAndY i => cases i <;> rfl
  | dOrY i | swappedDOrY i => cases i <;> (show ~~~(~~~x &&& ~~~w) = x ||| w; simp [not_and_word])

/-! ## Bit fields -/

theorem or_and_word (x y k : UInt16) : (x ||| y) &&& k = (x &&& k) ||| (y &&& k) := by
  apply UInt16.toBitVec_inj.1
  ext i
  simp [Bool.and_or_distrib_right]

theorem code_fields (c : Computation) :
    (c.code <<< 6) &&& 0x8000 = 0 ∧ (c.code <<< 6) &&& 0x1000 = (if c.readsMemory then 0x1000 else 0) ∧
      (c.code <<< 6) &&& 32 = 0 ∧ (c.code <<< 6) &&& 16 = 0 ∧ (c.code <<< 6) &&& 8 = 0 ∧
      (c.code <<< 6) &&& 7 = 0 ∧ ((c.code <<< 6) >>> 6) &&& 0x3F = c.code &&& 0x3F := by
  cases c with
  | y i | notY i | negY i | incY i | swappedIncY i | decY i | dPlusY i | swappedDPlusY i | dMinusY i | yMinusD i
  | dAndY i | swappedDAndY i | dOrY i | swappedDOrY i => cases i <;> decide
  | _ => decide

def destBits (a d m : Bool) : UInt16 := (if a then 4 else 0) ||| (if d then 2 else 0) ||| (if m then 1 else 0)

theorem destBits_or (a d m : Bool) (r : Register) :
    destBits a d m ||| r.bit = destBits (a || r = .a) (d || r = .d) (m || r = .m) := by
  cases r <;> cases a <;> cases d <;> cases m <;> decide

theorem foldl_destBits : ∀ (dest : List Register) (a d m : Bool),
    dest.foldl (fun bits r => bits ||| r.bit) (destBits a d m) =
      destBits (a || .a ∈ dest) (d || .d ∈ dest) (m || .m ∈ dest)
  | [], a, d, m => by simp
  | r :: dest, a, d, m => by
    rw [List.foldl_cons, destBits_or, foldl_destBits]
    cases r <;> simp

theorem destCode_eq (dest : List Register) :
    destCode dest = destBits (decide (.a ∈ dest)) (decide (.d ∈ dest)) (decide (.m ∈ dest)) := by
  have := foldl_destBits dest false false false
  simpa [destCode, destBits] using this

theorem destBits_fields (a d m : Bool) :
    (destBits a d m <<< 3) &&& 0x8000 = 0 ∧ (destBits a d m <<< 3) &&& 0x1000 = 0 ∧
      (destBits a d m <<< 3) &&& 32 = (if a then 32 else 0) ∧
      (destBits a d m <<< 3) &&& 16 = (if d then 16 else 0) ∧
      (destBits a d m <<< 3) &&& 8 = (if m then 8 else 0) ∧ (destBits a d m <<< 3) &&& 7 = 0 ∧
      ((destBits a d m <<< 3) >>> 6) &&& 0x3F = 0 := by
  cases a <;> cases d <;> cases m <;> decide

def jumpBits (jump : Option Jump) : UInt16 := (jump.map Jump.code).getD 0

theorem jumpBits_fields (jump : Option Jump) :
    jumpBits jump &&& 0x8000 = 0 ∧ jumpBits jump &&& 0x1000 = 0 ∧ jumpBits jump &&& 32 = 0 ∧
      jumpBits jump &&& 16 = 0 ∧ jumpBits jump &&& 8 = 0 ∧ jumpBits jump &&& 7 = jumpBits jump ∧
      (jumpBits jump >>> 6) &&& 0x3F = 0 := by
  cases jump with
  | none => decide
  | some j => cases j <;> decide

section
variable (dest : List Register) (comp : Computation) (jump : Option Jump)

theorem computeWord_and (k : UInt16) :
    computeWord dest comp jump &&& k =
      ((0xE000 : UInt16) &&& k) ||| ((comp.code <<< 6) &&& k) |||
        ((destBits (decide (.a ∈ dest)) (decide (.d ∈ dest)) (decide (.m ∈ dest)) <<< 3) &&& k) |||
        (jumpBits jump &&& k) := by
  unfold computeWord
  rw [destCode_eq, or_and_word, or_and_word, or_and_word]
  rfl

theorem computes_computeWord : Machine.computes (computeWord dest comp jump) = true := by
  unfold Machine.computes
  rw [computeWord_and, (code_fields comp).1, (destBits_fields _ _ _).1, (jumpBits_fields jump).1]
  decide

theorem readsMemory_computeWord : Machine.readsMemory (computeWord dest comp jump) = comp.readsMemory := by
  unfold Machine.readsMemory
  rw [computeWord_and, (code_fields comp).2.1, (destBits_fields _ _ _).2.1, (jumpBits_fields jump).2.1]
  cases comp.readsMemory <;> decide

theorem destA_computeWord : computeWord dest comp jump &&& 32 ≠ 0 ↔ .a ∈ dest := by
  rw [computeWord_and, (code_fields comp).2.2.1, (destBits_fields _ _ _).2.2.1, (jumpBits_fields jump).2.2.1]
  by_cases h : Register.a ∈ dest <;> simp only [h, decide_true, decide_false] <;> decide

theorem destD_computeWord : computeWord dest comp jump &&& 16 ≠ 0 ↔ .d ∈ dest := by
  rw [computeWord_and, (code_fields comp).2.2.2.1, (destBits_fields _ _ _).2.2.2.1, (jumpBits_fields jump).2.2.2.1]
  by_cases h : Register.d ∈ dest <;> simp only [h, decide_true, decide_false] <;> decide

theorem writesMemory_computeWord : Machine.writesMemory (computeWord dest comp jump) = decide (.m ∈ dest) := by
  unfold Machine.writesMemory
  rw [computeWord_and, (code_fields comp).2.2.2.2.1, (destBits_fields _ _ _).2.2.2.2.1,
    (jumpBits_fields jump).2.2.2.2.1]
  by_cases h : Register.m ∈ dest <;> simp only [h, decide_true, decide_false] <;> decide

theorem jump_computeWord : computeWord dest comp jump &&& 7 = jumpBits jump := by
  rw [computeWord_and, (code_fields comp).2.2.2.2.2.1, (destBits_fields _ _ _).2.2.2.2.2.1,
    (jumpBits_fields jump).2.2.2.2.2.1]
  have : (0xE000 : UInt16) &&& 7 ||| 0 ||| 0 = 0 := by decide
  rw [this, UInt16.zero_or]

theorem control_computeWord : (computeWord dest comp jump >>> 6) &&& 0x3F = comp.code &&& 0x3F := by
  unfold computeWord
  rw [UInt16.shiftRight_or, UInt16.shiftRight_or, UInt16.shiftRight_or, or_and_word, or_and_word, or_and_word,
    (code_fields comp).2.2.2.2.2.2, destCode_eq, (destBits_fields _ _ _).2.2.2.2.2.2]
  have hj : ((jump.map Jump.code).getD 0 >>> 6) &&& 0x3F = 0 := (jumpBits_fields jump).2.2.2.2.2.2
  have hz : ((0xE000 : UInt16) >>> 6) &&& 0x3F = 0 := by decide
  rw [hj, hz, UInt16.zero_or, UInt16.or_zero, UInt16.or_zero]

end

theorem signedWord_neg {v : UInt16} (h : 0x8000 ≤ v) : signedWord v < 0 := by
  have hv := v.toNat_lt
  unfold signedWord
  rw [if_neg (by simpa using h)]
  omega

theorem signedWord_pos {v : UInt16} (h : ¬ 0x8000 ≤ v) (h0 : v ≠ 0) : 0 < signedWord v := by
  have hv : v.toNat ≠ 0 := fun e => h0 (UInt16.toNat_inj.mp e)
  unfold signedWord
  rw [if_pos (by simpa using h)]
  omega

theorem holds_of_sign {v w : UInt16} (hneg : signedWord v < 0 ↔ signedWord w < 0)
    (hzero : signedWord v = 0 ↔ signedWord w = 0) (j : Jump) : j.holds v = j.holds w := by
  cases j <;> simp only [Jump.holds, decide_eq_decide] <;> omega

-- A condition depends on the sign only, so each sign class is settled by one value of it.
theorem jumps_jumpBits (v : UInt16) (jump : Option Jump) :
    Machine.jumps v (jumpBits jump) = jump.any (Jump.holds v) := by
  cases jump with
  | none =>
    unfold Machine.jumps
    split
    · rfl
    · split <;> rfl
  | some j =>
    have hn : signedWord 0x8000 = -32768 := rfl
    have h1 : signedWord 1 = 1 := rfl
    rw [Option.any_some]
    unfold Machine.jumps
    by_cases hneg : 0x8000 ≤ v
    · have hs := signedWord_neg hneg
      rw [if_pos hneg, holds_of_sign (by omega) (by omega) (j := j) (w := 0x8000)]
      cases j <;> decide
    · rw [if_neg hneg]
      by_cases hzero : v = 0
      · subst hzero
        cases j <;> decide
      · have hs := signedWord_pos hneg hzero
        rw [if_neg hzero, holds_of_sign (w := 1) (by omega) (by omega) j]
        cases j <;> decide

/-! ## Execution -/

section
variable (m : Machine) (dest : List Register) (comp : Computation) (jump : Option Jump)

def Computation.outcome (comp : Computation) (m : Machine) : UInt16 :=
  comp.value m.d (if comp.readsMemory then m.ram.getD m.a.toNat 0 else m.a)

theorem execute_computeWord :
    m.execute (computeWord dest comp jump) =
      { m with
        a := if .a ∈ dest then comp.outcome m else m.a
        d := if .d ∈ dest then comp.outcome m else m.d
        ram := if .m ∈ dest then m.ram.setIfInBounds m.a.toNat (comp.outcome m) else m.ram
        pc := if jump.any (Jump.holds (comp.outcome m)) then m.a else m.pc + 1
        steps := m.steps + 1 } := by
  unfold Machine.execute
  rw [if_pos (computes_computeWord dest comp jump)]
  simp only [readsMemory_computeWord, control_computeWord, alu_code, destA_computeWord, destD_computeWord,
    writesMemory_computeWord, jump_computeWord, jumps_jumpBits, decide_eq_true_eq]
  rfl

theorem badAccess?_computeWord :
    m.badAccess? (computeWord dest comp jump) =
      if m.ram.size ≤ m.a.toNat then
        if comp.readsMemory then some .read else if .m ∈ dest then some .write else none
      else none := by
  unfold Machine.badAccess?
  simp only [computes_computeWord, readsMemory_computeWord, writesMemory_computeWord, Bool.true_and,
    decide_eq_true_eq]

end

end Asm

end HackStack
