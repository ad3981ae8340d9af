import HackStack.Proofs.Asm.Rendered
import HackStack.Proofs.Lowering.Commands

/-!
# What comparisons answer

The code of a comparison decides by the sign of a difference modulo 2^16. So `eq` is always right, and `gt` and `lt` are
as long as the difference of the two numbers is a word; otherwise both answer the opposite. This is so wherever the code
stands in a program.
-/

namespace HackStack

open Asm Template

/-! ## Differences of words -/

theorem signedWord_eq (w : UInt16) :
    signedWord w = if w.toNat < 32768 then (w.toNat : Int) else (w.toNat : Int) - 65536 := rfl

theorem signedWord_bounds (w : UInt16) : -32768 ≤ signedWord w ∧ signedWord w ≤ 32767 := by
  have hw := w.toNat_lt
  rw [signedWord_eq]
  split <;> omega

/-- A difference of words is the difference of their numbers, brought back by 2^16 if it is no word. -/
theorem signedWord_sub (x y : UInt16) :
    let d := signedWord x - signedWord y
    (-32768 ≤ d ∧ d ≤ 32767) ∧ signedWord (x - y) = d ∨ 32767 < d ∧ signedWord (x - y) = d - 65536 ∨
      d < -32768 ∧ signedWord (x - y) = d + 65536 := by
  intro d
  have hx := x.toNat_lt
  have hy := y.toNat_lt
  have hsub : (x - y).toNat = (65536 - y.toNat + x.toNat) % 65536 := UInt16.toNat_sub x y
  simp only [d, signedWord_eq, hsub]
  split <;> split <;> split <;> omega

theorem signedWord_sub_eq_zero (x y : UInt16) : signedWord (x - y) = 0 ↔ signedWord x = signedWord y := by
  have hx := signedWord_bounds x
  have hy := signedWord_bounds y
  have hsub := signedWord_sub x y
  omega

section
variable {x y : UInt16}

theorem sign_sub (h : -32768 ≤ signedWord x - signedWord y ∧ signedWord x - signedWord y ≤ 32767) :
    (0 < signedWord (x - y) ↔ signedWord x > signedWord y) ∧ (signedWord (x - y) < 0 ↔ signedWord x < signedWord y) := by
  have hsub := signedWord_sub x y
  omega

/-- A difference that is no word has got the other sign. -/
theorem sign_sub_beyond (h : ¬ (-32768 ≤ signedWord x - signedWord y ∧ signedWord x - signedWord y ≤ 32767)) :
    (0 < signedWord (x - y) ↔ ¬ signedWord x > signedWord y) ∧
      (signedWord (x - y) < 0 ↔ ¬ signedWord x < signedWord y) := by
  have hx := signedWord_bounds x
  have hy := signedWord_bounds y
  have hsub := signedWord_sub x y
  omega

end

theorem signedWord_truthWord (b : Bool) : signedWord (truthWord b) = if b then -1 else 0 := by
  cases b <;> rfl

/-! ## Answers -/

namespace Operator

/-- What a comparison asks of two numbers. -/
def Asks (op : Operator) (x y : Int) : Prop :=
  match op with
  | .eq => x = y
  | .gt => x > y
  | .lt => x < y
  | _ => False

/-- What the code of a comparison says about two numbers, -1 being yes and 0 being no. -/
structure Answers (op : Operator) (x y answer : Int) : Prop where
  /-- The answer is yes or no. -/
  truth : answer = -1 ∨ answer = 0
  /-- It is right for all numbers that are compared for equality, and for numbers whose difference is a word. -/
  right : op = .eq ∨ -32768 ≤ x - y ∧ x - y ≤ 32767 → (answer = -1 ↔ op.Asks x y)
  /-- It is the opposite for all other numbers. -/
  opposite : op ≠ .eq → ¬ (-32768 ≤ x - y ∧ x - y ≤ 32767) → (answer = -1 ↔ ¬ op.Asks x y)

theorem answers_decide {op : Operator} {x y : Int} {yes : Prop} [Decidable yes]
    (hright : op = .eq ∨ -32768 ≤ x - y ∧ x - y ≤ 32767 → (yes ↔ op.Asks x y))
    (hopposite : op ≠ .eq → ¬ (-32768 ≤ x - y ∧ x - y ≤ 32767) → (yes ↔ ¬ op.Asks x y)) :
    op.Answers x y (signedWord (truthWord (decide yes))) := by
  have hanswer : signedWord (truthWord (decide yes)) = -1 ↔ yes := by
    rw [signedWord_truthWord]
    by_cases h : yes <;> simp [h]
  refine ⟨?_, fun h => hanswer.trans (hright h), fun heq h => hanswer.trans (hopposite heq h)⟩
  rw [signedWord_truthWord]
  by_cases h : yes <;> simp [h]

section
variable {op : Operator} (hop : op.isComparison = true)
include hop

theorem code_comparison : ∃ ifNot, ∀ k, op.code k = Template.compare ifNot k := by
  cases op with
  | eq => exact ⟨.ne, fun _ => rfl⟩
  | gt => exact ⟨.le, fun _ => rfl⟩
  | lt => exact ⟨.ge, fun _ => rfl⟩
  | _ => cases hop

theorem bare_comparison (k : Nat) : (op.code k).map Line.toText = (op.code k).map Line.bare := by
  obtain ⟨ifNot, hcode⟩ := code_comparison hop
  rw [hcode]
  rfl

theorem meaning_comparison : ∃ f, op.meaning = .binary f ∧
    ∀ x y, op.Answers (signedWord x) (signedWord y) (signedWord (f x y)) := by
  cases op with
  | eq => exact ⟨_, rfl, fun x y => answers_decide (fun _ => signedWord_sub_eq_zero x y) fun h => absurd rfl h⟩
  | gt => exact ⟨_, rfl, fun _ _ => answers_decide (fun h => (sign_sub (h.resolve_left nofun)).1)
      fun _ h => (sign_sub_beyond h).1⟩
  | lt => exact ⟨_, rfl, fun _ _ => answers_decide (fun h => (sign_sub (h.resolve_left nofun)).2)
      fun _ h => (sign_sub_beyond h).2⟩
  | _ => cases hop

end

end Operator

/-! ## Comparisons in a program -/

namespace Asm

theorem Placed.take {rom : Array UInt16} {σ : Text → UInt16} {n : Nat} : ∀ {ls : List Line} {pc : Nat},
    Placed rom σ pc ls → pc + (instructions ls).length ≤ n → Placed (rom.take n) σ pc ls
  | [], _, _, _ => trivial
  | .remark _ :: ls, pc, h, hn => @Placed.take rom σ n ls pc h hn
  | .label _ :: ls, pc, h, hn => ⟨h.1, @Placed.take rom σ n ls pc h.2 hn⟩
  | .instruction i :: ls, pc, ⟨hword, h⟩, hn => by
    rw [instructions, List.length_cons] at hn
    obtain ⟨hlt, -⟩ := Array.getElem?_eq_some_iff.mp hword
    refine ⟨?_, Placed.take h (by omega)⟩
    rw [Array.take_eq_extract, Array.getElem?_extract, if_pos (by omega), Nat.zero_add]
    exact hword

end Asm

/-- The label at the end of a comparison can be loaded, so the code of the comparison ends below 2^15. -/
theorem Template.compare_end {rom : Array UInt16} {σ : Text → UInt16} {pc k : Nat} {ifNot : Jump}
    (h : Placed rom σ pc (Template.compare ifNot k)) :
    pc + (instructions (Template.compare ifNot k)).length ≤ maxConstant := by
  unfold Template.compare at h ⊢
  rw [placed_append] at h
  obtain ⟨-, -, ⟨-, hle⟩, -⟩ := h
  rw [instructions_append, List.length_append, ← Nat.add_assoc]
  exact hle

theorem Reference.operate_binary {ram : Memory} {f : UInt16 → UInt16 → UInt16} (h : ram.read 0 - 2 ≠ 0)
    (hin : (ram.read 0 - 2).toNat < ram.size) :
    (operate ram (.binary f)).size = ram.size ∧
      (operate ram (.binary f)).read (ram.read 0 - 2) = f (ram.read (ram.read 0 - 2)) (ram.read (ram.read 0 - 1)) ∧
      (operate ram (.binary f)).read 0 = ram.read 0 - 1 ∧
      ∀ a : Nat, a ≠ 0 → a ≠ (ram.read 0 - 2).toNat → (operate ram (.binary f))[a]? = ram[a]? := by
  have hzero : (0 : UInt16).toNat < ram.size := Nat.lt_of_le_of_lt (Nat.zero_le _) hin
  refine ⟨?_, ?_, ?_, fun a ha htop => ?_⟩
  · rw [operate, Memory.size_write, Memory.size_write]
  · rw [operate, Memory.read_write_ne h.symm, Memory.read_write_self hin]
  · exact Memory.read_write_self (by rw [Memory.size_write]; exact hzero) _
  · exact (Array.getElem?_setIfInBounds_ne ha.symm).trans (Array.getElem?_setIfInBounds_ne htop.symm)

section
variable {m : Machine} (hsp : 16 ≤ m.stackPointer - 2)
include hsp

/-- The cells of the two topmost values, with nothing lost in the words of their addresses. -/
theorem toNat_operands : (Memory.read m.ram 0 - 2).toNat = m.stackPointer - 2 ∧
    (Memory.read m.ram 0 - 1).toNat = m.stackPointer - 1 := by
  have hread : m.stackPointer = (Memory.read m.ram 0).toNat := rfl
  rw [hread] at hsp ⊢
  constructor
  · refine UInt16.toNat_sub_of_le _ _ (UInt16.le_iff_toNat_le.mpr ?_)
    exact Nat.le_trans (by decide : 2 ≤ 18) (by omega)
  · refine UInt16.toNat_sub_of_le _ _ (UInt16.le_iff_toNat_le.mpr ?_)
    exact Nat.le_trans (by decide : 1 ≤ 18) (by omega)

variable (hram : m.stackPointer - 1 < m.ram.size) {op : Operator} (hop : op.isComparison = true)
include hram hop

theorem fits_comparison : Reference.Fits [(0, .arithmetic op.name)] m.ram := by
  obtain ⟨f, hf, -⟩ := op.meaning_comparison hop
  obtain ⟨htwo, hone⟩ := toNat_operands hsp
  have hapart : ∀ {cell other : UInt16}, 16 ≤ cell.toNat → other.toNat < 16 → cell ≠ other := by
    rintro cell other hcell hother rfl
    omega
  refine ⟨?_, (Implements.inside_binary hf).mpr ⟨by omega, by omega⟩, trivial⟩
  unfold Reference.Clear
  rw [Reference.cells_binary hf]
  intro cell hcell
  have hhigh : 16 ≤ cell.toNat := by
    obtain rfl | rfl := List.mem_pair.mp hcell <;> omega
  exact ⟨hapart hhigh (by decide), hapart hhigh (by decide)⟩

/-- A machine at the code of a comparison goes forward to its end, however long the program is. -/
theorem forward_comparison {σ : Text → UInt16} (hσ : Standard σ) {k : Nat} (hp : Placed m.rom σ m.pc.toNat (op.code k)) :
    ∃ m', Machine.Forward m m' ∧ m'.ram = Reference.operate m.ram op.meaning ∧
      m'.pc.toNat = m.pc.toNat + (instructions (op.code k)).length := by
  have hend : m.pc.toNat + (instructions (op.code k)).length ≤ maxConstant := by
    obtain ⟨ifNot, hcode⟩ := op.code_comparison hop
    rw [hcode] at hp ⊢
    exact Template.compare_end hp
  -- The words behind the code are never reached, so the code is followed in a program without them.
  obtain ⟨m', hforward, hram', hpc'⟩ := (op.implements 0 k).forward (m := { m with rom := m.rom.take (maxConstant + 1) }) hσ
    (hp.take (by omega)) (by simp [maxConstant]) (by show 16 ≤ m.ram.size; omega) (fits_comparison hsp hram hop)
  refine ⟨{ m' with rom := m.rom }, hforward.transfer ?_, ?_, hpc'⟩
  · intro i word hword
    obtain ⟨hlt, rfl⟩ := Array.getElem?_eq_some_iff.mp hword
    simp
  · rw [hram', Reference.run, Reference.step_operator, Reference.run]

end

/-- A machine that stands at the code of a comparison in an accepted text runs to the end of this code, and leaves the
answer at the new top of the stack and everything else as it is. -/
theorem comparison_answers {op : Operator} (hop : op.isComparison = true) (k : Nat) {source : Text} {p : Program}
    (h : assemble source = .ok p) {before after : List Text}
    (hsource : contents source = before ++ (op.code k).map Line.toText ++ after) {m : Machine} (hrom : m.rom = p.words)
    (hpc : m.pc.toNat = before.countP isInstruction) (hsp : 16 ≤ m.stackPointer - 2)
    (hram : m.stackPointer - 1 < m.ram.size) :
    ∃ n x y answer, m.peek? (m.stackPointer - 2 : Nat) = some x ∧ m.peek? (m.stackPointer - 1 : Nat) = some y ∧
      (m.after n).peek? (m.stackPointer - 2 : Nat) = some answer ∧ op.Answers x y answer ∧
      (m.after n).pc.toNat = m.pc.toNat + (instructions (op.code k)).length ∧
      (∀ j < n, (m.after j).halted = false ∧ (m.after j).trap? = none ∧ m.pc.toNat ≤ (m.after j).pc.toNat ∧
        (m.after j).pc.toNat < (m.after n).pc.toNat) ∧
      (m.after n).stackPointer = m.stackPointer - 1 ∧
      ∀ a : Nat, a ≠ 0 → a ≠ m.stackPointer - 2 → (m.after n).ram[a]? = m.ram[a]? := by
  have hp : Resolved (before ++ (op.code k).map Line.bare ++ after) p := by
    rw [← op.bare_comparison hop, ← hsource]
    exact resolved_of_assemble h
  have hplaced : Placed m.rom p.symbols.address m.pc.toNat (op.code k) := by
    rw [hrom, hpc]
    exact hp.placed (op.implements 0 k).legal
  obtain ⟨f, hf, hanswers⟩ := op.meaning_comparison hop
  obtain ⟨m', hforward, hram', hpc'⟩ := forward_comparison hsp hram hop (standard_of_predefined hp.fixed) hplaced
  obtain ⟨n, rfl, hway⟩ := hforward.exists_after
  rw [hf] at hram'
  have hfits := fits_comparison hsp hram hop
  obtain ⟨hin2, hin1⟩ := (Implements.inside_binary hf).mp hfits.2.1
  obtain ⟨hsize, htop, hpointer, hother⟩ :=
    Reference.operate_binary (f := f) (Implements.clear_binary hf hfits.1).1 hin2
  rw [← hram'] at hsize htop hpointer hother
  obtain ⟨htwo, hone⟩ := toNat_operands hsp
  rw [← htwo, ← hone]
  refine ⟨n, _, _, _, Machine.peek?_toNat hin2, Machine.peek?_toNat hin1, Machine.peek?_toNat (hsize ▸ hin2), ?_, hpc',
    hway, congrArg UInt16.toNat hpointer, hother⟩
  rw [htop]
  exact hanswers _ _

def overflowText : Text := ascii "@x\n" ++ render (Operator.gt.code 7) ++ ascii "@x // next\n"

/-- A machine at this comparison, with 32767 and -1 on its stack. -/
def overflowMachine (words : Array UInt16) : Machine :=
  { pc := 1, ram := (Array.replicate 16 0).set! 0 18 ++ #[32767, 65535], rom := words }

/-- The number 32767 is above -1, but their difference is no word, so the answer is no. -/
theorem comparison_answers_sample :
    ∃ p n, assemble overflowText = .ok p ∧ (overflowMachine p.words).peek? 16 = some 32767 ∧
      (overflowMachine p.words).peek? 17 = some (-1) ∧ ((overflowMachine p.words).after n).peek? 16 = some 0 ∧
      ((overflowMachine p.words).after n).pc.toNat = 16 ∧ ((overflowMachine p.words).after n).stackPointer = 17 := by
  obtain ⟨p, hp, -⟩ : ∃ p, assemble overflowText = .ok p ∧ True := ok_of_any (by decide +kernel)
  have hsource : contents overflowText =
      [ascii "@x"] ++ (Operator.gt.code 7).map Line.toText ++ [ascii "@x", []] := by decide +kernel
  have hx : (overflowMachine p.words).peek? 16 = some 32767 := rfl
  have hy : (overflowMachine p.words).peek? 17 = some (-1) := rfl
  obtain ⟨n, x, y, answer, hx', hy', hanswer, hanswers, hpc, -, hsp, -⟩ :=
    comparison_answers (m := overflowMachine p.words) rfl 7 hp hsource rfl rfl (by decide : 16 ≤ 18 - 2)
      (by decide : 18 - 1 < 18)
  obtain rfl : 32767 = x := Option.some.inj (hx.symm.trans hx')
  obtain rfl : -1 = y := Option.some.inj (hy.symm.trans hy')
  have hno : answer = 0 := by
    refine hanswers.truth.resolve_left fun hyes => ?_
    exact (hanswers.opposite nofun (by decide)).mp hyes (by decide : (32767 : Int) > -1)
  subst hno
  exact ⟨p, n, hp, hx, hy, hanswer, hpc, hsp⟩

end HackStack
