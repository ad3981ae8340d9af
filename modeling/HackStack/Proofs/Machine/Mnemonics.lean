import HackStack.Proofs.Asm.Rendered
import HackStack.Proofs.Machine.Straight

/-!
# What a computing instruction means

The mnemonic of a computation is an expression on the registers and the memory word that the address register points
to, and `expression?` reads it as such. A line with a computing instruction is assembled to one word. A machine that
executes this word stores the value of the expression in the named destinations, and jumps on the sign of the value.
-/

namespace HackStack

open Asm

namespace Asm

/-! ## Mnemonics as expressions -/

section
variable (a d m : UInt16)

def atom? : UInt8 → Option UInt16
  | 48 => some 0
  | 49 => some 1
  | 65 => some a
  | 68 => some d
  | 77 => some m
  | _ => none

def operation? : UInt8 → Option (UInt16 → UInt16 → UInt16)
  | 43 => some (· + ·)
  | 45 => some (· - ·)
  | 38 => some (· &&& ·)
  | 124 => some (· ||| ·)
  | _ => none

/-- The value of an expression on the words in the address register, in the data register and in memory: an atom, its
complement or negation, or an operation on two atoms. -/
def expression? : Text → Option UInt16
  | [x] => atom? a d m x
  | [33, x] => (atom? a d m x).map (~~~ ·)
  | [45, x] => (atom? a d m x).map (- ·)
  | [x, op, y] => do
    let v ← atom? a d m x
    let w ← atom? a d m y
    let f ← operation? op
    return f v w
  | _ => none

theorem expression?_mnemonic (comp : Computation) :
    expression? a d m comp.mnemonic = some (comp.value d (if comp.readsMemory then m else a)) := by
  cases comp with
  | swappedIncD => exact congrArg some (UInt16.add_comm 1 d)
  | swappedIncY i => cases i <;> exact congrArg some (UInt16.add_comm 1 _)
  | swappedDPlusY i => cases i <;> exact congrArg some (UInt16.add_comm _ d)
  | swappedDAndY i => cases i <;> exact congrArg some (UInt16.and_comm _ d)
  | swappedDOrY i => cases i <;> exact congrArg some (UInt16.or_comm _ d)
  | y i | notY i | negY i | incY i | decY i | dPlusY i | dMinusY i | yMinusD i | dAndY i | dOrY i => cases i <;> rfl
  | _ => rfl

end

theorem readsMemory_iff_mem (comp : Computation) : comp.readsMemory = true ↔ 77 ∈ comp.mnemonic := by
  cases comp with
  | y i | notY i | negY i | incY i | decY i | dPlusY i | dMinusY i | yMinusD i | dAndY i | dOrY i
  | swappedIncY i | swappedDPlusY i | swappedDAndY i | swappedDOrY i => cases i <;> decide
  | _ => decide

example : (Computation.all.map Computation.mnemonic).Nodup ∧ Computation.all.length = 37 := by decide

/-! ## One line -/

theorem isInstruction_instruction (i : Instruction) : isInstruction i.toText = true :=
  isInstruction_bare.mpr ⟨i, rfl⟩

theorem firstPass_instruction (i : Instruction) : firstPass [i.toText] = .ok initialTable := by
  have happend := firstPass_append [] i.toText
  rw [isLabel_instruction] at happend
  exact happend

theorem secondPass_instruction {i : Instruction} (h : i.Legal) (bound : SymbolTable) :
    secondPass bound [i.toText] =
      .ok (((emptyCode bound).encode i).2.push ((emptyCode bound).encode i).1 1) := by
  have happend := secondPass_append bound [] i.toText
  rw [isInstruction_instruction, ofText_toText h] at happend
  exact happend

theorem assemble_computation {dest : List Register} (hdest : dest.Nodup) (comp : Computation) (jump : Option Jump) :
    assemble (Instruction.compute dest comp jump).toText =
      .ok ⟨#[computeWord dest comp jump], #[1], initialTable⟩ := by
  have hlegal : (Instruction.compute dest comp jump).Legal := hdest
  rw [assemble_eq, contents_instruction hlegal, firstPass_instruction]
  simp only [Except.bind]
  rw [secondPass_instruction hlegal]
  rfl

end Asm

namespace Machine

/-- A line with a computing instruction is assembled to one word. The machine that executes it evaluates the mnemonic,
puts the value in the destinations, where memory is the word that the address register pointed to before, and jumps
there if the signed value fulfils the condition. It changes nothing else. -/
theorem computing_line_means_mnemonic (dest : List Register) (hdest : dest.Nodup) (comp : Computation)
    (jump : Option Jump) : ∃ word,
    assemble (Instruction.compute dest comp jump).toText = .ok ⟨#[word], #[1], initialTable⟩ ∧
      ∀ c : Machine, c.rom[c.pc.toNat]? = some word →
        (77 ∈ comp.mnemonic ∨ .m ∈ dest → c.a.toNat < c.ram.size) →
          ∃ v, expression? c.a c.d (c.ram.getD c.a.toNat 0) comp.mnemonic = some v ∧
            c.step = ({ c with
              a := if .a ∈ dest then v else c.a
              d := if .d ∈ dest then v else c.d
              ram := if .m ∈ dest then c.ram.setIfInBounds c.a.toNat v else c.ram
              pc := if jump.any (Jump.holds v) then c.a else c.pc + 1
              steps := c.steps + 1 }, none) := by
  refine ⟨computeWord dest comp jump, assemble_computation hdest comp jump, ?_⟩
  intro c hword hvalid
  rw [← readsMemory_iff_mem] at hvalid
  rcases halted_of_word hword with ⟨hrunning, hfetched⟩
  refine ⟨comp.outcome c, expression?_mnemonic _ _ _ comp, ?_⟩
  rw [step_eq_execute hrunning (trap?_computeWord hword hvalid), hfetched, execute_computeWord]

def atLargestWord (word : UInt16) : Machine := { a := 2, ram := #[3, 4, 0x7FFF], rom := #[word] }

theorem computing_line_means_mnemonic_sample : ∃ word,
    assemble (ascii "MA=1+M;JLT") = .ok ⟨#[word], #[1], initialTable⟩ ∧ (atLargestWord word).step =
      ({ atLargestWord word with a := 0x8000, ram := #[3, 4, 0x8000], pc := 2, steps := 1 }, none) := by
  obtain ⟨word, hword, h⟩ := computing_line_means_mnemonic [.m, .a] (by decide) (.swappedIncY .m) (some .lt)
  have hinside : (atLargestWord word).a.toNat < (atLargestWord word).ram.size := show 2 < 3 by decide
  obtain ⟨v, hv, hstep⟩ := h (atLargestWord word) rfl fun _ => hinside
  have hexpression : expression? 2 0 0x7FFF (ascii "1+M") = some 0x8000 := by decide +kernel
  have hvalue : v = 0x8000 := Option.some.inj (hv.symm.trans hexpression)
  rw [hvalue] at hstep
  exact ⟨word, hword, hstep⟩

end Machine

end HackStack
