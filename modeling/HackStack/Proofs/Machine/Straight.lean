import HackStack.Proofs.Machine.Forward

/-!
# Code without jumps

Instructions without a jump work on the two registers and the memory and go on to the next one. `effects` says
what a list of them does to this data, or that one of them reaches beyond the memory; the machine that holds
the code does the same.
-/

namespace HackStack

/-! ## Memory -/

abbrev Memory := Array UInt16

namespace Memory

def read (ram : Memory) (address : UInt16) : UInt16 := ram.getD address.toNat 0

def write (ram : Memory) (address value : UInt16) : Memory := ram.setIfInBounds address.toNat value

@[simp] theorem size_write (ram : Memory) (address value : UInt16) : (ram.write address value).size = ram.size :=
  Array.size_setIfInBounds

theorem read_write_self {ram : Memory} {address : UInt16} (h : address.toNat < ram.size) (value : UInt16) :
    (ram.write address value).read address = value := by
  simp [read, write, Array.getD_eq_getD_getElem?, h]

theorem read_write_ne {address other : UInt16} (h : address ≠ other) (ram : Memory) (value : UInt16) :
    (ram.write address value).read other = ram.read other := by
  have : address.toNat ≠ other.toNat := fun e => h (UInt16.toNat_inj.mp e)
  simp [read, write, Array.getD_eq_getD_getElem?, this]

theorem write_comm {a b : UInt16} (h : a ≠ b) (ram : Memory) (v w : UInt16) :
    (ram.write a v).write b w = (ram.write b w).write a v := by
  have : a.toNat ≠ b.toNat := fun e => h (UInt16.toNat_inj.mp e)
  unfold write
  rw [Array.setIfInBounds_comm _ _ this]

end Memory

theorem Machine.peek?_toNat {m : Machine} {cell : UInt16} (h : cell.toNat < m.ram.size) :
    m.peek? cell.toNat = some (signedWord (Memory.read m.ram cell)) := by
  unfold peek?
  rw [if_pos (Int.natCast_nonneg _), Int.toNat_natCast, Memory.read, Array.getD_eq_getD_getElem?,
    Array.getElem?_eq_getElem h]
  rfl

namespace Asm

/-! ## Effects -/

structure Data where
  a : UInt16
  d : UInt16
  ram : Memory

/-- What an instruction makes of the data, jumps aside; nothing if it reaches beyond the memory. -/
def Instruction.effect (σ : Text → UInt16) (s : Data) : Instruction → Option Data
  | .load operand => some { s with a := wordUnder σ (.load operand) }
  | .compute dest comp _ =>
    if (comp.readsMemory = true ∨ .m ∈ dest) ∧ s.ram.size ≤ s.a.toNat then none
    else
      let out := comp.value s.d (if comp.readsMemory then s.ram.read s.a else s.a)
      some
        { a := if .a ∈ dest then out else s.a
          d := if .d ∈ dest then out else s.d
          ram := if .m ∈ dest then s.ram.write s.a out else s.ram }

def effects (σ : Text → UInt16) : List Line → Data → Option Data
  | [], s => some s
  | .instruction i :: ls, s => (i.effect σ s).bind (effects σ ls)
  | _ :: ls, s => effects σ ls s

theorem effects_append (σ : Text → UInt16) : ∀ (xs ys : List Line) (s : Data),
    effects σ (xs ++ ys) s = (effects σ xs s).bind (effects σ ys)
  | [], _, _ => rfl
  | .remark _ :: xs, ys, s => effects_append σ xs ys s
  | .label _ :: xs, ys, s => effects_append σ xs ys s
  | .instruction i :: xs, ys, s => by
    rw [List.cons_append, effects, effects, Option.bind_assoc]
    congr 1
    funext s'
    exact effects_append σ xs ys s'

/-- Whether an instruction goes on to the next one: it has no jump, and what it loads is no computing word. -/
def Instruction.Straight (σ : Text → UInt16) : Instruction → Prop
  | .load operand => Machine.computes (wordUnder σ (.load operand)) = false
  | .compute _ _ jump => jump = none

end Asm

namespace Machine

open Asm

def data (m : Machine) : Data := ⟨m.a, m.d, m.ram⟩

def next (m : Machine) (s : Data) : Machine :=
  { m with a := s.a, d := s.d, ram := s.ram, pc := m.pc + 1, steps := m.steps + 1 }

theorem computes_eq_false {w : UInt16} (h : w.toNat ≤ maxConstant) : computes w = false := by
  have hbit : w.toNat.testBit 15 = false := Nat.testBit_lt_two_pow (Nat.lt_of_le_of_lt h (by decide))
  have hand : w.toNat &&& 2 ^ 15 = 0 := by
    apply Nat.eq_of_testBit_eq
    intro i
    rw [Nat.testBit_and, Nat.testBit_two_pow]
    by_cases hi : 15 = i
    · subst hi; simp [hbit]
    · simp [hi]
  simp only [computes, ne_eq, decide_eq_false_iff_not, Decidable.not_not]
  apply UInt16.toNat_inj.mp
  rw [UInt16.toNat_and]
  exact hand

theorem halted_of_word {m : Machine} {w : UInt16} (h : m.rom[m.pc.toNat]? = some w) :
    m.halted = false ∧ m.word = w := by
  obtain ⟨hlt, hw⟩ := Array.getElem?_eq_some_iff.mp h
  constructor
  · simp only [halted, decide_eq_false_iff_not]; omega
  · simp [word, Array.getD_eq_getD_getElem?, h]

theorem toNat_pc_add_one {m : Machine} {w : UInt16} (h : m.rom[m.pc.toNat]? = some w) (hs : m.rom.size ≤ 65535) :
    (m.pc + 1).toNat = m.pc.toNat + 1 := by
  obtain ⟨hlt, -⟩ := Array.getElem?_eq_some_iff.mp h
  rw [UInt16.toNat_add]
  exact Nat.mod_eq_of_lt (Nat.lt_of_le_of_lt (Nat.succ_le_of_lt hlt) (by omega))

theorem trap?_computeWord {m : Machine} {dest : List Register} {comp : Computation} {jump : Option Jump}
    (hw : m.rom[m.pc.toNat]? = some (computeWord dest comp jump))
    (hserved : comp.readsMemory = true ∨ .m ∈ dest → m.a.toNat < m.ram.size) : m.trap? = none := by
  obtain ⟨-, hword⟩ := halted_of_word hw
  unfold trap?
  rw [hword, badAccess?_computeWord]
  by_cases haccess : comp.readsMemory = true ∨ .m ∈ dest
  · rw [if_neg (Nat.not_le.mpr (hserved haccess))]
    rfl
  · rw [not_or] at haccess
    simp [haccess]

section
variable {m : Machine} {σ : Text → UInt16} {i : Instruction} {s : Data}
variable (hw : m.rom[m.pc.toNat]? = some (wordUnder σ i))
include hw

theorem step_some (hi : i.Straight σ) (he : i.effect σ m.data = some s) : m.trap? = none ∧ m.execute m.word = m.next s := by
  obtain ⟨-, hword⟩ := halted_of_word hw
  cases i with
  | load operand =>
    simp only [Instruction.Straight] at hi
    simp only [Instruction.effect, Option.some.injEq] at he
    subst he
    unfold trap?
    rw [hword]
    simp [badAccess?, execute, hi, next, data]
  | compute dest comp jump =>
    simp only [Instruction.Straight] at hi
    subst hi
    simp only [Instruction.effect] at he
    by_cases hb : (comp.readsMemory = true ∨ .m ∈ dest) ∧ m.data.ram.size ≤ m.data.a.toNat
    · rw [if_pos hb] at he; cases he
    · rw [if_neg hb, Option.some.injEq] at he
      subst he
      refine ⟨trap?_computeWord hw fun h => Nat.lt_of_not_le fun hsize => hb ⟨h, hsize⟩, ?_⟩
      rw [hword]
      simp only [wordUnder, execute_computeWord]
      rfl

theorem step_none (he : i.effect σ m.data = none) : ∃ t, m.trap? = some t := by
  obtain ⟨-, hword⟩ := halted_of_word hw
  unfold trap?
  rw [hword]
  cases i with
  | load operand => simp [Instruction.effect] at he
  | compute dest comp jump =>
    simp only [Instruction.effect] at he
    by_cases hb : (comp.readsMemory = true ∨ .m ∈ dest) ∧ m.data.ram.size ≤ m.data.a.toNat
    · have hsize : m.ram.size ≤ m.a.toNat := hb.2
      simp only [wordUnder, badAccess?_computeWord, if_pos hsize]
      by_cases hr : comp.readsMemory = true
      · simp [hr]
      · have hm : Register.m ∈ dest := hb.1.resolve_left hr
        simp [hr, hm]
    · rw [if_neg hb] at he; cases he

end

section
variable {σ : Text → UInt16}

theorem forward_straight : ∀ {ls : List Line} {m : Machine} {s : Data}, Placed m.rom σ m.pc.toNat ls →
    m.rom.size ≤ 65535 → (∀ i ∈ instructions ls, i.Straight σ) → effects σ ls m.data = some s →
    ∃ m', Forward m m' ∧ m'.data = s ∧ m'.pc.toNat = m.pc.toNat + (instructions ls).length
  | [], m, s, _, _, _, he => by
    simp only [effects, Option.some.injEq] at he
    exact ⟨m, .refl m, he, rfl⟩
  | .remark _ :: ls, m, s, hp, hs, hi, he => @forward_straight ls m s hp hs hi he
  | .label _ :: ls, m, s, hp, hs, hi, he => @forward_straight ls m s hp.2 hs hi he
  | .instruction i :: ls, m, s, hp, hs, hi, he => by
    obtain ⟨hw, hp⟩ := hp
    rw [effects] at he
    obtain ⟨s₁, he₁, he⟩ := Option.bind_eq_some_iff.mp he
    obtain ⟨hhalt, -⟩ := halted_of_word hw
    obtain ⟨htrap, hex⟩ := step_some hw (hi i List.mem_cons_self) he₁
    have hpc : (m.next s₁).pc.toNat = m.pc.toNat + 1 := toNat_pc_add_one hw hs
    rw [← hpc] at hp
    obtain ⟨m', hf, hd, hpc'⟩ := @forward_straight ls (m.next s₁) s hp hs
      (fun j hj => hi j (List.mem_cons_of_mem _ hj)) he
    refine ⟨m', .step hhalt htrap ?_ (hex ▸ hf), hd, ?_⟩
    · rw [hex, hpc]; omega
    · rw [hpc', hpc, instructions, List.length_cons]; omega

theorem trapped_straight : ∀ {ls : List Line} {m : Machine}, Placed m.rom σ m.pc.toNat ls →
    m.rom.size ≤ 65535 → (∀ i ∈ instructions ls, i.Straight σ) → effects σ ls m.data = none →
    ∃ m' t, Forward m m' ∧ m'.halted = false ∧ m'.trap? = some t
  | [], m, _, _, _, he => by simp [effects] at he
  | .remark _ :: ls, m, hp, hs, hi, he => @trapped_straight ls m hp hs hi he
  | .label _ :: ls, m, hp, hs, hi, he => @trapped_straight ls m hp.2 hs hi he
  | .instruction i :: ls, m, hp, hs, hi, he => by
    obtain ⟨hw, hp⟩ := hp
    obtain ⟨hhalt, -⟩ := halted_of_word hw
    rw [effects] at he
    cases he₁ : i.effect σ m.data with
    | none =>
      obtain ⟨t, ht⟩ := step_none hw he₁
      exact ⟨m, t, .refl m, hhalt, ht⟩
    | some s₁ =>
      rw [he₁, Option.bind_some] at he
      obtain ⟨htrap, hex⟩ := step_some hw (hi i List.mem_cons_self) he₁
      have hpc : (m.next s₁).pc.toNat = m.pc.toNat + 1 := toNat_pc_add_one hw hs
      rw [← hpc] at hp
      obtain ⟨m', t, hf, hh, ht⟩ := @trapped_straight ls (m.next s₁) hp hs
        (fun j hj => hi j (List.mem_cons_of_mem _ hj)) he
      refine ⟨m', t, .step hhalt htrap ?_ (hex ▸ hf), hh, ht⟩
      rw [hex, hpc]; omega

end

end Machine

end HackStack
