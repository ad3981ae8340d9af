import HackStack.Proofs.Lowering.Reference
import HackStack.Proofs.Simulation.StackMachine

/-!
# The stack machine in memory

A data memory represents a stack machine if the stack stands in it from a base on, the stack pointer tells its depth,
and every cell outside the stack area, apart from the stack pointer and the scratch register, has the machine's
number. A command on the memory and the same command on the machine keep this relation, as long as the stack stays in
its area and windows stay out of it and out of the registers.
-/

namespace HackStack

open Asm Reference

/-! ## Numbers and words -/

theorem signedWord_toUInt16 (v : Int16) : signedWord v.toUInt16 = v.toInt := by
  have h : v.toUInt16.toNat = v.toBitVec.toNat := rfl
  have hlt : v.toUInt16 < 0x8000 ↔ v.toBitVec.toNat < 32768 := UInt16.lt_iff_toNat_lt
  unfold signedWord
  rw [Int16.toInt, BitVec.toInt]
  simp only [hlt, h]
  split <;> split <;> omega

theorem wordOfInt_eq (v : Int) : wordOfInt v = (Int16.ofInt v).toUInt16 := by
  apply UInt16.toNat_inj.mp
  have hleft : (wordOfInt v).toNat = (v % 65536).toNat % 65536 := rfl
  have hright : (Int16.ofInt v).toUInt16.toNat = (BitVec.ofInt 16 v).toNat := rfl
  rw [hleft, hright, BitVec.toNat_ofInt]
  omega

namespace StackMachine

theorem truth_toUInt16 (b : Bool) : (truth b).toUInt16 = truthWord b := by
  cases b <;> rfl

theorem operate_cases {op : Operator} {st st' : List Int16} (h : operate op st = some st') :
    (∃ f x rest v, op.meaning = .unary f ∧ st = x :: rest ∧ st' = v :: rest ∧ v.toUInt16 = f x.toUInt16) ∨
      ∃ f x y rest v, op.meaning = .binary f ∧ st = y :: x :: rest ∧ st' = v :: rest ∧
        v.toUInt16 = f x.toUInt16 y.toUInt16 := by
  unfold operate at h
  split at h <;> simp only [Option.some.injEq, reduceCtorEq] at h <;> subst h
  case h_1 y x rest => exact .inr ⟨_, x, y, rest, _, rfl, rfl, rfl, by simp⟩
  case h_2 y x rest => exact .inr ⟨_, x, y, rest, _, rfl, rfl, rfl, by simp⟩
  case h_3 y x rest => exact .inr ⟨_, x, y, rest, _, rfl, rfl, rfl, by simp⟩
  case h_4 y x rest => exact .inr ⟨_, x, y, rest, _, rfl, rfl, rfl, by simp⟩
  case h_5 y x rest =>
    refine .inr ⟨_, x, y, rest, _, rfl, rfl, rfl, ?_⟩
    rw [truth_toUInt16, ← Int16.toUInt16_sub, signedWord_toUInt16]
    congr 1
    rw [decide_eq_decide, ← Int16.toInt_inj]
    rfl
  case h_6 y x rest =>
    refine .inr ⟨_, x, y, rest, _, rfl, rfl, rfl, ?_⟩
    simp only [truth_toUInt16, ← Int16.toUInt16_sub, signedWord_toUInt16, Int16.lt_iff_toInt_lt]
    rfl
  case h_7 y x rest =>
    refine .inr ⟨_, x, y, rest, _, rfl, rfl, rfl, ?_⟩
    simp only [truth_toUInt16, ← Int16.toUInt16_sub, signedWord_toUInt16, Int16.lt_iff_toInt_lt]
    rfl
  case h_8 x rest => exact .inl ⟨_, x, rest, _, rfl, rfl, rfl, by simp⟩
  case h_9 x rest => exact .inl ⟨_, x, rest, _, rfl, rfl, rfl, by simp⟩

/-! ## Cells -/

/-- A part of the memory that is set aside for the stack, from `base` up to `top`. It begins behind the static cells
and ends where the memory of `size` words does or before. -/
structure Area where
  base : Nat
  top : Nat
  size : Nat
  low : 256 ≤ base
  ordered : base ≤ top
  high : top ≤ size
  small : size ≤ 65535

def Area.Contains (area : Area) (a : UInt16) : Prop := area.base ≤ a.toNat ∧ a.toNat < area.top

/-- Whether a command may use an address through a window: it exists and is neither in the registers, nor among the
static cells, nor in the stack area. -/
structure Area.Window (area : Area) (a : UInt16) : Prop where
  low : 256 ≤ a.toNat
  inside : a.toNat < area.size
  apart : ¬ area.Contains a

/-- Whether an address exists and is no cell of the stack area, nor the stack pointer's, nor the scratch register's. -/
structure Area.Outside (area : Area) (a : UInt16) : Prop where
  inside : a.toNat < area.size
  notPointer : a ≠ 0
  notScratch : a ≠ 13
  apart : ¬ area.Contains a

/-- The address of a segment entry, if the registers hold what the machine has in their place. -/
def place? (s : StackMachine) (index : Nat) (segment : Segment) : Option UInt16 :=
  match s.address? index segment, segment with
  | some address, _ => some address
  | none, .temp => some (5 + index.toUInt16)
  | none, .pointer => some (3 + index.toUInt16)
  | none, .statics => some (16 + index.toUInt16)
  | none, _ => none

theorem toNat_offset {o : UInt16} {i : Nat} (h : o.toNat + i < 65536) : (o + i.toUInt16).toNat = o.toNat + i := by
  rw [UInt16.toNat_add, toNat_toUInt16 (by omega)]
  exact Nat.mod_eq_of_lt h

theorem update_block {n : Nat} (f : Fin n → Int16) (v : Int16) {k l : Fin n} {o index i : Nat} (hk : k.val = index)
    (hl : l.val = i - o) (ho : o ≤ i) : Function.update f k v l = if i = o + index then v else f l := by
  have hiff : l = k ↔ i = o + index := by
    rw [Fin.ext_iff, hk, hl]
    omega
  rw [Function.update_apply]
  simp only [hiff]

theorem cell_ofCells (number : UInt16 → Int16) (a : UInt16) : (ofCells number).cell a = number a := by
  have hblock : ∀ (o n : Nat) [NeZero n], o ≤ a.toNat → a.toNat < o + n →
      o.toUInt16 + (Fin.ofNat n (a.toNat - o)).val.toUInt16 = a := by
    intro o n _ hlow hhigh
    have hval : (Fin.ofNat n (a.toNat - o)).val = a.toNat - o := Nat.mod_eq_of_lt (by omega)
    have hsum : (o + (a.toNat - o)).toUInt16 = o.toUInt16 + (a.toNat - o).toUInt16 := UInt16.ofNat_add ..
    rw [hval, ← hsum, Nat.add_sub_cancel' hlow]
    exact UInt16.ofNat_toNat
  unfold cell
  split
  next h => exact congrArg number (hblock 3 2 h.1 h.2)
  split
  next h => exact congrArg number (hblock 5 8 h.1 h.2)
  split
  next h => exact congrArg number (hblock 16 240 h.1 h.2)
  rfl

section
variable {s : StackMachine} {index : Nat} {segment : Segment} {a : UInt16} (hindex : index < segment.size)
variable (ha : s.place? index segment = some a)
include hindex ha

theorem place_cases :
    s.address? index segment = some a ∨
      s.address? index segment = none ∧
        (segment = .temp ∧ index < 8 ∧ a.toNat = 5 + index ∨ segment = .pointer ∧ index < 2 ∧ a.toNat = 3 + index ∨
          segment = .statics ∧ index < 240 ∧ a.toNat = 16 + index) := by
  cases hb : s.address? index segment with
  | some b =>
    simp only [place?, hb] at ha
    exact .inl ha
  | none =>
    refine .inr ⟨rfl, ?_⟩
    cases segment with
    | temp =>
      have hindex : index < 8 := hindex
      simp only [place?, hb, Option.some.injEq] at ha
      exact .inl ⟨rfl, hindex, ha ▸ toNat_offset (by simp; omega)⟩
    | pointer =>
      have hindex : index < 2 := hindex
      simp only [place?, hb, Option.some.injEq] at ha
      exact .inr (.inl ⟨rfl, hindex, ha ▸ toNat_offset (by simp; omega)⟩)
    | statics =>
      have hindex : index < 240 := hindex
      simp only [place?, hb, Option.some.injEq] at ha
      exact .inr (.inr ⟨rfl, hindex, ha ▸ toNat_offset (by simp; omega)⟩)
    | _ => simp [place?, address?] at ha hb

variable (hwindow : ∀ b, s.address? index segment = some b → 256 ≤ b.toNat)
include hwindow

theorem cell_place : s.cell a = s.value index segment := by
  obtain hb | ⟨hb, ⟨rfl, hi, hn⟩ | ⟨rfl, hi, hn⟩ | ⟨rfl, hi, hn⟩⟩ := place_cases hindex ha
  · have hlow := hwindow a hb
    simp only [value, hb, cell]
    rw [if_neg (by omega), if_neg (by omega), if_neg (by omega)]
  · simp only [value, hb, cell, hn]
    rw [if_neg (by omega), if_pos (by omega), Nat.add_sub_cancel_left]
  · simp only [value, hb, cell, hn]
    rw [if_pos (by omega), Nat.add_sub_cancel_left]
  · simp only [value, hb, cell, hn]
    rw [if_neg (by omega), if_neg (by omega), if_pos (by omega), Nat.add_sub_cancel_left]

theorem cell_store (v : Int16) (b : UInt16) :
    (s.store index v segment).cell b = if b = a then v else s.cell b := by
  have hba : b = a ↔ b.toNat = a.toNat := UInt16.toNat_inj.symm
  obtain hb | ⟨hb, ⟨rfl, hi, hn⟩ | ⟨rfl, hi, hn⟩ | ⟨rfl, hi, hn⟩⟩ := place_cases hindex ha
  · have hlow := hwindow a hb
    simp only [store, hb]
    by_cases hba : b = a
    · subst hba
      rw [if_pos rfl, cell, if_neg (by omega), if_neg (by omega), if_neg (by omega)]
      exact Function.update_self ..
    · rw [if_neg hba]
      simp only [cell, Function.update_of_ne hba]
  · simp only [store, hb, hba, hn, cell]
    by_cases hblock : 5 ≤ b.toNat ∧ b.toNat < 13
    · have hpointer : ¬ (3 ≤ b.toNat ∧ b.toNat < 5) := by omega
      simp only [if_neg hpointer, if_pos hblock]
      exact update_block s.temp v (Nat.mod_eq_of_lt hi) (Nat.mod_eq_of_lt (by omega)) hblock.1
    · rw [if_neg hblock, if_neg hblock, if_neg (by omega : ¬ b.toNat = 5 + index)]
  · simp only [store, hb, hba, hn, cell]
    by_cases hblock : 3 ≤ b.toNat ∧ b.toNat < 5
    · rw [if_pos hblock, if_pos hblock]
      exact update_block s.pointer v (Nat.mod_eq_of_lt hi) (Nat.mod_eq_of_lt (by omega)) hblock.1
    · rw [if_neg hblock, if_neg hblock, if_neg (by omega : ¬ b.toNat = 3 + index)]
  · simp only [store, hb, hba, hn, cell]
    by_cases hblock : 16 ≤ b.toNat ∧ b.toNat < 256
    · have hpointer : ¬ (3 ≤ b.toNat ∧ b.toNat < 5) := by omega
      have htemp : ¬ (5 ≤ b.toNat ∧ b.toNat < 13) := by omega
      simp only [if_neg hpointer, if_neg htemp, if_pos hblock]
      exact update_block s.statics v (Nat.mod_eq_of_lt hi) (Nat.mod_eq_of_lt (by omega)) hblock.1
    · rw [if_neg hblock, if_neg hblock, if_neg (by omega : ¬ b.toNat = 16 + index)]

end

/-! ## Stacks -/

/-- Whether the values of a stack stand in the memory one after the other, the lowest at the base. -/
def Holds (base : Nat) (ram : Memory) : List Int16 → Prop
  | [] => True
  | v :: rest => ram.read (base + rest.length).toUInt16 = v.toUInt16 ∧ Holds base ram rest

theorem Holds.congr {base : Nat} {ram ram' : Memory} : ∀ {st : List Int16},
    (∀ n < st.length, ram'.read (base + n).toUInt16 = ram.read (base + n).toUInt16) → Holds base ram st →
    Holds base ram' st
  | [], _, _ => trivial
  | v :: rest, hsame, ⟨htop, hrest⟩ => by
    refine ⟨?_, hrest.congr fun n hn => hsame n (Nat.lt_succ_of_lt hn)⟩
    rw [hsame rest.length (Nat.lt_succ_self _), htop]

theorem Holds.extract {base : Nat} {ram : Memory} : ∀ {st : List Int16},
    base + st.length ≤ ram.size → base + st.length ≤ 65536 → Holds base ram st →
    (ram.extract base (base + st.length)).toList.map signedWord = st.reverse.map Int16.toInt
  | [], _, _, _ => by simp
  | v :: rest, hsize, hsmall, ⟨htop, hrest⟩ => by
    rw [List.length_cons] at hsize hsmall
    have ih := hrest.extract (by omega) (by omega)
    have hword : ram[base + rest.length] = v.toUInt16 := by
      rw [← htop, Memory.read, toNat_toUInt16 (by omega), Array.getD_eq_getD_getElem?,
        Array.getElem?_eq_getElem (by omega)]
      rfl
    rw [List.length_cons, ← Nat.add_assoc, Array.extract_succ_right (by omega) (by omega), Array.toList_push,
      List.map_append, ih, hword]
    simp [signedWord_toUInt16]

/-- Whether a memory represents a machine whose stack is in an area. -/
structure Represents (area : Area) (ram : Memory) (s : StackMachine) : Prop where
  size : ram.size = area.size
  depth : area.base + s.stack.length ≤ area.top
  pointer : ram.read 0 = (area.base + s.stack.length).toUInt16
  stack : Holds area.base ram s.stack
  cells : ∀ a, area.Outside a → ram.read a = (s.cell a).toUInt16

theorem toUInt16_add_sub (n k : Nat) : (n + k).toUInt16 - k.toUInt16 = n.toUInt16 := by
  have hsplit : (n + k).toUInt16 = n.toUInt16 + k.toUInt16 := UInt16.ofNat_add n k
  rw [hsplit, UInt16.add_sub_cancel]

namespace Area
variable (area : Area) {n k : Nat} {a : UInt16}

theorem toNat_slot (h : area.base + n ≤ area.top) : (area.base + n).toUInt16.toNat = area.base + n := by
  have := area.high
  have := area.small
  exact toNat_toUInt16 (by omega)

theorem slot_ne (hn : area.base + n ≤ area.top) (hk : area.base + k ≤ area.top) (h : n ≠ k) :
    (area.base + n).toUInt16 ≠ (area.base + k).toUInt16 := by
  intro heq
  have := congrArg UInt16.toNat heq
  rw [area.toNat_slot hn, area.toNat_slot hk] at this
  omega

theorem contains_slot (h : area.base + n < area.top) : area.Contains (area.base + n).toUInt16 := by
  unfold Contains
  rw [area.toNat_slot (by omega)]
  omega

theorem ne_of_contains (h : area.Contains a) {r : UInt16} (hr : r.toNat < 256) : a ≠ r := by
  rintro rfl
  have := area.low
  have := h.1
  omega

theorem slot_ne_zero (h : area.base + n < area.top) : (area.base + n).toUInt16 ≠ 0 :=
  area.ne_of_contains (area.contains_slot h) (by decide)

theorem toNat_lt_of_contains (h : area.Contains a) : a.toNat < area.size := Nat.lt_of_lt_of_le h.2 area.high

theorem outside_register (ha : a.toNat < 256) (h0 : a ≠ 0) (h13 : a ≠ 13) : area.Outside a where
  inside := by
    have := area.low
    have := area.ordered
    have := area.high
    omega
  notPointer := h0
  notScratch := h13
  apart h := area.ne_of_contains h ha rfl

theorem outside_window (h : area.Window a) : area.Outside a where
  inside := h.inside
  notPointer h0 := by
    have := h.low
    simp [h0] at this
  notScratch h13 := by
    have := h.low
    simp [h13] at this
  apart := h.apart

end Area

section
variable {area : Area} {ram ram' : Memory} {s s' : StackMachine} {v x y : Int16} {rest : List Int16} {a : UInt16}
variable (h : Represents area ram s)
include h

theorem Represents.put (hroom : area.base + rest.length < area.top) (hrest : Holds area.base ram rest)
    (hsize : ram'.size = ram.size) (hpointer : ram'.read 0 = (area.base + (rest.length + 1)).toUInt16)
    (htop : ram'.read (area.base + rest.length).toUInt16 = v.toUInt16)
    (hsame : ∀ a, a ≠ 0 → a ≠ (area.base + rest.length).toUInt16 → ram'.read a = ram.read a) :
    Represents area ram' { s with stack := v :: rest } where
  size := hsize.trans h.size
  depth := hroom
  pointer := hpointer
  stack := by
    refine ⟨htop, hrest.congr fun n hn => hsame _ ?_ (area.slot_ne (by omega) (by omega) (by omega))⟩
    exact area.ne_of_contains (area.contains_slot (by omega)) (by decide)
  cells a ha := by
    rw [hsame a ha.notPointer ?_, h.cells a ha]
    · rfl
    · rintro rfl
      exact ha.apart (area.contains_slot hroom)

theorem Represents.take (hstack : s.stack = v :: rest) (ha : area.Outside a) (hrest : s'.stack = rest)
    (hcell : ∀ b, s'.cell b = if b = a then v else s.cell b) : Represents area (Reference.pop ram a) s' := by
  obtain ⟨hsize, hdepth, hpointer, hholds, hcells⟩ := h
  rw [hstack, List.length_cons] at hdepth hpointer
  rw [hstack] at hholds
  have hsp : ram.read 0 - 1 = (area.base + rest.length).toUInt16 := by
    rw [hpointer]
    exact toUInt16_add_sub _ 1
  have hsmall : a.toNat < ram.size := hsize ▸ ha.inside
  have hzero : (0 : UInt16).toNat < ram.size := Nat.lt_of_le_of_lt (Nat.zero_le _) hsmall
  -- The address is neither the stack pointer nor the scratch register, so the three writes are to three cells.
  have hread : ∀ b, b ≠ 0 → b ≠ 13 → (Reference.pop ram a).read b = if b = a then v.toUInt16 else ram.read b := by
    intro b h0 h13
    unfold Reference.pop
    by_cases hb : b = a
    · rw [hb, if_pos rfl, Memory.read_write_self (by simpa using hsmall), hsp, hholds.1]
    · rw [if_neg hb, Memory.read_write_ne (Ne.symm hb), Memory.read_write_ne (Ne.symm h0),
        Memory.read_write_ne (Ne.symm h13)]
  constructor
  · simp [Reference.pop, hsize]
  · rw [hrest]
    omega
  · unfold Reference.pop
    rw [hrest, Memory.read_write_ne ha.notPointer, Memory.read_write_self (by simpa using hzero), hsp]
  · rw [hrest]
    refine hholds.2.congr fun n hn => ?_
    have hslot := area.contains_slot (n := n) (by omega)
    rw [hread _ (area.ne_of_contains hslot (by decide)) (area.ne_of_contains hslot (by decide)), if_neg]
    intro heq
    exact ha.apart (heq ▸ hslot)
  · intro b hb
    rw [hread b hb.notPointer hb.notScratch, hcell, hcells b hb]
    split <;> rfl

theorem Represents.pointer_sub {n k : Nat} (hlength : s.stack.length = n + k) :
    ram.read 0 - k.toUInt16 = (area.base + n).toUInt16 := by
  rw [h.pointer, hlength, ← Nat.add_assoc, toUInt16_add_sub]

theorem Represents.size_pos : (0 : UInt16).toNat < ram.size := by
  have := area.low
  have := area.ordered
  have := area.high
  rw [h.size]
  simp
  omega

theorem Represents.read_slot {n : Nat} (hroom : area.base + n < area.top) (w : UInt16) :
    (ram.write (area.base + n).toUInt16 w).read (area.base + n).toUInt16 = w :=
  Memory.read_write_self (h.size ▸ area.toNat_lt_of_contains (area.contains_slot hroom)) w

theorem Represents.push (hroom : area.base + s.stack.length < area.top) :
    Represents area (Reference.push ram v.toUInt16) { s with stack := v :: s.stack } := by
  unfold Reference.push
  rw [h.pointer]
  refine h.put hroom h.stack (by simp) ?_ ?_ ?_
  · rw [Memory.read_write_self (by simpa using h.size_pos)]
    exact (UInt16.ofNat_add _ 1).symm
  · rw [Memory.read_write_ne (area.slot_ne_zero hroom).symm, h.read_slot hroom]
  · intro a h0 ha
    rw [Memory.read_write_ne h0.symm, Memory.read_write_ne ha.symm]

theorem Represents.unary {f : UInt16 → UInt16} (hstack : s.stack = x :: rest) (hv : v.toUInt16 = f x.toUInt16) :
    Represents area (Reference.operate ram (.unary f)) { s with stack := v :: rest } := by
  have hroom := h.depth
  have hholds := h.stack
  rw [hstack] at hroom hholds
  have hsp : ram.read 0 - 1 = (area.base + rest.length).toUInt16 := h.pointer_sub (k := 1) (by rw [hstack]; rfl)
  simp only [Reference.operate]
  rw [hsp, hholds.1, ← hv]
  refine h.put hroom hholds.2 (by simp) ?_ (h.read_slot hroom _) ?_
  · rw [Memory.read_write_ne (area.slot_ne_zero hroom), h.pointer, hstack]
    rfl
  · intro a _ ha
    rw [Memory.read_write_ne ha.symm]

theorem Represents.binary {f : UInt16 → UInt16 → UInt16} (hstack : s.stack = y :: x :: rest)
    (hv : v.toUInt16 = f x.toUInt16 y.toUInt16) :
    Represents area (Reference.operate ram (.binary f)) { s with stack := v :: rest } := by
  have hdepth := h.depth
  have hholds := h.stack
  rw [hstack] at hdepth hholds
  obtain ⟨hy, hx, hrest⟩ := hholds
  rw [List.length_cons] at hy
  have hroom : area.base + rest.length < area.top := Nat.lt_of_succ_lt hdepth
  have hsp : ram.read 0 - 1 = (area.base + (rest.length + 1)).toUInt16 :=
    h.pointer_sub (k := 1) (by rw [hstack]; rfl)
  have hsp₂ : ram.read 0 - 2 = (area.base + rest.length).toUInt16 := h.pointer_sub (k := 2) (by rw [hstack]; rfl)
  simp only [Reference.operate]
  rw [hsp, hsp₂, hx, hy, ← hv]
  refine h.put hroom hrest (by simp) ?_ ?_ ?_
  · rw [Memory.read_write_self (by simpa using h.size_pos)]
  · rw [Memory.read_write_ne (area.slot_ne_zero hroom).symm, h.read_slot hroom]
  · intro a h0 ha
    rw [Memory.read_write_ne h0.symm, Memory.read_write_ne ha.symm]

end

/-! ## Entries -/

section
variable {area : Area} {ram : Memory} {s : StackMachine} {index : Nat} {segment : Segment} {a : UInt16}

section
variable (h : Represents area ram s)
include h

theorem Represents.register (ha : a.toNat < 256) (h0 : a ≠ 0) (h13 : a ≠ 13) : ram.read a = (s.cell a).toUInt16 :=
  h.cells a (area.outside_register ha h0 h13)

/-- The registers hold the bases of the windows, so an entry has the place that the machine gives it. -/
theorem Represents.address_eq : Reference.address? 0 ram index segment = s.place? index segment := by
  have hlocal : ram.read 1 = (s.memory 1).toUInt16 := h.register (by decide) (by decide) (by decide)
  have hargument : ram.read 2 = (s.memory 2).toUInt16 := h.register (by decide) (by decide) (by decide)
  have hthis : ram.read 3 = (s.pointer 0).toUInt16 := h.register (by decide) (by decide) (by decide)
  have hthat : ram.read 4 = (s.pointer 1).toUInt16 := h.register (by decide) (by decide) (by decide)
  cases segment with
  | statics =>
    simp only [Reference.address?, place?, StackMachine.address?, Nat.zero_add]
    rw [show (16 + index).toUInt16 = 16 + index.toUInt16 from UInt16.ofNat_add 16 index]
  | _ => simp only [Reference.address?, place?, StackMachine.address?, hlocal, hargument, hthis, hthat]

end

variable (hindex : index < segment.size) (hwindow : ∀ b, s.address? index segment = some b → area.Window b)
include hindex hwindow

/-- The place of an entry is a window's address or a register, never that of the pointer or the scratch register. -/
theorem outside_place (ha : s.place? index segment = some a) : area.Outside a := by
  have hregister : a.toNat ≠ 0 → a.toNat ≠ 13 → a.toNat < 256 → area.Outside a := by
    intro h0 h13 hlow
    refine area.outside_register hlow ?_ ?_
    · rintro rfl
      exact h0 rfl
    · rintro rfl
      exact h13 rfl
  obtain hb | ⟨-, ⟨-, hi, hn⟩ | ⟨-, hi, hn⟩ | ⟨-, hi, hn⟩⟩ := place_cases hindex ha
  · exact area.outside_window (hwindow a hb)
  · exact hregister (by omega) (by omega) (by omega)
  · exact hregister (by omega) (by omega) (by omega)
  · exact hregister (by omega) (by omega) (by omega)

theorem Represents.value_eq (h : Represents area ram s) :
    Reference.value 0 ram index segment = (s.value index segment).toUInt16 := by
  unfold Reference.value
  rw [h.address_eq]
  cases ha : s.place? index segment with
  | some a =>
    have hcell := cell_place hindex ha fun b hb => (hwindow b hb).low
    simp only [h.cells a (outside_place hindex hwindow ha), hcell]
  | none =>
    -- Only constants have no place.
    cases segment with
    | constant => exact (Int16.toUInt16_ofNat).symm
    | _ => simp [place?, address?] at ha

end

/-! ## Steps and runs -/

section
variable {area : Area} {ram : Memory} {s s' : StackMachine} {c : Command}

theorem Represents.finds (h : Represents area ram s) (hstack : ∀ cell ∈ stackCells (ram.read 0) c, area.Contains cell)
    (hsegment : ∀ cell, segmentCell? 0 ram c = some cell → area.Outside cell) : Clear ram c ∧ Inside 0 ram c := by
  refine ⟨fun cell hcell => ?_, fun cell hcell => ?_, fun cell hcell => ?_⟩
  · exact ⟨area.ne_of_contains (hstack cell hcell) (by decide), area.ne_of_contains (hstack cell hcell) (by decide)⟩
  · exact h.size ▸ area.toNat_lt_of_contains (hstack cell hcell)
  · exact h.size ▸ (hsegment cell hcell).inside

theorem Represents.operator (h : Represents area ram s) {op : Operator} {st : List Int16}
    (hop : operate op s.stack = some st) :
    (Clear ram (.arithmetic op.name) ∧ Inside 0 ram (.arithmetic op.name)) ∧
      Represents area (Reference.operate ram op.meaning) { s with stack := st } := by
  have hdepth := h.depth
  obtain ⟨f, x, rest, v, hf, hst, rfl, hv⟩ | ⟨f, x, y, rest, v, hf, hst, rfl, hv⟩ := operate_cases hop
  · rw [hst, List.length_cons] at hdepth
    refine ⟨h.finds ?_ nofun, hf ▸ h.unary hst hv⟩
    have hsp : ram.read 0 - 1 = (area.base + rest.length).toUInt16 := h.pointer_sub (k := 1) (by rw [hst]; rfl)
    rw [cells_unary hf, hsp]
    exact List.forall_mem_singleton.mpr (area.contains_slot hdepth)
  · rw [hst, List.length_cons, List.length_cons] at hdepth
    refine ⟨h.finds ?_ nofun, hf ▸ h.binary hst hv⟩
    have hsp : ram.read 0 - 1 = (area.base + (rest.length + 1)).toUInt16 :=
      h.pointer_sub (k := 1) (by rw [hst]; rfl)
    have hsp₂ : ram.read 0 - 2 = (area.base + rest.length).toUInt16 := h.pointer_sub (k := 2) (by rw [hst]; rfl)
    rw [cells_binary hf, hsp, hsp₂]
    refine List.forall_mem_cons.mpr ⟨area.contains_slot (by omega), List.forall_mem_singleton.mpr ?_⟩
    exact area.contains_slot hdepth

section
variable {segment : Segment} {i : Nat} (hi : i < segment.size)
variable (hwindow : ∀ a, s.address? i segment = some a → area.Window a)
include hi hwindow

theorem Represents.pushes (h : Represents area ram s) (hroom : area.base + s.stack.length < area.top) :
    (Clear ram (.push segment.name i) ∧ Inside 0 ram (.push segment.name i)) ∧
      Represents area (Reference.step 0 ram (.push segment.name i))
        { s with stack := s.value i segment :: s.stack } := by
  refine ⟨h.finds ?_ ?_, ?_⟩
  · exact List.forall_mem_singleton.mpr (h.pointer ▸ area.contains_slot hroom)
  · intro cell hcell
    simp only [segmentCell?, Segment.ofName?_name, Option.bind_some, h.address_eq, Int.toNat_natCast] at hcell
    exact outside_place hi hwindow hcell
  · simp only [Reference.step, Segment.ofName?_name, Int.toNat_natCast]
    rw [h.value_eq hi hwindow]
    exact h.push hroom

theorem Represents.pops (h : Represents area ram s) (hconstant : segment ≠ .constant) {v : Int16} {rest : List Int16}
    (hstack : s.stack = v :: rest) :
    (Clear ram (.pop segment.name i) ∧ Inside 0 ram (.pop segment.name i)) ∧
      Represents area (Reference.step 0 ram (.pop segment.name i))
        ({ s with stack := rest }.store i v segment) := by
  have hdepth := h.depth
  rw [hstack, List.length_cons] at hdepth
  have hsp : ram.read 0 - 1 = (area.base + rest.length).toUInt16 := h.pointer_sub (k := 1) (by rw [hstack]; rfl)
  obtain ⟨a, ha⟩ : ∃ a, s.place? i segment = some a := by
    cases segment with
    | constant => exact absurd rfl hconstant
    | _ => exact ⟨_, rfl⟩
  have houtside := outside_place hi hwindow ha
  refine ⟨h.finds ?_ ?_, ?_⟩
  · exact List.forall_mem_singleton.mpr (hsp ▸ area.contains_slot hdepth)
  · intro cell hcell
    simp only [segmentCell?, Segment.ofName?_name, Option.bind_some, h.address_eq, Int.toNat_natCast] at hcell
    exact outside_place hi hwindow hcell
  · simp only [Reference.step, Segment.ofName?_name, Option.bind_some, Int.toNat_natCast, h.address_eq, ha]
    refine h.take hstack houtside ?_ ?_
    · cases segment <;> rfl
    · exact cell_store (s := { s with stack := rest }) hi ha (fun b hb => (hwindow b hb).low) v

end

/-- A command that the machine can do finds its cells in the memory, and keeps the relation. -/
theorem Represents.step (h : Represents area ram s) (hc : Valid c) (hs : s.step c = some s')
    (hroom : area.base + s'.stack.length ≤ area.top) (hwindow : ∀ a, s.accessed? c = some a → area.Window a) :
    (Clear ram c ∧ Inside 0 ram c) ∧ Represents area (Reference.step 0 ram c) s' := by
  cases c with
  | arithmetic word =>
    obtain ⟨op, rfl⟩ := hc
    simp only [StackMachine.step, Operator.ofName?_name, Option.map_eq_some_iff] at hs
    obtain ⟨st, hop, rfl⟩ := hs
    rw [step_operator]
    exact h.operator hop
  | push name index =>
    obtain ⟨segment, i, rfl, rfl, hi⟩ := hc
    simp only [StackMachine.step, Segment.ofName?_name, Option.some.injEq, Int.toNat_natCast] at hs
    simp only [accessed?, Segment.ofName?_name, Option.bind_some, Int.toNat_natCast] at hwindow
    subst hs
    exact h.pushes hi hwindow hroom
  | pop name index =>
    obtain ⟨segment, i, rfl, rfl, hi, hconstant⟩ := hc
    simp only [accessed?, Segment.ofName?_name, Option.bind_some, Int.toNat_natCast] at hwindow
    cases hstack : s.stack with
    | nil => simp [StackMachine.step, Segment.ofName?_name, hstack] at hs
    | cons v rest =>
      simp only [StackMachine.step, Segment.ofName?_name, hstack, Option.some.injEq, Int.toNat_natCast] at hs
      subst hs
      exact h.pops hi hwindow hconstant hstack
  | _ =>
    simp only [StackMachine.step, Option.some.injEq] at hs
    subst hs
    exact ⟨h.finds nofun nofun, h⟩

theorem length_le_deepest (s : StackMachine) : ∀ cs : List Command, s.stack.length ≤ s.deepest cs
  | [] => Nat.le_refl _
  | _ :: _ => Nat.le_max_left ..

/-- Commands that the machine can do one after the other fit in the memory, and keep the relation. -/
theorem Represents.run : ∀ {cs : List Command} {ram : Memory} {s final : StackMachine}, Represents area ram s →
    (∀ c ∈ cs, Valid c) → s.run cs = some final → area.base + s.deepest cs ≤ area.top →
    (∀ a ∈ s.accesses cs, area.Window a) →
    Fits (cs.map (0, ·)) ram ∧ Represents area (Reference.run (cs.map (0, ·)) ram) final
  | [], ram, s, final, h, _, hrun, _, _ => by
    simp only [StackMachine.run, Option.some.injEq] at hrun
    exact ⟨trivial, hrun ▸ h⟩
  | c :: rest, ram, s, final, h, hvalid, hrun, hdeep, hwindow => by
    rw [StackMachine.run, Option.bind_eq_some_iff] at hrun
    obtain ⟨s', hs, hrun⟩ := hrun
    simp only [deepest, hs, Option.map_some, Option.getD_some] at hdeep
    simp only [accesses, hs, Option.map_some, Option.getD_some, List.forall_mem_append, Option.mem_toList] at hwindow
    have hdeep' : area.base + s'.deepest rest ≤ area.top := by omega
    have hroom : area.base + s'.stack.length ≤ area.top := by
      have := s'.length_le_deepest rest
      omega
    have hvalid := List.forall_mem_cons.mp hvalid
    obtain ⟨⟨hclear, hinside⟩, hnext⟩ := h.step hvalid.1 hs hroom hwindow.1
    obtain ⟨hfits, hfinal⟩ := hnext.run hvalid.2 hrun hdeep' hwindow.2
    exact ⟨⟨hclear, hinside, hfits⟩, hfinal⟩

end

end StackMachine

end HackStack
