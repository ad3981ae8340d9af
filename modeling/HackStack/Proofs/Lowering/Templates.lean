import HackStack.Proofs.Lowering.Reference

/-!
# What the templates do

Each template that code is made of is followed on the registers and the memory. Together they do what the
reference machine does in one step, or leave the memory when one of its cells does not exist.
-/

namespace HackStack

open Asm

/-- Whether the predefined symbols that generated code names have their addresses. -/
structure Standard (σ : Text → UInt16) : Prop where
  sp : σ (ascii "SP") = 0
  lcl : σ (ascii "LCL") = 1
  arg : σ (ascii "ARG") = 2
  this : σ (ascii "THIS") = 3
  that : σ (ascii "THAT") = 4
  r5 : σ (ascii "R5") = 5
  r13 : σ (ascii "R13") = 13

theorem standard_of_predefined {table : SymbolTable} (h : ∀ entry ∈ predefined, table[entry.1]? = some entry.2) :
    Standard table.address := by
  have key : ∀ (name : Text) (v : UInt16), (name, v) ∈ predefined → table.address name = v := by
    intro name v hv
    unfold SymbolTable.address
    rw [h _ hv]; rfl
  exact ⟨key _ _ (by decide), key _ _ (by decide), key _ _ (by decide), key _ _ (by decide), key _ _ (by decide),
    key _ _ (by decide), key _ _ (by decide)⟩

theorem standard_of_extends {table : SymbolTable} (h : initialTable.Extends table) : Standard table.address :=
  standard_of_predefined fun entry hentry => h _ _ (initialTable_of_mem entry hentry)

namespace Template

/-! ## One line at a time -/

section
variable (σ : Text → UInt16) (ls : List Line) {s : Data} {dest : List Register} {comp : Computation}

theorem effects_load (operand : Operand) :
    effects σ (load operand :: ls) s = effects σ ls { s with a := wordUnder σ (.load operand) } := rfl

theorem effects_stackPointer (hσ : Standard σ) : effects σ (stackPointer :: ls) s = effects σ ls { s with a := 0 } := by
  rw [← hσ.sp]; rfl

theorem effects_scratch (hσ : Standard σ) : effects σ (scratch :: ls) s = effects σ ls { s with a := 13 } := by
  rw [← hσ.r13]; rfl

def assigned (dest : List Register) (comp : Computation) (s : Data) : Data :=
  let out := comp.value s.d (if comp.readsMemory then s.ram.read s.a else s.a)
  { a := if .a ∈ dest then out else s.a
    d := if .d ∈ dest then out else s.d
    ram := if .m ∈ dest then s.ram.write s.a out else s.ram }

theorem effects_assign (h : s.a.toNat < s.ram.size) :
    effects σ (assign dest comp :: ls) s = effects σ ls (assigned dest comp s) := by
  have : ¬ ((comp.readsMemory = true ∨ .m ∈ dest) ∧ s.ram.size ≤ s.a.toNat) := fun hb => Nat.not_lt.mpr hb.2 h
  simp only [assign, effects, Instruction.effect, if_neg this, Option.bind_some]
  rfl

theorem effects_register (hr : comp.readsMemory = false) (hm : .m ∉ dest) :
    effects σ (assign dest comp :: ls) s = effects σ ls (assigned dest comp s) := by
  have : ¬ ((comp.readsMemory = true ∨ .m ∈ dest) ∧ s.ram.size ≤ s.a.toNat) := by simp [hr, hm]
  simp only [assign, effects, Instruction.effect, if_neg this, Option.bind_some]
  rfl

theorem effects_beyond (hb : comp.readsMemory = true ∨ .m ∈ dest) (h : s.ram.size ≤ s.a.toNat) :
    effects σ (assign dest comp :: ls) s = none := by
  simp only [assign, effects, Instruction.effect, if_pos (And.intro hb h), Option.bind_none]

end

/-! ## Templates -/

theorem register_inside {ram : Memory} {a : UInt16} (hsize : 16 ≤ ram.size) (h : a.toNat < 16) : a.toNat < ram.size :=
  Nat.lt_of_lt_of_le h hsize

section
variable {σ : Text → UInt16} (hσ : Standard σ) {s : Data} (hsize : 16 ≤ s.ram.size)
include hσ hsize

theorem effects_popOperands (h0 : s.ram.read 0 - 1 ≠ 0) (hin : (s.ram.read 0 - 1).toNat < s.ram.size) :
    effects σ popOperands s =
      some ⟨s.ram.read 0 - 2, s.ram.read (s.ram.read 0 - 1), s.ram.write 0 (s.ram.read 0 - 1)⟩ := by
  have h2 : s.ram.read 0 - 1 - 1 = s.ram.read 0 - 2 := by grind
  rw [popOperands, effects_stackPointer σ _ hσ, effects_assign, effects_assign, effects_register σ _ rfl (by decide)]
  · simp [assigned, effects, Computation.value, Computation.readsMemory, h2, Memory.read_write_ne h0.symm]
  · simpa [assigned, Computation.value, Computation.readsMemory] using hin
  · exact register_inside hsize (by decide : (0 : UInt16).toNat < 16)

theorem effects_popOperands_beyond (hout : s.ram.size ≤ (s.ram.read 0 - 1).toNat) :
    effects σ popOperands s = none := by
  rw [popOperands, effects_stackPointer σ _ hσ, effects_assign, effects_beyond σ _ (.inl rfl)]
  · simpa [assigned, Computation.value, Computation.readsMemory] using hout
  · exact register_inside hsize (by decide : (0 : UInt16).toNat < 16)

theorem effects_pointToTop : effects σ pointToTop s = some { s with a := s.ram.read 0 - 1 } := by
  rw [pointToTop, effects_stackPointer σ _ hσ, effects_assign]
  · simp [assigned, effects, Computation.value, Computation.readsMemory]
  · exact register_inside hsize (by decide : (0 : UInt16).toNat < 16)

theorem effects_pushData (h0 : s.ram.read 0 ≠ 0) (hin : (s.ram.read 0).toNat < s.ram.size) :
    effects σ pushData s = some ⟨0, s.d, Reference.push s.ram s.d⟩ := by
  rw [pushData, effects_stackPointer σ _ hσ, effects_assign, effects_assign, effects_stackPointer σ _ hσ,
    effects_assign]
  · simp [assigned, effects, Computation.value, Computation.readsMemory, Reference.push, Memory.read_write_ne h0]
  · simp only [assigned, List.mem_singleton, reduceCtorEq, if_false, if_true, Memory.size_write]
    exact register_inside hsize (by decide : (0 : UInt16).toNat < 16)
  · simpa [assigned, Computation.value, Computation.readsMemory] using hin
  · exact register_inside hsize (by decide : (0 : UInt16).toNat < 16)

theorem effects_pushData_beyond (hout : s.ram.size ≤ (s.ram.read 0).toNat) : effects σ pushData s = none := by
  rw [pushData, effects_stackPointer σ _ hσ, effects_assign, effects_beyond σ _ (.inr (by decide))]
  · simpa [assigned, Computation.value, Computation.readsMemory] using hout
  · exact register_inside hsize (by decide : (0 : UInt16).toNat < 16)

/-- The data on the way of a pop, when the destination is in the scratch register and the value in the data
register. -/
theorem effects_popToAddress_eq (h0 : s.ram.read 0 - 1 ≠ 0) (h13 : s.ram.read 0 - 1 ≠ 13)
    (hin : (s.ram.read 0 - 1).toNat < s.ram.size) :
    effects σ popToAddress s =
      effects σ [assign [.m] .d]
        ⟨s.d, s.ram.read (s.ram.read 0 - 1), (s.ram.write 13 s.d).write 0 (s.ram.read 0 - 1)⟩ := by
  have hlt : ∀ a : UInt16, a.toNat < 16 → a.toNat < s.ram.size := fun a ha => register_inside hsize ha
  have hsp : (s.ram.write 13 s.d).read 0 = s.ram.read 0 := Memory.read_write_ne (by decide) _ _
  have htop : ((s.ram.write 13 s.d).write 0 (s.ram.read 0 - 1)).read (s.ram.read 0 - 1) =
      s.ram.read (s.ram.read 0 - 1) := by
    rw [Memory.read_write_ne h0.symm, Memory.read_write_ne h13.symm]
  have hscratch : ((s.ram.write 13 s.d).write 0 (s.ram.read 0 - 1)).read 13 = s.d := by
    rw [Memory.read_write_ne (by decide), Memory.read_write_self (hlt 13 (by decide))]
  rw [popToAddress, effects_scratch σ _ hσ, effects_assign, effects_stackPointer σ _ hσ, effects_assign,
    effects_assign, effects_scratch σ _ hσ, effects_assign]
  · simp [assigned, Computation.value, Computation.readsMemory, hsp, htop, hscratch]
  · simpa [assigned] using hlt 13 (by decide)
  · simpa [assigned, Computation.value, Computation.readsMemory, hsp] using hin
  · simpa [assigned] using hlt 0 (by decide)
  · exact hlt 13 (by decide)

theorem effects_popToAddress (h0 : s.ram.read 0 - 1 ≠ 0) (h13 : s.ram.read 0 - 1 ≠ 13)
    (hin : (s.ram.read 0 - 1).toNat < s.ram.size) (hd : s.d.toNat < s.ram.size) :
    ∃ s', effects σ popToAddress s = some s' ∧ s'.ram = Reference.pop s.ram s.d := by
  rw [effects_popToAddress_eq hσ hsize h0 h13 hin, effects_assign]
  · exact ⟨_, rfl, rfl⟩
  · simpa using hd

theorem effects_popToAddress_beyond (h0 : s.ram.read 0 - 1 ≠ 0) (h13 : s.ram.read 0 - 1 ≠ 13)
    (hout : s.ram.size ≤ (s.ram.read 0 - 1).toNat ∨ s.ram.size ≤ s.d.toNat) :
    effects σ popToAddress s = none := by
  by_cases hin : (s.ram.read 0 - 1).toNat < s.ram.size
  · rw [effects_popToAddress_eq hσ hsize h0 h13 hin, effects_beyond σ _ (.inr (by decide))]
    simpa using hout.resolve_left (by omega)
  · have hsp : (s.ram.write 13 s.d).read 0 = s.ram.read 0 := Memory.read_write_ne (by decide) _ _
    rw [popToAddress, effects_scratch σ _ hσ, effects_assign, effects_stackPointer σ _ hσ, effects_assign,
      effects_beyond σ _ (.inl rfl)]
    · simpa [assigned, Computation.value, Computation.readsMemory, hsp] using hin
    · simpa [assigned] using register_inside hsize (by decide : (0 : UInt16).toNat < 16)
    · exact register_inside hsize (by decide : (13 : UInt16).toNat < 16)

/-! ## Operators -/

section
variable (h2 : s.ram.read 0 - 2 ≠ 0) (h1 : s.ram.read 0 - 1 ≠ 0) (hin2 : (s.ram.read 0 - 2).toNat < s.ram.size)
variable (hin1 : (s.ram.read 0 - 1).toNat < s.ram.size)
include h2 h1 hin2 hin1

theorem effects_binary {comp : Computation} (hr : comp.readsMemory = true) {f : UInt16 → UInt16 → UInt16}
    (hf : ∀ x y, comp.value y x = f x y) :
    ∃ s', effects σ (binary comp) s = some s' ∧ s'.ram = Reference.operate s.ram (.binary f) := by
  rw [binary, effects_append, effects_popOperands hσ hsize h1 hin1, Option.bind_some, effects_assign]
  · refine ⟨_, rfl, ?_⟩
    simp only [assigned, hr, List.mem_singleton, if_true, Memory.read_write_ne h2.symm, hf, Reference.operate]
    rw [Memory.write_comm h2]
  · simpa using hin2

end

theorem effects_binary_beyond (h1 : s.ram.read 0 - 1 ≠ 0)
    (hout : s.ram.size ≤ (s.ram.read 0 - 2).toNat ∨ s.ram.size ≤ (s.ram.read 0 - 1).toNat) (comp : Computation) :
    effects σ (binary comp) s = none := by
  rw [binary, effects_append]
  by_cases hin : (s.ram.read 0 - 1).toNat < s.ram.size
  · rw [effects_popOperands hσ hsize h1 hin, Option.bind_some, effects_beyond σ _ (.inr (by decide))]
    simpa using hout.resolve_right (by omega)
  · rw [effects_popOperands_beyond hσ hsize (by omega), Option.bind_none]

theorem effects_top {comp : Computation} (hr : comp.readsMemory = true) {f : UInt16 → UInt16}
    (hf : ∀ y, comp.value s.d y = f y) (hin : (s.ram.read 0 - 1).toNat < s.ram.size) :
    ∃ s', effects σ (pointToTop ++ [assign [.m] comp]) s = some s' ∧
      s'.ram = Reference.operate s.ram (.unary f) := by
  rw [effects_append, effects_pointToTop hσ hsize, Option.bind_some, effects_assign]
  · refine ⟨_, rfl, ?_⟩
    simp only [assigned, hr, List.mem_singleton, if_true, hf, Reference.operate]
  · simpa using hin

theorem effects_top_beyond (comp : Computation) (hout : s.ram.size ≤ (s.ram.read 0 - 1).toNat) :
    effects σ (pointToTop ++ [assign [.m] comp]) s = none := by
  rw [effects_append, effects_pointToTop hσ hsize, Option.bind_some, effects_beyond σ _ (.inr (by decide))]
  simpa using hout

end

/-! ## Segment entries -/

section
variable (σ : Text → UInt16) {s : Data}

def base (ram : Memory) (register : UInt16) : Input → UInt16
  | .m => ram.read register
  | .a => register

theorem effects_direct (operand : Operand) (ls : List Line) :
    effects σ (load operand :: assign [.d] (.y .a) :: ls) s =
      effects σ ls { s with a := wordUnder σ (.load operand), d := wordUnder σ (.load operand) } := by
  rw [effects_load, effects_register σ _ rfl (by decide)]
  simp [assigned, Computation.value, Computation.readsMemory]

theorem effects_fetch (operand : Operand) (h : (wordUnder σ (.load operand)).toNat < s.ram.size) :
    effects σ [load operand, assign [.d] (.y .m)] s =
      some ⟨wordUnder σ (.load operand), s.ram.read (wordUnder σ (.load operand)), s.ram⟩ := by
  rw [effects_load, effects_assign σ _ h]
  simp [assigned, effects, Computation.value, Computation.readsMemory]

theorem effects_fetch_beyond (operand : Operand) (h : s.ram.size ≤ (wordUnder σ (.load operand)).toNat) :
    effects σ [load operand, assign [.d] (.y .m)] s = none := by
  rw [effects_load, effects_beyond σ _ (.inl rfl) h]

variable {symbol : Text} {register : UInt16} (hs : σ symbol = register) (hr : register.toNat < s.ram.size)
include hs hr

theorem effects_indexed (i : Input) (index : Nat) (ls : List Line) :
    effects σ (load (.symbol symbol) :: assign [.d] (.y i) :: load (.constant index) :: ls) s =
      effects σ ls { s with a := index.toUInt16, d := base s.ram register i } := by
  rw [effects_load, effects_assign]
  · cases i <;> simp [assigned, effects_load, wordUnder, hs, Computation.value, Computation.readsMemory, base]
  · simpa only [wordUnder, hs] using hr

theorem effects_indexedAddress (i : Input) (index : Nat) :
    effects σ [load (.symbol symbol), assign [.d] (.y i), load (.constant index), assign [.d] (.dPlusY .a)] s =
      some ⟨index.toUInt16, base s.ram register i + index.toUInt16, s.ram⟩ := by
  rw [effects_indexed σ hs hr, effects_register σ _ rfl (by decide)]
  simp [assigned, effects, Computation.value, Computation.readsMemory]

theorem effects_indexedValue (i : Input) (index : Nat)
    (h : (base s.ram register i + index.toUInt16).toNat < s.ram.size) :
    effects σ [load (.symbol symbol), assign [.d] (.y i), load (.constant index), assign [.a] (.dPlusY .a),
        assign [.d] (.y .m)] s =
      some ⟨base s.ram register i + index.toUInt16, s.ram.read (base s.ram register i + index.toUInt16), s.ram⟩ := by
  rw [effects_indexed σ hs hr, effects_register σ _ rfl (by decide), effects_assign]
  · simp [assigned, effects, Computation.value, Computation.readsMemory]
  · simpa [assigned, Computation.value, Computation.readsMemory] using h

theorem effects_indexedValue_beyond (i : Input) (index : Nat)
    (h : s.ram.size ≤ (base s.ram register i + index.toUInt16).toNat) :
    effects σ [load (.symbol symbol), assign [.d] (.y i), load (.constant index), assign [.a] (.dPlusY .a),
        assign [.d] (.y .m)] s = none := by
  rw [effects_indexed σ hs hr, effects_register σ _ rfl (by decide), effects_beyond σ _ (.inl rfl)]
  simpa [assigned, Computation.value, Computation.readsMemory] using h

end

end Template

namespace Generator

open Template

theorem word_pointerRegister {σ : Text → UInt16} (hσ : Standard σ) {index : Nat} (h : index < 2) :
    wordUnder σ (.load (pointerRegister index)) = 3 + index.toUInt16 := by
  match index, h with
  | 0, _ => exact hσ.this
  | 1, _ => exact hσ.that

theorem word_staticOperand {g : Generator} (hg : g.usesSymbols = false) (σ : Text → UInt16) (index : Nat) :
    wordUnder σ (.load (g.staticOperand index)) = (16 + (g.staticFirst + index)).toUInt16 := by
  simp only [staticOperand, hg, Bool.false_eq_true, if_false, wordUnder, Segment.staticBase, Nat.add_assoc]

section
variable {σ : Text → UInt16} (hσ : Standard σ) {g : Generator} (hg : g.usesSymbols = false)
variable {index : Nat} {segment : Segment} (hindex : index < segment.size)
include hσ hg hindex

/-- The two ways to reach an entry in memory: an index on top of a register, or an address of its own. -/
theorem addressing (hc : segment ≠ .constant) :
    (∃ symbol register i, σ symbol = register ∧ register.toNat < 16 ∧
      (∀ ram, Reference.address? g.staticFirst ram index segment = some (base ram register i + index.toUInt16)) ∧
      g.loadAddress segment index =
        [load (.symbol symbol), assign [.d] (.y i), load (.constant index), assign [.d] (.dPlusY .a)] ∧
      g.loadValue segment index =
        [load (.symbol symbol), assign [.d] (.y i), load (.constant index), assign [.a] (.dPlusY .a),
          assign [.d] (.y .m)]) ∨
    ∃ operand, (∀ ram, Reference.address? g.staticFirst ram index segment = some (wordUnder σ (.load operand))) ∧
      g.loadAddress segment index = [load operand, assign [.d] (.y .a)] ∧
      g.loadValue segment index = [load operand, assign [.d] (.y .m)] := by
  cases segment with
  | constant => exact absurd rfl hc
  | locals => exact .inl ⟨_, 1, .m, hσ.lcl, by decide, fun _ => rfl, rfl, rfl⟩
  | arguments => exact .inl ⟨_, 2, .m, hσ.arg, by decide, fun _ => rfl, rfl, rfl⟩
  | this => exact .inl ⟨_, 3, .m, hσ.this, by decide, fun _ => rfl, rfl, rfl⟩
  | that => exact .inl ⟨_, 4, .m, hσ.that, by decide, fun _ => rfl, rfl, rfl⟩
  | temp => exact .inl ⟨_, 5, .a, hσ.r5, by decide, fun _ => rfl, rfl, rfl⟩
  | pointer =>
    refine .inr ⟨pointerRegister index, fun _ => ?_, rfl, rfl⟩
    rw [word_pointerRegister hσ hindex]; rfl
  | statics =>
    refine .inr ⟨g.staticOperand index, fun _ => ?_, rfl, rfl⟩
    rw [word_staticOperand hg]; rfl

variable {s : Data} (hsize : 16 ≤ s.ram.size)
include hsize

theorem effects_loadAddress {address : UInt16}
    (ha : Reference.address? g.staticFirst s.ram index segment = some address) :
    ∃ a, effects σ (g.loadAddress segment index) s = some ⟨a, address, s.ram⟩ := by
  have hc : segment ≠ .constant := by rintro rfl; cases ha
  obtain ⟨symbol, register, i, hs, hr, haddress, hcode, -⟩ | ⟨operand, haddress, hcode, -⟩ :=
    addressing hσ hg hindex hc
  · obtain rfl := Option.some.inj ((haddress s.ram).symm.trans ha)
    exact ⟨_, hcode ▸ effects_indexedAddress σ hs (register_inside hsize hr) i index⟩
  · obtain rfl := Option.some.inj ((haddress s.ram).symm.trans ha)
    exact ⟨_, hcode ▸ effects_direct σ operand []⟩

theorem effects_loadValue
    (h : ∀ a, Reference.address? g.staticFirst s.ram index segment = some a → a.toNat < s.ram.size) :
    ∃ a, effects σ (g.loadValue segment index) s =
      some ⟨a, Reference.value g.staticFirst s.ram index segment, s.ram⟩ := by
  by_cases hc : segment = .constant
  · subst hc
    exact ⟨_, effects_direct σ (.constant index) []⟩
  · unfold Reference.value
    obtain ⟨symbol, register, i, hs, hr, haddress, -, hcode⟩ | ⟨operand, haddress, -, hcode⟩ :=
      addressing hσ hg hindex hc
    · rw [hcode, haddress]
      exact ⟨_, effects_indexedValue σ hs (register_inside hsize hr) i index (h _ (haddress s.ram))⟩
    · rw [hcode, haddress]
      exact ⟨_, effects_fetch σ operand (h _ (haddress s.ram))⟩

theorem effects_loadValue_beyond {address : UInt16}
    (ha : Reference.address? g.staticFirst s.ram index segment = some address) (hout : s.ram.size ≤ address.toNat) :
    effects σ (g.loadValue segment index) s = none := by
  have hc : segment ≠ .constant := by rintro rfl; cases ha
  obtain ⟨symbol, register, i, hs, hr, haddress, -, hcode⟩ | ⟨operand, haddress, -, hcode⟩ :=
    addressing hσ hg hindex hc
  · obtain rfl := Option.some.inj ((haddress s.ram).symm.trans ha)
    exact hcode ▸ effects_indexedValue_beyond σ hs (register_inside hsize hr) i index hout
  · obtain rfl := Option.some.inj ((haddress s.ram).symm.trans ha)
    exact hcode ▸ effects_fetch_beyond σ operand hout

end

end Generator

end HackStack
