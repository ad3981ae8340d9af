import HackStack.Proofs.Machine.Straight

/-!
# Two machines with the same variables in different cells

Two runs of one program may keep a static variable in different cells, and everything else in the same ones. What
can differ between them is then a variable's address, which is in a register or on its way through the scratch
register, and the cells in between. A `Tie` says how the words of the two runs are related at one place; `assign`
carries the ties of the registers over an instruction, and says nothing where two runs might come apart.
-/

namespace HackStack

open Asm

/-- Whether a cell may hold different words in the two runs: the scratch register and the static cells. -/
def Reserved (address : Nat) : Prop := address = 13 ∨ 16 ≤ address ∧ address ≤ 255

instance (address : Nat) : Decidable (Reserved address) :=
  inferInstanceAs (Decidable (address = 13 ∨ 16 ≤ address ∧ address ≤ 255))

/-! ## Ties -/

/-- How the words of two runs are related: not at all, by being the same word, by being a given word or the address of
a given label, or by being the addresses of the same static variable. -/
inductive Tie where
  | loose
  | equal
  | word (w : UInt16)
  | target (name : Text)
  | twin
  deriving DecidableEq, Repr

namespace Tie

def isShared : Tie → Bool
  | equal | word _ | target _ => true
  | loose | twin => false

def join (x y : Tie) : Tie := if x.isShared && y.isShared then equal else loose

def sum : Tie → Tie → Tie
  | word v, word w => word (v + w)
  | x, y => x.join y

end Tie

/-- The tie of a computed value, given those of the data register and of the second input. -/
def Asm.Computation.tie (x y : Tie) : Computation → Tie
  | .zero | .one | .minusOne => .equal
  | .d => x
  | .y _ => y
  | .notD | .negD | .incD | .swappedIncD | .decD => x.join .equal
  | .notY _ | .negY _ | .incY _ | .swappedIncY _ | .decY _ => y.join .equal
  | .dPlusY _ | .swappedDPlusY _ => x.sum y
  | .dMinusY _ | .yMinusD _ | .dAndY _ | .swappedDAndY _ | .dOrY _ | .swappedDOrY _ => x.join y

section
variable (σ : Text → UInt16) (β : UInt16 → UInt16 → Prop)

/-- Whether two words are tied. `σ` has the addresses of labels, and `β` relates the two addresses of a static
variable. -/
def Tie.Holds (v v' : UInt16) : Tie → Prop
  | loose => True
  | equal => v = v'
  | word w => v = w ∧ v' = w
  | target name => v = σ name ∧ v' = σ name
  | twin => β v v'

/-- Whether addresses of static variables are in the static cells and belong to one variable each. -/
structure Static : Prop where
  left : ∀ v v', β v v' → 16 ≤ v.toNat ∧ v.toNat ≤ 255
  right : ∀ v v', β v v' → 16 ≤ v'.toNat ∧ v'.toNat ≤ 255
  unique : ∀ v v' w w', β v v' → β w w' → (v = w ↔ v' = w')

variable {σ β} {x y : Tie} {v v' w w' : UInt16}

theorem Tie.Holds.shared (h : x.Holds σ β v v') (hx : x.isShared = true) : v = v' := by
  cases x with
  | loose | twin => cases hx
  | equal => exact h
  | word | target => exact h.1.trans h.2.symm

theorem Tie.Holds.join (h : x.Holds σ β v v') (hy : y.Holds σ β w w') (f : UInt16 → UInt16 → UInt16) :
    (x.join y).Holds σ β (f v w) (f v' w') := by
  unfold Tie.join
  split
  · rename_i hs
    rw [Bool.and_eq_true] at hs
    show f v w = f v' w'
    rw [h.shared hs.1, hy.shared hs.2]
  · trivial

theorem Tie.Holds.sum (h : x.Holds σ β v v') (hy : y.Holds σ β w w') : (x.sum y).Holds σ β (v + w) (v' + w') := by
  unfold Tie.sum
  split
  · exact ⟨by rw [h.1, hy.1], by rw [h.2, hy.2]⟩
  · exact h.join hy (· + ·)

theorem Asm.Computation.tie_holds (h : x.Holds σ β v v') (hy : y.Holds σ β w w') (comp : Computation) :
    (comp.tie x y).Holds σ β (comp.value v w) (comp.value v' w') := by
  have hequal : Tie.equal.Holds σ β 0 0 := rfl
  cases comp with
  | zero | one | minusOne => rfl
  | d => exact h
  | y => exact hy
  | notD => exact h.join hequal fun v _ => ~~~v
  | negD => exact h.join hequal fun v _ => -v
  | incD | swappedIncD => exact h.join hequal fun v _ => v + 1
  | decD => exact h.join hequal fun v _ => v - 1
  | notY => exact hy.join hequal fun w _ => ~~~w
  | negY => exact hy.join hequal fun w _ => -w
  | incY | swappedIncY => exact hy.join hequal fun w _ => w + 1
  | decY => exact hy.join hequal fun w _ => w - 1
  | dPlusY | swappedDPlusY => exact h.sum hy
  | dMinusY => exact h.join hy (· - ·)
  | yMinusD => exact h.join hy fun v w => w - v
  | dAndY | swappedDAndY => exact h.join hy (· &&& ·)
  | dOrY | swappedDOrY => exact h.join hy (· ||| ·)

end

/-! ## Memories -/

/-- Where two tied addresses point: to a cell that both runs have in common, to the scratch register, or to a static
variable. -/
inductive Place where
  | common
  | scratch
  | static
  deriving DecidableEq, Repr

/-- The place that tied addresses point to. `pointed` says that they are known not to be reserved. -/
def Tie.place? (pointed : Bool) : Tie → Option Place
  | word w => if w = 13 then some .scratch else if Reserved w.toNat then none else some .common
  | equal | target _ => if pointed then some .common else none
  | twin => some .static
  | loose => none

/-- The tie of the words at a place, given that of the scratch register. -/
def Place.held (scratch : Tie) : Place → Tie
  | .scratch => scratch
  | .common | .static => .equal

section
variable (β : UInt16 → UInt16 → Prop)

def Place.Here (a a' : UInt16) : Place → Prop
  | common => a = a' ∧ ¬ Reserved a.toNat
  | scratch => a = 13 ∧ a' = 13
  | static => β a a'

/-- Whether two memories are alike: in all cells that are not reserved, and in the values of static variables. -/
structure Alike (ram ram' : Memory) : Prop where
  size : ram.size = ram'.size
  room : 256 ≤ ram.size
  cells : ∀ address : Nat, ¬ Reserved address → ram[address]? = ram'[address]?
  statics : ∀ v v', β v v' → ram.read v = ram'.read v'

variable {σ : Text → UInt16} {β} {x : Tie} {a a' v v' : UInt16} {place : Place} {ram ram' : Memory}

theorem Tie.Holds.here {pointed : Bool} (h : x.Holds σ β a a') (hp : pointed = true → ¬ Reserved a.toNat)
    (hplace : x.place? pointed = some place) : place.Here β a a' := by
  cases x with
  | loose => cases hplace
  | twin =>
    cases hplace
    exact h
  | word w =>
    obtain ⟨rfl, rfl⟩ := h
    simp only [Tie.place?] at hplace
    split at hplace
    · rename_i hw
      cases hplace
      exact ⟨hw, hw⟩
    · split at hplace
      · cases hplace
      · rename_i hr
        cases hplace
        exact ⟨rfl, hr⟩
  | equal | target =>
    simp only [Tie.place?] at hplace
    split at hplace
    · rename_i hpointed
      cases hplace
      exact ⟨h.shared rfl, hp hpointed⟩
    · cases hplace

theorem Place.Here.beyond (hβ : Static β) (h : Alike β ram ram') (hp : place.Here β a a') :
    ram.size ≤ a.toNat ↔ ram'.size ≤ a'.toNat := by
  have hsize := h.size
  have hroom := h.room
  cases place with
  | common =>
    obtain ⟨rfl, -⟩ := hp
    rw [hsize]
  | scratch =>
    obtain ⟨rfl, rfl⟩ := hp
    rw [hsize]
  | static =>
    have := hβ.left a a' hp
    have := hβ.right a a' hp
    omega

theorem Place.Here.read (h : Alike β ram ram') (hp : place.Here β a a') {scratch : Tie}
    (hs : scratch.Holds σ β (ram.read 13) (ram'.read 13)) :
    (place.held scratch).Holds σ β (ram.read a) (ram'.read a') := by
  cases place with
  | common =>
    obtain ⟨rfl, hr⟩ := hp
    show ram.read a = ram'.read a
    simp only [Memory.read, Array.getD_eq_getD_getElem?, h.cells a.toNat hr]
  | scratch =>
    obtain ⟨rfl, rfl⟩ := hp
    exact hs
  | static => exact h.statics a a' hp

theorem getElem?_write_ne {address : Nat} (hne : a.toNat ≠ address) : (ram.write a v)[address]? = ram[address]? :=
  Array.getElem?_setIfInBounds_ne hne

/-- A write to places of both runs keeps the memories alike, if it is to the scratch register or writes the same. -/
theorem Alike.write (hβ : Static β) (h : Alike β ram ram') (hp : place.Here β a a')
    (hv : place ≠ .scratch → v = v') : Alike β (ram.write a v) (ram'.write a' v') := by
  have hreserved : ∀ {w : UInt16} {address : Nat}, Reserved w.toNat → ¬ Reserved address → w.toNat ≠ address := by
    rintro w address hw hn rfl
    exact hn hw
  have hleft : ∀ w w', β w w' → Reserved w.toNat := fun w w' hw => .inr (hβ.left w w' hw)
  have hright : ∀ w w', β w w' → Reserved w'.toNat := fun w w' hw => .inr (hβ.right w w' hw)
  refine ⟨?_, ?_, ?_, ?_⟩
  · rw [Memory.size_write, Memory.size_write, h.size]
  · rw [Memory.size_write]
    exact h.room
  · intro address hn
    cases place with
    | common =>
      obtain ⟨rfl, -⟩ := hp
      obtain rfl := hv (by decide)
      have hcell := h.cells address hn
      unfold Memory.write
      rw [Array.getElem?_setIfInBounds, Array.getElem?_setIfInBounds, hcell, h.size]
    | scratch =>
      obtain ⟨rfl, rfl⟩ := hp
      have hne := hreserved (w := 13) (.inl rfl) hn
      rw [getElem?_write_ne hne, getElem?_write_ne hne, h.cells address hn]
    | static =>
      rw [getElem?_write_ne (hreserved (hleft a a' hp) hn), getElem?_write_ne (hreserved (hright a a' hp) hn),
        h.cells address hn]
  · intro w w' hw
    have hsame := h.statics w w' hw
    cases place with
    | common =>
      obtain ⟨rfl, hn⟩ := hp
      have hne : a ≠ w := by rintro rfl; exact hn (hleft _ _ hw)
      have hne' : a ≠ w' := by rintro rfl; exact hn (hright _ _ hw)
      rw [Memory.read_write_ne hne, Memory.read_write_ne hne', hsame]
    | scratch =>
      obtain ⟨rfl, rfl⟩ := hp
      have hne : 13 ≠ w := by rintro rfl; exact absurd (hβ.left _ _ hw) (by decide)
      have hne' : 13 ≠ w' := by rintro rfl; exact absurd (hβ.right _ _ hw) (by decide)
      rw [Memory.read_write_ne hne, Memory.read_write_ne hne', hsame]
    | static =>
      obtain rfl := hv (by decide)
      have hunique := hβ.unique a a' w w' hp hw
      by_cases hw' : a = w
      · obtain rfl := hunique.mp hw'
        subst hw'
        have hin : a.toNat < ram.size := Nat.lt_of_le_of_lt (hβ.left _ _ hp).2 h.room
        have hin' : a'.toNat < ram'.size := Nat.lt_of_le_of_lt (hβ.right _ _ hp).2 (h.size ▸ h.room)
        rw [Memory.read_write_self hin, Memory.read_write_self hin']
      · rw [Memory.read_write_ne hw', Memory.read_write_ne fun e => hw' (hunique.mpr e), hsame]

end

/-! ## Instructions -/

/-- The ties of the two registers and of the scratch register. -/
structure Ties where
  a : Tie := .loose
  d : Tie := .loose
  scratch : Tie := .loose

/-- Whether the data of two runs is tied. -/
structure Ties.Holds (σ : Text → UInt16) (β : UInt16 → UInt16 → Prop) (τ : Ties) (s s' : Data) : Prop where
  a : τ.a.Holds σ β s.a s'.a
  d : τ.d.Holds σ β s.d s'.d
  scratch : τ.scratch.Holds σ β (s.ram.read 13) (s'.ram.read 13)
  alike : Alike β s.ram s'.ram

namespace Ties

/-- The ties after an assignment that uses the memory at a place, if it uses it at all. A value that goes to any other
cell than the scratch register has to be the same in both runs. -/
def assignAt (τ : Ties) (dest : List Register) (comp : Computation) (place : Place) : Option Ties :=
  let out := comp.tie τ.d (if comp.readsMemory then place.held τ.scratch else τ.a)
  if .m ∈ dest ∧ place ≠ .scratch ∧ out.isShared = false then none
  else some
    { a := if .a ∈ dest then out else τ.a
      d := if .d ∈ dest then out else τ.d
      scratch := if .m ∈ dest ∧ place = .scratch then out else τ.scratch }

/-- The ties after an assignment. `pointed` says that the address is known not to be reserved. -/
def assign (τ : Ties) (pointed : Bool) (dest : List Register) (comp : Computation) : Option Ties :=
  if comp.readsMemory = true ∨ .m ∈ dest then (τ.a.place? pointed).bind (τ.assignAt dest comp)
  else τ.assignAt dest comp .common

section
variable {σ σ' : Text → UInt16} {β : UInt16 → UInt16 → Prop} (hβ : Static β) {τ τ' : Ties} {s s' : Data}
variable {dest : List Register} {comp : Computation}
include hβ

/-- An assignment leaves the memory in both runs or in none, and otherwise the data is tied again. -/
theorem assignAt_sound (h : τ.Holds σ β s s') {place : Place}
    (hp : comp.readsMemory = true ∨ .m ∈ dest → place.Here β s.a s'.a)
    (ha : τ.assignAt dest comp place = some τ') :
    ((Instruction.compute dest comp none).effect σ s = none ∧
        (Instruction.compute dest comp none).effect σ' s' = none) ∨
      ∃ t t', (Instruction.compute dest comp none).effect σ s = some t ∧
        (Instruction.compute dest comp none).effect σ' s' = some t' ∧ τ'.Holds σ β t t' := by
  simp only [Instruction.effect]
  by_cases hb : (comp.readsMemory = true ∨ .m ∈ dest) ∧ s.ram.size ≤ s.a.toNat
  · have hb' : (comp.readsMemory = true ∨ .m ∈ dest) ∧ s'.ram.size ≤ s'.a.toNat :=
      ⟨hb.1, (Place.Here.beyond hβ h.alike (hp hb.1)).mp hb.2⟩
    rw [if_pos hb, if_pos hb']
    exact .inl ⟨rfl, rfl⟩
  · have hb' : ¬ ((comp.readsMemory = true ∨ .m ∈ dest) ∧ s'.ram.size ≤ s'.a.toNat) :=
      fun hb' => hb ⟨hb'.1, (Place.Here.beyond hβ h.alike (hp hb'.1)).mpr hb'.2⟩
    rw [if_neg hb, if_neg hb']
    refine .inr ⟨_, _, rfl, rfl, ?_⟩
    have hinput : (if comp.readsMemory then place.held τ.scratch else τ.a).Holds σ β
        (if comp.readsMemory then s.ram.read s.a else s.a) (if comp.readsMemory then s'.ram.read s'.a else s'.a) := by
      cases hr : comp.readsMemory with
      | false => exact h.a
      | true => exact Place.Here.read h.alike (hp (.inl hr)) h.scratch
    have hout := comp.tie_holds h.d hinput
    unfold assignAt at ha
    generalize comp.tie τ.d (if comp.readsMemory then place.held τ.scratch else τ.a) = out at ha hout
    by_cases hshared : .m ∈ dest ∧ place ≠ .scratch ∧ out.isShared = false
    · rw [if_pos hshared] at ha
      cases ha
    · rw [if_neg hshared, Option.some.injEq] at ha
      subst ha
      refine ⟨?_, ?_, ?_, ?_⟩
      · by_cases hd : Register.a ∈ dest
        · simpa only [if_pos hd] using hout
        · simpa only [if_neg hd] using h.a
      · by_cases hd : Register.d ∈ dest
        · simpa only [if_pos hd] using hout
        · simpa only [if_neg hd] using h.d
      · by_cases hm : Register.m ∈ dest
        · have hhere := hp (.inr hm)
          simp only [hm, if_true, true_and]
          cases place with
          | scratch =>
            obtain ⟨ha, ha'⟩ := hhere
            have hroom := h.alike.room
            have hsize := h.alike.size
            have hin : (13 : UInt16).toNat < s.ram.size := Nat.lt_of_lt_of_le (by decide) hroom
            have hin' : (13 : UInt16).toNat < s'.ram.size := Nat.lt_of_lt_of_le (by decide) (hsize ▸ hroom)
            rw [ha, ha'] at hout ⊢
            simpa only [if_true, Memory.read_write_self hin, Memory.read_write_self hin'] using hout
          | common =>
            have hne : s.a ≠ 13 := by rintro e; exact hhere.2 (.inl (by rw [e]; rfl))
            have hne' : s'.a ≠ 13 := hhere.1 ▸ hne
            simpa only [reduceCtorEq, if_false, Memory.read_write_ne hne, Memory.read_write_ne hne'] using h.scratch
          | static =>
            have hne : s.a ≠ 13 := by rintro e; exact absurd (e ▸ hβ.left _ _ hhere) (by decide)
            have hne' : s'.a ≠ 13 := by rintro e; exact absurd (e ▸ hβ.right _ _ hhere) (by decide)
            simpa only [reduceCtorEq, if_false, Memory.read_write_ne hne, Memory.read_write_ne hne'] using h.scratch
        · simpa only [hm, if_false, false_and] using h.scratch
      · by_cases hm : Register.m ∈ dest
        · simp only [hm, if_true]
          refine h.alike.write hβ (hp (.inr hm)) fun hplace => hout.shared ?_
          simpa [hm, hplace] using hshared
        · simpa only [hm, if_false] using h.alike

theorem assign_sound (h : τ.Holds σ β s s') {pointed : Bool} (hp : pointed = true → ¬ Reserved s.a.toNat)
    (ha : τ.assign pointed dest comp = some τ') :
    ((Instruction.compute dest comp none).effect σ s = none ∧
        (Instruction.compute dest comp none).effect σ' s' = none) ∨
      ∃ t t', (Instruction.compute dest comp none).effect σ s = some t ∧
        (Instruction.compute dest comp none).effect σ' s' = some t' ∧ τ'.Holds σ β t t' := by
  unfold assign at ha
  split at ha
  · obtain ⟨place, hplace, ha⟩ := Option.bind_eq_some_iff.mp ha
    exact assignAt_sound hβ h (fun _ => h.a.here hp hplace) ha
  · rename_i hmemory
    exact assignAt_sound hβ h (fun hm => absurd hm hmemory) ha

end

end Ties

end HackStack
