import HackStack.Proofs.Lowering.Requests
import HackStack.Proofs.Machine.Ties

/-!
# Code for both ways to name static cells

With and without symbols for static cells, a command is lowered to the same lines except for the loads of static
addresses. `Mirrors` follows two such lists of lines and carries the ties of their data along, from no tie at all at
the start of every command and behind every label. An instruction that reaches through the stack pointer or a segment
pointer has its `Purpose` noted: it is left to the run that it does not come to a reserved cell.
-/

namespace HackStack

open Asm Template

/-! ## Purposes -/

/-- What the memory word of an instruction is in the code of its command: a stack cell, a segment entry, or none of
both. -/
inductive Purpose where
  | own
  | stack
  | entry (segment : Segment)
  deriving DecidableEq, Repr

namespace Purpose

/-- Whether the memory word is found through the stack pointer or through the pointer of a segment. -/
def pointed : Purpose → Bool
  | stack | entry .locals | entry .arguments | entry .this | entry .that => true
  | own | entry .constant | entry .temp | entry .pointer | entry .statics => false

def popOperands : List Purpose := [own, own, stack, own]

def pointToTop : List Purpose := [own, own]

def pushData : List Purpose := [own, own, stack, own, own]

def popToAddress (segment : Segment) : List Purpose := [own, own, own, own, stack, own, own, entry segment]

def loadValue (segment : Segment) : List Purpose :=
  match segment with
  | .constant => [own, own]
  | .locals | .arguments | .this | .that | .temp => [own, own, own, own, entry segment]
  | .pointer | .statics => [own, entry segment]

def loadAddress : Segment → List Purpose
  | .constant => []
  | .locals | .arguments | .this | .that | .temp => [own, own, own, own]
  | .pointer | .statics => [own, own]

def entryCode (pops : Bool) (segment : Segment) : List Purpose :=
  if pops then loadAddress segment ++ popToAddress segment else loadValue segment ++ pushData

end Purpose

def Operator.purposes : Operator → List Purpose
  | .add | .sub | .and | .or => Purpose.popOperands ++ [.stack]
  | .eq | .gt | .lt =>
    Purpose.popOperands ++ [.stack, .own, .own] ++ Purpose.pointToTop ++ [.stack, .own, .own] ++
      Purpose.pointToTop ++ [.stack]
  | .not => Purpose.pointToTop ++ [.stack]
  | .neg => [.own] ++ Purpose.pointToTop ++ [.stack]

/-- The purposes of the instructions in the code of a command, in order. -/
def Command.purposes : Command → List Purpose
  | .arithmetic word => ((Operator.ofName? word).map Operator.purposes).getD []
  | .push name _ => ((Segment.ofName? name).map (Purpose.entryCode false)).getD []
  | .pop name _ => ((Segment.ofName? name).map (Purpose.entryCode true)).getD []
  | _ => []

/-! ## Lists of lines -/

/-- The symbol of a static cell: the name of its file, a dot and the index. -/
def staticSymbol (name : Text) (index : Nat) : Text := name ++ 46 :: Text.decimal index

/-- Whether two lists of lines, with the purposes of their instructions, do the same on data with given ties. `L` holds
of the labels that may be jumped to, and `S` relates the slot and the symbol of a static variable. Labels hold no dot,
which every such symbol does. -/
inductive Mirrors (L : Text → Prop) (S : Nat → Text → Prop) : Ties → List Line → List Line → List Purpose → Prop
  | nil (τ : Ties) : Mirrors L S τ [] [] []
  | forget {τ : Ties} {ls ls' : List Line} {ps : List Purpose} : Mirrors L S {} ls ls' ps → Mirrors L S τ ls ls' ps
  | remark {τ : Ties} {ls ls' : List Line} {ps : List Purpose} (text : Text) : Mirrors L S τ ls ls' ps →
      Mirrors L S τ (.remark text :: ls) (.remark text :: ls') ps
  | label {τ : Ties} {ls ls' : List Line} {ps : List Purpose} {name : Text} : 46 ∉ name → Mirrors L S {} ls ls' ps →
      Mirrors L S τ (.label name :: ls) (.label name :: ls') ps
  | register {τ : Ties} {ls ls' : List Line} {ps : List Purpose} {name : Text} (w : UInt16) :
      initialTable[name]? = some w → w.toNat ≤ maxConstant → Mirrors L S { τ with a := .word w } ls ls' ps →
      Mirrors L S τ (load (.symbol name) :: ls) (load (.symbol name) :: ls') (.own :: ps)
  | constant {τ : Ties} {ls ls' : List Line} {ps : List Purpose} {n : Nat} : n ≤ maxConstant →
      Mirrors L S { τ with a := .word n.toUInt16 } ls ls' ps →
      Mirrors L S τ (load (.constant n) :: ls) (load (.constant n) :: ls') (.own :: ps)
  | target {τ : Ties} {ls ls' : List Line} {ps : List Purpose} {name : Text} : L name →
      Mirrors L S { τ with a := .target name } ls ls' ps →
      Mirrors L S τ (load (.symbol name) :: ls) (load (.symbol name) :: ls') (.own :: ps)
  | static {τ : Ties} {ls ls' : List Line} {ps : List Purpose} {n : Nat} {name : Text} : S n name →
      Mirrors L S { τ with a := .twin } ls ls' ps →
      Mirrors L S τ (load (.constant n) :: ls) (load (.symbol name) :: ls') (.own :: ps)
  | assign {τ τ' : Ties} {ls ls' : List Line} {ps : List Purpose} {p : Purpose} {dest : List Register}
      {comp : Computation} : τ.assign p.pointed dest comp = some τ' → Mirrors L S τ' ls ls' ps →
      Mirrors L S τ (assign dest comp :: ls) (assign dest comp :: ls') (p :: ps)
  | jump {τ : Ties} {ls ls' : List Line} {ps : List Purpose} {name : Text} {comp : Computation} {j : Jump} :
      comp.readsMemory = false → (comp.tie τ.d τ.a).isShared = true → τ.a = .target name → L name →
      Mirrors L S τ ls ls' ps → Mirrors L S τ (jump comp j :: ls) (jump comp j :: ls') (.own :: ps)

namespace Mirrors

section
variable {L : Text → Prop} {S : Nat → Text → Prop} {τ : Ties} {ls ls' : List Line} {ps : List Purpose}

theorem mono {L' : Text → Prop} {S' : Nat → Text → Prop} (hL : ∀ name, L name → L' name)
    (h : Mirrors L S τ ls ls' ps) (hS : ∀ l ∈ ls', ∀ n name, l = load (.symbol name) → S n name → S' n name) :
    Mirrors L' S' τ ls ls' ps := by
  induction h with
  | nil τ => exact .nil τ
  | forget _ ih => exact .forget (ih hS)
  | remark text _ ih => exact .remark text (ih (List.forall_mem_cons.mp hS).2)
  | label hdot _ ih => exact .label hdot (ih (List.forall_mem_cons.mp hS).2)
  | register w hw hle _ ih => exact .register w hw hle (ih (List.forall_mem_cons.mp hS).2)
  | constant hle _ ih => exact .constant hle (ih (List.forall_mem_cons.mp hS).2)
  | target hname _ ih => exact .target (hL _ hname) (ih (List.forall_mem_cons.mp hS).2)
  | static hs _ ih =>
    rw [List.forall_mem_cons] at hS
    exact .static (hS.1 _ _ rfl hs) (ih hS.2)
  | assign ha _ ih => exact .assign ha (ih (List.forall_mem_cons.mp hS).2)
  | jump hr hshared ha hname _ ih => exact .jump hr hshared ha (hL _ hname) (ih (List.forall_mem_cons.mp hS).2)

theorem append {ms ms' : List Line} {qs : List Purpose} (h : Mirrors L S τ ls ls' ps) (h' : Mirrors L S {} ms ms' qs) :
    Mirrors L S τ (ls ++ ms) (ls' ++ ms') (ps ++ qs) := by
  induction h with
  | nil τ => exact .forget h'
  | forget _ ih => exact .forget ih
  | remark text _ ih => exact .remark text ih
  | label hdot _ ih => exact .label hdot ih
  | register w hw hle _ ih => exact .register w hw hle ih
  | constant hle _ ih => exact .constant hle ih
  | target hname _ ih => exact .target hname ih
  | static hs _ ih => exact .static hs ih
  | assign ha _ ih => exact .assign ha ih
  | jump hr hshared ha hname _ ih => exact .jump hr hshared ha hname ih

/-! ## Templates -/

theorem stackPointer (h : Mirrors L S { τ with a := .word 0 } ls ls' ps) :
    Mirrors L S τ (Template.stackPointer :: ls) (Template.stackPointer :: ls') (.own :: ps) :=
  .register 0 (by decide) (by decide) h

theorem scratch (h : Mirrors L S { τ with a := .word 13 } ls ls' ps) :
    Mirrors L S τ (Template.scratch :: ls) (Template.scratch :: ls') (.own :: ps) :=
  .register 13 (by decide) (by decide) h

theorem popOperands (h : Mirrors L S ⟨.equal, .equal, τ.scratch⟩ ls ls' ps) :
    Mirrors L S τ (Template.popOperands ++ ls) (Template.popOperands ++ ls') (Purpose.popOperands ++ ps) :=
  .stackPointer (.assign rfl (.assign rfl (.assign rfl h)))

theorem pointToTop (h : Mirrors L S { τ with a := .equal } ls ls' ps) :
    Mirrors L S τ (Template.pointToTop ++ ls) (Template.pointToTop ++ ls') (Purpose.pointToTop ++ ps) :=
  .stackPointer (.assign rfl h)

theorem pushData (hd : τ.d.isShared = true) (h : Mirrors L S {} ls ls' ps) :
    Mirrors L S τ (Template.pushData ++ ls) (Template.pushData ++ ls') (Purpose.pushData ++ ps) := by
  have hstore : ({ τ with a := .equal } : Ties).assign Purpose.stack.pointed [.m] .d = some { τ with a := .equal } := by
    simp [Ties.assign, Ties.assignAt, Tie.place?, Purpose.pointed, Computation.readsMemory, Computation.tie, hd]
  exact .stackPointer (.assign rfl (.assign hstore (.stackPointer (.assign rfl (.forget h)))))

theorem popToAddress {segment : Segment} (hd : (τ.d.place? (Purpose.entry segment).pointed).isSome = true)
    (h : Mirrors L S {} ls ls' ps) :
    Mirrors L S τ (Template.popToAddress ++ ls) (Template.popToAddress ++ ls') (Purpose.popToAddress segment ++ ps) := by
  obtain ⟨place, hplace⟩ := Option.isSome_iff_exists.mp hd
  have hstore : ∃ τ', (⟨τ.d, .equal, τ.d⟩ : Ties).assign (Purpose.entry segment).pointed [.m] .d = some τ' := by
    simp [Ties.assign, Ties.assignAt, hplace, Computation.readsMemory, Computation.tie, Tie.isShared]
  obtain ⟨τ', hstore⟩ := hstore
  exact .scratch (.assign rfl (.stackPointer (.assign rfl (.assign rfl (.scratch (.assign rfl
    (.assign hstore (.forget h))))))))

theorem binary {comp : Computation} (hcomp : (comp.tie .equal .equal).isShared = true) (hr : comp.readsMemory = true)
    (h : Mirrors L S {} ls ls' ps) :
    Mirrors L S τ (Template.binary comp ++ ls) (Template.binary comp ++ ls') (Purpose.popOperands ++ [.stack] ++ ps) := by
  have hstore : ∃ τ', (⟨.equal, .equal, τ.scratch⟩ : Ties).assign Purpose.stack.pointed [.m] comp = some τ' := by
    simp [Ties.assign, Ties.assignAt, Tie.place?, Purpose.pointed, Place.held, hr, hcomp]
  obtain ⟨τ', hstore⟩ := hstore
  unfold Template.binary
  rw [List.append_assoc, List.append_assoc, List.append_assoc]
  exact .popOperands (.assign hstore (.forget h))

theorem dot_not_mem_labels (k : Nat) : 46 ∉ falseLabel k ∧ 46 ∉ continueLabel k := by
  have hfalse : 46 ∉ ascii "FALSE" := by decide
  have hcontinue : 46 ∉ ascii "CONTINUE" := by decide
  have hnumber : 46 ∉ Text.decimal k := Text.not_mem_decimal (by decide) k
  simp only [falseLabel, continueLabel, List.mem_append, not_or]
  exact ⟨⟨hfalse, hnumber⟩, hcontinue, hnumber⟩

theorem compare {k : Nat} (ifNot : Jump) (hfalse : L (falseLabel k)) (hcontinue : L (continueLabel k))
    (h : Mirrors L S {} ls ls' ps) :
    Mirrors L S τ (Template.compare ifNot k ++ ls) (Template.compare ifNot k ++ ls') (Operator.eq.purposes ++ ps) := by
  unfold Template.compare Operator.purposes
  simp only [List.append_assoc, List.cons_append, List.nil_append]
  refine .popOperands (.assign rfl (.target hfalse (.jump rfl rfl rfl hfalse ?_)))
  refine .pointToTop (.assign rfl (.target hcontinue (.jump rfl rfl rfl hcontinue (.label (dot_not_mem_labels k).1 ?_))))
  exact .pointToTop (.assign rfl (.label (dot_not_mem_labels k).2 h))

theorem operator (op : Operator) {k : Nat} (hlabels : op.isComparison = true → L (falseLabel k) ∧ L (continueLabel k))
    (h : Mirrors L S {} ls ls' ps) :
    Mirrors L S τ (op.code k ++ ls) (op.code k ++ ls') (op.purposes ++ ps) := by
  cases op with
  | add | sub | and | or => exact .binary rfl rfl h
  | eq | gt | lt => exact .compare _ (hlabels rfl).1 (hlabels rfl).2 h
  | not => exact .pointToTop (.assign rfl (.forget h))
  | neg => exact .assign rfl (.pointToTop (.assign rfl (.forget h)))

/-! ## Segment entries -/

theorem place?_temp {index : Nat} (h : index < 8) : ((Tie.word 5).sum (.word index.toUInt16)).place? false = some .common := by
  match index, h with
  | 0, _ | 1, _ | 2, _ | 3, _ | 4, _ | 5, _ | 6, _ | 7, _ => rfl

section
variable {g g' : Generator} (hg : g.usesSymbols = false) (hg' : g'.usesSymbols = true)
variable {segment : Segment} {index : Nat} (hindex : index < segment.size)
variable (hs : segment = .statics →
  S (Segment.staticBase + g.staticFirst + index) (staticSymbol g'.fileName index))
include hg hg' hindex hs

theorem loadValue (h : ∀ τ : Ties, τ.d.isShared = true → Mirrors L S τ ls ls' ps) :
    Mirrors L S τ (g.loadValue segment index ++ ls) (g'.loadValue segment index ++ ls')
      (Purpose.loadValue segment ++ ps) := by
  cases segment with
  | constant => exact .constant (Nat.le_of_lt_succ hindex) (.assign rfl (h _ rfl))
  | locals | arguments | this | that =>
    have hle : index ≤ maxConstant := Nat.le_of_lt_succ hindex
    exact .register _ rfl (by decide) (.assign rfl (.constant hle (.assign rfl (.assign rfl (h _ rfl)))))
  | temp =>
    have hindex : index < 8 := hindex
    have hle : index ≤ maxConstant := Nat.le_trans (Nat.le_of_lt hindex) (by decide)
    have hread : ∃ τ', (⟨(Tie.word 5).sum (.word index.toUInt16), .word 5, τ.scratch⟩ : Ties).assign
        (Purpose.entry .temp).pointed [.d] (.y .m) = some τ' ∧ τ'.d = .equal := by
      simp [Ties.assign, Ties.assignAt, Purpose.pointed, place?_temp hindex, Computation.readsMemory, Computation.tie,
        Place.held]
    obtain ⟨τ', hread, hd⟩ := hread
    exact .register _ rfl (by decide) (.assign rfl (.constant hle (.assign rfl (.assign hread (h _ (by rw [hd]; rfl))))))
  | pointer =>
    have hindex : index < 2 := hindex
    obtain rfl | rfl : index = 0 ∨ index = 1 := by omega
    all_goals exact .register _ rfl (by decide) (.assign rfl (h _ rfl))
  | statics =>
    have hs := hs rfl
    simp only [Generator.loadValue, Generator.staticOperand, hg, hg', if_true, Bool.false_eq_true, if_false]
    exact .static hs (.assign rfl (h _ rfl))

theorem loadAddress (hc : segment ≠ .constant)
    (h : ∀ τ : Ties, (τ.d.place? (Purpose.entry segment).pointed).isSome = true → Mirrors L S τ ls ls' ps) :
    Mirrors L S τ (g.loadAddress segment index ++ ls) (g'.loadAddress segment index ++ ls')
      (Purpose.loadAddress segment ++ ps) := by
  cases segment with
  | constant => exact absurd rfl hc
  | locals | arguments | this | that =>
    have hle : index ≤ maxConstant := Nat.le_of_lt_succ hindex
    exact .register _ rfl (by decide) (.assign rfl (.constant hle (.assign rfl (h _ rfl))))
  | temp =>
    have hindex : index < 8 := hindex
    have hle : index ≤ maxConstant := Nat.le_trans (Nat.le_of_lt hindex) (by decide)
    have hplace := Option.isSome_of_eq_some (place?_temp hindex)
    exact .register _ rfl (by decide) (.assign rfl (.constant hle (.assign rfl (h _ hplace))))
  | pointer =>
    have hindex : index < 2 := hindex
    obtain rfl | rfl : index = 0 ∨ index = 1 := by omega
    all_goals exact .register _ rfl (by decide) (.assign rfl (h _ rfl))
  | statics =>
    have hs := hs rfl
    simp only [Generator.loadAddress, Generator.staticOperand, hg, hg', if_true, Bool.false_eq_true, if_false]
    exact .static hs (.assign rfl (h _ rfl))

theorem entryCode {pops : Bool} (hc : pops = true → segment ≠ .constant) (h : Mirrors L S {} ls ls' ps) :
    Mirrors L S τ (g.entryCode pops segment index ++ ls) (g'.entryCode pops segment index ++ ls')
      (Purpose.entryCode pops segment ++ ps) := by
  cases pops with
  | true =>
    simp only [Generator.entryCode, Purpose.entryCode, if_true, List.append_assoc]
    exact loadAddress hg hg' hindex hs (hc rfl) fun τ hd => .popToAddress hd h
  | false =>
    simp only [Generator.entryCode, Purpose.entryCode, Bool.false_eq_true, if_false, List.append_assoc]
    exact loadValue hg hg' hindex hs fun τ hd => .pushData hd h

end

end

end Mirrors

end HackStack
