import HackStack.Proofs.Translation.Driver

/-!
# Static slots

The slots of a file begin where those of the files before end, and how many it has is only known when the next
file starts. Still no two files share a slot: all slots written for a file lie below the mark that the next one
starts from. The invariant ties every output of a run to the mark of the generator that the run starts with.
-/

namespace HackStack

open Asm Template

/-! ## Addresses in a text -/

def Asm.Line.constant? : Line → Option Nat
  | .instruction (.load (.constant n)) => some n
  | _ => none

namespace Output

def address? (o : Output) : Option Nat := (readLines o.text).findSome? Line.constant?

def staticIndex? (o : Output) : Option Int :=
  match o.request with
  | .access _ segment index => if segment = Segment.statics.name then some index else none
  | .operator _ => none

theorem staticIndex?_eq_some {o : Output} {i : Int} :
    o.staticIndex? = some i ↔ ∃ kind, o.request = .access kind Segment.statics.name i := by
  unfold staticIndex?
  cases o.request with
  | operator word => simp
  | access kind segment j =>
    by_cases hs : segment = Segment.statics.name
    · simp [hs]
    · simp [hs]

end Output

namespace Generator

/-! ## Slots of a request -/

def SlotsExist (g : Generator) : Prop := g.staticFirst + g.staticUsed ≤ Segment.staticSize

theorem slotsExist_setFile {g : Generator} (h : g.SlotsExist) (path : Text) : (g.setFile path).SlotsExist := by
  unfold setFile
  split
  · exact h
  · exact h

theorem staticFirst_lower {g g' : Generator} {r : Request} {plan : Plan} (h : g.lower r = .ok (plan, g')) :
    g'.staticFirst = g.staticFirst := by rw [lower_fields h]

section
variable {g g' : Generator} {r : Request} {plan : Plan} (hg : g.staticSymbols = false)
variable (h : g.lower r = .ok (plan, g'))
include hg h

theorem staticUsed_lower : g.staticUsed ≤ g'.staticUsed ∧ (g.SlotsExist → g'.SlotsExist) := by
  obtain ⟨_, _, _, rfl⟩ | ⟨_, _, index, _, hclaim, _⟩ := lower_cases h
  · exact ⟨Nat.le_refl _, id⟩
  · obtain ⟨-, rfl⟩ | ⟨-, hslot, rfl⟩ := claimEntry_ok hg hclaim
    · exact ⟨Nat.le_refl _, id⟩
    · refine ⟨Nat.le_max_left _ _, fun hfit => ?_⟩
      unfold SlotsExist at hfit ⊢
      simp only
      omega

/-- A static entry is loaded by the number of its slot, which the generator has claimed. -/
theorem static_emission {kind : Kind} {i : Int} (hr : r = .access kind Segment.statics.name i) :
    ∃ index : Nat, i = index ∧ index < g'.staticUsed ∧ g.staticFirst + index < Segment.staticSize ∧
      (readLines (render (g'.emission r plan))).findSome? Line.constant? =
        some (Segment.staticBase + g.staticFirst + index) := by
  rw [readLines_render (implements_emission hg h).legal]
  have hfirst := staticFirst_lower h
  have hsymbols := usesSymbols_eq_false (staticSymbols_lower hg h)
  obtain ⟨_, hop, _, _⟩ | ⟨pops, segment, index, hasks, hclaim, rfl⟩ := lower_cases h
  · rw [hr] at hop
    cases hop
  · obtain ⟨rfl, rfl⟩ := hasks.static hr
    obtain ⟨hne, -⟩ | ⟨-, hslot, hused⟩ := claimEntry_ok hg hclaim
    · exact absurd rfl hne
    · refine ⟨index, rfl, ?_, hslot, ?_⟩
      · rw [hused]
        exact Nat.lt_of_lt_of_le (Nat.lt_succ_self index) (Nat.le_max_right _ _)
      · have hload : ∃ rest, g'.entryCode pops .statics index =
            load (.constant (Segment.staticBase + g.staticFirst + index)) :: rest := by
          rw [← hfirst]
          cases pops <;> simp [entryCode, loadAddress, loadValue, staticOperand, hsymbols]
        obtain ⟨rest, hrest⟩ := hload
        unfold emission
        simp only [hrest]
        split <;> rfl

end

end Generator

namespace Translator

/-! ## Outputs of a run -/

/-- What an output for a static entry says of the generator that its run started with, where the name had changed
`changes` times: up to the next change of the name it is at the slots that begin there, and later at slots behind
all that were claimed. -/
structure Slotted (g : Generator) (changes : Nat) (o : Output) (index address : Nat) : Prop where
  address? : o.address? = some address
  atLeast : Segment.staticBase ≤ address
  below : address < Segment.staticBase + Segment.staticSize
  changes_le : changes ≤ o.changes
  same : o.changes = changes → address = Segment.staticBase + g.staticFirst + index
  later : changes < o.changes → Segment.staticBase + g.staticFirst + g.staticUsed ≤ address

namespace Slotted

section
variable {g g' : Generator} {changes : Nat} {o : Output} {index address : Nat}

theorem of_claimed (h : Slotted g' changes o index address) (hfirst : g'.staticFirst = g.staticFirst)
    (hused : g.staticUsed ≤ g'.staticUsed) : Slotted g changes o index address := by
  obtain ⟨haddress, hleast, hbelow, hle, hsame, hlater⟩ := h
  rw [hfirst] at hsame hlater
  refine ⟨haddress, hleast, hbelow, hle, hsame, fun hlt => ?_⟩
  have := hlater hlt
  omega

theorem of_setFile {path : Text}
    (h : Slotted (g.setFile path) (if Generator.keptName path = g.fileName then changes else changes + 1) o index
      address) : Slotted g changes o index address := by
  by_cases hname : Generator.keptName path = g.fileName
  · simpa only [Generator.setFile, if_pos hname] using h
  · simp only [Generator.setFile, if_neg hname] at h
    obtain ⟨haddress, hleast, hbelow, hle, hsame, hlater⟩ := h
    simp only at hsame hlater
    refine ⟨haddress, hleast, hbelow, by omega, fun _ => by omega, fun _ => ?_⟩
    obtain heq | hlt := Nat.eq_or_lt_of_le hle
    · have := hsame heq.symm
      omega
    · have := hlater hlt
      omega

theorem address_eq_iff {o' : Output} {index' address' : Nat} (h : Slotted g changes o index address)
    (ho : o.changes = changes) (hindex : index < g.staticUsed) (h' : Slotted g changes o' index' address') :
    address = address' ↔ index = index' ∧ o.changes = o'.changes := by
  have haddress := h.same ho
  have hle := h'.changes_le
  obtain heq | hlt := Nat.eq_or_lt_of_le hle
  · have := h'.same heq.symm
    omega
  · have := h'.later hlt
    omega

end

end Slotted

theorem slotted_written {t t' : Translator MemorySink} {r : Request} {plan : Generator.Plan} {g : Generator}
    (hg : t.generator.staticSymbols = false) (hlower : t.generator.lower r = .ok (plan, g))
    (htext : t'.sink.text = t.sink.text ++ render (g.emission r plan)) (path : Text) (changes : Nat) {i : Int}
    (hi : (Output.mk path changes r (t'.sink.text.drop t.sink.text.length)).staticIndex? = some i) :
    ∃ index address : Nat, i = index ∧ index < g.staticUsed ∧
      Slotted g changes ⟨path, changes, r, t'.sink.text.drop t.sink.text.length⟩ index address := by
  obtain ⟨kind, hr⟩ := Output.staticIndex?_eq_some.mp hi
  obtain ⟨index, hindex, hused, hslot, haddress⟩ := Generator.static_emission hg hlower hr
  refine ⟨index, Segment.staticBase + t.generator.staticFirst + index, hindex, hused, ?_, ?_, ?_, Nat.le_refl _,
    fun _ => ?_, fun h => absurd h (Nat.lt_irrefl _)⟩
  · rw [Output.address?, htext, List.drop_left]
    exact haddress
  · omega
  · omega
  · rw [Generator.staticFirst_lower hlower]

theorem slotted_outputs : ∀ (cs : List Call) {path : Text} {changes : Nat} {t : Translator MemorySink} {o : Output}
    {i : Int}, t.generator.staticSymbols = false → o ∈ t.outputs path changes cs → o.staticIndex? = some i →
    ∃ index address : Nat, i = index ∧ Slotted t.generator changes o index address
  | [], _, _, _, _, _, _, ho, _ => by simp [outputs] at ho
  | .file path' :: rest, path, changes, t, o, i, hg, ho, hi => by
    rw [outputs] at ho
    obtain ⟨index, address, hindex, hs⟩ := slotted_outputs rest
      (t := { t with generator := t.generator.setFile path' }) (by simpa using hg) ho hi
    exact ⟨index, address, hindex, hs.of_setFile⟩
  | .request r :: rest, path, changes, t, o, i, hg, ho, hi => by
    rw [outputs] at ho
    obtain ⟨e, he⟩ | ⟨plan, g, hlower, hcases⟩ := request_cases t r
    · rw [he] at ho
      exact slotted_outputs rest hg ho hi
    · have hfirst := Generator.staticFirst_lower hlower
      have hused := (Generator.staticUsed_lower hg hlower).1
      have hg' := Generator.staticSymbols_lower hg hlower
      obtain ⟨t', e, he, hgen, -⟩ | ⟨t', he, hgen, htext⟩ := hcases
      · rw [he] at ho
        obtain ⟨index, address, hindex, hs⟩ := slotted_outputs rest (hgen ▸ hg') ho hi
        exact ⟨index, address, hindex, (hgen ▸ hs).of_claimed hfirst hused⟩
      · rw [he] at ho
        obtain rfl | ho := List.mem_cons.mp ho
        · obtain ⟨index, address, hindex, -, hs⟩ := slotted_written hg hlower htext path changes hi
          exact ⟨index, address, hindex, hs.of_claimed hfirst hused⟩
        · have hwritten := g.written_fields plan
          rw [← hgen] at hwritten
          obtain ⟨index, address, hindex, hs⟩ := slotted_outputs rest (by rw [hwritten]; exact hg') ho hi
          exact ⟨index, address, hindex, hs.of_claimed (by rw [hwritten]; exact hfirst) (by rw [hwritten]; exact hused)⟩

/-- Whether two outputs for static entries load the same number exactly if they have the same index and the name has
not changed between them. -/
def Apart (o o' : Output) : Prop :=
  ∀ i i', o.staticIndex? = some i → o'.staticIndex? = some i' →
    (o.address? = o'.address? ↔ i = i' ∧ o.changes = o'.changes)

theorem Apart.symm {o o' : Output} (h : Apart o o') : Apart o' o := by
  intro i' i hi' hi
  rw [eq_comm, h i i' hi hi', eq_comm, and_congr_right_iff]
  exact fun _ => eq_comm

theorem Apart.refl (o : Output) : Apart o o := by
  intro i i' hi hi'
  rw [hi, Option.some.injEq] at hi'
  simp [hi']

theorem pairwise_apart : ∀ (cs : List Call) {path : Text} {changes : Nat} {t : Translator MemorySink},
    t.generator.staticSymbols = false → (t.outputs path changes cs).Pairwise Apart
  | [], _, _, _, _ => .nil
  | .file path' :: rest, path, changes, t, hg => by
    rw [outputs]
    exact pairwise_apart rest (by simpa using hg)
  | .request r :: rest, path, changes, t, hg => by
    rw [outputs]
    obtain ⟨e, he⟩ | ⟨plan, g, hlower, hcases⟩ := request_cases t r
    · rw [he]
      exact pairwise_apart rest hg
    · have hg' := Generator.staticSymbols_lower hg hlower
      obtain ⟨t', e, he, hgen, -⟩ | ⟨t', he, hgen, htext⟩ := hcases
      · rw [he]
        exact pairwise_apart rest (hgen ▸ hg')
      · have hwritten := g.written_fields plan
        rw [← hgen] at hwritten
        have hsymbols : t'.generator.staticSymbols = false := by rw [hwritten]; exact hg'
        rw [he]
        refine List.pairwise_cons.mpr ⟨fun o ho i i' hi hi' => ?_, pairwise_apart rest hsymbols⟩
        -- The slot of the head is below the mark of the generator that the tail starts with.
        obtain ⟨index, address, rfl, hused, hs⟩ := slotted_written hg hlower htext path changes hi
        obtain ⟨index', address', rfl, hs'⟩ := slotted_outputs rest hsymbols ho hi'
        have hs' := hs'.of_claimed (g := g) (by rw [hwritten]) (by rw [hwritten])
        rw [hs.address?, hs'.address?, Option.some.injEq, hs.address_eq_iff rfl hused hs', Int.natCast_inj]

theorem slotsExist_calls : ∀ (cs : List Call) {t : Translator MemorySink}, t.generator.staticSymbols = false →
    t.generator.SlotsExist → (t.calls cs).generator.SlotsExist
  | [], _, _, h => h
  | .file path :: rest, t, hg, h =>
    slotsExist_calls rest (by simpa [call] using hg) (Generator.slotsExist_setFile h path)
  | .request r :: rest, t, hg, h => by
    rw [calls, call]
    obtain ⟨e, he⟩ | ⟨plan, g, hlower, hcases⟩ := request_cases t r
    · rw [he]
      exact slotsExist_calls rest hg h
    · have hg' := Generator.staticSymbols_lower hg hlower
      have hslots := (Generator.staticUsed_lower hg hlower).2 h
      obtain ⟨t', e, he, hgen, -⟩ | ⟨t', he, hgen, -⟩ := hcases
      · rw [he]
        exact slotsExist_calls rest (hgen ▸ hg') (hgen ▸ hslots)
      · have hwritten := g.written_fields plan
        rw [← hgen] at hwritten
        rw [he]
        refine slotsExist_calls rest ?_ ?_
        · rw [hwritten]; exact hg'
        · rw [hwritten]; exact hslots

theorem apart_outputs {t : Translator MemorySink} (hg : t.generator.staticSymbols = false) (cs : List Call)
    (path : Text) (changes : Nat) :
    ∀ o ∈ t.outputs path changes cs, ∀ o' ∈ t.outputs path changes cs, Apart o o' := by
  intro o ho o' ho'
  have hpairs := @pairwise_apart cs path changes t hg
  exact hpairs.forall_of_forall_of_flip (fun o _ => Apart.refl o) (hpairs.imp Apart.symm) ho ho'

/-- Static slots in the runs of a fresh translator, with any writes failing. The slots claimed always exist, every
output for a static entry loads the address of a static cell, and two of them load the same one exactly if they have
the same index and the name has not changed between them. In the translation of an input these are the outputs for the
same index in the same source file. -/
theorem static_slots_disjoint (annotate : Bool) (fails : Nat → Bool) :
    let start := new annotate false ({ fails := fails } : MemorySink)
    (∀ cs : List Call,
      (start.calls cs).generator.staticFirst + (start.calls cs).generator.staticUsed ≤ 240 ∧
      (∀ o ∈ start.outputs [] 0 cs, ∀ i, o.staticIndex? = some i →
        ∃ address, o.address? = some address ∧ 16 ≤ address ∧ address ≤ 255) ∧
      ∀ o ∈ start.outputs [] 0 cs, ∀ o' ∈ start.outputs [] 0 cs, ∀ i i',
        o.staticIndex? = some i → o'.staticIndex? = some i' →
        (o.address? = o'.address? ↔ i = i' ∧ o.changes = o'.changes)) ∧
    ∀ (treeOf : MemorySink → FileTree) (input : Text), (treeOf start.sink).WellFormed →
      let outs := start.outputs [] 0 (start.pathCalls treeOf input)
      (start.path treeOf input).1.sink.text = outs.flatMap Output.text ∧
      ∀ o ∈ outs, ∀ o' ∈ outs, ∀ i i', o.staticIndex? = some i → o'.staticIndex? = some i' →
        (o.address? = o'.address? ↔ o.path = o'.path ∧ i = i') := by
  intro start
  have hg : start.generator.staticSymbols = false := rfl
  refine ⟨fun cs => ⟨slotsExist_calls cs hg (Nat.zero_le _), ?_, apart_outputs hg cs [] 0⟩, ?_⟩
  · intro o ho i hi
    obtain ⟨index, address, -, hs⟩ := slotted_outputs cs hg ho hi
    exact ⟨address, hs.address?, hs.atLeast, Nat.le_of_lt_succ hs.below⟩
  · intro treeOf input htree outs
    refine ⟨?_, fun o ho o' ho' i i' hi hi' => ?_⟩
    · rw [← (agrees_path treeOf start input).2]
      exact text_calls _ [] 0 start
    · rw [apart_outputs hg _ [] 0 o ho o' ho' i i' hi hi',
        path_eq_iff_translation hg htree input [] 0 o ho o' ho', and_comm]

def sampleTree : FileTree where
  entries := [([ascii "d"], .directory), ([ascii "d", ascii "A.vm"], .file (ascii "push static 0\n")),
    ([ascii "d", ascii "B.vm"], .file (ascii "pop static 0\n"))]

theorem sourceFiles_sampleTree : sampleTree.sourceFiles (ascii "d") = .ok [ascii "d/A.vm", ascii "d/B.vm"] := by
  have hnames : sampleTree.namesIn [ascii "d"] =
      [(ascii "A.vm", .file (ascii "push static 0\n")), (ascii "B.vm", .file (ascii "pop static 0\n"))] := by
    unfold FileTree.namesIn
    rw [List.mergeSort_of_pairwise (by decide)]
    decide
  have hentry : sampleTree.entryAt (ascii "d") = .ok ([ascii "d"], .directory) := by decide
  have hsources : sampleTree.sourcesIn (ascii "d") = [ascii "d/A.vm", ascii "d/B.vm"] := by
    unfold FileTree.sourcesIn
    simp only [hentry, hnames]
    rw [List.mergeSort_of_pairwise (by decide)]
    decide
  unfold FileTree.sourceFiles FileTree.inputIsDirectory FileTree.isDirectory
  simp only [hentry, hsources]
  rfl

theorem static_slots_disjoint_sample :
    sampleTree.WellFormed ∧
      ∃ o ∈ (new false false ({} : MemorySink)).outputs [] 0
          ((new false false ({} : MemorySink)).pathCalls (fun _ => sampleTree) (ascii "d")),
        ∃ o' ∈ (new false false ({} : MemorySink)).outputs [] 0
          ((new false false ({} : MemorySink)).pathCalls (fun _ => sampleTree) (ascii "d")),
          o.staticIndex? = some 0 ∧ o'.staticIndex? = some 0 ∧ o.address? ≠ o'.address? := by
  have htree : sampleTree.WellFormed := ⟨by decide, by decide⟩
  have houts : ∃ o ∈ (new false false ({} : MemorySink)).outputs [] 0
        ((new false false ({} : MemorySink)).pathCalls (fun _ => sampleTree) (ascii "d")),
      ∃ o' ∈ (new false false ({} : MemorySink)).outputs [] 0
        ((new false false ({} : MemorySink)).pathCalls (fun _ => sampleTree) (ascii "d")),
        o.staticIndex? = some 0 ∧ o'.staticIndex? = some 0 ∧ o.path ≠ o'.path := by
    simp only [pathCalls, sourceFiles_sampleTree]
    decide +kernel
  obtain ⟨o, ho, o', ho', hi, hi', hpath⟩ := houts
  have hiff := ((static_slots_disjoint false fun _ => false).2 (fun _ => sampleTree) (ascii "d") htree).2
    o ho o' ho' 0 0 hi hi'
  exact ⟨htree, o, ho, o', ho', hi, hi', fun h => hpath (hiff.mp h).1⟩

end Translator

end HackStack
