import HackStack.Proofs.Lowering.Onward
import HackStack.Proofs.Machine.Loaded
import HackStack.Proofs.Translation.Accepted

/-!
# Translations terminate

What a translator writes only goes on, and it loads so few variables that all its loads are executed as such. So the
program counter grows with every step until the program halts or traps, if the program ends before the counter comes
round. A longer program never halts.
-/

namespace HackStack

open Asm Template

/-! ## Paced lines -/

def Asm.Line.dotted? : Line → Option Text
  | .instruction (.load (.symbol name)) => if 46 ∈ name then some name else none
  | _ => none

theorem Asm.Line.dotted?_of_isPlain {l : Line} (h : l.isPlain = true) : l.dotted? = none := by
  have hdot : ∀ name ∈ predefined.map Prod.fst, 46 ∉ name := by decide
  match l, h with
  | .instruction (.compute _ _ _), _ => rfl
  | .instruction (.load (.symbol name)), h => exact if_neg (hdot name (List.contains_iff_mem.mp h))

theorem filterMap_dotted (ls : List Line) :
    ls.filterMap Line.dotted? = (ls.filter fun l => !l.isPlain).filterMap Line.dotted? := by
  induction ls with
  | nil => rfl
  | cons l ls ih =>
    by_cases hplain : l.isPlain = true
    · rw [List.filterMap_cons_none (Line.dotted?_of_isPlain hplain), ih, List.filter_cons_of_neg (by simp [hplain])]
    · rw [List.filter_cons_of_pos (by simp [hplain]), List.filterMap_cons, List.filterMap_cons, ih]

/-- Whether lines are legal and only go on, all symbols that they load have a dot if they are neither predefined nor
declared in them, and these loads are few. -/
structure Paced (ls : List Line) : Prop where
  legal : ∀ l ∈ ls, l.Legal
  onward : Onward ls
  loaded : ∀ name, load (.symbol name) ∈ ls → name ∈ predefined.map Prod.fst ∨ .label name ∈ ls ∨ 46 ∈ name
  sparse : 7 * (ls.filterMap Line.dotted?).length ≤ (instructions ls).length

namespace Paced

theorem nil : Paced [] where
  legal := by simp
  onward := .nil
  loaded := by simp
  sparse := Nat.zero_le _

theorem append {xs ys : List Line} (hx : Paced xs) (hy : Paced ys) : Paced (xs ++ ys) where
  legal := List.forall_mem_append.mpr ⟨hx.legal, hy.legal⟩
  onward := hx.onward.append hy.onward
  loaded := by
    intro name hname
    rw [List.mem_append]
    obtain hname | hname := List.mem_append.mp hname
    · exact (hx.loaded name hname).imp_right (Or.imp_left .inl)
    · exact (hy.loaded name hname).imp_right (Or.imp_left .inr)
  sparse := by
    have hsparse := hx.sparse
    have hsparse' := hy.sparse
    rw [List.filterMap_append, List.length_append, instructions_append, List.length_append]
    omega

end Paced

/-! ## What a translator writes -/

namespace Generator

theorem dotted_operatorCode (op : Operator) (k : Nat) : (op.code k).filterMap Line.dotted? = [] := by
  obtain ⟨hfalse, hcontinue⟩ := Mirrors.dot_not_mem_labels k
  rw [filterMap_dotted, filter_operatorCode]
  split
  · simp [Line.dotted?, load, hfalse, hcontinue]
  · rfl

theorem dotted_entryCode (g : Generator) (pops : Bool) (segment : Segment) (index : Nat) :
    ((g.entryCode pops segment index).filterMap Line.dotted?).length ≤ 1 := by
  rw [filterMap_dotted]
  have hone := ((filter_entryCode g pops segment index).filterMap Line.dotted?).length_le
  exact Nat.le_trans hone (List.length_filterMap_le _ _)

theorem length_entryCode (g : Generator) (pops : Bool) (segment : Segment) (index : Nat) :
    7 ≤ (instructions (g.entryCode pops segment index)).length := by
  cases segment <;> cases pops <;> exact Nat.le_of_ble_eq_true rfl

section
variable {g g' : Generator} {r : Request} {plan : Plan} (h : g.lower r = .ok (plan, g'))
include h

theorem sparse_emission :
    7 * ((g'.emission r plan).filterMap Line.dotted?).length ≤ (instructions (g'.emission r plan)).length := by
  have hplan : 7 * (plan.lines.filterMap Line.dotted?).length ≤ (instructions plan.lines).length := by
    obtain ⟨op, -, rfl, -⟩ | ⟨pops, segment, index, -, -, rfl⟩ := lower_cases h
    · rw [dotted_operatorCode]
      exact Nat.zero_le _
    · have hone := dotted_entryCode g' pops segment index
      have hseven := length_entryCode g' pops segment index
      dsimp only
      omega
  unfold emission
  split
  · exact hplan
  · exact hplan

theorem paced_emission (hsymbols : g.usesSymbols = true → ∀ index, isSymbol (staticSymbol g.fileName index) = true) :
    Paced (g'.emission r plan) where
  legal := legal_emission h hsymbols
  onward := onward_emission h
  loaded := by
    intro name hname
    cases writes_emission h _ hname with
    | plain hplain => exact .inl (List.contains_iff_mem.mp hplain)
    | target hpair =>
      rw [← (declares_emission h).1, List.mem_filterMap] at hpair
      obtain ⟨l, hl, hdeclares⟩ := hpair
      exact .inr (.inl (Line.declares?_eq_some.mp hdeclares ▸ hl))
    | static => exact .inr (.inr (dot_mem_staticSymbol _ _))
  sparse := sparse_emission h

end

end Generator

namespace Translator

theorem paced_calls {symbols : Bool} : ∀ (cs : List Call) {t : Translator MemorySink} {path : Text} {ls : List Line},
    At symbols path t.generator → (∀ path' ∈ path :: filePaths cs, LegalName symbols path') →
    t.sink.text = render ls → Paced ls → ∃ ls', (t.calls cs).sink.text = render ls' ∧ Paced ls'
  | [], _, _, ls, _, _, htext, h => ⟨ls, htext, h⟩
  | .file path' :: rest, t, path, ls, hat, hlegal, htext, h => by
    rw [filePaths, List.forall_mem_cons] at hlegal
    rw [calls, call]
    exact paced_calls rest (hat.setFile path') hlegal.2 htext h
  | .request r :: rest, t, path, ls, hat, hlegal, htext, h => by
    rw [filePaths] at hlegal
    rw [calls, call]
    obtain ⟨e, he⟩ | ⟨plan, g, hlower, ⟨t', e, he, hgen, htext'⟩ | ⟨t', he, hgen, htext'⟩⟩ := request_cases t r
    · rw [he]
      exact paced_calls rest hat hlegal htext h
    · rw [he]
      exact paced_calls rest (hgen ▸ hat.lower hlower) hlegal (htext'.trans htext) h
    · have hemission : Paced (g.emission r plan) :=
        Generator.paced_emission hlower (hat.legal (hlegal path List.mem_cons_self))
      rw [he]
      refine paced_calls rest (hgen ▸ (hat.lower hlower).written plan) hlegal ?_ (h.append hemission)
      rw [htext', htext, render_append]

theorem paced_sources {annotate symbols : Bool} {fails : Nat → Bool} {files : List (Text × Text)}
    {t : Translator MemorySink}
    (ht : (new annotate symbols ({ fails := fails } : MemorySink)).sources files = (t, none))
    (hnames : symbols = true → ∀ file ∈ files, ∀ index,
      isSymbol (staticSymbol (Generator.keptName file.1) index) = true) :
    ∃ ls, t.sink.text = render ls ∧ Paced ls := by
  let start := new annotate symbols ({ fails := fails } : MemorySink)
  have hlegal : ∀ path ∈ [] :: filePaths (start.sourcesCalls files), LegalName symbols path := by
    rw [List.forall_mem_cons]
    refine ⟨fun _ hne => absurd rfl hne, fun path hpath hon _ => ?_⟩
    obtain ⟨file, hfile, rfl⟩ := List.mem_map.mp ((sourcesCalls_initial files start).1.subset hpath)
    exact hnames hon file hfile
  have hsink := (agrees_sources files start).2
  rw [ht] at hsink
  obtain ⟨ls, htext, h⟩ := @paced_calls symbols (start.sourcesCalls files) start [] [] ⟨rfl, rfl⟩ hlegal rfl .nil
  exact ⟨ls, hsink ▸ htext, h⟩

end Translator

/-! ## Assembled lines -/

namespace Paced

section
variable {ls : List Line} (h : Paced ls) {p : Program} (hp : assemble (render ls) = .ok p)
include h

theorem variableNames_subset : variableNames (contents (render ls)) ⊆ ls.filterMap Line.dotted? := by
  intro name hname
  obtain ⟨hline, hsymbol, hfree, hlabel⟩ := mem_variableNames.mp hname
  rw [mem_contents_label h.legal] at hlabel
  have hload := (mem_contents_load h.legal hsymbol).mp hline
  obtain hpre | hdeclared | hdot := h.loaded name hload
  · exact absurd hpre hfree
  · exact absurd hdeclared hlabel
  · exact List.mem_filterMap.mpr ⟨_, hload, if_pos hdot⟩

include hp

/-- There are not enough words for so many variables that loading one of them would compute. -/
theorem length_variableNames_le (hwords : p.words.size ≤ 65535) :
    (variableNames (contents (render ls))).length ≤ 32752 := by
  have hnodup : (variableNames (contents (render ls))).Nodup := nodup_eraseDups _
  have hle := (List.subperm_of_subset hnodup h.variableNames_subset).length_le
  have hsparse := h.sparse
  rw [← (assemble_render h.legal hp).2.1] at hsparse
  omega

theorem loadsSmall (hwords : p.words.size ≤ 65535) : LoadsSmall p.symbols.address ls := by
  have hresolved := resolved_of_assemble hp
  have hsmall := hresolved.loads_small_iff.mp (h.length_variableNames_le hp hwords)
  intro operand hl
  cases operand with
  | constant n =>
    have hn : n ≤ maxConstant := h.legal _ hl
    rw [wordUnder, toNat_toUInt16 (Nat.lt_of_le_of_lt hn (by decide))]
    exact hn
  | symbol name =>
    have hsymbol : isSymbol name = true := h.legal _ hl
    obtain ⟨k, n, hk⟩ := mem_instructionLines ((mem_contents_load h.legal hsymbol).mpr hl) rfl
    obtain ⟨address, haddress, hword⟩ := hresolved.word_of_symbol hk hsymbol
    rw [wordUnder, SymbolTable.address, haddress]
    exact hsmall k n name address hk hword

/-- A machine with the program of paced lines goes forward to its end or into a trap. -/
theorem proceeds (hwords : p.words.size ≤ 65535) (m : Machine) :
    (m.load p).Proceeds fun m' => m'.pc.toNat = p.words.size := by
  obtain ⟨hplaced, hcount, -⟩ := assemble_render h.legal hp
  refine (h.onward.proceeds (m := m.load p) hwords hplaced (h.loadsSmall hp hwords)).mono ?_
  intro m' hpc
  rw [hpc, hcount]
  exact Nat.zero_add _

end

end Paced

/-! ## Translations -/

namespace Translator

/-- The assembled translation of files, on a machine with any memory. If it has at most 65535 words, every step that
succeeds raises the program counter until the program halts, and a run that is allowed as many steps as there are words
halts or traps after no more. If it has more words, it never halts, and only the limit or a trap ends its runs. -/
theorem translation_terminates {annotate symbols : Bool} {fails : Nat → Bool} {files : List (Text × Text)}
    {t : Translator MemorySink}
    (ht : (new annotate symbols ({ fails := fails } : MemorySink)).sources files = (t, none))
    (hnames : symbols = true → ∀ file ∈ files, ∀ index,
      isSymbol (staticSymbol (Generator.keptName file.1) index) = true)
    {p : Program} (hp : assemble t.sink.text = .ok p) (m : Machine) :
    (p.words.size ≤ 65535 →
      (∀ k, ((m.load p).after k).halted = false → ((m.load p).after k).step.2 = none →
        ((m.load p).after k).pc.toNat < ((m.load p).after k).step.1.pc.toNat) ∧
      ∀ maxSteps : Int, maxSteps ≤ 0 ∨ p.words.size ≤ maxSteps →
        ∃ m', m'.steps ≤ p.words.size ∧ ((m.load p).run (Machine.limitOf maxSteps) = (m', .halted) ∨
          ∃ trap, (m.load p).run (Machine.limitOf maxSteps) = (m', .trapped trap))) ∧
    (65536 ≤ p.words.size →
      (∀ k, ((m.load p).after k).halted = false) ∧
      ∀ maxSteps : Int,
        (∀ fuel m', (m.load p).runFor (Machine.limitOf maxSteps) fuel ≠ (m', .halted)) ∧
        (0 < maxSteps → ∃ m', (m.load p).run (Machine.limitOf maxSteps) = (m', .stepLimit) ∨
          ∃ trap, (m.load p).run (Machine.limitOf maxSteps) = (m', .trapped trap))) := by
  obtain ⟨ls, htext, h⟩ := paced_sources ht hnames
  rw [htext] at hp
  constructor
  · intro hwords
    have hproceeds := h.proceeds hp hwords m
    constructor
    · obtain ⟨m', hf, -, hend⟩ := Machine.proceeds_ends hproceeds
      exact hf.increases (hend.imp_right fun htrap => htrap.2.2)
    · intro maxSteps hsteps
      refine Machine.run_proceeds hproceeds ?_
      intro n hn
      have hpos := Machine.limitOf_eq_some.mp hn
      omega
  · intro hwords
    have hwords' : 65536 ≤ (m.load p).rom.size := hwords
    constructor
    · intro k
      refine Machine.halted_eq_false ?_
      rw [(Machine.carries_after (m := m.load p) ⟨rfl, rfl⟩ k).1]
      exact hwords
    · intro maxSteps
      constructor
      · intro fuel m' hhalted
        obtain ⟨m'', hend⟩ := Machine.runFor_ends (Machine.limitOf maxSteps) fuel hwords'
        simp [hhalted] at hend
      · intro hpos
        rw [Machine.limitOf_eq_some.mpr ⟨hpos, (Int.toNat_of_nonneg (Int.le_of_lt hpos)).symm⟩]
        exact Machine.run_ends hwords' maxSteps.toNat

def symbolicTranslation : Translator MemorySink × Option Error :=
  (new true true ({} : MemorySink)).sources sampleFiles

/-- With any memory the two files with a comparison between them come to an end. -/
theorem translation_terminates_sample :
    ∃ t p, (new true true ({} : MemorySink)).sources sampleFiles = (t, none) ∧
      (∀ file ∈ sampleFiles, ∀ index, isSymbol (staticSymbol (Generator.keptName file.1) index) = true) ∧
      assemble t.sink.text = .ok p ∧ p.words.size = 63 ∧
      ∀ m : Machine, ∃ m', m'.steps ≤ 63 ∧
        ((m.load p).run (Machine.limitOf 63) = (m', .halted) ∨
          ∃ trap, (m.load p).run (Machine.limitOf 63) = (m', .trapped trap)) := by
  have ht : symbolicTranslation = (symbolicTranslation.1, none) := Prod.ext rfl (by decide +kernel)
  have hnames : ∀ file ∈ sampleFiles, ∀ index, isSymbol (staticSymbol (Generator.keptName file.1) index) = true := by
    have hall : ∀ file ∈ sampleFiles, isSymbol (Generator.keptName file.1) = true := by decide +kernel
    exact fun file hfile index => isSymbol_staticSymbol (hall file hfile) index
  obtain ⟨p, hp, hwords⟩ : ∃ p, assemble symbolicTranslation.1.sink.text = .ok p ∧ p.words.size = 63 :=
    ok_of_any (by decide +kernel)
  refine ⟨_, p, ht, hnames, hp, hwords, ?_⟩
  intro m
  have hruns := ((translation_terminates ht (fun _ => hnames) hp m).1 (by omega)).2 63 (by omega)
  rw [hwords] at hruns
  exact hruns

end Translator

end HackStack
