import HackStack.Proofs.Lint
import HackStack.Proofs.Translation.Emissions

/-!
# Translations are accepted

The lines that a translator has written in a run declare each label pair once, and load no symbols but predefined ones,
these labels and those of static cells. So the linter finds no issue in its text, and the assembler accepts the text
unless a label is too far behind.
-/

namespace HackStack

open Asm Template

/-! ## Composed lines -/

/-- Whether lines are legal, declare the label pairs below `n`, and load the symbols in `S`, but no others that are
neither predefined nor one of their labels. -/
structure Composed (n : Nat) (S : Text → Prop) (ls : List Line) : Prop where
  legal : ∀ l ∈ ls, l.Legal
  declared : ls.filterMap Line.declares? = labelPairs n
  loaded : ∀ name, load (.symbol name) ∈ ls → name ∈ predefined.map Prod.fst ∨ name ∈ labelPairs n ∨ S name
  used : ∀ name, S name → load (.symbol name) ∈ ls

/-- Whether a label of a comparison is declared behind some lines, among which there are more instructions than numbers
that can be loaded. -/
structure Beyond (text : Text) (before : List Text) (name : Text) : Prop where
  declared : ∃ after, Text.lines text = before ++ labelText name :: after
  compares : ∃ k, name = falseLabel k ∨ name = continueLabel k
  beyond : 32767 < before.countP isCodeLine

theorem dot_not_mem_of_isGenerated {name : Text} (h : Lint.isGenerated name = true) : 46 ∉ name := by
  obtain ⟨stem, hstem, hname⟩ := List.any_eq_true.mp h
  rw [Bool.and_eq_true] at hname
  obtain ⟨rest, rfl⟩ := List.isPrefixOf_iff_prefix.mp hname.1
  have hdot : ∀ stem ∈ [ascii "FALSE", ascii "CONTINUE"], 46 ∉ stem := by decide
  have hdigits : rest.all Text.isDigit = true := by
    by_contra hdigits
    simp [Text.readNat?, hdigits] at hname
  intro hm
  obtain hm | hm := List.mem_append.mp hm
  · exact hdot stem hstem hm
  · exact absurd (List.all_eq_true.mp hdigits 46 hm) (by decide)

namespace Composed

section
variable {n : Nat} {S : Text → Prop} {ls : List Line}

theorem start : Composed 0 (fun _ => False) [] where
  legal := by simp
  declared := rfl
  loaded := by simp
  used := fun _ => False.elim

theorem congr (h : Composed n S ls) {S' : Text → Prop} (hS : ∀ name, S name ↔ S' name) : Composed n S' ls where
  legal := h.legal
  declared := h.declared
  loaded := by
    intro name hname
    rw [← hS]
    exact h.loaded name hname
  used := fun name hname => h.used name ((hS name).mpr hname)

/-- What is written for a request goes on with the label pairs, and adds the symbol of its own static entry. -/
theorem emission {g g' : Generator} {r : Request} {plan : Generator.Plan} (h : Composed g.comparisons S ls)
    (hlower : g.lower r = .ok (plan, g'))
    (hsymbols : g.usesSymbols = true → ∀ index, isSymbol (staticSymbol g.fileName index) = true) :
    Composed (g'.written plan).comparisons (fun name => S name ∨ g.usesSymbols = true ∧
      ∃ (kind : Kind) (index : Nat), r = .access kind Segment.statics.name index ∧ name = staticSymbol g.fileName index)
      (ls ++ g'.emission r plan) := by
  obtain ⟨hdeclares, hpairs⟩ := Generator.declares_emission hlower
  constructor
  · exact List.forall_mem_append.mpr ⟨h.legal, Generator.legal_emission hlower hsymbols⟩
  · rw [List.filterMap_append, h.declared, hdeclares, hpairs]
  · intro name hname
    rw [hpairs, List.mem_append]
    obtain hname | hname := List.mem_append.mp hname
    · obtain hpre | hlabel | hs := h.loaded name hname
      · exact .inl hpre
      · exact .inr (.inl (.inl hlabel))
      · exact .inr (.inr (.inl hs))
    · cases Generator.writes_emission hlower _ hname with
      | plain hplain => exact .inl (List.contains_iff_mem.mp hplain)
      | target hpair => exact .inr (.inl (.inr hpair))
      | static hg hr => exact .inr (.inr (.inr ⟨hg, _, _, hr, rfl⟩))
  · rintro name (hs | ⟨hg, kind, index, hr, rfl⟩)
    · exact List.mem_append_left _ (h.used name hs)
    · obtain rfl := (Generator.mirrors_symbols hg hlower).1
      exact List.mem_append_right _ (Generator.mem_emission_static hg hlower hr)

end

/-! ## Composed lines in the linter and the assembler -/

section
variable {n : Nat} {S : Text → Prop} {ls : List Line} (h : Composed n S ls)
include h

theorem label_mem_iff {name : Text} : .label name ∈ ls ↔ name ∈ labelPairs n := by
  rw [← h.declared, List.mem_filterMap]
  constructor
  · intro hl
    exact ⟨_, hl, rfl⟩
  · rintro ⟨l, hl, hname⟩
    exact Line.declares?_eq_some.mp hname ▸ hl

theorem nodup_declared : (ls.filterMap Line.declares?).Nodup := by
  rw [h.declared]
  exact nodup_labelPairs n

theorem line_mem_iff {name : Text} : labelText name ∈ Text.lines (render ls) ↔ name ∈ labelPairs n := by
  rw [← h.label_mem_iff, lines_render h.legal, List.mem_append, List.mem_map]
  constructor
  · rintro (⟨l, hl, heq⟩ | hnil)
    · exact toText_eq_labelText.mp heq ▸ hl
    · simp [labelText, Line.toText] at hnil
  · intro hl
    exact .inl ⟨_, hl, rfl⟩

section
variable (hS : ∀ name, S name → 46 ∈ name)
include hS

theorem lint_eq_nil : lint (render ls) = [] := by
  refine lint_render h.legal h.nodup_declared ?_
  intro name hgenerated hload
  obtain hpre | hlabel | hs := h.loaded name hload
  · have hall : ∀ name ∈ predefined.map Prod.fst, Lint.isGenerated name = false := by decide
    rw [hall name hpre] at hgenerated
    cases hgenerated
  · exact h.label_mem_iff.mpr hlabel
  · -- A file may be named FALSE, but the linter takes no symbol with a dot for a jump target.
    exact absurd (hS name hs) (dot_not_mem_of_isGenerated hgenerated)

theorem variables_iff {p : Program} (hp : assemble (render ls) = .ok p) (name : Text) :
    p.symbols.contains name = true ∧ name ∉ predefined.map Prod.fst ∧ labelText name ∉ Text.lines (render ls) ↔
      S name := by
  have hresolved := resolved_of_assemble hp
  rw [h.line_mem_iff, Std.TreeMap.contains_eq_isSome_getElem?, Option.isSome_iff_exists]
  constructor
  · rintro ⟨⟨address, haddress⟩, hfree, hlabel⟩
    obtain hpre | hline | hvariable := hresolved.only name address haddress
    · exact absurd hpre hfree
    · rw [mem_contents_label h.legal, h.label_mem_iff] at hline
      exact absurd hline hlabel
    · obtain ⟨hline, hsymbol, -⟩ := mem_variableNames.mp hvariable
      obtain hpre | hpair | hs := h.loaded name ((mem_contents_load h.legal hsymbol).mp hline)
      · exact absurd hpre hfree
      · exact absurd hpair hlabel
      · exact hs
  · intro hs
    have hload := h.used name hs
    have hsymbol : isSymbol name = true := h.legal _ hload
    have hfree := initialTable_eq_none_iff.mp (initialTable_of_dot (hS name hs))
    have hlabel : name ∉ labelPairs n := by
      intro hpair
      obtain ⟨k, -, rfl | rfl⟩ := mem_labelPairs.mp hpair
      · exact (Mirrors.dot_not_mem_labels k).1 (hS _ hs)
      · exact (Mirrors.dot_not_mem_labels k).2 (hS _ hs)
    have hvariable : name ∈ variableNames (contents (render ls)) := by
      rw [mem_variableNames, mem_contents_load h.legal hsymbol, mem_contents_label h.legal, h.label_mem_iff]
      exact ⟨hload, hsymbol, hfree, hlabel⟩
    obtain ⟨j, hj⟩ := List.mem_iff_getElem?.mp hvariable
    exact ⟨⟨_, hresolved.allotted j name hj⟩, hfree, hlabel⟩

end

theorem beyond_iff {before : List Text} {name : Text} : Beyond (render ls) before name ↔
    ∃ pre post, ls = pre ++ .label name :: post ∧ before = pre.map Line.toText ∧ 32767 < (instructions pre).length := by
  have hcount : ∀ pre post, ls = pre ++ .label name :: post →
      (pre.map Line.toText).countP isCodeLine = (instructions pre).length := by
    rintro pre post rfl
    exact countP_map_lines fun l hl => isCodeLine_toText (h.legal l (List.mem_append_left _ hl))
  constructor
  · rintro ⟨⟨after, hlines⟩, -, hbeyond⟩
    rw [lines_render h.legal] at hlines
    obtain ⟨pre, post, hls, rfl⟩ := (map_eq_append_label toText_eq_labelText).mp ⟨after, hlines⟩
    exact ⟨pre, post, hls, rfl, hcount pre post hls ▸ hbeyond⟩
  · rintro ⟨pre, post, hls, rfl, hbeyond⟩
    refine ⟨?_, ?_, (hcount pre post hls).symm ▸ hbeyond⟩
    · rw [lines_render h.legal]
      exact (map_eq_append_label toText_eq_labelText).mpr ⟨pre, post, hls, rfl⟩
    · have hmem : name ∈ labelPairs n := h.label_mem_iff.mp (by rw [hls]; simp)
      obtain ⟨k, -, hname⟩ := mem_labelPairs.mp hmem
      exact ⟨k, hname⟩

theorem assemble_cases :
    (∃ p, assemble (render ls) = .ok p ∧ ∀ before name, ¬ Beyond (render ls) before name) ∨
      ∃ before name, Beyond (render ls) before name ∧
        assemble (render ls) = .error ⟨before.length + 1, .labelBeyondRom name⟩ := by
  have hfree : ∀ name, .label name ∈ ls → name ∉ predefined.map Prod.fst := by
    intro name hl hpre
    have hall : ∀ name ∈ predefined.map Prod.fst, isPairLabel name = false := by decide
    have hpair := isPairLabel_of_mem (h.label_mem_iff.mp hl)
    rw [hall name hpre] at hpair
    cases hpair
  obtain ⟨p, hp, hnear⟩ | ⟨pre, name, post, hls, hbeyond, herror⟩ :=
    assemble_render_cases h.legal h.nodup_declared hfree
  · refine .inl ⟨p, hp, ?_⟩
    intro before name hb
    obtain ⟨pre, post, hls, -, hbeyond⟩ := h.beyond_iff.mp hb
    exact absurd (hnear pre name post hls) (Nat.not_le.mpr hbeyond)
  · refine .inr ⟨pre.map Line.toText, name, h.beyond_iff.mpr ⟨pre, post, hls, rfl, hbeyond⟩, ?_⟩
    rw [herror, List.length_map]

end

end Composed

/-! ## Runs -/

/-- Whether an output is for the static entry with a symbol, and the entry is named by it. -/
def Output.Refers (symbols : Bool) (o : Output) (name : Text) : Prop :=
  symbols = true ∧ Generator.keptName o.path ≠ [] ∧ o.Names name

theorem Output.Refers.dot_mem {symbols : Bool} {o : Output} {name : Text} (h : o.Refers symbols name) : 46 ∈ name := by
  obtain ⟨-, -, index, -, rfl⟩ := h
  exact dot_mem_staticSymbol _ _

namespace Translator

/-- Whether the symbols of the static entries of a file are legal, if it has any. -/
def LegalName (symbols : Bool) (path : Text) : Prop :=
  symbols = true → Generator.keptName path ≠ [] → ∀ index, isSymbol (staticSymbol (Generator.keptName path) index) = true

/-- Whether a generator is at a file and names static cells in one of the two ways. -/
structure At (symbols : Bool) (path : Text) (g : Generator) : Prop where
  mode : g.staticSymbols = symbols
  name : g.fileName = Generator.keptName path

namespace At

section
variable {symbols : Bool} {path : Text} {g : Generator} (h : At symbols path g)
include h

theorem usesSymbols_iff : g.usesSymbols = true ↔ symbols = true ∧ Generator.keptName path ≠ [] := by
  simp [Generator.usesSymbols, h.mode, h.name]

theorem legal (hlegal : LegalName symbols path) (hg : g.usesSymbols = true) (index : Nat) :
    isSymbol (staticSymbol g.fileName index) = true := by
  obtain ⟨hon, hne⟩ := h.usesSymbols_iff.mp hg
  rw [h.name]
  exact hlegal hon hne index

theorem setFile (path' : Text) : At symbols path' (g.setFile path') where
  mode := by rw [Generator.setFile_staticSymbols, h.mode]
  name := Generator.setFile_fileName g path'

theorem lower {g' : Generator} {r : Request} {plan : Generator.Plan} (hl : g.lower r = .ok (plan, g')) :
    At symbols path g' := by
  rw [Generator.lower_fields hl]
  exact ⟨h.mode, h.name⟩

theorem written (plan : Generator.Plan) : At symbols path (g.written plan) := by
  rw [Generator.written_fields]
  exact ⟨h.mode, h.name⟩

theorem refers_iff (changes : Nat) (r : Request) (text name : Text) :
    Output.Refers symbols ⟨path, changes, r, text⟩ name ↔ g.usesSymbols = true ∧
      ∃ (kind : Kind) (index : Nat), r = .access kind Segment.statics.name index ∧
        name = staticSymbol g.fileName index := by
  unfold Output.Refers Output.Names
  simp only [h.usesSymbols_iff, Output.staticIndex?_eq_some, h.name, and_assoc]
  constructor
  · rintro ⟨hon, hne, index, ⟨kind, hr⟩, hname⟩
    exact ⟨hon, hne, kind, index, hr, hname⟩
  · rintro ⟨hon, hne, kind, index, hr, hname⟩
    exact ⟨hon, hne, index, ⟨kind, hr⟩, hname⟩

end

end At

theorem composed_calls {symbols : Bool} : ∀ (cs : List Call) {t : Translator MemorySink} {path : Text} {changes : Nat}
    {S : Text → Prop} {ls : List Line}, At symbols path t.generator →
    (∀ path' ∈ path :: filePaths cs, LegalName symbols path') → t.sink.text = render ls →
    Composed t.generator.comparisons S ls →
    ∃ ls', (t.calls cs).sink.text = render ls' ∧ Composed (t.calls cs).generator.comparisons
      (fun name => S name ∨ ∃ o ∈ t.outputs path changes cs, o.Refers symbols name) ls'
  | [], t, path, changes, S, ls, _, _, htext, h => ⟨ls, htext, h.congr (by simp [outputs])⟩
  | .file path' :: rest, t, path, changes, S, ls, hat, hlegal, htext, h => by
    rw [filePaths, List.forall_mem_cons] at hlegal
    rw [calls, call, outputs]
    refine composed_calls rest (hat.setFile path') hlegal.2 htext ?_
    rw [Generator.setFile_comparisons]
    exact h
  | .request r :: rest, t, path, changes, S, ls, hat, hlegal, htext, h => by
    rw [filePaths] at hlegal
    rw [calls, call, outputs]
    obtain ⟨e, he⟩ | ⟨plan, g, hlower, ⟨t', e, he, hgen, htext'⟩ | ⟨t', he, hgen, htext'⟩⟩ := request_cases t r
    · rw [he]
      exact composed_calls rest hat hlegal htext h
    · -- A slot may have been claimed for what was not written, but it shows in no line.
      rw [he]
      refine composed_calls rest (hgen ▸ hat.lower hlower) hlegal (htext'.trans htext) ?_
      rw [hgen, Generator.lower_fields hlower]
      exact h
    · have hstep := h.emission hlower fun hg => hat.legal (hlegal path List.mem_cons_self) hg
      have hat' : At symbols path t'.generator := hgen ▸ (hat.lower hlower).written plan
      rw [← hgen] at hstep
      rw [he]
      obtain ⟨ls', htext'', h'⟩ := @composed_calls symbols rest t' path changes _ _ hat' hlegal
        (by rw [htext', htext, render_append]) hstep
      refine ⟨ls', htext'', h'.congr ?_⟩
      intro name
      simp only [List.exists_mem_cons_iff, hat.refers_iff, or_assoc]

/-- Calls to a fresh translator, with any writes failing, that keeps slots or legal symbols for static cells. The linter
finds no issue in the text. The assembler makes one word of each line that is neither a label nor a remark, with the
symbols of the static entries that were written as the only variables, unless the label of a comparison is declared
beyond the numbers that can be loaded. -/
theorem translation_accepted (annotate symbols : Bool) (fails : Nat → Bool) (cs : List Call)
    (hnames : symbols = true → ∀ path ∈ filePaths cs, ∀ index,
      isSymbol (staticSymbol (Generator.keptName path) index) = true) :
    let start := new annotate symbols ({ fails := fails } : MemorySink)
    let text := (start.calls cs).sink.text
    lint text = [] ∧
    ((∃ p, assemble text = .ok p ∧ p.words.size = (Text.lines text).countP isCodeLine ∧
        ∀ name, p.symbols.contains name = true ∧ name ∉ predefined.map Prod.fst ∧ labelText name ∉ Text.lines text ↔
          ∃ o ∈ start.outputs [] 0 cs, o.Refers symbols name) ∨
      ∃ before name, Beyond text before name ∧ assemble text = .error ⟨before.length + 1, .labelBeyondRom name⟩) ∧
    ((∃ e, assemble text = .error e) ↔ ∃ before name, Beyond text before name) := by
  intro start text
  have hlegal : ∀ path ∈ [] :: filePaths cs, LegalName symbols path := by
    rw [List.forall_mem_cons]
    refine ⟨fun _ hne => absurd rfl hne, fun path hpath hon _ => hnames hon path hpath⟩
  obtain ⟨ls, htext, h⟩ := @composed_calls symbols cs start [] 0 _ [] ⟨rfl, rfl⟩ hlegal rfl Composed.start
  have htext : text = render ls := htext
  have h : Composed _ (fun name => ∃ o ∈ start.outputs [] 0 cs, o.Refers symbols name) ls := h.congr (by simp)
  have hdot : ∀ name, (∃ o ∈ start.outputs [] 0 cs, o.Refers symbols name) → 46 ∈ name := by
    rintro name ⟨o, -, ho⟩
    exact ho.dot_mem
  rw [htext]
  refine ⟨h.lint_eq_nil hdot, ?_⟩
  obtain ⟨p, hp, hnear⟩ | ⟨before, name, hbeyond, herror⟩ := h.assemble_cases
  · refine ⟨.inl ⟨p, hp, ?_, h.variables_iff hdot hp⟩, ?_⟩
    · rw [(assemble_render h.legal hp).2.1, countP_lines_render h.legal]
    · rw [hp]
      simp [hnear]
  · refine ⟨.inr ⟨before, name, hbeyond, herror⟩, ?_⟩
    exact ⟨fun _ => ⟨before, name, hbeyond⟩, fun _ => ⟨_, herror⟩⟩

def mixedCalls : List Call :=
  [.file (ascii "d/Main.vm"), .request (.access .pop (ascii "static") 0), .request (.operator (ascii "eq")),
    .request (.operator (ascii "equal")), .request (.access .push (ascii "static") 1)]

def mixedStart : Translator MemorySink := new true true { fails := fun n => n == 1 }

theorem translation_accepted_sample :
    (∀ path ∈ filePaths mixedCalls, ∀ index, isSymbol (staticSymbol (Generator.keptName path) index) = true) ∧
      lint (mixedStart.calls mixedCalls).sink.text = [] ∧
      ∃ p, assemble (mixedStart.calls mixedCalls).sink.text = .ok p ∧ p.words.size = 22 ∧
        p.symbols.contains (ascii "Main.1") = true := by
  have hnames : ∀ path ∈ filePaths mixedCalls, ∀ index,
      isSymbol (staticSymbol (Generator.keptName path) index) = true := by
    have hall : ∀ path ∈ filePaths mixedCalls, isSymbol (Generator.keptName path) = true := by decide +kernel
    exact fun path hpath index => isSymbol_staticSymbol (hall path hpath) index
  have hcount : (Text.lines (mixedStart.calls mixedCalls).sink.text).countP isCodeLine = 22 := by decide +kernel
  have houtput : ∃ o ∈ mixedStart.outputs [] 0 mixedCalls, o.staticIndex? = some 1 ∧ o.path = ascii "d/Main.vm" := by
    decide +kernel
  obtain ⟨hlint, haccepted, -⟩ := translation_accepted true true (fun n => n == 1) mixedCalls fun _ => hnames
  refine ⟨hnames, hlint, ?_⟩
  obtain ⟨p, hp, hsize, hvariables⟩ | ⟨before, name, hbeyond, -⟩ := haccepted
  · obtain ⟨o, ho, hindex, hpath⟩ := houtput
    refine ⟨p, hp, hsize.trans hcount, ((hvariables (ascii "Main.1")).mpr ⟨o, ho, rfl, ?_, 1, hindex, ?_⟩).1⟩
    · rw [hpath]
      decide
    · rw [hpath]
      decide
  · -- There are too few lines for a label to be out of reach.
    obtain ⟨after, hlines⟩ := hbeyond.declared
    have hbeyond := hbeyond.beyond
    have hle : before.countP isCodeLine ≤ 22 := by
      rw [← hcount]
      have hlines : Text.lines (mixedStart.calls mixedCalls).sink.text = before ++ labelText name :: after := hlines
      rw [hlines, List.countP_append]
      exact Nat.le_add_right _ _
    omega

end Translator

end HackStack
