import HackStack.Proofs.Asm.Remarks
import HackStack.Proofs.Translation.Emissions

/-!
# Annotations

A translator that annotates writes one remark before the code of a request and does nothing else differently.
`Annotates` relates it to one that does not: both reject, count and write the same, and the text of the one is the
text of the other with lines that begin with a remark among the others. No line of code is such a line, since a file
name gives it at most one slash.
-/

namespace HackStack

open Asm Template

/-! ## Slashes in code -/

theorem Path.count_slash_base (path : Text) : (base path).count 47 ≤ 1 := by
  unfold base
  by_cases hempty : path.isEmpty = true
  · rw [if_pos hempty]
    decide
  · rw [if_neg hempty]
    have hstem : ∀ stem : Text, 47 ∉ (stem.takeWhile (· != separator)).reverse := by
      intro stem hm
      have hne := List.mem_takeWhile_imp (List.mem_reverse.mp hm)
      cases hne
    split
    · decide
    · rw [List.count_eq_zero.mpr (hstem _)]
      exact Nat.zero_le 1

theorem Generator.count_slash_keptName (path : Text) : (keptName path).count 47 ≤ 1 := by
  have hbase := Path.count_slash_base path
  unfold keptName Text.dropEnding
  split
  · exact ((List.take_sublist _ _).count_le 47).trans hbase
  · exact hbase

theorem count_slash_of_legal {l : Line} (h : l.Legal) (hremark : ∀ text, l ≠ .remark text) :
    l.toText.count 47 = 0 := by
  rw [List.count_eq_zero]
  intro hm
  have hgraphic := List.all_eq_true.mp (all_isGraphic_line h hremark) 47 hm
  cases hgraphic

theorem not_isRemark_of_count {line : Text} (h : line.count 47 ≤ 1) : isRemark line = false := by
  rw [Bool.eq_false_iff]
  intro hremark
  obtain ⟨rest, rfl⟩ := List.isPrefixOf_iff_prefix.mp hremark
  rw [List.count_append, show (ascii "//").count 47 = 2 from rfl] at h
  omega

namespace Generator

section
variable {g g' : Generator} {r : Request} {plan : Plan} (h : g.lower r = .ok (plan, g'))
variable (hname : g.fileName.count 47 ≤ 1)
include h hname

theorem count_slash_plan {l : Line} (hl : l ∈ plan.lines) : l.toText.count 47 ≤ 1 := by
  have hremark : ∀ text, l ≠ .remark text := by
    rintro text rfl
    exact remark_not_mem_plan h text hl
  have hlegal : l.Legal → l.toText.count 47 ≤ 1 := by
    intro hlegal
    rw [count_slash_of_legal hlegal hremark]
    exact Nat.zero_le 1
  cases writes_plan h hl with
  | remark => exact absurd rfl (hremark _)
  | plain hplain => exact hlegal (Line.legal_of_isPlain hplain)
  | constant hn => exact hlegal hn
  | target hname => exact hlegal (isSymbol_of_mem_pair hname)
  | label hname => exact hlegal (isSymbol_of_mem_pair hname)
  | @static kind index _ _ =>
    have hdecimal : (Text.decimal index).count 47 = 0 := List.count_eq_zero.mpr (Text.not_mem_decimal rfl index)
    have htext : (load (.symbol (staticSymbol g.fileName index))).toText =
        64 :: (g.fileName ++ 46 :: Text.decimal index) := rfl
    rw [htext]
    simpa [List.count_cons, hdecimal] using hname

end

/-! ## Lowering with and without remarks -/

theorem claimEntry_annotate (g : Generator) (b : Bool) (segment : Segment) (index : Nat) :
    { g with annotate := b }.claimEntry segment index =
      (g.claimEntry segment index).map fun g' => { g' with annotate := b } := by
  cases segment with
  | statics =>
    simp only [claimEntry, claim]
    by_cases hsymbols : g.usesSymbols = true
    · have hsymbols' : { g with annotate := b }.usesSymbols = true := hsymbols
      rw [if_pos hsymbols, if_pos hsymbols']
      rfl
    · have hsymbols' : ¬ { g with annotate := b }.usesSymbols = true := hsymbols
      rw [if_neg hsymbols, if_neg hsymbols']
      by_cases hsize : Segment.staticSize ≤ g.staticFirst + index
      · rw [if_pos hsize, if_pos hsize]
        rfl
      · rw [if_neg hsize, if_neg hsize]
        rfl
  | _ => rfl

theorem lowerAccess_annotate (g : Generator) (b pops : Bool) (name : Text) (index : Int) :
    { g with annotate := b }.lowerAccess pops name index =
      (g.lowerAccess pops name index).map fun result => (result.1, { result.2 with annotate := b }) := by
  unfold lowerAccess
  cases findEntry pops name index with
  | error e => rfl
  | ok entry =>
    obtain ⟨segment, index⟩ := entry
    simp only [bind, Except.bind, claimEntry_annotate]
    cases g.claimEntry segment index with
    | error e => rfl
    | ok g' => cases segment <;> cases pops <;> rfl

theorem lower_annotate (g : Generator) (b : Bool) (r : Request) : { g with annotate := b }.lower r =
    (g.lower r).map fun result => (result.1, { result.2 with annotate := b }) := by
  match r with
  | .operator word =>
    simp only [lower]
    cases Operator.ofName? word <;> rfl
  | .access .push segment index => exact lowerAccess_annotate g b false segment index
  | .access .pop segment index => exact lowerAccess_annotate g b true segment index
  | .access .arithmetic _ _ | .access .label _ _ | .access .goto _ _ | .access .ifGoto _ _ | .access .function _ _
  | .access .ret _ _ | .access .call _ _ | .access (.other _) _ _ => rfl

theorem setFile_annotate (g : Generator) (b : Bool) (path : Text) :
    { g with annotate := b }.setFile path = { g.setFile path with annotate := b } := by
  unfold setFile
  dsimp only
  split <;> rfl

theorem written_annotate (g : Generator) (b : Bool) (plan : Plan) :
    { g with annotate := b }.written plan = { g.written plan with annotate := b } := by
  unfold written
  split <;> rfl

end Generator

/-! ## Texts of complete lines -/

/-- Lines, each ended by a line feed. -/
def Text.ended (xs : List Text) : Text := xs.flatMap fun x => x ++ [lineFeed]

theorem Text.ended_append (xs ys : List Text) : ended (xs ++ ys) = ended xs ++ ended ys := List.flatMap_append

theorem Text.lines_ended {xs : List Text} (h : ∀ x ∈ xs, lineFeed ∉ x) : lines (ended xs) = xs ++ [[]] := by
  have hlines := lines_flatMap (f := fun x : Text => x) h
  rwa [List.map_id'] at hlines

theorem Text.ended_lines : ∀ t : Text, ended (lines t) = t ++ [lineFeed]
  | [] => rfl
  | b :: t => by
    have ih := ended_lines t
    unfold lines at ih ⊢
    by_cases hb : b = lineFeed
    · subst hb
      rw [splitAt_mark, ← List.singleton_append, ended_append, ih]
      rfl
    · obtain ⟨part, rest, hs, hc⟩ := splitAt_cons_ne hb t
      rw [hs, ← List.singleton_append, ended_append] at ih
      rw [hc, ← List.singleton_append, ended_append]
      simpa [ended] using ih

theorem Text.join_ended : ∀ ys : List Text, join [lineFeed] (ys ++ [[]]) = ended ys
  | [] => rfl
  | [y] => by simp [join, ended, List.intercalate]
  | y :: y' :: ys => by
    have ih := join_ended (y' :: ys)
    rw [List.cons_append] at ih
    rw [List.cons_append, List.cons_append, join_cons_cons, ih]
    simp [ended]

theorem withoutRemarks_ended {xs : List Text} (h : ∀ x ∈ xs, Text.lineFeed ∉ x) :
    withoutRemarks (Text.ended xs) = Text.ended (xs.filter fun x => !isRemark x) := by
  have hnil : ([[]] : List Text).filter (fun x => !isRemark x) = [[]] := rfl
  unfold withoutRemarks
  rw [Text.lines_ended h, List.filter_append, hnil, Text.join_ended]

def textLines (ls : List Line) : List Text := ls.flatMap fun l => Text.lines l.toText

theorem ended_textLines (ls : List Line) : Text.ended (textLines ls) = render ls := by
  induction ls with
  | nil => rfl
  | cons l ls ih =>
    unfold textLines at ih ⊢
    rw [List.flatMap_cons, Text.ended_append, ih, Text.ended_lines]
    rfl

theorem not_isRemark_textLines {g g' : Generator} {r : Request} {plan : Generator.Plan}
    (h : g.lower r = .ok (plan, g')) (hname : g.fileName.count 47 ≤ 1) :
    ∀ x ∈ textLines plan.lines, isRemark x = false := by
  intro x hx
  obtain ⟨l, hl, hx⟩ := List.mem_flatMap.mp hx
  have hle := (Text.sublist_of_mem_splitAt hx).count_le 47
  exact not_isRemark_of_count (hle.trans (Generator.count_slash_plan h hname hl))

namespace Translator

/-! ## Translators with and without annotations -/

structure Annotates (a b : Translator MemorySink) : Prop where
  generator : a.generator = { b.generator with annotate := true }
  plain : b.generator.annotate = false
  slashes : b.generator.fileName.count 47 ≤ 1
  commands : a.commands = b.commands
  skipped : a.skipped = b.skipped
  fails : a.sink.fails = b.sink.fails
  calls : a.sink.calls = b.sink.calls
  texts : ∃ xs : List Text, (∀ x ∈ xs, Text.lineFeed ∉ x) ∧ a.sink.text = Text.ended xs ∧
    b.sink.text = Text.ended (xs.filter fun x => !isRemark x)

/-- Whether two results are an annotating translator and one that does not annotate, with the same error. -/
def Together (x y : Translator MemorySink × Option Error) : Prop := Annotates x.1 y.1 ∧ x.2 = y.2

theorem Together.cases {x y : Translator MemorySink × Option Error} (h : Together x y) :
    (∃ a b e, x = (a, some e) ∧ y = (b, some e) ∧ Annotates a b) ∨
      ∃ a b, x = (a, none) ∧ y = (b, none) ∧ Annotates a b := by
  obtain ⟨a, e⟩ := x
  obtain ⟨b, e'⟩ := y
  obtain ⟨h, rfl⟩ := h
  cases e with
  | some e => exact .inl ⟨a, b, e, rfl, rfl, h⟩
  | none => exact .inr ⟨a, b, rfl, rfl, h⟩

namespace Annotates

theorem start (symbols : Bool) (fails : Nat → Bool) :
    Annotates (new true symbols { fails := fails }) (new false symbols { fails := fails }) where
  generator := rfl
  plain := rfl
  slashes := Nat.zero_le 1
  commands := rfl
  skipped := rfl
  fails := rfl
  calls := rfl
  texts := ⟨[], by simp, rfl, rfl⟩

section
variable {a b : Translator MemorySink} (h : Annotates a b)
include h

theorem texts_emission {r : Request} {plan : Generator.Plan} {g : Generator}
    (hlower : b.generator.lower r = .ok (plan, g)) :
    ∃ xs : List Text, (∀ x ∈ xs, Text.lineFeed ∉ x) ∧
      a.sink.text ++ render ({ g with annotate := true }.emission r plan) = Text.ended xs ∧
      b.sink.text ++ render (g.emission r plan) = Text.ended (xs.filter fun x => !isRemark x) := by
  obtain ⟨xs, hfeed, ha, hb⟩ := h.texts
  have hplain : g.annotate = false := by
    rw [Generator.lower_fields hlower]
    exact h.plain
  have hremark : Text.lineFeed ∉ (Line.remark r.toText).toText := by
    have htext := Generator.lineFeed_not_mem_toText hlower
    simp only [Line.toText, List.mem_append, not_or]
    exact ⟨by decide, htext⟩
  have hcode := not_isRemark_textLines hlower h.slashes
  refine ⟨xs ++ (Line.remark r.toText).toText :: textLines plan.lines, ?_, ?_, ?_⟩
  · intro x hx
    rw [List.mem_append, List.mem_cons] at hx
    obtain hx | rfl | hx := hx
    · exact hfeed x hx
    · exact hremark
    · obtain ⟨l, -, hx⟩ := List.mem_flatMap.mp hx
      exact Text.mark_not_mem_splitAt hx
  · have hemission : { g with annotate := true }.emission r plan = .remark r.toText :: plan.lines := rfl
    have hrender : render (.remark r.toText :: plan.lines) =
        Text.ended ((Line.remark r.toText).toText :: textLines plan.lines) := by
      rw [Text.ended, List.flatMap_cons]
      exact congrArg _ (ended_textLines plan.lines).symm
    rw [hemission, hrender, ha, Text.ended_append]
  · have hemission : g.emission r plan = plan.lines := by
      unfold Generator.emission
      rw [hplain]
      rfl
    have hkeep : (textLines plan.lines).filter (fun x => !isRemark x) = textLines plan.lines := by
      rw [List.filter_eq_self]
      intro x hx
      rw [hcode x hx]
      rfl
    have hfirst : isRemark (Line.remark r.toText).toText = true := rfl
    rw [hemission, hb, List.filter_append, List.filter_cons_of_neg (by simp [hfirst]), hkeep, Text.ended_append,
      ended_textLines]

theorem request (r : Request) : Together (a.request r) (b.request r) := by
  unfold Translator.request
  rw [h.generator, Generator.lower_annotate]
  cases hlower : b.generator.lower r with
  | error e => exact ⟨h, rfl⟩
  | ok result =>
    obtain ⟨plan, g⟩ := result
    have hfields := Generator.lower_fields hlower
    have hplain : g.annotate = false := by rw [hfields]; exact h.plain
    have hslashes : g.fileName.count 47 ≤ 1 := by rw [hfields]; exact h.slashes
    simp only [Except.map, Sink.write, MemorySink.write, h.fails, h.calls]
    by_cases hf : b.sink.fails (b.sink.calls + 1) = true
    · rw [if_pos hf, if_pos hf]
      exact ⟨⟨rfl, hplain, hslashes, h.commands, h.skipped, rfl, rfl, h.texts⟩, rfl⟩
    · rw [if_neg hf, if_neg hf]
      have hwritten := Generator.written_fields g plan
      obtain ⟨xs, hfeed, ha, hb⟩ := h.texts_emission hlower
      refine ⟨⟨Generator.written_annotate g true plan, ?_, ?_, h.commands, h.skipped, rfl, rfl, xs, hfeed, ?_, ?_⟩, rfl⟩
      · show (g.written plan).annotate = false
        rw [hwritten]
        exact hplain
      · show (g.written plan).fileName.count 47 ≤ 1
        rw [hwritten]
        exact hslashes
      · exact (text_cons a.sink _ 0).trans ha
      · exact (text_cons b.sink _ 0).trans hb

theorem command (c : Command) : Together (a.command c) (b.command c) := by
  unfold Translator.command
  cases requestFor? c with
  | none =>
    refine ⟨⟨h.generator, h.plain, h.slashes, h.commands, ?_, h.fails, h.calls, h.texts⟩, rfl⟩
    exact congrArg (· + 1) h.skipped
  | some r =>
    obtain ⟨a', b', e, ha, hb, h'⟩ | ⟨a', b', ha, hb, h'⟩ := (h.request r).cases
    · simp only [ha, hb]
      exact ⟨h', rfl⟩
    · simp only [ha, hb]
      refine ⟨⟨h'.generator, h'.plain, h'.slashes, ?_, h'.skipped, h'.fails, h'.calls, h'.texts⟩, rfl⟩
      exact congrArg (· + 1) h'.commands

theorem setFile (name : Text) : Annotates { a with generator := a.generator.setFile name }
    { b with generator := b.generator.setFile name } := by
  have hgenerator : a.generator.setFile name = { b.generator.setFile name with annotate := true } := by
    rw [h.generator, Generator.setFile_annotate]
  refine ⟨hgenerator, ?_, ?_, h.commands, h.skipped, h.fails, h.calls, h.texts⟩
  · show (b.generator.setFile name).annotate = false
    unfold Generator.setFile
    split <;> exact h.plain
  · show (b.generator.setFile name).fileName.count 47 ≤ 1
    rw [Generator.setFile_fileName]
    exact Generator.count_slash_keptName name

end

theorem entries : ∀ (list : List Entry) {a b : Translator MemorySink}, Annotates a b →
    Together (a.entries list) (b.entries list)
  | [], _, _, h => ⟨h, rfl⟩
  | entry :: rest, a, b, h => by
    rw [Translator.entries, Translator.entries]
    cases Command.decode entry.text with
    | error e => exact ⟨h, rfl⟩
    | ok c =>
      obtain ⟨a', b', e, ha, hb, h'⟩ | ⟨a', b', ha, hb, h'⟩ := (h.command c).cases
      · simp only [ha, hb]
        exact ⟨h', rfl⟩
      · simp only [ha, hb]
        exact entries rest h'

theorem report {a b : Translator MemorySink} (h : Annotates a b) (record record' : LogRecord) :
    Annotates (a.report record) (b.report record') :=
  ⟨h.generator, h.plain, h.slashes, h.commands, h.skipped, h.fails, h.calls, h.texts⟩

theorem file {a b : Translator MemorySink} (h : Annotates a b) (name : Text) (source : Except FileError Text) :
    Together (a.file name source) (b.file name source) := by
  unfold Translator.file
  cases source with
  | error e => exact ⟨h, rfl⟩
  | ok source =>
    dsimp only
    cases Listing.read? source with
    | none => exact ⟨h, rfl⟩
    | some list =>
      simp only [Translator.listing]
      generalize LogRecord.of .trace "Driver" _ = record
      have htogether := entries list ((h.setFile name).report record record)
      obtain ⟨a', b', e, ha, hb, h'⟩ | ⟨a', b', ha, hb, h'⟩ := htogether.cases
      · simp only [ha, hb]
        exact ⟨h', rfl⟩
      · simp only [ha, hb]
        exact ⟨h'.report _ _, rfl⟩

end Annotates

/-! ## Whole runs -/

/-- Translates source files one after the other, whether they succeed or not, and gives the error of each. -/
def fileRuns {σ : Type} [Sink σ] (t : Translator σ) :
    List (Text × Except FileError Text) → Translator σ × List (Option Error)
  | [] => (t, [])
  | (name, source) :: rest =>
    let (t, e) := t.file name source
    let (t, es) := fileRuns t rest
    (t, e :: es)

theorem Annotates.fileRuns : ∀ (files : List (Text × Except FileError Text)) {a b : Translator MemorySink},
    Annotates a b → Annotates (a.fileRuns files).1 (b.fileRuns files).1 ∧ (a.fileRuns files).2 = (b.fileRuns files).2
  | [], _, _, h => ⟨h, rfl⟩
  | (name, source) :: rest, a, b, h => by
    obtain ⟨hfile, herror⟩ := h.file name source
    obtain ⟨hrest, herrors⟩ := Annotates.fileRuns rest hfile
    rw [Translator.fileRuns, Translator.fileRuns]
    refine ⟨hrest, ?_⟩
    show (a.file name source).2 :: _ = (b.file name source).2 :: _
    rw [herror]
    exact congrArg _ herrors

/-- Annotations add remarks and change nothing else: the errors, the counts and the writes are the same, the text
without its remarks is the text without annotations, and both have the same words and symbols or are both rejected. -/
theorem annotations_add_remarks (symbols : Bool) (fails : Nat → Bool) (files : List (Text × Except FileError Text)) :
    let a := (new true symbols { fails := fails : MemorySink }).fileRuns files
    let b := (new false symbols { fails := fails : MemorySink }).fileRuns files
    a.2 = b.2 ∧ a.1.commands = b.1.commands ∧ a.1.generator.comparisons = b.1.generator.comparisons ∧
    a.1.sink.calls = b.1.sink.calls ∧
    withoutRemarks a.1.sink.text = b.1.sink.text ∧
    ((assemble a.1.sink.text).toOption.map fun p => (p.words, p.symbols)) =
      (assemble b.1.sink.text).toOption.map fun p => (p.words, p.symbols) := by
  intro a b
  obtain ⟨h, herrors⟩ := (Annotates.start symbols fails).fileRuns files
  obtain ⟨xs, hfeed, ha, hb⟩ := h.texts
  have htext : withoutRemarks a.1.sink.text = b.1.sink.text := by
    rw [ha, hb]
    exact withoutRemarks_ended hfeed
  refine ⟨herrors, h.commands, ?_, h.calls, htext, ?_⟩
  · rw [h.generator]
  · rw [← htext]
    exact (image?_withoutRemarks a.1.sink.text).symm

end Translator

end HackStack
