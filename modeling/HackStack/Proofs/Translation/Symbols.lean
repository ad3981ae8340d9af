import HackStack.Proofs.Lowering.StaticSymbols
import HackStack.Proofs.Translation.Files
import HackStack.Proofs.Translation.Statics
import Mathlib.Data.List.Dedup

/-!
# Scopes of static symbols

A translator that names static cells by symbols writes for a static entry a load of the symbol of its file and index.
The assembler takes white space out of a line and gives every symbol that it meets a variable of its own. So two entries
share a cell exactly if they have the same file and index, as long as the names of the files are not empty, hold no
white space, and there are not more cells than words of memory.
-/

namespace HackStack

open Asm Template

/-! ## Names of files -/

namespace Path

theorem base_of_extension {path : Text} (h : extension path ≠ []) :
    separator ∉ base path ∧ extension (base path) = extension path := by
  have hdot : (path.reverse.takeWhile (· != separator)).contains 46 = true := by
    by_contra hdot
    unfold extension at h
    rw [if_neg hdot] at h
    exact h rfl
  have hall : ∀ b ∈ path.reverse.takeWhile (· != separator), (b != separator) = true := by
    intro b hb
    exact List.mem_takeWhile_imp (p := (· != separator)) hb
  have hbase : base path = (path.reverse.takeWhile (· != separator)).reverse := by
    cases hr : path.reverse with
    | nil => rw [hr] at hdot; cases hdot
    | cons b rest =>
      have hb : b ≠ separator := by
        rintro rfl
        simp [hr] at hdot
      have hne : path.isEmpty = false := by
        cases path with
        | nil => cases hr
        | cons _ _ => rfl
      unfold base
      rw [hne, hr, List.dropWhile_cons_of_neg (by simpa using hb)]
      rfl
  constructor
  · rw [hbase, List.mem_reverse]
    intro hm
    have hne := hall separator hm
    simp at hne
  · rw [hbase]
    unfold extension
    rw [List.reverse_reverse, List.takeWhile_eq_self_iff.mpr hall]

end Path

namespace Generator

section
variable {path : Text} (h : Path.extension path = FileTree.sourceExtension)
include h

theorem keptName_append : keptName path ++ FileTree.sourceExtension = Path.base path := by
  have hne : Path.extension path ≠ [] := by rw [h]; decide
  obtain ⟨hseparator, hextension⟩ := Path.base_of_extension hne
  have hsuffix := Path.extension_suffix hseparator
  unfold keptName
  rw [hextension, h] at hsuffix ⊢
  exact dropEnding_append hsuffix

theorem slash_not_mem_keptName : 47 ∉ keptName path := by
  intro hm
  have hne : Path.extension path ≠ [] := by rw [h]; decide
  refine (Path.base_of_extension hne).1 ?_
  rw [← keptName_append h]
  exact List.mem_append_left _ hm

end

/-! ## Requests -/

section
variable {g g' : Generator} {r : Request} {plan : Plan} (hg : g.usesSymbols = true)
variable (h : g.lower r = .ok (plan, g'))
include hg h

/-- What is lowered with symbols mirrors code with slots from the first one on, and loads no symbol of a static cell
but that of its own entry. -/
theorem mirrors_symbols :
    g' = g ∧ ∃ ls, (∀ l ∈ ls, l.Legal) ∧ Mirrors (fun name => .label name ∈ g.emission r plan)
      (fun _ symbol => ∃ (kind : Kind) (index : Nat), r = .access kind Segment.statics.name index ∧
        symbol = staticSymbol g.fileName index) {} ls (g.emission r plan) r.toCommand.purposes := by
  obtain ⟨op, rfl, rfl, rfl⟩ | ⟨pops, segment, index, hasks, hclaim, rfl⟩ := lower_cases h
  · have hslots : ({ g' with staticSymbols := false, staticFirst := 0 } : Generator).lower (.operator op.name) =
        .ok (⟨op.code g'.comparisons, op.isComparison⟩, { g' with staticSymbols := false, staticFirst := 0 }) := by
      simp only [lower, Operator.ofName?_name]
    refine ⟨rfl, _, (implements_emission rfl hslots).legal, mirrors_emission rfl _ ?_⟩
    exact mirrors_operator op fun name hname => mem_emission _ hname
  · rw [claimEntry_symbols hg, Except.ok.injEq] at hclaim
    subst hclaim
    -- With no slots before its own, a file has one for every index in range.
    have hslots : ∃ s, ({ g with staticSymbols := false, staticFirst := 0 } : Generator).claimEntry segment index =
        .ok s := by
      have hrange := hasks.inRange
      cases segment with
      | statics =>
        have hroom : ¬ Segment.staticSize ≤ 0 + index := by
          rw [Nat.zero_add]
          exact Nat.not_le.mpr hrange
        refine ⟨{ g with staticSymbols := false, staticFirst := 0, staticUsed := max g.staticUsed (index + 1) }, ?_⟩
        simp only [claimEntry, claim, usesSymbols, Bool.false_and, Bool.false_eq_true, if_false, if_neg hroom]
      | _ => exact ⟨_, rfl⟩
    obtain ⟨s, hs⟩ := hslots
    have hlower := lower_of_asks hasks hs
    have hfields := lower_fields hlower
    have hsymbols := usesSymbols_eq_false (staticSymbols_lower rfl hlower)
    refine ⟨rfl, _, (implements_emission rfl hlower).legal, mirrors_emission (by rw [hfields]) _ ?_⟩
    refine mirrors_access hasks hsymbols hg fun hstatic => ?_
    exact ⟨_, index, by rw [hasks.request, hstatic], rfl⟩

theorem symbol_emission {kind : Kind} {i : Int} (hr : r = .access kind Segment.statics.name i) :
    ∃ (index : Nat) (rest : List Line), i = index ∧
      (g.emission r plan).filter Line.isCode = load (.symbol (staticSymbol g.fileName index)) :: rest := by
  obtain ⟨_, hop, _, _⟩ | ⟨pops, segment, index, hasks, hclaim, rfl⟩ := lower_cases h
  · rw [hr] at hop
    cases hop
  · rw [claimEntry_symbols hg, Except.ok.injEq] at hclaim
    subst hclaim
    obtain ⟨rfl, rfl⟩ := hasks.static hr
    have hload : ∃ rest, g.entryCode pops .statics index =
        load (.symbol (staticSymbol g.fileName index)) :: rest := by
      cases pops <;> simp [entryCode, loadAddress, loadValue, staticOperand, staticSymbol, hg]
    obtain ⟨rest, hrest⟩ := hload
    refine ⟨index, rest.filter Line.isCode, rfl, ?_⟩
    unfold emission
    simp only [hrest]
    split <;> rfl

end

end Generator

/-! ## Outputs -/

def Asm.Line.word? (σ : Text → UInt16) : Line → Option UInt16
  | .instruction (.load operand) => some (wordUnder σ (.load operand))
  | _ => none

theorem Asm.placed_first {rom : Array UInt16} {σ : Text → UInt16} {i : Instruction} {rest : List Line} :
    ∀ {ls : List Line} {pc : Nat}, Placed rom σ pc ls → ls.filter Line.isCode = .instruction i :: rest →
      rom[pc]? = some (wordUnder σ i)
  | .remark _ :: _, _, h, hcode => by
    rw [Placed] at h
    exact placed_first h hcode
  | .instruction j :: ls, pc, h, hcode => by
    cases hcode
    exact h.1

theorem Asm.instructions_isCode : ∀ ls : List Line, instructions (ls.filter Line.isCode) = instructions ls
  | [] => rfl
  | .remark _ :: ls => instructions_isCode ls
  | .label _ :: ls => instructions_isCode ls
  | .instruction i :: ls => congrArg (i :: ·) (instructions_isCode ls)

namespace Output

def word? (p : Program) (o : Output) : Option UInt16 := (readLines o.text).findSome? (Line.word? p.symbols.address)

/-- Whether a symbol is that of the static entry that an output is for. -/
def Names (o : Output) (symbol : Text) : Prop :=
  ∃ index : Nat, o.staticIndex? = some (index : Int) ∧ symbol = staticSymbol (Generator.keptName o.path) index

/-- Whether an output has been written as lines that load no symbol of a static cell but that of its own entry, and
this one first. -/
structure Scoped (o : Output) (ls : List Line) : Prop where
  text : o.text = render ls
  mirrors : ∃ ms ps, (∀ l ∈ ms, l.Legal) ∧ Mirrors (fun name => .label name ∈ ls) (fun _ => o.Names) {} ms ls ps
  first : ∀ i, o.staticIndex? = some i → ∃ (index : Nat) (rest : List Line), i = index ∧
    ls.filter Line.isCode = load (.symbol (staticSymbol (Generator.keptName o.path) index)) :: rest

theorem scoped_flatMap {f : Output → List Line} : ∀ {os : List Output}, (∀ o ∈ os, o.Scoped (f o)) →
    os.flatMap Output.text = render (os.flatMap f) ∧
      ∃ ms ps, (∀ l ∈ ms, l.Legal) ∧ Mirrors (fun name => .label name ∈ os.flatMap f)
        (fun _ symbol => ∃ o ∈ os, o.Names symbol) {} ms (os.flatMap f) ps
  | [], _ => ⟨rfl, [], [], by simp, .nil {}⟩
  | o :: os, h => by
    rw [List.forall_mem_cons] at h
    obtain ⟨ms, ps, hlegal, hm⟩ := h.1.mirrors
    obtain ⟨htext, ns, qs, hlegal', hm'⟩ := scoped_flatMap h.2
    refine ⟨?_, ms ++ ns, ps ++ qs, List.forall_mem_append.mpr ⟨hlegal, hlegal'⟩, ?_⟩
    · rw [List.flatMap_cons, List.flatMap_cons, render_append, htext, h.1.text]
    · rw [List.flatMap_cons]
      refine Mirrors.append (hm.mono ?_ ?_) (hm'.mono ?_ ?_)
      · exact fun name hname => List.mem_append_left _ hname
      · exact fun _ _ _ name _ hs => ⟨o, List.mem_cons_self, hs⟩
      · exact fun name hname => List.mem_append_right _ hname
      · rintro _ _ _ name _ ⟨o', ho', hs⟩
        exact ⟨o', List.mem_cons_of_mem _ ho', hs⟩

end Output

namespace Generator

theorem usesSymbols_setFile {g : Generator} (hg : g.staticSymbols = true) {path : Text} (h : keptName path ≠ []) :
    (g.setFile path).usesSymbols = true := by
  simp [usesSymbols, hg, h]

end Generator

namespace Translator

theorem scoped_written {t t' : Translator MemorySink} {r : Request} {plan : Generator.Plan} {g : Generator}
    (hg : t.generator.usesSymbols = true) (hlower : t.generator.lower r = .ok (plan, g))
    (htext : t'.sink.text = t.sink.text ++ render (g.emission r plan)) {path : Text}
    (hname : t.generator.fileName = Generator.keptName path) (changes : Nat) :
    ∃ ls, Output.Scoped ⟨path, changes, r, t'.sink.text.drop t.sink.text.length⟩ ls := by
  obtain ⟨rfl, ms, hlegal, hm⟩ := Generator.mirrors_symbols hg hlower
  rw [hname] at hm
  refine ⟨t.generator.emission r plan, ?_, ⟨ms, _, hlegal, hm.mono (fun _ => id) ?_⟩, ?_⟩
  · rw [htext, List.drop_left]
  · rintro _ _ _ name _ ⟨kind, index, hr, hsymbol⟩
    exact ⟨index, Output.staticIndex?_eq_some.mpr ⟨kind, hr⟩, hsymbol⟩
  · intro i hi
    obtain ⟨kind, hr⟩ := Output.staticIndex?_eq_some.mp hi
    rw [← hname]
    exact Generator.symbol_emission hg hlower hr

/-- While all names are kept, every output is for a file of the run and has been written with its symbols. -/
theorem scoped_outputs : ∀ (cs : List Call) {path : Text} {changes : Nat} {t : Translator MemorySink} {o : Output},
    t.generator.usesSymbols = true → t.generator.fileName = Generator.keptName path →
    (∀ path ∈ filePaths cs, Generator.keptName path ≠ []) → o ∈ t.outputs path changes cs →
    (o.path = path ∨ o.path ∈ filePaths cs) ∧ ∃ ls, o.Scoped ls
  | [], _, _, _, _, _, _, _, ho => by simp [outputs] at ho
  | .file path' :: rest, path, changes, t, o, hg, hname, hnames, ho => by
    rw [filePaths, List.forall_mem_cons] at hnames
    rw [outputs] at ho
    have hsymbols : t.generator.staticSymbols = true := by
      rw [Generator.usesSymbols, Bool.and_eq_true] at hg
      exact hg.1
    obtain ⟨hpath, hls⟩ := scoped_outputs rest (t := { t with generator := t.generator.setFile path' })
      (Generator.usesSymbols_setFile hsymbols hnames.1) (by simp) hnames.2 ho
    rw [filePaths, List.mem_cons]
    exact ⟨.inr hpath, hls⟩
  | .request r :: rest, path, changes, t, o, hg, hname, hnames, ho => by
    rw [filePaths] at hnames ⊢
    rw [outputs] at ho
    obtain ⟨e, he⟩ | ⟨plan, g, hlower, hcases⟩ := request_cases t r
    · rw [he] at ho
      exact scoped_outputs rest hg hname hnames ho
    · have hsame := (Generator.mirrors_symbols hg hlower).1
      subst hsame
      obtain ⟨t', e, he, hgen, -⟩ | ⟨t', he, hgen, htext⟩ := hcases
      · rw [he] at ho
        exact scoped_outputs rest (hgen ▸ hg) (hgen ▸ hname) hnames ho
      · rw [he] at ho
        obtain rfl | ho := List.mem_cons.mp ho
        · exact ⟨.inl rfl, scoped_written hg hlower htext hname changes⟩
        · have hwritten := t.generator.written_fields plan
          rw [← hgen] at hwritten
          refine scoped_outputs rest ?_ ?_ hnames ho
          · rw [hwritten]; exact hg
          · rw [hwritten]; exact hname

/-! ## Files -/

section
variable {σ : Type} [Sink σ]

def sourcesCalls (t : Translator σ) : List (Text × Text) → List Call
  | [] => []
  | (path, source) :: rest =>
    t.fileCalls path (.ok source) ++
      match t.file path (.ok source) with
      | (_, some _) => []
      | (t, none) => sourcesCalls t rest

theorem agrees_sources : ∀ (files : List (Text × Text)) (t : Translator σ),
    Agrees (t.calls (t.sourcesCalls files)) (t.sources files).1
  | [], _ => ⟨rfl, rfl⟩
  | (path, source) :: rest, t => agrees_then t path (.ok source) (agrees_sources rest)

theorem sourcesCalls_initial : ∀ (files : List (Text × Text)) (t : Translator σ),
    filePaths (t.sourcesCalls files) <+: files.map Prod.fst ∧
      (t.sourcesCalls files = [] ∨ ∃ path rest, t.sourcesCalls files = .file path :: rest)
  | [], t => ⟨List.prefix_rfl, .inl rfl⟩
  | (path, source) :: rest, t => by
    have ih := fun t : Translator σ => (sourcesCalls_initial rest t).1
    rw [List.map_cons]
    exact filePaths_then t path (.ok source) ih rfl

end

def sourcesOutputs (t : Translator MemorySink) (files : List (Text × Text)) : List Output :=
  t.outputs [] 0 (t.sourcesCalls files)

theorem text_sources {t t' : Translator MemorySink} {files : List (Text × Text)} (h : t.sources files = (t', none)) :
    t'.sink.text = t.sink.text ++ (t.sourcesOutputs files).flatMap Output.text := by
  have hagrees := (agrees_sources files t).2
  rw [h] at hagrees
  rw [← hagrees]
  exact text_calls _ [] 0 t

theorem scoped_sources {t : Translator MemorySink} (ht : t.generator.staticSymbols = true) {files : List (Text × Text)}
    (hnames : ∀ file ∈ files, Generator.keptName file.1 ≠ []) :
    ∀ o ∈ t.sourcesOutputs files, o.path ∈ files.map Prod.fst ∧ ∃ ls, o.Scoped ls := by
  intro o ho
  unfold sourcesOutputs at ho
  obtain ⟨hinitial, hnil | ⟨path, rest, hcons⟩⟩ := sourcesCalls_initial files t
  · rw [hnil] at ho
    cases ho
  · have hmem : ∀ path ∈ filePaths (t.sourcesCalls files), path ∈ files.map Prod.fst := fun _ h => hinitial.subset h
    have hkept : ∀ path ∈ filePaths (t.sourcesCalls files), Generator.keptName path ≠ [] := by
      intro path hpath
      obtain ⟨file, hfile, rfl⟩ := List.mem_map.mp (hmem path hpath)
      exact hnames file hfile
    rw [hcons, filePaths, List.forall_mem_cons] at hmem hkept
    rw [hcons, outputs] at ho
    obtain ⟨hpath, hls⟩ := scoped_outputs rest (t := { t with generator := t.generator.setFile path })
      (Generator.usesSymbols_setFile ht hkept.1) (by simp) hkept.2 ho
    refine ⟨?_, hls⟩
    obtain hpath | hpath := hpath
    · rw [hpath]
      exact hmem.1
    · exact hmem.2 o.path hpath

/-! ## Assembled files -/

def staticCells (os : List Output) : List (Text × Int) :=
  (os.filterMap fun o => o.staticIndex?.map (o.path, ·)).dedup

section
variable {f : Output → List Line} {os : List Output} (hf : ∀ o ∈ os, o.Scoped (f o))
variable (hread : ∀ o ∈ os, 47 ∉ Generator.keptName o.path ∧ (Generator.keptName o.path).Unbroken)
variable {p : Program} (hp : assemble (render (os.flatMap f)) = .ok p)
include hf hread hp

theorem legal_scoped : ∀ l ∈ os.flatMap f, l.Legal := by
  obtain ⟨-, ms, ps, hlegal, hm⟩ := Output.scoped_flatMap hf
  refine hm.legal_of_assemble ?_ hlegal hp
  rintro n symbol ⟨o, ho, index, -, rfl⟩
  exact staticSymbol_read (hread o ho).1 (hread o ho).2 index

theorem allocated_scoped :
    ∃ bound next vs, Allocated bound p.symbols next vs ∧ vs.length ≤ (staticCells os).length ∧
      ∀ o ∈ os, ∀ index : Nat, o.staticIndex? = some (index : Int) →
        staticSymbol (Generator.keptName o.path) index ∈ vs := by
  obtain ⟨-, ms, ps, -, hm⟩ := Output.scoped_flatMap hf
  have hdot : ∀ (n : Nat) (symbol : Text), (∃ o ∈ os, o.Names symbol) → 46 ∈ symbol := by
    rintro n symbol ⟨o, ho, index, -, rfl⟩
    exact dot_mem_staticSymbol _ _
  obtain ⟨bound, next, vs, hvs, hmem⟩ := hm.allocated (fun _ => id) hdot (legal_scoped hf hread hp) hp
  refine ⟨bound, next, vs, hvs, ?_, ?_⟩
  · have hsubset : vs ⊆ (staticCells os).map fun cell => staticSymbol (Generator.keptName cell.1) cell.2.toNat := by
      intro symbol hsymbol
      obtain ⟨-, o, ho, index, hindex, rfl⟩ := ((hmem symbol).mp hsymbol).1
      refine List.mem_map.mpr ⟨(o.path, index), ?_, by simp⟩
      rw [staticCells, List.mem_dedup, List.mem_filterMap]
      exact ⟨o, ho, by rw [hindex]; rfl⟩
    have hle := (List.subperm_of_subset hvs.nodup hsubset).length_le
    rwa [List.length_map] at hle
  · intro o ho index hindex
    refine (hmem _).mpr ⟨⟨0, o, ho, index, hindex, rfl⟩, ?_⟩
    obtain ⟨index', rest, heq, hcode⟩ := (hf o ho).first index hindex
    cases Int.natCast_inj.mp heq
    refine List.mem_flatMap.mpr ⟨o, ho, (List.mem_filter (p := Line.isCode)).mp ?_ |>.1⟩
    rw [hcode]
    exact List.mem_cons_self

theorem word?_scoped {o : Output} (ho : o ∈ os) {i : Int} (hi : o.staticIndex? = some i) :
    ∃ index : Nat, i = index ∧
      o.word? p = some (p.symbols.address (staticSymbol (Generator.keptName o.path) index)) := by
  obtain ⟨index, rest, hindex, hcode⟩ := (hf o ho).first i hi
  have hlegal : ∀ l ∈ f o, l.Legal := fun l hl => legal_scoped hf hread hp l (List.mem_flatMap.mpr ⟨o, ho, hl⟩)
  refine ⟨index, hindex, ?_⟩
  rw [Output.word?, (hf o ho).text, readLines_render hlegal, hcode]
  rfl

theorem words_scoped {xs ys : List Output} {o : Output} (hos : os = xs ++ o :: ys) {i : Int}
    (hi : o.staticIndex? = some i) :
    ∃ word, o.word? p = some word ∧ p.words[(instructions (readLines (xs.flatMap Output.text))).length]? = some word := by
  have ho : o ∈ os := by rw [hos]; simp
  have hlegal := legal_scoped hf hread hp
  have hxs : ∀ o ∈ xs, o ∈ os := fun o ho => by rw [hos]; exact List.mem_append_left _ ho
  have hlegal' : ∀ l ∈ xs.flatMap f, l.Legal := by
    intro l hl
    obtain ⟨o, ho, hl⟩ := List.mem_flatMap.mp hl
    exact hlegal l (List.mem_flatMap.mpr ⟨o, hxs o ho, hl⟩)
  have hplaced := (assemble_render hlegal hp).1
  rw [hos, List.flatMap_append, List.flatMap_cons, placed_append, placed_append, Nat.zero_add] at hplaced
  obtain ⟨index, hindex, hword⟩ := word?_scoped hf hread hp ho hi
  obtain ⟨index', rest, hindex', hcode⟩ := (hf o ho).first i hi
  cases Int.natCast_inj.mp (hindex.symm.trans hindex')
  refine ⟨_, hword, ?_⟩
  rw [(Output.scoped_flatMap fun o ho => hf o (hxs o ho)).1, readLines_render hlegal', instructions_isCode]
  exact placed_first hplaced.2.1 hcode

section
variable (hpaths : ∀ o ∈ os, ∀ o' ∈ os, Generator.keptName o.path = Generator.keptName o'.path → o.path = o'.path)
include hpaths

theorem word?_eq_iff (hcells : (staticCells os).length ≤ 65536) {o o' : Output} (ho : o ∈ os) (ho' : o' ∈ os)
    {i i' : Int} (hi : o.staticIndex? = some i) (hi' : o'.staticIndex? = some i') :
    o.word? p = o'.word? p ↔ o.path = o'.path ∧ i = i' := by
  obtain ⟨index, rfl, hword⟩ := word?_scoped hf hread hp ho hi
  obtain ⟨index', rfl, hword'⟩ := word?_scoped hf hread hp ho' hi'
  obtain ⟨bound, next, vs, hvs, hcount, hmem⟩ := allocated_scoped hf hread hp
  rw [hword, hword', Option.some.injEq, Int.natCast_inj,
    variable_injective hvs (Nat.le_trans hcount hcells) (hmem o ho index hi) (hmem o' ho' index' hi')]
  constructor
  · intro heq
    obtain ⟨hname, hindex⟩ := staticSymbol_injective heq
    exact ⟨hpaths o ho o' ho' hname, hindex⟩
  · rintro ⟨hpath, rfl⟩
    rw [hpath]

end

theorem length_staticCells_le
    (hwords : ∀ o ∈ os, ∀ o' ∈ os, ∀ i i', o.staticIndex? = some i → o'.staticIndex? = some i' →
      (o.word? p = o'.word? p ↔ o.path = o'.path ∧ i = i')) : (staticCells os).length ≤ 65536 := by
  have hword : ∀ cell ∈ staticCells os, ∃ word, ∃ o ∈ os, o.staticIndex? = some cell.2 ∧ o.path = cell.1 ∧
      o.word? p = some word := by
    intro cell hcell
    rw [staticCells, List.mem_dedup, List.mem_filterMap] at hcell
    obtain ⟨o, ho, hcell⟩ := hcell
    obtain ⟨i, hi, rfl⟩ := Option.map_eq_some_iff.mp hcell
    obtain ⟨index, -, hword⟩ := word?_scoped hf hread hp ho hi
    exact ⟨_, o, ho, hi, rfl, hword⟩
  choose! word hword using hword
  have hnodup : ((staticCells os).map fun cell => (word cell).toNat).Nodup := by
    refine (List.nodup_dedup _).map_on fun cell hcell cell' hcell' heq => ?_
    obtain ⟨o, ho, hi, hpath, hloaded⟩ := hword cell hcell
    obtain ⟨o', ho', hi', hpath', hloaded'⟩ := hword cell' hcell'
    have hsame : o.word? p = o'.word? p := by rw [hloaded, hloaded', UInt16.toNat_inj.mp heq]
    have hcells := (hwords o ho o' ho' _ _ hi hi').mp hsame
    rw [hpath, hpath'] at hcells
    exact Prod.ext hcells.1 hcells.2
  have hrange : ((staticCells os).map fun cell => (word cell).toNat) ⊆ List.range 65536 := by
    intro n hn
    obtain ⟨cell, -, rfl⟩ := List.mem_map.mp hn
    exact List.mem_range.mpr (UInt16.toNat_lt _)
  have hlength := (List.subperm_of_subset hnodup hrange).length_le
  rwa [List.length_map, List.length_range] at hlength

end

/-- Source files of different base names, which are not empty and hold no white space in front of the extension, that
are translated with symbols for static cells and whose text is accepted. The program has a word for every static entry,
at the place of its output. Two entries have the same word exactly if they have the same file and the same index, for
all of them if and only if there are at most as many static cells as words. -/
theorem static_symbols_scoped {annotate : Bool} {fails : Nat → Bool} {files : List (Text × Text)}
    {t : Translator MemorySink} {p : Program}
    (hextension : ∀ file ∈ files, Path.extension file.1 = FileTree.sourceExtension)
    (hnodup : (files.map fun file => Path.base file.1).Nodup)
    (hnames : ∀ file ∈ files, Generator.keptName file.1 ≠ [] ∧
      Text.compact (Generator.keptName file.1) = Generator.keptName file.1)
    (ht : (new annotate true ({ fails := fails } : MemorySink)).sources files = (t, none))
    (hp : assemble t.sink.text = .ok p) :
    let outs := (new annotate true ({ fails := fails } : MemorySink)).sourcesOutputs files
    t.sink.text = outs.flatMap Output.text ∧
    (∀ xs o ys, outs = xs ++ o :: ys → ∀ i, o.staticIndex? = some i →
      ∃ word, o.word? p = some word ∧
        p.words[(instructions (readLines (xs.flatMap Output.text))).length]? = some word) ∧
    ((staticCells outs).length ≤ 65536 ↔
      ∀ o ∈ outs, ∀ o' ∈ outs, ∀ i i', o.staticIndex? = some i → o'.staticIndex? = some i' →
        (o.word? p = o'.word? p ↔ o.path = o'.path ∧ i = i')) := by
  intro outs
  have hscoped : ∀ o ∈ outs, o.path ∈ files.map Prod.fst ∧ ∃ ls, o.Scoped ls :=
    scoped_sources rfl fun file hfile => (hnames file hfile).1
  have htext : t.sink.text = outs.flatMap Output.text := text_sources ht
  -- The text is that of the lines of all outputs, in order, so all that follows is about these lines.
  choose! f hf using fun o ho => (hscoped o ho).2
  rw [htext, (Output.scoped_flatMap hf).1] at hp
  have hfile : ∀ o ∈ outs, ∃ file ∈ files, file.1 = o.path := fun o ho => List.mem_map.mp (hscoped o ho).1
  have hread : ∀ o ∈ outs, 47 ∉ Generator.keptName o.path ∧ (Generator.keptName o.path).Unbroken := by
    intro o ho
    obtain ⟨file, hfile, hpath⟩ := hfile o ho
    rw [← hpath]
    exact ⟨Generator.slash_not_mem_keptName (hextension file hfile), Text.unbroken_iff.mpr (hnames file hfile).2⟩
  have hpaths : ∀ o ∈ outs, ∀ o' ∈ outs, Generator.keptName o.path = Generator.keptName o'.path → o.path = o'.path := by
    intro o ho o' ho' heq
    obtain ⟨file, hmem, hpath⟩ := hfile o ho
    obtain ⟨file', hmem', hpath'⟩ := hfile o' ho'
    rw [← hpath, ← hpath'] at heq ⊢
    have hbase : Path.base file.1 = Path.base file'.1 := by
      rw [← Generator.keptName_append (hextension file hmem), heq, Generator.keptName_append (hextension file' hmem')]
    rw [List.inj_on_of_nodup_map hnodup hmem hmem' hbase]
  refine ⟨htext, fun xs o ys hos i hi => words_scoped hf hread hp hos hi, ?_, length_staticCells_le hf hread hp⟩
  intro hcells o ho o' ho' i i' hi hi'
  exact word?_eq_iff hf hread hp hpaths hcells ho ho' hi hi'

def twoFiles (path path' : Text) : List (Text × Text) :=
  [(path, ascii "pop static 0\n"), (path', ascii "push static 0\n")]

def apartFiles : List (Text × Text) := twoFiles (ascii "A.vm") (ascii "B.vm")

theorem static_symbols_scoped_sample :
    ∃ t p, (new false true ({} : MemorySink)).sources apartFiles = (t, none) ∧ assemble t.sink.text = .ok p ∧
      ∃ o ∈ (new false true ({} : MemorySink)).sourcesOutputs apartFiles,
        ∃ o' ∈ (new false true ({} : MemorySink)).sourcesOutputs apartFiles,
          o.staticIndex? = some 0 ∧ o'.staticIndex? = some 0 ∧ o.word? p ≠ o'.word? p := by
  have ht : (new false true ({} : MemorySink)).sources apartFiles =
      (((new false true ({} : MemorySink)).sources apartFiles).1, none) := Prod.ext rfl (by decide +kernel)
  have hp : ∃ p, assemble ((new false true ({} : MemorySink)).sources apartFiles).1.sink.text = .ok p ∧ True :=
    ok_of_any (by decide +kernel)
  have houts : ∃ o ∈ (new false true ({} : MemorySink)).sourcesOutputs apartFiles,
      ∃ o' ∈ (new false true ({} : MemorySink)).sourcesOutputs apartFiles,
        o.staticIndex? = some 0 ∧ o'.staticIndex? = some 0 ∧ o.path ≠ o'.path := by
    decide +kernel
  obtain ⟨p, hp, -⟩ := hp
  obtain ⟨o, ho, o', ho', hi, hi', hpath⟩ := houts
  have hwords := (static_symbols_scoped (by decide) (by decide) (by decide) ht hp).2.2.mp (by decide +kernel)
  exact ⟨_, p, ht, hp, o, ho, o', ho', hi, hi', fun h => hpath ((hwords o ho o' ho' 0 0 hi hi').mp h).1⟩

def blankFiles : List (Text × Text) := twoFiles (ascii "A B.vm") (ascii "AB.vm")

/-- The assembler takes the blank out of a symbol, and the files share a cell. -/
theorem static_symbols_merged :
    (∀ file ∈ blankFiles, Path.extension file.1 = FileTree.sourceExtension) ∧
    (blankFiles.map fun file => Path.base file.1).Nodup ∧
    ∃ t p, (new false true ({} : MemorySink)).sources blankFiles = (t, none) ∧ assemble t.sink.text = .ok p ∧
      ∃ o ∈ (new false true ({} : MemorySink)).sourcesOutputs blankFiles,
        ∃ o' ∈ (new false true ({} : MemorySink)).sourcesOutputs blankFiles,
          o.staticIndex? = some 0 ∧ o'.staticIndex? = some 0 ∧ o.path ≠ o'.path ∧ o.word? p = some 16 ∧
            o'.word? p = some 16 := by
  have hp : ∃ p, assemble ((new false true ({} : MemorySink)).sources blankFiles).1.sink.text = .ok p ∧
      ∃ o ∈ (new false true ({} : MemorySink)).sourcesOutputs blankFiles,
        ∃ o' ∈ (new false true ({} : MemorySink)).sourcesOutputs blankFiles,
          o.staticIndex? = some 0 ∧ o'.staticIndex? = some 0 ∧ o.path ≠ o'.path ∧ o.word? p = some 16 ∧
            o'.word? p = some 16 :=
    ok_of_any (by decide +kernel)
  obtain ⟨p, hp, hcells⟩ := hp
  exact ⟨by decide, by decide, _, p, Prod.ext rfl (by decide +kernel), hp, hcells⟩

end Translator

end HackStack
