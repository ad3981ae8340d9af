import HackStack.Proofs.Lowering.Lockstep
import HackStack.Proofs.Translation.Files
import HackStack.Proofs.Translation.Statics

/-!
# The two ways to name static cells

Two translators that differ only in how they name static cells take the same files, fail at the same writes and write
mirrored code. The slots of the one are those that its generator has claimed file by file, the symbols of the other
are named after the files, and both belong to one variable each as long as the files have different names. So the two
assembled programs run in step.
-/

namespace HackStack

open Asm Template

namespace Generator

theorem slot_lt_of_cells {g : Generator} (hg : g.SlotsExist) {slot : Nat} {symbol : Text} (h : g.Cells slot symbol) :
    Segment.staticBase + g.staticFirst ≤ slot ∧ slot < Segment.staticBase + g.staticFirst + g.staticUsed ∧
      slot ≤ 255 := by
  obtain ⟨index, hindex, rfl, -⟩ := h
  simp only [SlotsExist, Segment.staticSize] at hg
  simp only [Segment.staticBase]
  omega

theorem cells_mono {g g' : Generator} (hfirst : g'.staticFirst = g.staticFirst) (hname : g'.fileName = g.fileName)
    (hused : g.staticUsed ≤ g'.staticUsed) {slot : Nat} {symbol : Text} (h : g.Cells slot symbol) :
    g'.Cells slot symbol := by
  obtain ⟨index, hindex, hslot, hsymbol⟩ := h
  refine ⟨index, Nat.lt_of_lt_of_le hindex hused, ?_, ?_⟩
  · rw [hfirst, hslot]
  · rw [hname, hsymbol]

theorem cells_written (g : Generator) (plan : Plan) : (g.written plan).Cells = g.Cells := by
  rw [written_fields]
  rfl

theorem Twin.setFile {g g' : Generator} (h : Twin g g') (path : Text) : Twin (g.setFile path) (g'.setFile path) := by
  obtain ⟨hslots, hsymbols, hannotate, hname, hcount⟩ := h
  unfold Generator.setFile
  rw [hname]
  split
  · exact ⟨hslots, hsymbols, hannotate, hname, hcount⟩
  · exact ⟨hslots, hsymbols, hannotate, rfl, hcount⟩

end Generator

namespace Translator

/-! ## Parallel translators -/

/-- Whether two translators are at the same point of a translation, the first with slots and the second with symbols for
static cells. -/
structure Parallel (t t' : Translator MemorySink) : Prop where
  generator : Generator.Twin t.generator t'.generator
  fails : t.sink.fails = t'.sink.fails
  calls : t.sink.calls = t'.sink.calls

/-- Whether parallel translators have both gone on by some commands of one file, and written mirrored code. -/
structure Doubled (t t₁ t' t₁' : Translator MemorySink) (cs : List Command) : Prop where
  parallel : Parallel t₁ t₁'
  staticFirst : t₁.generator.staticFirst = t.generator.staticFirst
  fileName : t₁.generator.fileName = t.generator.fileName
  staticUsed : t.generator.staticUsed ≤ t₁.generator.staticUsed
  slotsExist : t.generator.SlotsExist → t₁.generator.SlotsExist
  code : ∃ ls ls', (∀ l ∈ ls, l.Legal) ∧ t₁.sink.text = t.sink.text ++ render ls ∧
    t₁'.sink.text = t'.sink.text ++ render ls' ∧
    Mirrors (fun name => .label name ∈ ls') t₁.generator.Cells {} ls ls' (cs.flatMap Command.purposes)

section
variable {t t₁ t' t₁' : Translator MemorySink}

theorem Doubled.nil (h : Parallel t₁ t₁') (hg : t₁.generator = t.generator) (hs : t₁.sink = t.sink)
    (hs' : t₁'.sink = t'.sink) : Doubled t t₁ t' t₁' [] where
  parallel := h
  staticFirst := by rw [hg]
  fileName := by rw [hg]
  staticUsed := by rw [hg]
  slotsExist := by rw [hg]; exact id
  code := ⟨[], [], by simp, by simp [hs, render], by simp [hs', render], .nil {}⟩

theorem Doubled.trans {t₂ t₂' : Translator MemorySink} {cs ds : List Command} (h : Doubled t t₁ t' t₁' cs)
    (h' : Doubled t₁ t₂ t₁' t₂' ds) : Doubled t t₂ t' t₂' (cs ++ ds) := by
  obtain ⟨xs, xs', hlegal, hx, hx', hm⟩ := h.code
  obtain ⟨ys, ys', hlegal', hy, hy', hm'⟩ := h'.code
  refine ⟨h'.parallel, h'.staticFirst.trans h.staticFirst, h'.fileName.trans h.fileName,
    Nat.le_trans h.staticUsed h'.staticUsed, fun hs => h'.slotsExist (h.slotsExist hs), xs ++ ys, xs' ++ ys', ?_, ?_, ?_,
    ?_⟩
  · exact List.forall_mem_append.mpr ⟨hlegal, hlegal'⟩
  · rw [hy, hx, render_append, List.append_assoc]
  · rw [hy', hx', render_append, List.append_assoc]
  · rw [List.flatMap_append]
    refine Mirrors.append (hm.mono ?_ ?_) (hm'.mono ?_ ?_)
    · intro name hname
      exact List.mem_append_left _ hname
    · intro l _ n name _ hs
      exact Generator.cells_mono h'.staticFirst h'.fileName h'.staticUsed hs
    · intro name hname
      exact List.mem_append_right _ hname
    · intro l _ n name _ hs
      exact hs

theorem Doubled.congr {s s₁ s' s₁' : Translator MemorySink} {cs : List Command} (h : Doubled t t₁ t' t₁' cs)
    (hs : Agrees s t) (hs₁ : Agrees s₁ t₁) (hs' : Agrees s' t') (hs₁' : Agrees s₁' t₁') : Doubled s s₁ s' s₁' cs := by
  obtain ⟨⟨htwin, hfails, hcalls⟩, hfirst, hfile, hused, hexist, hcode⟩ := h
  rw [← hs.1] at hfirst hfile hused hexist
  rw [← hs₁.1] at htwin hfirst hfile hused hexist hcode
  rw [← hs₁'.1] at htwin
  rw [← hs₁.2] at hfails hcalls hcode
  rw [← hs₁'.2] at hfails hcalls hcode
  rw [← hs.2, ← hs'.2] at hcode
  exact ⟨⟨htwin, hfails, hcalls⟩, hfirst, hfile, hused, hexist, hcode⟩

/-! ## Requests and commands -/

theorem request_of_lower {r : Request} {plan : Generator.Plan} {g : Generator}
    (hl : t.generator.lower r = .ok (plan, g)) (hf : t.sink.fails (t.sink.calls + 1) = false) :
    ∃ t₁, t.request r = (t₁, none) ∧ t₁.generator = g.written plan ∧
      t₁.sink.text = t.sink.text ++ render (g.emission r plan) ∧ t₁.sink.fails = t.sink.fails ∧
      t₁.sink.calls = t.sink.calls + 1 := by
  rw [request_memory, hl]
  simp only [hf, Bool.false_eq_true, if_false]
  exact ⟨_, rfl, rfl, text_cons t.sink _ _, rfl, rfl⟩

theorem fails_of_request {r : Request} (h : t.request r = (t₁, none)) : t.sink.fails (t.sink.calls + 1) = false := by
  by_contra hf
  rw [Bool.not_eq_false] at hf
  rw [request_memory] at h
  cases hl : t.generator.lower r with
  | error e => rw [hl] at h; cases h
  | ok result =>
    rw [hl] at h
    simp only [hf, if_true] at h
    cases h

theorem doubled_request {r : Request} (h : Parallel t t') (hname : t.generator.fileName ≠ [])
    (hr : t.request r = (t₁, none)) :
    ∃ t₁', t'.request r = (t₁', none) ∧ Doubled t t₁ t' t₁' [r.toCommand] := by
  have hf := fails_of_request hr
  have hf' : t'.sink.fails (t'.sink.calls + 1) = false := by rwa [← h.fails, ← h.calls]
  obtain ⟨plan, g, hl, -, -⟩ := request_none hr
  obtain ⟨plan', hl', htwin, hm⟩ := Generator.mirrors_lower h.generator hname hl
  obtain ⟨t₂, hr₂, hgen, htext, hfails, hcalls⟩ := request_of_lower hl hf
  obtain ⟨t₁', hr', hgen', htext', hfails', hcalls'⟩ := request_of_lower hl' hf'
  cases hr.symm.trans hr₂
  have hlower := Generator.lower_fields hl
  have hused := Generator.staticUsed_lower h.generator.slots hl
  have hlegal := (Generator.implements_emission h.generator.slots hl).legal
  have hwritten := g.written_fields plan
  refine ⟨t₁', hr', ⟨?_, ?_, ?_⟩, ?_, ?_, ?_, ?_, _, _, hlegal, htext, htext', ?_⟩
  · rw [hgen, hgen']
    exact htwin
  · rw [hfails, hfails', h.fails]
  · rw [hcalls, hcalls', h.calls]
  · rw [hgen, hwritten, hlower]
  · rw [hgen, hwritten, hlower]
  · rw [hgen, hwritten]
    exact hused.1
  · rw [hgen, hwritten]
    exact hused.2
  · rw [hgen, Generator.cells_written, List.flatMap_singleton]
    exact hm

theorem doubled_command {c : Command} (h : Parallel t t') (hname : t.generator.fileName ≠ [])
    (hc : t.command c = (t₁, none)) : ∃ t₁', t'.command c = (t₁', none) ∧ Doubled t t₁ t' t₁' [c] := by
  unfold command at hc ⊢
  cases hr : requestFor? c with
  | none =>
    rw [hr] at hc
    simp only [Prod.mk.injEq, and_true] at hc
    subst hc
    have hpurposes : c.purposes = [] := by
      cases c with
      | arithmetic | push | pop => cases hr
      | _ => rfl
    refine ⟨_, rfl, ⟨h.generator, h.fails, h.calls⟩, rfl, rfl, Nat.le_refl _, id, [], [], by simp, ?_, ?_, ?_⟩
    · simp [report, render]
    · simp [report, render]
    · rw [List.flatMap_singleton, hpurposes]
      exact .nil {}
  | some r =>
    have hcommand : r.toCommand = c := toCommand_of_requestFor? hr
    simp only [hr] at hc
    cases hreq : t.request r with
    | mk t₂ result =>
      cases result with
      | some e => simp [hreq] at hc
      | none =>
        simp only [hreq, Prod.mk.injEq, and_true] at hc
        obtain ⟨t₂', hreq', hd⟩ := doubled_request h hname hreq
        simp only [hreq']
        subst hc
        refine ⟨_, rfl, ?_⟩
        rw [← hcommand]
        exact hd.congr ⟨rfl, rfl⟩ ⟨rfl, rfl⟩ ⟨rfl, rfl⟩ ⟨rfl, rfl⟩

end

/-! ## Files -/

theorem doubled_entries : ∀ {list : List Entry} {t t' t₁ : Translator MemorySink}, Parallel t t' →
    t.generator.fileName ≠ [] → t.entries list = (t₁, none) →
    ∃ t₁', t'.entries list = (t₁', none) ∧ Doubled t t₁ t' t₁' (decoded list)
  | [], t, t', t₁, h, _, he => by
    simp only [entries, Prod.mk.injEq, and_true] at he
    subst he
    exact ⟨t', rfl, .nil h rfl rfl rfl⟩
  | entry :: rest, t, t', t₁, h, hname, he => by
    rw [entries] at he ⊢
    cases hd : Command.decode entry.text with
    | error e => simp [hd] at he
    | ok c =>
      simp only [hd] at he ⊢
      cases hc : t.command c with
      | mk t₂ result =>
        cases result with
        | some e => simp [hc] at he
        | none =>
          simp only [hc] at he
          obtain ⟨t₂', hc', hfirst⟩ := doubled_command h hname hc
          obtain ⟨t₁', he', hrest⟩ := doubled_entries hfirst.parallel (by rwa [hfirst.fileName]) he
          have hdecoded : decoded (entry :: rest) = [c] ++ decoded rest := by simp [decoded, hd, Except.toOption]
          simp only [hc']
          refine ⟨t₁', he', ?_⟩
          rw [hdecoded]
          exact hfirst.trans hrest

theorem doubled_file {t t' t₁ : Translator MemorySink} {name source : Text} (h : Parallel t t')
    (hname : Generator.keptName name ≠ []) (hf : t.file name (.ok source) = (t₁, none)) :
    ∃ t₁', t'.file name (.ok source) = (t₁', none) ∧
      Doubled { t with generator := t.generator.setFile name } t₁ { t' with generator := t'.generator.setFile name } t₁'
        (sourceCommands source) := by
  unfold file at hf ⊢
  cases hr : Listing.read? source with
  | none => simp [hr] at hf
  | some list =>
    simp only [hr, listing] at hf ⊢
    generalize ht : report { t with generator := t.generator.setFile name } _ = s at hf
    generalize ht' : report { t' with generator := t'.generator.setFile name } _ = s'
    have hs : Parallel s s' := by
      rw [← ht, ← ht']
      exact ⟨h.generator.setFile name, h.fails, h.calls⟩
    have hsname : s.generator.fileName ≠ [] := by
      rw [← ht]
      show (t.generator.setFile name).fileName ≠ []
      rwa [Generator.setFile_fileName]
    cases he : s.entries list with
    | mk s₁ result =>
      cases result with
      | some e => simp [he] at hf
      | none =>
        simp only [he, Prod.mk.injEq, and_true] at hf
        obtain ⟨s₁', he', hd⟩ := doubled_entries hs hsname he
        have hcommands : sourceCommands source = decoded list := by simp [sourceCommands, hr]
        simp only [he', hcommands]
        subst hf
        refine ⟨_, rfl, ?_⟩
        rw [← ht, ← ht'] at hd
        exact hd.congr ⟨rfl, rfl⟩ ⟨rfl, rfl⟩ ⟨rfl, rfl⟩ ⟨rfl, rfl⟩

/-! ## Several files -/

/-- Whether the static variables of files with some names have slots behind those that a generator has claimed, and a
slot and a symbol of their own. -/
structure Spread (g : Generator) (names : List Text) (S : Nat → Text → Prop) : Prop where
  name : ∀ n symbol, S n symbol → ∃ name ∈ names, ∃ index, symbol = staticSymbol name index
  slot : ∀ n symbol, S n symbol → Segment.staticBase + g.staticFirst + g.staticUsed ≤ n ∧ n ≤ 255
  unique : ∀ n symbol n' symbol', S n symbol → S n' symbol' → (n = n' ↔ symbol = symbol')

theorem spread_cons {g g₁ : Generator} {name : Text} {names : List Text} {S : Nat → Text → Prop}
    (hfirst : g₁.staticFirst = g.staticFirst + g.staticUsed) (hname : g₁.fileName = name) (hexist : g₁.SlotsExist)
    (hnew : name ∉ names) (h : Spread g₁ names S) :
    Spread g (name :: names) fun n symbol => g₁.Cells n symbol ∨ S n symbol := by
  -- The slots of the file end where those of the files behind it begin, and its name is not among theirs.
  have hapart : ∀ n symbol n' symbol', g₁.Cells n symbol → S n' symbol' → n < n' ∧ symbol ≠ symbol' := by
    intro n symbol n' symbol' hc hs
    refine ⟨?_, ?_⟩
    · exact Nat.lt_of_lt_of_le (Generator.slot_lt_of_cells hexist hc).2.1 (h.slot n' symbol' hs).1
    · rintro rfl
      obtain ⟨index, -, -, hsymbol⟩ := hc
      obtain ⟨name', hmem, index', hsymbol'⟩ := h.name n' symbol hs
      have heq := (staticSymbol_injective (hsymbol.symm.trans hsymbol')).1
      rw [hname] at heq
      exact hnew (heq ▸ hmem)
  refine ⟨?_, ?_, ?_⟩
  · intro n symbol hs
    rcases hs with ⟨index, -, -, rfl⟩ | hs
    · exact ⟨name, List.mem_cons_self, index, by rw [hname]⟩
    · obtain ⟨name', hmem, hsymbol⟩ := h.name n symbol hs
      exact ⟨name', List.mem_cons_of_mem _ hmem, hsymbol⟩
  · intro n symbol hs
    rcases hs with hs | hs
    · have := Generator.slot_lt_of_cells hexist hs
      omega
    · have := h.slot n symbol hs
      omega
  · intro n symbol n' symbol' hs hs'
    rcases hs with hs | hs
    · rcases hs' with hs' | hs'
      · obtain ⟨index, -, rfl, rfl⟩ := hs
        obtain ⟨index', -, rfl, rfl⟩ := hs'
        constructor
        · intro heq
          rw [Nat.add_left_cancel heq]
        · intro heq
          rw [(staticSymbol_injective heq).2]
      · obtain ⟨hlt, hne⟩ := hapart n symbol n' symbol' hs hs'
        simp [Nat.ne_of_lt hlt, hne]
    · rcases hs' with hs' | hs'
      · obtain ⟨hlt, hne⟩ := hapart n' symbol' n symbol hs' hs
        simp [Nat.ne_of_gt hlt, Ne.symm hne]
      · exact h.unique n symbol n' symbol' hs hs'

def filePurposes (files : List (Text × Text)) : List Purpose :=
  files.flatMap fun file => (sourceCommands file.2).flatMap Command.purposes

theorem doubled_sources : ∀ {files : List (Text × Text)} {t t' t₁ : Translator MemorySink}, Parallel t t' →
    t.generator.SlotsExist → (t.generator.fileName :: files.map fun file => Generator.keptName file.1).Nodup →
    (∀ file ∈ files, Generator.keptName file.1 ≠ []) → t.sources files = (t₁, none) →
    ∃ t₁' S ls ls', t'.sources files = (t₁', none) ∧ (∀ l ∈ ls, l.Legal) ∧
      t₁.sink.text = t.sink.text ++ render ls ∧ t₁'.sink.text = t'.sink.text ++ render ls' ∧
      Mirrors (fun name => .label name ∈ ls') S {} ls ls' (filePurposes files) ∧
      Spread t.generator (files.map fun file => Generator.keptName file.1) S
  | [], t, t', t₁, _, _, _, _, ht => by
    simp only [sources, Prod.mk.injEq, and_true] at ht
    subst ht
    refine ⟨t', fun _ _ => False, [], [], rfl, by simp, by simp [render], by simp [render], .nil {}, ?_⟩
    exact ⟨fun _ _ => False.elim, fun _ _ => False.elim, fun _ _ _ _ => False.elim⟩
  | (path, source) :: rest, t, t', t₁, h, hexist, hnodup, hnames, ht => by
    rw [sources] at ht
    rw [List.forall_mem_cons] at hnames
    rw [List.map_cons, List.nodup_cons] at hnodup
    have hne : Generator.keptName path ≠ t.generator.fileName := by
      intro heq
      exact hnodup.1 (by simp [heq])
    cases hf : t.file path (.ok source) with
    | mk t₂ result =>
      cases result with
      | some e => simp [hf] at ht
      | none =>
        simp only [hf] at ht
        obtain ⟨t₂', hf', hd⟩ := doubled_file h hnames.1 hf
        have hname : t₂.generator.fileName = Generator.keptName path := by
          rw [hd.fileName]
          exact Generator.setFile_fileName t.generator path
        have hfirst : t₂.generator.staticFirst = t.generator.staticFirst + t.generator.staticUsed := by
          rw [hd.staticFirst]
          simp only [Generator.setFile, if_neg hne]
        have hexist₂ : t₂.generator.SlotsExist := hd.slotsExist (Generator.slotsExist_setFile hexist path)
        obtain ⟨xs, xs', hlegal, hx, hx', hm⟩ := hd.code
        obtain ⟨t₁', S, ys, ys', ht', hlegal', hy, hy', hm', hspread⟩ :=
          doubled_sources hd.parallel hexist₂ (by rw [hname]; exact hnodup.2) hnames.2 ht
        refine ⟨t₁', fun n symbol => t₂.generator.Cells n symbol ∨ S n symbol, xs ++ ys, xs' ++ ys', ?_, ?_, ?_, ?_, ?_,
          spread_cons hfirst hname hexist₂ (List.nodup_cons.mp hnodup.2).1 hspread⟩
        · rw [sources, hf']
          exact ht'
        · exact List.forall_mem_append.mpr ⟨hlegal, hlegal'⟩
        · rw [hy, hx, render_append, List.append_assoc]
        · rw [hy', hx', render_append, List.append_assoc]
        · refine Mirrors.append (hm.mono ?_ ?_) (hm'.mono ?_ ?_)
          · exact fun name hname => List.mem_append_left _ hname
          · exact fun _ _ _ _ _ hs => .inl hs
          · exact fun name hname => List.mem_append_right _ hname
          · exact fun _ _ _ _ _ hs => .inr hs

/-- Fresh translators write mirrored code, with a slot and a symbol for every static variable. -/
theorem mirrors_fresh {annotate : Bool} {fails : Nat → Bool} {files : List (Text × Text)} {t : Translator MemorySink}
    (hnodup : (files.map fun file => Generator.keptName file.1).Nodup)
    (hnames : ∀ file ∈ files, Generator.keptName file.1 ≠ [] ∧
      ∀ index, isSymbol (staticSymbol (Generator.keptName file.1) index) = true)
    (ht : (new annotate false ({ fails := fails } : MemorySink)).sources files = (t, none)) :
    ∃ t' S ls ls', (new annotate true ({ fails := fails } : MemorySink)).sources files = (t', none) ∧
      (∀ l ∈ ls, l.Legal) ∧ t.sink.text = render ls ∧ t'.sink.text = render ls' ∧
      Mirrors (fun name => .label name ∈ ls') S {} ls ls' (filePurposes files) ∧ Separate S := by
  have hparallel : Parallel (new annotate false ({ fails := fails } : MemorySink))
      (new annotate true ({ fails := fails } : MemorySink)) := ⟨⟨rfl, rfl, rfl, rfl, rfl⟩, rfl, rfl⟩
  have hfresh : ([] :: files.map fun file => Generator.keptName file.1).Nodup := by
    rw [List.nodup_cons, List.mem_map]
    refine ⟨?_, hnodup⟩
    rintro ⟨file, hmem, hnil⟩
    exact (hnames file hmem).1 hnil
  obtain ⟨t', S, ls, ls', ht', hlegal, htext, htext', hm, hspread⟩ :=
    doubled_sources hparallel (Nat.zero_le _) hfresh (fun file hmem => (hnames file hmem).1) ht
  refine ⟨t', S, ls, ls', ht', hlegal, htext, htext', hm, ?_, ?_, hspread.unique⟩
  · intro n symbol hs
    obtain ⟨name, hmem, index, rfl⟩ := hspread.name n symbol hs
    obtain ⟨file, hfile, rfl⟩ := List.mem_map.mp hmem
    exact ⟨(hnames file hfile).2 index, dot_mem_staticSymbol _ _⟩
  · intro n symbol hs
    have hslot := hspread.slot n symbol hs
    exact ⟨Nat.le_trans (Nat.le_add_right _ _) hslot.1, hslot.2⟩

/-! ## Runs -/

theorem stack?_eq {m m' : Machine} (hsize : m.ram.size = m'.ram.size)
    (hcells : ∀ address, ¬ Reserved address → m.ram[address]? = m'.ram[address]?) {base : Int}
    (hstack : ∀ address : Nat, base ≤ address → address < m.stackPointer → ¬ Reserved address) :
    m.stack? base = m'.stack? base := by
  have hpointer : m.stackPointer = m'.stackPointer := by
    simp only [Machine.stackPointer, Array.getD_eq_getD_getElem?, hcells 0 (by decide)]
  unfold Machine.stack?
  rw [← hpointer, ← hsize]
  split
  · rfl
  · split
    · rfl
    · rename_i hbase
      congr 2
      refine congrArg Array.toList (Array.ext_getElem? fun i => ?_)
      rw [Array.getElem?_extract, Array.getElem?_extract, ← hsize]
      split
      · exact hcells _ (hstack _ (by omega) (by omega))
      · rfl

section
variable {ls ls' : List Line} {ps : List Purpose} {S : Nat → Text → Prop} (hS : Separate S)
variable (h : Mirrors (fun name => .label name ∈ ls') S {} ls ls' ps) (hl : ∀ l ∈ ls, l.Legal)
variable {p p' : Program} (hp : assemble (render ls) = .ok p) (hp' : assemble (render ls') = .ok p')
include hS h hl hp hp'

theorem run_in_step {m : Machine} (hroom : 256 ≤ m.ram.size)
    (hzero : ∀ address, 16 ≤ address → address ≤ 255 → m.ram[address]? = some 0) {n : Nat}
    (hkeeps : ∀ k < n, ((m.load p).after k).Keeps ps) :
    ((m.load p).after n).pc = ((m.load p').after n).pc ∧
      ((m.load p).after n).ram.size = ((m.load p').after n).ram.size ∧
      ∀ address, ¬ Reserved address → ((m.load p).after n).ram[address]? = ((m.load p').after n).ram[address]? := by
  have hP := h.mirrored hS hl hp hp'
  have hread : ∀ v : UInt16, 16 ≤ v.toNat ∧ v.toNat ≤ 255 → Memory.read m.ram v = 0 := by
    intro v hv
    simp [Memory.read, Array.getD_eq_getD_getElem?, hzero v.toNat hv.1 hv.2]
  have halike : Alike (twins (fun n name => S n name ∧ load (.symbol name) ∈ ls') p'.symbols.address) m.ram m.ram := by
    refine ⟨rfl, hroom, fun _ _ => rfl, fun v v' hv => ?_⟩
    rw [hread v (hP.linked.static.left v v' hv), hread v' (hP.linked.static.right v v' hv)]
  have hstart : (Programs.mk p.words p'.words p.symbols.address p'.symbols.address ps).InStep
      (fun name => .label name ∈ ls') (fun n name => S n name ∧ load (.symbol name) ∈ ls') (m.load p) (m.load p') :=
    ⟨rfl, rfl, rfl, {}, hP.start, trivial, trivial, trivial, halike⟩
  have hend := Programs.inStep_after hP hstart hkeeps
  obtain ⟨τ, -, hd⟩ := hend.data
  exact ⟨hend.pc, hd.alike.size, hd.alike.cells⟩

end

/-- Files with names of their own that can be part of a symbol, and that are translated with slots for static cells.
They are translated with symbols too, to a text with as many lines, and both texts are accepted or rejected. The two
programs are equally long. Run on the same memory, with the static cells zero, they have the same program counter and
the same cells apart from the reserved ones after any number of steps, as long as the first reaches no reserved cell
through the stack pointer or the pointer of a segment; and so they have the same stack. -/
theorem static_modes_equivalent {annotate : Bool} {fails : Nat → Bool} {files : List (Text × Text)}
    {t : Translator MemorySink} (hnodup : (files.map fun file => Generator.keptName file.1).Nodup)
    (hnames : ∀ file ∈ files, Generator.keptName file.1 ≠ [] ∧
      ∀ index, isSymbol (staticSymbol (Generator.keptName file.1) index) = true)
    (ht : (new annotate false ({ fails := fails } : MemorySink)).sources files = (t, none)) :
    ∃ t', (new annotate true ({ fails := fails } : MemorySink)).sources files = (t', none) ∧
      (Text.lines t.sink.text).length = (Text.lines t'.sink.text).length ∧
      ((∃ p, assemble t.sink.text = .ok p) ↔ ∃ p', assemble t'.sink.text = .ok p') ∧
      ∀ p p', assemble t.sink.text = .ok p → assemble t'.sink.text = .ok p' →
        p.words.size = p'.words.size ∧
        ∀ m : Machine, 256 ≤ m.ram.size → (∀ address, 16 ≤ address → address ≤ 255 → m.ram[address]? = some 0) →
          ∀ n, (∀ k < n, ((m.load p).after k).Keeps (filePurposes files)) →
            ((m.load p).after n).pc = ((m.load p').after n).pc ∧
            ((m.load p).after n).ram.size = ((m.load p').after n).ram.size ∧
            (∀ address, ¬ Reserved address →
              ((m.load p).after n).ram[address]? = ((m.load p').after n).ram[address]?) ∧
            ∀ base : Int,
              (∀ address : Nat, base ≤ address → address < ((m.load p).after n).stackPointer → ¬ Reserved address) →
              ((m.load p).after n).stack? base = ((m.load p').after n).stack? base := by
  obtain ⟨t', S, ls, ls', ht', hlegal, htext, htext', hm, hS⟩ := mirrors_fresh hnodup hnames ht
  have hlegal' := hm.legal (fun n name hs => (hS.symbol n name hs).1) hlegal
  refine ⟨t', ht', ?_, ?_, ?_⟩
  · rw [htext, htext', lines_render hlegal, lines_render hlegal']
    simp [hm.pairs.length_eq]
  · rw [htext, htext']
    exact assemble_congr hm.sameLabels hlegal hlegal'
  · rw [htext, htext']
    intro p p' hp hp'
    refine ⟨(hm.mirrored hS hlegal hp hp').size, fun m hroom hzero n hkeeps => ?_⟩
    obtain ⟨hpc, hsize, hcells⟩ := run_in_step hS hm hlegal hp hp' hroom hzero hkeeps
    exact ⟨hpc, hsize, hcells, fun base hstack => stack?_eq hsize hcells hstack⟩

def stackMachine : Machine := { ram := Memory.write (Array.replicate 260 0) 0 256 }

theorem static_modes_equivalent_sample :
    ∃ t t' p p', (new true false ({} : MemorySink)).sources sampleFiles = (t, none) ∧
      (new true true ({} : MemorySink)).sources sampleFiles = (t', none) ∧
      assemble t.sink.text = .ok p ∧ assemble t'.sink.text = .ok p' ∧
      ((stackMachine.load p).after 75).stack? 256 = some [-1] ∧
      ((stackMachine.load p').after 75).stack? 256 = some [-1] := by
  have ht : sampleTranslation = (sampleTranslation.1, none) := Prod.ext rfl (by decide +kernel)
  have hrun : ∃ p, assemble sampleTranslation.1.sink.text = .ok p ∧
      (∀ k < 75, ((stackMachine.load p).after k).Keeps (filePurposes sampleFiles)) ∧
        ((stackMachine.load p).after 75).stack? 256 = some [-1] :=
    ok_of_any (by decide +kernel)
  obtain ⟨p, hp, hkeeps, hstack⟩ := hrun
  have hnames : ∀ file ∈ sampleFiles, Generator.keptName file.1 ≠ [] ∧
      ∀ index, isSymbol (staticSymbol (Generator.keptName file.1) index) = true := by
    have hsymbols : ∀ file ∈ sampleFiles, Generator.keptName file.1 ≠ [] ∧ isSymbol (Generator.keptName file.1) = true := by
      decide +kernel
    exact fun file hfile => ⟨(hsymbols file hfile).1, isSymbol_staticSymbol (hsymbols file hfile).2⟩
  have hzero : ∀ address < 256, 16 ≤ address → stackMachine.ram[address]? = some 0 := by decide +kernel
  obtain ⟨t', ht', -, haccepted, hruns⟩ := static_modes_equivalent (by decide +kernel) hnames ht
  obtain ⟨p', hp'⟩ := haccepted.mp ⟨p, hp⟩
  obtain ⟨-, -, -, hsame⟩ := (hruns p p' hp hp').2 stackMachine (by decide +kernel)
    (fun address hle hlt => hzero address (Nat.lt_succ_of_le hlt) hle) 75 hkeeps
  refine ⟨_, t', p, p', ht, ht', hp, hp', hstack, ?_⟩
  rw [← hsame 256 fun address hle _ => ?_]
  · exact hstack
  · unfold Reserved
    omega

end Translator

end HackStack
