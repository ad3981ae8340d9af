import HackStack.Proofs.Translation.Accepted

/-!
# The outputs of a translation

Every output of a translation has been written by a generator that was at its file, and every push, pop and operator of
source files that are translated without an error has its output. So what is said of all outputs is said of all these
commands.
-/

namespace HackStack

open Asm

/-! ## Outputs of generators -/

/-- Whether an output has been written as lines, by a generator at its file. -/
structure Output.WrittenAs (symbols : Bool) (o : Output) (ls : List Line) : Prop where
  text : o.text = render ls
  lowered : ∃ g g' plan, Translator.At symbols o.path g ∧ g.lower o.request = .ok (plan, g') ∧
    ls = g'.emission o.request plan

namespace Translator

theorem writtenAs_outputs {symbols : Bool} : ∀ (cs : List Call) {path : Text} {changes : Nat}
    {t : Translator MemorySink} {o : Output}, At symbols path t.generator → o ∈ t.outputs path changes cs →
    o.path ∈ path :: filePaths cs ∧ ∃ ls, o.WrittenAs symbols ls
  | [], _, _, _, _, _, ho => by simp [outputs] at ho
  | .file path' :: rest, path, changes, t, o, hat, ho => by
    rw [outputs] at ho
    obtain ⟨hpath, hls⟩ := writtenAs_outputs rest (t := { t with generator := t.generator.setFile path' })
      (hat.setFile path') ho
    exact ⟨List.mem_cons_of_mem _ hpath, hls⟩
  | .request r :: rest, path, changes, t, o, hat, ho => by
    rw [outputs] at ho
    rw [filePaths]
    obtain ⟨e, he⟩ | ⟨plan, g, hlower, ⟨t', e, he, hgen, -⟩ | ⟨t', he, hgen, htext⟩⟩ := request_cases t r
    · rw [he] at ho
      exact writtenAs_outputs rest hat ho
    · rw [he] at ho
      exact writtenAs_outputs rest (hgen ▸ hat.lower hlower) ho
    · rw [he] at ho
      obtain rfl | ho := List.mem_cons.mp ho
      · refine ⟨List.mem_cons_self, _, ?_, t.generator, g, plan, hat, hlower, rfl⟩
        rw [htext, List.drop_left]
      · exact writtenAs_outputs rest (hgen ▸ (hat.lower hlower).written plan) ho

theorem writtenAs_sources {t : Translator MemorySink} {symbols : Bool} (hat : At symbols [] t.generator)
    {files : List (Text × Text)} {o : Output} (ho : o ∈ t.sourcesOutputs files) :
    (o.path = [] ∨ o.path ∈ files.map Prod.fst) ∧ ∃ ls, o.WrittenAs symbols ls := by
  obtain ⟨hpath, hls⟩ := writtenAs_outputs (t.sourcesCalls files) hat ho
  refine ⟨?_, hls⟩
  obtain hpath | hpath := List.mem_cons.mp hpath
  · exact .inl hpath
  · exact .inr ((sourcesCalls_initial files t).1.subset hpath)

/-! ## Commands of source files -/

theorem outputs_agrees : ∀ (cs : List Call) {path : Text} {changes : Nat} {t t' : Translator MemorySink}, Agrees t t' →
    t.outputs path changes cs = t'.outputs path changes cs
  | [], _, _, _, _, _ => rfl
  | .file path' :: rest, path, changes, t, t', h => by
    rw [outputs, outputs, h.1]
    exact outputs_agrees rest ⟨rfl, h.2⟩
  | .request r :: rest, path, changes, t, t', h => by
    obtain ⟨hr, he⟩ := agrees_request h r
    rw [outputs, outputs]
    cases ht : t.request r with
    | mk t₁ e =>
      cases ht' : t'.request r with
      | mk t₁' e' =>
        rw [ht, ht'] at hr he
        cases he
        cases e with
        | some e => exact outputs_agrees rest hr
        | none =>
          dsimp only
          rw [outputs_agrees rest hr, hr.2, h.2]

theorem outputs_append (ys : List Call) : ∀ (xs : List Call) (path : Text) (changes : Nat) (t : Translator MemorySink),
    ∃ path' changes', t.outputs path changes (xs ++ ys) =
      t.outputs path changes xs ++ (t.calls xs).outputs path' changes' ys
  | [], path, changes, _ => ⟨path, changes, rfl⟩
  | .file path' :: xs, path, changes, t => by
    rw [List.cons_append, outputs, outputs]
    exact outputs_append ys xs path' _ { t with generator := t.generator.setFile path' }
  | .request r :: xs, path, changes, t => by
    rw [List.cons_append, outputs, outputs, calls, call]
    cases t.request r with
    | mk t₁ e =>
      obtain ⟨path', changes', h⟩ := outputs_append ys xs path changes t₁
      refine ⟨path', changes', ?_⟩
      cases e with
      | some e => exact h
      | none => exact congrArg (List.cons _) h

/-- A listing without errors begins with a command that is passed over, or with one whose request is written. -/
theorem entries_cons {t t' : Translator MemorySink} {entry : Entry} {rest : List Entry}
    (h : t.entries (entry :: rest) = (t', none)) :
    ∃ c, Command.decode entry.text = .ok c ∧
      ((requestFor? c = none ∧ ∃ t₁, Agrees t t₁ ∧ t₁.entries rest = (t', none)) ∨
        ∃ r t₁ t₂, requestFor? c = some r ∧ t.request r = (t₁, none) ∧ Agrees t₁ t₂ ∧
          t₂.entries rest = (t', none)) := by
  rw [entries] at h
  cases hd : Command.decode entry.text with
  | error e => simp [hd] at h
  | ok c =>
    rw [hd] at h
    dsimp only [command] at h
    refine ⟨c, rfl, ?_⟩
    cases hr : requestFor? c with
    | none =>
      simp only [hr] at h
      refine .inl ⟨rfl, _, ?_, h⟩
      exact ⟨rfl, rfl⟩
    | some r =>
      rw [hr] at h
      cases ht : t.request r with
      | mk t₁ e =>
        cases e with
        | some e => simp [ht] at h
        | none =>
          simp only [ht] at h
          refine .inr ⟨r, t₁, _, rfl, ht, ?_, h⟩
          exact ⟨rfl, rfl⟩

theorem output_of_entry : ∀ {list : List Entry} {t t' t'' : Translator MemorySink} (path : Text) (changes : Nat),
    Agrees t t' → t'.entries list = (t'', none) → ∀ c ∈ decoded list, ∀ r, requestFor? c = some r →
    ∃ o ∈ t.outputs path changes ((t.requestsOf list).map .request), o.path = path ∧ o.request = r
  | [], _, _, _, _, _, _, _, _, hc, _, _ => by cases hc
  | entry :: rest, t, t', t'', path, changes, hagrees, h, c, hc, r, hr => by
    obtain ⟨c', hd, hcases⟩ := entries_cons h
    have hdecoded : decoded (entry :: rest) = c' :: decoded rest := by simp [decoded, hd, Except.toOption]
    rw [hdecoded, List.mem_cons] at hc
    rw [requestsOf, hd]
    obtain ⟨hr', t₁, hagrees', h'⟩ | ⟨r', t₁, t₂, hr', ht', hagrees', h'⟩ := hcases
    · simp only [hr']
      obtain rfl | hc := hc
      · rw [hr] at hr'
        cases hr'
      · exact output_of_entry path changes ⟨hagrees.1.trans hagrees'.1, hagrees.2.trans hagrees'.2⟩ h' c hc r hr
    · obtain ⟨hstep, he⟩ := agrees_request hagrees r'
      rw [ht'] at hstep he
      have ht : t.request r' = ((t.request r').1, none) := Prod.ext rfl he
      simp only [hr', List.map_cons, outputs]
      rw [ht]
      obtain rfl | hc := hc
      · rw [hr, Option.some.injEq] at hr'
        exact ⟨_, List.mem_cons_self, rfl, hr'.symm⟩
      · obtain ⟨o, ho, hpath, hrequest⟩ := output_of_entry path changes
          ⟨hstep.1.trans hagrees'.1, hstep.2.trans hagrees'.2⟩ h' c hc r hr
        exact ⟨o, List.mem_cons_of_mem _ ho, hpath, hrequest⟩

theorem file_none {t t' : Translator MemorySink} {name source : Text} (h : t.file name (.ok source) = (t', none)) :
    ∃ list t₀ t₁, Listing.read? source = some list ∧ Agrees { t with generator := t.generator.setFile name } t₀ ∧
      t₀.entries list = (t₁, none) := by
  unfold file at h
  cases hread : Listing.read? source with
  | none => simp [hread] at h
  | some list =>
    simp only [hread, listing] at h
    generalize ht₀ : report { t with generator := t.generator.setFile name } _ = t₀ at h
    have hagrees : Agrees { t with generator := t.generator.setFile name } t₀ := by
      rw [← ht₀]
      exact ⟨rfl, rfl⟩
    cases he : t₀.entries list with
    | mk t₁ e =>
      cases e with
      | some e => simp [he] at h
      | none => exact ⟨list, t₀, t₁, rfl, hagrees, he⟩

theorem output_of_command : ∀ {files : List (Text × Text)} {t t' : Translator MemorySink} (path : Text) (changes : Nat),
    t.sources files = (t', none) → ∀ file ∈ files, ∀ c ∈ sourceCommands file.2, ∀ r, requestFor? c = some r →
    ∃ o ∈ t.outputs path changes (t.sourcesCalls files), o.path = file.1 ∧ o.request = r
  | [], _, _, _, _, _, _, hfile, _, _, _, _ => by cases hfile
  | (name, source) :: rest, t, t', path, changes, h, file, hfile, c, hc, r, hr => by
    rw [sources] at h
    rw [sourcesCalls]
    cases ht : t.file name (.ok source) with
    | mk t₁ e =>
      rw [ht] at h
      cases e with
      | some e => cases h
      | none =>
        have hagrees := agrees_file t name (.ok source)
        rw [ht] at hagrees
        obtain ⟨path', changes', houtputs⟩ := outputs_append (t₁.sourcesCalls rest) (t.fileCalls name (.ok source)) path
          changes t
        dsimp only
        rw [houtputs, outputs_agrees _ hagrees]
        obtain rfl | hfile := List.mem_cons.mp hfile
        · obtain ⟨list, t₀, t₂, hread, hagrees₀, hentries⟩ := file_none ht
          have hlist : sourceCommands source = decoded list := by simp [sourceCommands, hread]
          rw [hlist] at hc
          obtain ⟨o, ho, hpath, hrequest⟩ := output_of_entry name
            (if Generator.keptName name = t.generator.fileName then changes else changes + 1) hagrees₀ hentries
            c hc r hr
          refine ⟨o, List.mem_append_left _ ?_, hpath, hrequest⟩
          rw [fileCalls, hread]
          exact ho
        · obtain ⟨o, ho, hpath, hrequest⟩ := output_of_command path' changes' h file hfile c hc r hr
          exact ⟨o, List.mem_append_right _ ho, hpath, hrequest⟩

end Translator

end HackStack
