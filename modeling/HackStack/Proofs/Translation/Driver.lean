import HackStack.Proofs.Sources
import HackStack.Proofs.Translation.Calls

/-!
# The calls of a translation

Translating the source files of an input is a run of calls: it goes on to each file in turn and lowers its commands
up to the first error. So what holds of all runs of calls holds of translations, and in a translation the name that
the generator keeps changes with the file.
-/

namespace HackStack

open Asm

namespace Translator

/-! ## Calls -/

section
variable {σ : Type} [Sink σ]

def requestsOf (t : Translator σ) : List Entry → List Request
  | [] => []
  | entry :: rest =>
    match Command.decode entry.text with
    | .error _ => []
    | .ok c =>
      match requestFor? c with
      | none => requestsOf t rest
      | some r =>
        r :: match t.request r with
          | (_, some _) => []
          | (t, none) => requestsOf t rest

def fileCalls (t : Translator σ) (name : Text) : Except FileError Text → List Call
  | .error _ => []
  | .ok source =>
    match Listing.read? source with
    | none => []
    | some list => .file name :: (requestsOf { t with generator := t.generator.setFile name } list).map .request

def filesCalls (treeOf : σ → FileTree) (t : Translator σ) : List Text → List Call
  | [] => []
  | path :: rest =>
    match (treeOf t.sink).openAt path with
    | .error _ => []
    | .ok entry =>
      t.fileCalls path (FileTree.contentOf path entry) ++
        match t.file path (FileTree.contentOf path entry) with
        | (_, some _) => []
        | (t, none) => filesCalls treeOf t rest

def pathCalls (treeOf : σ → FileTree) (t : Translator σ) (input : Text) : List Call :=
  match (treeOf t.sink).sourceFiles input with
  | .error _ => []
  | .ok paths => filesCalls treeOf t paths

/-! ## Translators that agree -/

/-- Whether two translators have the same generator and the same sink, whatever they have counted and reported. -/
def Agrees (t t' : Translator σ) : Prop := t.generator = t'.generator ∧ t.sink = t'.sink

theorem agrees_request {t t' : Translator σ} (h : Agrees t t') (r : Request) :
    Agrees (t.request r).1 (t'.request r).1 ∧ (t.request r).2 = (t'.request r).2 := by
  unfold request
  rw [h.1]
  cases t'.generator.lower r with
  | error e => exact ⟨h, rfl⟩
  | ok result =>
    obtain ⟨plan, g⟩ := result
    simp only [h.2]
    cases hw : Sink.write t'.sink (render (g.emission r plan)) with
    | mk s e => cases e <;> exact ⟨⟨rfl, rfl⟩, rfl⟩

theorem agrees_call {t t' : Translator σ} (h : Agrees t t') : ∀ c : Call, Agrees (t.call c).1 (t'.call c).1
  | .file path => ⟨congrArg (Generator.setFile · path) h.1, h.2⟩
  | .request r => (agrees_request h r).1

theorem agrees_calls : ∀ (cs : List Call) {t t' : Translator σ}, Agrees t t' → Agrees (t.calls cs) (t'.calls cs)
  | [], _, _, h => h
  | c :: rest, _, _, h => agrees_calls rest (agrees_call h c)

theorem agrees_entries : ∀ (list : List Entry) {t t' : Translator σ}, Agrees t t' →
    Agrees (t.calls ((t.requestsOf list).map .request)) (t'.entries list).1
  | [], _, _, h => h
  | entry :: rest, t, t', h => by
    rw [requestsOf, entries]
    cases Command.decode entry.text with
    | error e => exact h
    | ok c =>
      simp only [command]
      cases requestFor? c with
      | none => exact agrees_entries rest ⟨h.1, h.2⟩
      | some r =>
        obtain ⟨hr, he⟩ := agrees_request h r
        cases ht : t.request r with
        | mk t₁ e =>
          cases ht' : t'.request r with
          | mk t₁' e' =>
            rw [ht, ht'] at hr he
            simp only at hr he
            subst he
            simp only [List.map_cons, calls, call, ht, ht']
            cases e with
            | some e => exact hr
            | none => exact agrees_entries rest ⟨hr.1, hr.2⟩

theorem agrees_file (t : Translator σ) (name : Text) (source : Except FileError Text) :
    Agrees (t.calls (t.fileCalls name source)) (t.file name source).1 := by
  unfold fileCalls file
  cases source with
  | error e => exact ⟨rfl, rfl⟩
  | ok source =>
    simp only
    cases Listing.read? source with
    | none => exact ⟨rfl, rfl⟩
    | some list =>
      simp only [listing, calls, call]
      generalize ht : report { t with generator := t.generator.setFile name } _ = t₀
      have hagrees : Agrees { t with generator := t.generator.setFile name } t₀ := by
        rw [← ht]
        exact ⟨rfl, rfl⟩
      have hentries := agrees_entries list hagrees
      cases he : t₀.entries list with
      | mk t₁ e =>
        rw [he] at hentries
        cases e <;> exact hentries

theorem agrees_then (t : Translator σ) (name : Text) (source : Except FileError Text) {after : Translator σ → List Call}
    {go : Translator σ → Translator σ × Option Error} (h : ∀ t, Agrees (t.calls (after t)) (go t).1) :
    Agrees
      (t.calls (t.fileCalls name source ++
        match t.file name source with
        | (_, some _) => []
        | (t, none) => after t))
      (match t.file name source with
        | (t, some e) => (t, some e)
        | (t, none) => go t).1 := by
  have hfile := agrees_file t name source
  rw [calls_append]
  cases hf : t.file name source with
  | mk t₁ e =>
    rw [hf] at hfile
    cases e with
    | some e => exact hfile
    | none =>
      obtain ⟨hgen, hsink⟩ := agrees_calls (after t₁) hfile
      obtain ⟨hgen', hsink'⟩ := h t₁
      exact ⟨hgen.trans hgen', hsink.trans hsink'⟩

theorem agrees_files (treeOf : σ → FileTree) : ∀ (paths : List Text) (t : Translator σ),
    Agrees (t.calls (filesCalls treeOf t paths)) (files treeOf t paths).1
  | [], t => ⟨rfl, rfl⟩
  | path :: rest, t => by
    rw [filesCalls, files]
    cases (treeOf t.sink).openAt path with
    | error e => exact ⟨rfl, rfl⟩
    | ok entry => exact agrees_then t path (FileTree.contentOf path entry) (agrees_files treeOf rest)

theorem agrees_path (treeOf : σ → FileTree) (t : Translator σ) (input : Text) :
    Agrees (t.calls (t.pathCalls treeOf input)) (t.path treeOf input).1 := by
  unfold pathCalls path
  cases (treeOf t.sink).sourceFiles input with
  | error e => exact ⟨rfl, rfl⟩
  | ok paths => exact agrees_files treeOf paths t

/-! ## What writes keep -/

section
variable {P : σ → Prop} (hwrite : ∀ s text, P s → P (Sink.write s text).1)
include hwrite

theorem sink_request {t : Translator σ} (h : P t.sink) (r : Request) : P (t.request r).1.sink := by
  unfold request
  cases t.generator.lower r with
  | error e => exact h
  | ok result =>
    obtain ⟨plan, g⟩ := result
    have hkept := hwrite t.sink (render (g.emission r plan)) h
    simp only
    cases hw : Sink.write t.sink (render (g.emission r plan)) with
    | mk s e =>
      rw [hw] at hkept
      cases e <;> exact hkept

theorem sink_calls : ∀ (cs : List Call) {t : Translator σ}, P t.sink → P (t.calls cs).sink
  | [], _, h => h
  | .file _ :: rest, _, h => sink_calls rest h
  | .request r :: rest, _, h => sink_calls rest (sink_request hwrite h r)

theorem sink_path (treeOf : σ → FileTree) {t : Translator σ} (h : P t.sink) (input : Text) :
    P (t.path treeOf input).1.sink :=
  (agrees_path treeOf t input).2 ▸ sink_calls hwrite (t.pathCalls treeOf input) h

end

/-! ## Files of a run -/

def filePaths : List Call → List Text
  | [] => []
  | .file path :: rest => path :: filePaths rest
  | .request _ :: rest => filePaths rest

theorem filePaths_requests (cs : List Call) : ∀ rs : List Request, filePaths (rs.map .request ++ cs) = filePaths cs
  | [] => rfl
  | _ :: rs => filePaths_requests cs rs

theorem fileCalls_cases (t : Translator σ) (name : Text) (source : Except FileError Text) :
    t.fileCalls name source = [] ∧ (t.file name source).2 ≠ none ∨
      ∃ rs : List Request, t.fileCalls name source = .file name :: rs.map .request := by
  unfold fileCalls file
  cases source with
  | error e => exact .inl ⟨rfl, by simp⟩
  | ok source =>
    simp only
    cases Listing.read? source with
    | none => exact .inl ⟨rfl, by simp⟩
    | some list => exact .inr ⟨_, rfl⟩

theorem filePaths_then (t : Translator σ) (name : Text) (source : Except FileError Text)
    {after : Translator σ → List Call} {paths : List Text} (h : ∀ t, filePaths (after t) <+: paths) {cs : List Call}
    (hcs : cs = t.fileCalls name source ++
      match t.file name source with
      | (_, some _) => []
      | (t, none) => after t) :
    filePaths cs <+: name :: paths ∧ (cs = [] ∨ ∃ path rest, cs = .file path :: rest) := by
  obtain ⟨hcalls, herror⟩ | ⟨rs, hcalls⟩ := fileCalls_cases t name source
  · rw [hcalls, List.nil_append] at hcs
    cases hf : t.file name source with
    | mk t₁ e =>
      cases e with
      | none => rw [hf] at herror; exact absurd rfl herror
      | some e =>
        rw [hf] at hcs
        rw [hcs]
        exact ⟨List.nil_prefix, .inl rfl⟩
  · rw [hcalls] at hcs
    refine ⟨?_, .inr ⟨name, _, hcs⟩⟩
    rw [hcs, List.cons_append, filePaths, filePaths_requests, List.prefix_cons_inj]
    cases t.file name source with
    | mk t₁ e =>
      cases e with
      | none => exact h t₁
      | some e => exact List.nil_prefix

theorem filesCalls_initial (treeOf : σ → FileTree) : ∀ (paths : List Text) (t : Translator σ),
    filePaths (filesCalls treeOf t paths) <+: paths ∧
      (filesCalls treeOf t paths = [] ∨ ∃ path rest, filesCalls treeOf t paths = .file path :: rest)
  | [], t => ⟨List.prefix_rfl, .inl rfl⟩
  | path :: rest, t => by
    have ih := fun t => (filesCalls_initial treeOf rest t).1
    rw [filesCalls]
    cases (treeOf t.sink).openAt path with
    | error e => exact ⟨List.nil_prefix, .inl rfl⟩
    | ok entry => exact filePaths_then t path (FileTree.contentOf path entry) ih rfl

end

/-! ## Names along a run -/

theorem fileName_request {t : Translator MemorySink} (hg : t.generator.staticSymbols = false) (r : Request) :
    (t.request r).1.generator.fileName = t.generator.fileName ∧
      (t.request r).1.generator.staticSymbols = false := by
  obtain ⟨e, he⟩ | ⟨plan, g, hlower, ⟨t', e, he, hgen, -⟩ | ⟨t', he, hgen, -⟩⟩ := request_cases t r
  · rw [he]
    exact ⟨rfl, hg⟩
  · rw [he, hgen, Generator.lower_fields hlower]
    exact ⟨rfl, hg⟩
  · rw [he, hgen, Generator.written_fields, Generator.lower_fields hlower]
    exact ⟨rfl, hg⟩

/-- While all files have different names, an output is for the file at the start of the run, or for a later one and
then the name has changed. -/
theorem path_outputs : ∀ (cs : List Call) {path : Text} {changes : Nat} {t : Translator MemorySink} {o : Output},
    t.generator.staticSymbols = false → t.generator.fileName = Generator.keptName path →
    (Generator.keptName path :: (filePaths cs).map Generator.keptName).Nodup → o ∈ t.outputs path changes cs →
    o.path = path ∧ o.changes = changes ∨ o.path ∈ filePaths cs ∧ changes < o.changes
  | [], _, _, _, _, _, _, _, ho => by simp [outputs] at ho
  | .file path' :: rest, path, changes, t, o, hg, hname, hnodup, ho => by
    rw [filePaths, List.map_cons, List.nodup_cons] at hnodup
    have hne : Generator.keptName path' ≠ t.generator.fileName := by
      intro e
      exact hnodup.1 (by simp [e, hname])
    rw [outputs, if_neg hne] at ho
    rw [filePaths]
    obtain ⟨hpath, hchanges⟩ | ⟨hpath, hchanges⟩ := path_outputs rest
      (t := { t with generator := t.generator.setFile path' }) (by simpa using hg) (by simp) hnodup.2 ho
    · exact .inr ⟨by simp [hpath], by omega⟩
    · exact .inr ⟨by simp [hpath], by omega⟩
  | .request r :: rest, path, changes, t, o, hg, hname, hnodup, ho => by
    obtain ⟨hname', hg'⟩ := fileName_request hg r
    have ih := @path_outputs rest path changes (t.request r).1 o hg' (hname'.trans hname) hnodup
    rw [outputs] at ho
    cases hr : t.request r with
    | mk t' e =>
      rw [hr] at ho ih
      cases e with
      | some e => exact ih ho
      | none =>
        obtain rfl | ho := List.mem_cons.mp ho
        · exact .inl ⟨rfl, rfl⟩
        · exact ih ho

/-- While all files have different names, the name changes exactly with the file. -/
theorem path_eq_iff : ∀ (cs : List Call) {path : Text} {changes : Nat} {t : Translator MemorySink},
    t.generator.staticSymbols = false → t.generator.fileName = Generator.keptName path →
    (Generator.keptName path :: (filePaths cs).map Generator.keptName).Nodup →
    (t.outputs path changes cs).Pairwise fun o o' => o.path = o'.path ↔ o.changes = o'.changes
  | [], _, _, _, _, _, _ => .nil
  | .file path' :: rest, path, changes, t, hg, hname, hnodup => by
    rw [outputs]
    rw [filePaths, List.map_cons, List.nodup_cons] at hnodup
    exact path_eq_iff rest (by simpa using hg) (by simp) hnodup.2
  | .request r :: rest, path, changes, t, hg, hname, hnodup => by
    obtain ⟨hname', hg'⟩ := fileName_request hg r
    have ih := @path_eq_iff rest path changes (t.request r).1 hg' (hname'.trans hname) hnodup
    have htail := @path_outputs rest path changes (t.request r).1
    rw [outputs]
    cases hr : t.request r with
    | mk t' e =>
      rw [hr] at ih htail hname' hg'
      cases e with
      | some e => exact ih
      | none =>
        refine List.pairwise_cons.mpr ⟨fun o ho => ?_, ih⟩
        obtain ⟨hpath, hchanges⟩ | ⟨hpath, hchanges⟩ := htail hg' (hname'.trans hname) hnodup ho
        · simp [hpath, hchanges]
        · have hne : path ≠ o.path := by
            rintro rfl
            exact (List.nodup_cons.mp hnodup).1 (List.mem_map_of_mem hpath)
          simp only [hne, false_iff]
          omega

theorem path_eq_iff_translation {treeOf : MemorySink → FileTree} {t : Translator MemorySink}
    (hg : t.generator.staticSymbols = false) (htree : (treeOf t.sink).WellFormed) (input path : Text) (changes : Nat) :
    ∀ o ∈ t.outputs path changes (t.pathCalls treeOf input), ∀ o' ∈ t.outputs path changes (t.pathCalls treeOf input),
      (o.path = o'.path ↔ o.changes = o'.changes) := by
  have hpairs : (t.outputs path changes (t.pathCalls treeOf input)).Pairwise fun o o' =>
      o.path = o'.path ↔ o.changes = o'.changes := by
    unfold pathCalls
    cases hs : (treeOf t.sink).sourceFiles input with
    | error e => exact .nil
    | ok paths =>
      simp only
      obtain ⟨hinitial, hnil | ⟨path', rest, hcons⟩⟩ := filesCalls_initial treeOf paths t
      · rw [hnil]
        exact .nil
      · have hnodup := (FileTree.nodup_keptName_sourceFiles htree hs).sublist (hinitial.sublist.map _)
        rw [hcons, filePaths, List.map_cons] at hnodup
        rw [hcons, outputs]
        exact path_eq_iff rest (by simpa using hg) (by simp) hnodup
  intro o ho o' ho'
  refine hpairs.forall_of_forall_of_flip (fun _ _ => by simp) (hpairs.imp fun {a b} h => ?_) ho ho'
  show b.path = a.path ↔ b.changes = a.changes
  rw [eq_comm, h, eq_comm]

end Translator

end HackStack
