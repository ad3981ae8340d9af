import HackStack.CommandLine
import HackStack.Proofs.Sources.Places
import HackStack.Proofs.Translation.Driver

/-!
# Translations and their sources

A translation writes at most one file: the one that its output leads to. The usual output has the extension of assembly
files and is no place where sources are looked for. Any other output can be one, and nothing keeps a translation from
writing there.
-/

namespace HackStack

/-! ## The file of a sink -/

namespace FileSink

/-- Whether a sink with some destination has changed a tree at most where its file is. -/
structure Confined (tree : FileTree) (d : Destination) (s : FileSink) : Prop where
  destination : s.destination = d
  tree : s.tree = tree ∨ ∃ l path content, d = .file l path ∧ tree.get? l ≠ some .fullDevice ∧
    s.tree = tree.set l (.file content)

section
variable {tree : FileTree} {d : Destination} {s : FileSink}

theorem Confined.pass (h : Confined tree d s) (text : Text) : Confined tree d (s.pass text) := by
  obtain ⟨rfl, htree⟩ := h
  unfold FileSink.pass
  cases hd : s.destination with
  | standardOutput =>
    rw [hd] at htree
    exact ⟨rfl, htree⟩
  | file l path =>
    rw [hd] at htree
    simp only
    cases ha : s.tree.append l path text with
    | error e => exact ⟨rfl, htree⟩
    | ok t =>
      obtain ⟨content, hfile, rfl⟩ := FileTree.append_ok ha
      refine ⟨rfl, .inr ⟨l, path, content ++ text, rfl, ?_⟩⟩
      obtain hsame | ⟨l', path', content', hl, hfull, hset⟩ := htree
      · rw [← hsame]
        exact ⟨by rw [hfile]; nofun, rfl⟩
      · cases hl
        refine ⟨hfull, ?_⟩
        simp only [hset]
        exact FileTree.set_set tree l _ _

theorem Confined.buffered (h : Confined tree d s) (text : Text) : Confined tree d { s with buffer := text } :=
  ⟨h.destination, h.tree⟩

theorem Confined.spill (h : Confined tree d s) (text : Text) : Confined tree d (s.spill text) := by
  unfold FileSink.spill
  generalize (if s.buffer.isEmpty then text else (s.buffer ++ text).take bufferSize) = first
  simp only
  split
  · exact h.pass first
  · split
    · exact (h.pass first).buffered _
    · exact ((h.pass first).pass _).buffered _

theorem Confined.write (h : Confined tree d s) (text : Text) : Confined tree d (s.write text).1 := by
  unfold FileSink.write
  simp only
  split
  · exact h
  · split
    · exact h.buffered _
    · exact h.spill text

theorem Confined.close (h : Confined tree d s) : Confined tree d s.close.1 := by
  unfold FileSink.close
  simp only
  split
  · exact h
  · exact (h.pass _).buffered _

end

theorem openAt_ok {tree : FileTree} {path : Text} {sink : FileSink} (h : openAt tree path = .ok sink) :
    path = [45] ∧ sink = { tree := tree, destination := .standardOutput } ∨
      ∃ l t, path ≠ [45] ∧ tree.create path = .ok (l, t) ∧ sink = { tree := t, destination := .file l path } := by
  unfold openAt at h
  by_cases hpath : path = [45]
  · rw [if_pos (by simpa using hpath)] at h
    exact .inl ⟨hpath, (Except.ok.inj h).symm⟩
  · rw [if_neg (by simpa using hpath)] at h
    cases hc : tree.create path with
    | error e => simp [hc] at h
    | ok r =>
      simp only [hc, Except.ok.injEq] at h
      exact .inr ⟨r.1, r.2, hpath, rfl, h.symm⟩

section
variable {tree : FileTree} (hlinks : tree.LinkFree) {path : Text} {sink : FileSink}
  (h : openAt tree path = .ok sink)
include hlinks h

theorem openAt_file {path' : Text} {l : Location} (hl : sink.destination = .file l path') :
    path ≠ [45] ∧ tree.LeadsTo path l ∧ tree.get? l ≠ some .directory := by
  obtain ⟨-, rfl⟩ | ⟨l, t, hpath, hc, rfl⟩ := openAt_ok h
  · cases hl
  · cases hl
    obtain ⟨hleads, hdir, -⟩ := FileTree.create_ok hlinks hc
    exact ⟨hpath, hleads, hdir⟩

theorem confined_openAt : Confined tree sink.destination sink := by
  obtain ⟨-, rfl⟩ | ⟨l, t, -, hc, rfl⟩ := openAt_ok h
  · exact ⟨rfl, .inl rfl⟩
  · obtain ⟨-, -, ⟨-, rfl⟩ | ⟨hfull, rfl⟩⟩ := FileTree.create_ok hlinks hc
    · exact ⟨rfl, .inl rfl⟩
    · exact ⟨rfl, .inr ⟨l, path, [], rfl, hfull, rfl⟩⟩

end

end FileSink

/-! ## The usual output -/

namespace FileTree

theorem outputPath_extension {t : FileTree} {input output : Text} (h : t.outputPath input = .ok output) :
    Path.extension output = outputExtension := by
  have hends (front : Text) : Path.extension (front ++ outputExtension) = outputExtension :=
    Path.extension_append front (by decide) (by decide)
  unfold outputPath at h
  cases hd : t.inputIsDirectory input with
  | error e => simp [hd, bind, Except.bind] at h
  | ok b =>
    simp only [hd, bind, Except.bind, pure, Except.pure] at h
    split at h
    · cases h
      rw [Path.extension_join _ (by rw [hends]; decide), hends]
    · split at h
      · cases h
        exact hends _
      · cases h

theorem not_sourcePlace_of_outputPath {t : FileTree} (h : t.LinkFree) {input output : Text}
    (ho : t.outputPath input = .ok output) {l : Location} (hl : t.LeadsTo output l) : ¬ t.SourcePlace input l := by
  intro hplace
  have hx := outputPath_extension ho
  obtain ⟨front, name, rfl, hname⟩ := hl.extension (hx ▸ by decide)
  obtain ⟨front', name', hl', hname'⟩ := hplace.extension h
  obtain rfl : name = name' := (List.append_inj' hl' rfl).2 |> List.singleton_inj.mp
  rw [hx] at hname
  exact absurd (hname.symm.trans hname') (by decide)

end FileTree

/-! ## Translations -/

namespace CommandLine

theorem confined_translateInto (s : Settings) (input output : Text) {tree : FileTree} {d : Destination}
    {sink : FileSink} (h : FileSink.Confined tree d sink) :
    ∃ sink', FileSink.Confined tree d sink' ∧ (translateInto s input output sink).tree = sink'.tree := by
  have hpath : FileSink.Confined tree d
      ((Translator.new s.annotate s.staticSymbols sink).path FileSink.tree input).1.sink :=
    Translator.sink_path (fun _ text hs => hs.write text) FileSink.tree h input
  unfold translateInto
  cases hr : (Translator.new s.annotate s.staticSymbols sink).path FileSink.tree input with
  | mk t e =>
    rw [hr] at hpath
    refine ⟨_, hpath.close, ?_⟩
    cases e with
    | some e => rfl
    | none =>
      simp only
      cases hc : t.sink.close with
      | mk sink' e => cases e <;> rfl

/-- A translation leaves the tree as it is, or it writes the file that its output leads to. -/
theorem translate_tree (s : Settings) {tree : FileTree} (hlinks : tree.LinkFree) (input output : Text) :
    (translate s tree input output).tree = tree ∨ ∃ out sink l path content,
      (output = [] ∧ tree.outputPath input = .ok out ∨ output ≠ [] ∧ out = output) ∧
        FileSink.openAt tree out = .ok sink ∧ sink.destination = .file l path ∧
        tree.get? l ≠ some .fullDevice ∧ (translate s tree input output).tree = tree.set l (.file content) := by
  have hout : ∀ out, (if output.isEmpty then tree.outputPath input else .ok output) = .ok out →
      output = [] ∧ tree.outputPath input = .ok out ∨ output ≠ [] ∧ out = output := by
    cases output with
    | nil => exact fun out h => .inl ⟨rfl, h⟩
    | cons b rest => exact fun out h => .inr ⟨List.cons_ne_nil b rest, (Except.ok.inj h).symm⟩
  unfold translate
  split
  · exact .inl rfl
  · rename_i out ho
    cases hopen : FileSink.openAt tree out with
    | error e => exact .inl rfl
    | ok sink =>
      obtain ⟨sink', hconfined, htree⟩ :=
        confined_translateInto s input out (FileSink.confined_openAt hlinks hopen)
      simp only
      rw [htree]
      obtain hsame | ⟨l, path, content, hl, hfull, hset⟩ := hconfined.tree
      · exact .inl hsame
      · exact .inr ⟨out, sink, l, path, content, hout out ho, hopen, hl, hfull, hset⟩

/-- Whether the output of a translation is a file at a place where a source of its input is looked for. -/
def AimsAt (tree : FileTree) (input output : Text) (l : Location) : Prop :=
  ∃ sink path, FileSink.openAt tree output = .ok sink ∧ sink.destination = .file l path ∧ tree.SourcePlace input l

/-- A translation without an explicit output, or to the standard output, keeps its sources. So does any other one, if
its output is not at a place of sources; and if it is, the sources are kept exactly if that file is the same afterwards. -/
theorem translate_keeps_sources {tree : FileTree} (hdisk : tree.OnDisk) (hlinks : tree.LinkFree) (s : Settings)
    (input output : Text) :
    let after := (translate s tree input output).tree
    (output = [] ∨ output = [45] → tree.KeepsSources after input) ∧
      (tree.KeepsSources after input ↔ ∀ l, AimsAt tree input output l → after.get? l = tree.get? l) := by
  intro after
  obtain hsame | ⟨out, sink, l, path, content, hout, hopen, hfile, hfull, hset⟩ := translate_tree s hlinks input output
  · have hkeeps : tree.KeepsSources tree input :=
      FileTree.SameDirectories.keepsSources ⟨rfl, fun _ => Iff.rfl⟩ hdisk hdisk hlinks hlinks fun _ _ => rfl
    have hafter : after = tree := hsame
    rw [hafter]
    exact ⟨fun _ => hkeeps, iff_of_true hkeeps fun _ _ => rfl⟩
  · have hafter : after = tree.set l (.file content) := hset
    obtain ⟨hprinted, hleads, hdir⟩ := FileSink.openAt_file hlinks hopen hfile
    rw [hafter, FileTree.keepsSources_set_iff hdisk hlinks hdir hfull (hdisk.names_of_leadsTo hleads)]
    obtain ⟨rfl, hpath⟩ | ⟨hne, rfl⟩ := hout
    · have hplace := FileTree.not_sourcePlace_of_outputPath hlinks hpath hleads
      refine ⟨fun _ hl => absurd hl hplace, iff_of_true (fun hl => absurd hl hplace) ?_⟩
      rintro l' ⟨sink', path', hopen', hfile', -⟩
      exact absurd rfl (FileSink.openAt_file hlinks hopen' hfile').2.1.nonempty
    · have hget : (tree.set l (.file content)).get? l = some (.file content) := by
        rw [FileTree.get?_set (FileTree.ne_root hdir), if_pos rfl]
      refine ⟨fun h => absurd h (not_or.mpr ⟨hne, hprinted⟩), fun hplace => ?_, fun haim hplace => ?_⟩
      · rintro l' ⟨sink', path', hopen', hfile', hplace'⟩
        cases hopen.symm.trans hopen'
        cases hfile.symm.trans hfile'
        exact hget.trans (hplace hplace').symm
      · exact (haim l ⟨sink, path, hopen, hfile, hplace⟩).symm.trans hget

def loneTree : FileTree where
  entries := [([ascii "A.vm"], .file (ascii "push constant 7\n"))]

theorem loneTree_onDisk : loneTree.OnDisk := by
  refine ⟨by decide, fun e he name hname => ?_, rfl⟩
  obtain rfl := List.mem_singleton.mp he
  obtain rfl := List.mem_singleton.mp hname
  exact ⟨by decide, by decide, by decide⟩

theorem loneTree_linkFree : loneTree.LinkFree := by
  intro e he target
  obtain rfl := List.mem_singleton.mp he
  nofun

theorem translate_keeps_sources_sample : loneTree.OnDisk ∧ loneTree.LinkFree ∧
    loneTree.sourceFiles (ascii "A.vm") = .ok [ascii "A.vm"] ∧
    loneTree.KeepsSources (translate {} loneTree (ascii "A.vm") []).tree (ascii "A.vm") :=
  ⟨loneTree_onDisk, loneTree_linkFree, by decide +kernel,
    (translate_keeps_sources loneTree_onDisk loneTree_linkFree {} (ascii "A.vm") []).1 (.inl rfl)⟩

/-- A source that is named as the output is emptied before it is read. -/
theorem source_as_output_lost : loneTree.OnDisk ∧ loneTree.LinkFree ∧
    ¬ loneTree.KeepsSources (translate {} loneTree (ascii "A.vm") (ascii "A.vm")).tree (ascii "A.vm") := by
  refine ⟨loneTree_onDisk, loneTree_linkFree, fun hkeeps => ?_⟩
  have hfiles : loneTree.sourceFiles (ascii "A.vm") = .ok [ascii "A.vm"] := by decide +kernel
  have hread : loneTree.readFile (ascii "A.vm") = .ok (ascii "push constant 7\n") := by decide +kernel
  have hread' : (translate {} loneTree (ascii "A.vm") (ascii "A.vm")).tree.readFile (ascii "A.vm") = .ok [] := by
    decide +kernel
  obtain ⟨content, hcontent, hcontent'⟩ := hkeeps.content _ hfiles _ (List.mem_singleton.mpr rfl)
  cases hread'.symm.trans hcontent'
  exact absurd (hread.symm.trans hcontent) (by decide)

end CommandLine

end HackStack
