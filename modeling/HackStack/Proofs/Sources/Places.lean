import HackStack.Proofs.FileTree

/-!
# Places of sources

The sources of an input are looked for at two kinds of places: where the input leads, if it has the extension of source
files, and at the names with that extension in the directory that it leads to. So the sources stay what they are when
files are written elsewhere, and a file at such a place is a source.
-/

namespace HackStack.FileTree

/-- Whether a source of an input is looked for at a location. -/
def SourcePlace (t : FileTree) (input : Text) (l : Location) : Prop :=
  (∃ e, t.resolve input = .ok (l, e) ∧ Path.extension input = sourceExtension) ∨
    ∃ m name, t.resolve input = .ok (m, some .directory) ∧ l = m ++ [name] ∧ Path.extension name = sourceExtension

/-- Whether an input has the same sources in a second tree: the same paths, each with the same content. -/
structure KeepsSources (t t' : FileTree) (input : Text) : Prop where
  list : ∀ files, t'.sourceFiles input = .ok files ↔ t.sourceFiles input = .ok files
  content : ∀ files, t.sourceFiles input = .ok files → ∀ path ∈ files,
    ∃ content, t.readFile path = .ok content ∧ t'.readFile path = .ok content

/-! ## The order of sources -/

theorem textLE_trans (a b c : Text) (hab : textLE a b = true) (hbc : textLE b c = true) : textLE a c = true :=
  Std.TransOrd.isLE_trans hab hbc

theorem textLE_total (a b : Text) : (textLE a b || textLE b a) = true := by
  unfold textLE
  rw [Std.OrientedOrd.eq_swap (a := b) (b := a)]
  cases compare a b <;> rfl

theorem textLE_antisymm {a b : Text} (hab : textLE a b = true) (hba : textLE b a = true) : a = b :=
  Std.LawfulEqOrd.eq_of_compare (Std.OrientedCmp.isLE_antisymm hab hba)

theorem pairwise_sourcesIn (t : FileTree) (path : Text) : (t.sourcesIn path).Pairwise fun a b => textLE a b = true := by
  unfold sourcesIn
  split
  · exact List.pairwise_mergeSort textLE_trans textLE_total _
  · exact .nil

theorem sourcesIn_ext {t t' : FileTree} (h : t.WellFormed) (h' : t'.WellFormed) {path : Text}
    (hmem : ∀ p, p ∈ t'.sourcesIn path ↔ p ∈ t.sourcesIn path) : t'.sourcesIn path = t.sourcesIn path := by
  have hnodup := (nodup_keptName_sourcesIn h path).of_map
  have hnodup' := (nodup_keptName_sourcesIn h' path).of_map
  exact ((List.perm_ext_iff_of_nodup hnodup' hnodup).mpr hmem).eq_of_pairwise
    (fun _ _ _ _ => textLE_antisymm) (t'.pairwise_sourcesIn path) (t.pairwise_sourcesIn path)

/-! ## Sources and their places -/

theorem OnDisk.mem_namesIn {t : FileTree} (h : t.OnDisk) {l : Location} {name : Text} {e : FileEntry} :
    (name, e) ∈ t.namesIn l ↔ t.get? (l ++ [name]) = some e := by
  unfold namesIn
  rw [List.mem_mergeSort, List.mem_filterMap, ← h.mem_iff (by simp)]
  constructor
  · rintro ⟨⟨m, e'⟩, hm, hname⟩
    cases hlast : m.getLast? with
    | none => simp [hlast] at hname
    | some last =>
      simp only [hlast] at hname
      split at hname
      · rename_i hdir
        cases hname
        rw [← beq_iff_eq.mp hdir, List.dropLast_append_getLast? name hlast]
        exact hm
      · cases hname
  · intro hm
    exact ⟨_, hm, by simp⟩

theorem OnDisk.mem_sourcesIn {t : FileTree} (h : t.OnDisk) (hlinks : t.LinkFree) {input : Text} {m : Location}
    (hinput : t.LeadsTo input m) (hm : t.get? m = some .directory) {path : Text} :
    path ∈ t.sourcesIn input ↔ ∃ name e, t.get? (m ++ [name]) = some e ∧ e ≠ .directory ∧
      Path.extension name = sourceExtension ∧ path = Path.join input name := by
  have hentry : t.entryAt input = .ok (m, .directory) := (entryAt_eq_ok hlinks).mpr ⟨hinput, hm⟩
  unfold sourcesIn
  simp only [hentry, List.mem_mergeSort, List.mem_map, List.mem_filter, Prod.exists, h.mem_namesIn, Bool.and_eq_true,
    bne_iff_ne, beq_iff_eq, and_assoc]
  exact exists_congr fun name => exists_congr fun e =>
    and_congr_right' (and_congr_right' (and_congr_right' eq_comm))

theorem inputIsDirectory_eq_ok {t : FileTree} (h : t.LinkFree) {input : Text} {b : Bool} :
    t.inputIsDirectory input = .ok b ↔ ∃ m e, t.LeadsTo input m ∧ t.get? m = some e ∧ b = (e == .directory) := by
  have hentry : t.inputIsDirectory input = .ok b ↔ ∃ m e, t.entryAt input = .ok (m, e) ∧ b = (e == .directory) := by
    unfold inputIsDirectory isDirectory
    cases t.entryAt input with
    | error p => simp
    | ok r => simp [eq_comm, Prod.ext_iff]
  rw [hentry]
  exact exists_congr fun m => exists_congr fun e => by rw [entryAt_eq_ok h, and_assoc]

/-- There are sources for a directory that has some, and for a file with the extension. -/
theorem sourceFiles_eq_ok {t : FileTree} (h : t.LinkFree) {input : Text} {files : List Text} :
    t.sourceFiles input = .ok files ↔ ∃ m e, t.LeadsTo input m ∧ t.get? m = some e ∧
      (e = .directory ∧ files = t.sourcesIn input ∧ files ≠ [] ∨
        e ≠ .directory ∧ Path.extension input = sourceExtension ∧ files = [input]) := by
  have hkind : t.sourceFiles input = .ok files ↔ ∃ b, t.inputIsDirectory input = .ok b ∧
      (b = true ∧ files = t.sourcesIn input ∧ files ≠ [] ∨
        b = false ∧ Path.extension input = sourceExtension ∧ files = [input]) := by
    unfold sourceFiles
    cases t.inputIsDirectory input with
    | error e => simp [bind, Except.bind]
    | ok b =>
      cases b with
      | true =>
        cases hs : t.sourcesIn input with
        | nil => simp +contextual [bind, Except.bind, throw, throwThe, MonadExceptOf.throw]
        | cons p rest =>
          simp only [bind, Except.bind, pure, Except.pure, if_true, Except.ok.injEq, exists_eq_left', true_and,
            Bool.true_eq_false, false_and, or_false]
          constructor
          · rintro rfl
            exact ⟨rfl, by simp⟩
          · exact fun hfiles => hfiles.1.symm
      | false =>
        by_cases hx : Path.extension input = sourceExtension
        · simp [bind, Except.bind, pure, Except.pure, hx, eq_comm]
        · simp [bind, Except.bind, throw, throwThe, MonadExceptOf.throw, hx]
  rw [hkind]
  simp only [inputIsDirectory_eq_ok h]
  constructor
  · rintro ⟨b, ⟨m, e, hm, he, rfl⟩, hb⟩
    exact ⟨m, e, hm, he, by simpa using hb⟩
  · rintro ⟨m, e, hm, he, hfiles⟩
    exact ⟨_, ⟨m, e, hm, he, rfl⟩, by simpa using hfiles⟩

theorem sourcePlace_iff {t : FileTree} (h : t.LinkFree) {input : Text} {l : Location} :
    t.SourcePlace input l ↔ t.LeadsTo input l ∧ Path.extension input = sourceExtension ∨
      ∃ m name, (t.LeadsTo input m ∧ t.get? m = some .directory) ∧ l = m ++ [name] ∧
        Path.extension name = sourceExtension := by
  unfold SourcePlace
  constructor
  · rintro (⟨e, hinput, hx⟩ | ⟨m, name, hinput, rfl, hname⟩)
    · exact .inl ⟨((resolve_eq_ok h).mp hinput).1, hx⟩
    · obtain ⟨hleads, hm⟩ := (resolve_eq_ok h).mp hinput
      exact .inr ⟨m, name, ⟨hleads, hm.symm⟩, rfl, hname⟩
  · rintro (⟨hinput, hx⟩ | ⟨m, name, ⟨hinput, hm⟩, rfl, hname⟩)
    · exact .inl ⟨_, (resolve_eq_ok h).mpr ⟨hinput, rfl⟩, hx⟩
    · exact .inr ⟨m, name, (resolve_eq_ok h).mpr ⟨hinput, hm.symm⟩, rfl, hname⟩

theorem SourcePlace.extension {t : FileTree} (h : t.LinkFree) {input : Text} {l : Location}
    (hl : t.SourcePlace input l) : ∃ front name, l = front ++ [name] ∧ Path.extension name = sourceExtension := by
  obtain ⟨hinput, hx⟩ | ⟨m, name, -, rfl, hname⟩ := (sourcePlace_iff h).mp hl
  · obtain ⟨front, name, rfl, hname⟩ := hinput.extension (hx ▸ by decide)
    exact ⟨front, name, rfl, hname.trans hx⟩
  · exact ⟨m, name, rfl, hname⟩

section
variable {t : FileTree} (hdisk : t.OnDisk)
include hdisk

theorem leadsTo_join {input name : Text} {m : Location} (hinput : t.LeadsTo input m)
    (hm : t.get? m = some .directory) {e : FileEntry} (he : t.get? (m ++ [name]) = some e)
    (hname : Path.extension name = sourceExtension) : t.LeadsTo (Path.join input name) (m ++ [name]) := by
  obtain ⟨hseparator, hnul, hlength⟩ := hdisk.names_of_get? he name (by simp)
  exact hinput.join hm (Path.plain_of_extension hseparator (hname ▸ by decide)) hnul hlength

variable (hlinks : t.LinkFree)
include hlinks

theorem place_of_source {input path : Text} {files : List Text} (hfiles : t.sourceFiles input = .ok files)
    (hpath : path ∈ files) : ∃ l e, t.SourcePlace input l ∧ t.LeadsTo path l ∧ t.get? l = some e ∧ e ≠ .directory := by
  obtain ⟨m, e, hinput, he, ⟨rfl, rfl, -⟩ | ⟨hfile, hx, rfl⟩⟩ := (sourceFiles_eq_ok hlinks).mp hfiles
  · obtain ⟨name, e, hentry, hfile, hname, rfl⟩ := (hdisk.mem_sourcesIn hlinks hinput he).mp hpath
    exact ⟨m ++ [name], e, (sourcePlace_iff hlinks).mpr (.inr ⟨m, name, ⟨hinput, he⟩, rfl, hname⟩),
      leadsTo_join hdisk hinput he hentry hname, hentry, hfile⟩
  · obtain rfl := List.mem_singleton.mp hpath
    exact ⟨m, e, (sourcePlace_iff hlinks).mpr (.inl ⟨hinput, hx⟩), hinput, he, hfile⟩

theorem source_of_place {input : Text} {l : Location} (hl : t.SourcePlace input l) {e : FileEntry}
    (he : t.get? l = some e) (hfile : e ≠ .directory) :
    ∃ files path, t.sourceFiles input = .ok files ∧ path ∈ files ∧ t.LeadsTo path l := by
  obtain ⟨hinput, hx⟩ | ⟨m, name, ⟨hinput, hm⟩, rfl, hname⟩ := (sourcePlace_iff hlinks).mp hl
  · exact ⟨[input], input, (sourceFiles_eq_ok hlinks).mpr ⟨l, e, hinput, he, .inr ⟨hfile, hx, rfl⟩⟩, by simp, hinput⟩
  · have hmem : Path.join input name ∈ t.sourcesIn input :=
      (hdisk.mem_sourcesIn hlinks hinput hm).mpr ⟨name, e, he, hfile, hname, rfl⟩
    exact ⟨_, _, (sourceFiles_eq_ok hlinks).mpr ⟨m, _, hinput, hm, .inl ⟨rfl, rfl, List.ne_nil_of_mem hmem⟩⟩, hmem,
      leadsTo_join hdisk hinput hm he hname⟩

end

/-! ## Trees that agree on the places -/

theorem readFile_of_leadsTo {t : FileTree} (h : t.LinkFree) {path : Text} {l : Location} (hl : t.LeadsTo path l)
    {e : FileEntry} (he : t.get? l = some e) : t.readFile path = contentOf path e := by
  have hentry : t.entryAt path = .ok (l, e) := (entryAt_eq_ok h).mpr ⟨hl, he⟩
  unfold readFile openAt
  rw [hentry]
  rfl

section
variable {t t' : FileTree} (hs : t.SameDirectories t')
include hs

theorem SameDirectories.sourcePlace (h : t.LinkFree) (h' : t'.LinkFree) {input : Text} {l : Location} :
    t'.SourcePlace input l ↔ t.SourcePlace input l := by
  rw [sourcePlace_iff h, sourcePlace_iff h']
  simp only [hs.leadsTo, hs.directory]

variable (hdisk : t.OnDisk) (hdisk' : t'.OnDisk) (hlinks : t.LinkFree) (hlinks' : t'.LinkFree) {input : Text}
include hdisk hdisk' hlinks hlinks'

theorem SameDirectories.sourceFiles (hagree : ∀ l, t.SourcePlace input l → t'.get? l = t.get? l) {files : List Text}
    (hfiles : t.sourceFiles input = .ok files) : t'.sourceFiles input = .ok files := by
  obtain ⟨m, e, hinput, he, hcase⟩ := (sourceFiles_eq_ok hlinks).mp hfiles
  refine (sourceFiles_eq_ok hlinks').mpr ⟨m, e, hs.leadsTo.mpr hinput, ?_⟩
  obtain ⟨rfl, rfl, hne⟩ | ⟨hfile, hx, rfl⟩ := hcase
  · have hm := (hs.directory m).mpr he
    refine ⟨hm, .inl ⟨rfl, (sourcesIn_ext hdisk.wellFormed hdisk'.wellFormed fun p => ?_).symm, hne⟩⟩
    rw [hdisk.mem_sourcesIn hlinks hinput he, hdisk'.mem_sourcesIn hlinks' (hs.leadsTo.mpr hinput) hm]
    refine exists_congr fun name => exists_congr fun e => ?_
    by_cases hname : Path.extension name = sourceExtension
    · rw [hagree _ ((sourcePlace_iff hlinks).mpr (.inr ⟨m, name, ⟨hinput, he⟩, rfl, hname⟩))]
    · simp [hname]
  · exact ⟨(hagree m ((sourcePlace_iff hlinks).mpr (.inl ⟨hinput, hx⟩))).trans he, .inr ⟨hfile, hx, rfl⟩⟩

theorem SameDirectories.keepsSources (hagree : ∀ l, t.SourcePlace input l → t'.get? l = t.get? l) :
    t.KeepsSources t' input := by
  have hagree' : ∀ l, t'.SourcePlace input l → t.get? l = t'.get? l := fun l hl =>
    (hagree l ((hs.sourcePlace hlinks hlinks').mp hl)).symm
  refine ⟨fun files => ⟨hs.symm.sourceFiles hdisk' hdisk hlinks' hlinks hagree',
    hs.sourceFiles hdisk hdisk' hlinks hlinks' hagree⟩, fun files hfiles path hpath => ?_⟩
  obtain ⟨l, e, hl, hleads, he, hfile⟩ := place_of_source hdisk hlinks hfiles hpath
  rw [readFile_of_leadsTo hlinks hleads he,
    readFile_of_leadsTo hlinks' (hs.leadsTo.mpr hleads) ((hagree l hl).trans he)]
  cases e with
  | directory => exact absurd rfl hfile
  | file content => exact ⟨content, rfl, rfl⟩
  | link target => exact absurd he (hlinks.get?_ne l target)
  | fullDevice => exact ⟨[], rfl, rfl⟩

/-- A file that is at a place of sources in a tree with the same sources was there before. -/
theorem KeepsSources.get? (hkeeps : t.KeepsSources t' input) {l : Location} (hl : t.SourcePlace input l)
    {content : Text} (hfile : t'.get? l = some (.file content)) (hfull : t.get? l ≠ some .fullDevice) :
    t.get? l = some (.file content) := by
  obtain ⟨files, path, hfiles', hpath, hleads'⟩ :=
    source_of_place hdisk' hlinks' ((hs.sourcePlace hlinks hlinks').mpr hl) hfile nofun
  have hfiles := (hkeeps.list files).mp hfiles'
  obtain ⟨l₀, e, -, hleads, he, hne⟩ := place_of_source hdisk hlinks hfiles hpath
  obtain rfl := hleads.unique (hs.leadsTo.mp hleads')
  obtain ⟨read, hread, hread'⟩ := hkeeps.content files hfiles path hpath
  rw [readFile_of_leadsTo hlinks hleads he] at hread
  rw [readFile_of_leadsTo hlinks' hleads' hfile] at hread'
  cases hread'
  cases e with
  | directory => exact absurd rfl hne
  | file content' =>
    cases hread
    exact he
  | link target => exact absurd he (hlinks.get?_ne _ target)
  | fullDevice => exact absurd he hfull

end

/-- Writing a file keeps the sources, unless it is at a place of sources and has other content than the file there. -/
theorem keepsSources_set_iff {t : FileTree} (hdisk : t.OnDisk) (hlinks : t.LinkFree) {input : Text} {l : Location}
    (hl : t.get? l ≠ some .directory) (hfull : t.get? l ≠ some .fullDevice) (hnames : ∀ name ∈ l, Valid name)
    {content : Text} : t.KeepsSources (t.set l (.file content)) input ↔
      (t.SourcePlace input l → t.get? l = some (.file content)) := by
  have hs := sameDirectories_set hl content
  have hdisk' := onDisk_set hl hdisk hnames content
  have hlinks' := linkFree_set hlinks l content
  have hget := get?_set (t := t) (ne_root hl) (.file content)
  constructor
  · intro hkeeps hplace
    exact hkeeps.get? hs hdisk hdisk' hlinks hlinks' hplace (by rw [hget, if_pos rfl]) hfull
  · intro hplace
    refine hs.keepsSources hdisk hdisk' hlinks hlinks' fun m hm => ?_
    rw [hget]
    split
    · rename_i hml
      subst hml
      exact (hplace hm).symm
    · rfl

end HackStack.FileTree
