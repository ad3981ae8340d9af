import HackStack.FileTree
import HackStack.Proofs.Sources

/-!
# Where paths lead

In a tree without links a path leads where its names lead from the directory that it starts in, and it can be followed
exactly if every name is looked up in a directory. A clean path takes back steps that the path takes, so it leads to
the same place, and the path of a directory joined with a name leads to that name in the directory.
-/

namespace HackStack

/-! ## Last names of paths -/

namespace Path

theorem exists_endsIn (path : Text) : ∃ name, separator ∉ name ∧ EndsIn name path := by
  have hsplit := List.takeWhile_append_dropWhile (p := (· != separator)) (l := path.reverse)
  have hpath : path = (path.reverse.dropWhile (· != separator)).reverse ++
      (path.reverse.takeWhile (· != separator)).reverse := by
    rw [← List.reverse_append, hsplit, List.reverse_reverse]
  refine ⟨_, ?_, _, hpath, ?_⟩
  · intro hm
    have hne := List.mem_takeWhile_imp (p := (· != separator)) (List.mem_reverse.mp hm)
    simp at hne
  · have hhead := List.head?_dropWhile_not (· != separator) path.reverse
    cases hd : path.reverse.dropWhile (· != separator) with
    | nil => exact .inl rfl
    | cons b rest =>
      rw [hd] at hhead
      have hb : b = separator := by simpa using hhead
      exact .inr (by simp [hb])

theorem parts_of_endsIn {name path : Text} (h : separator ∉ name) (hp : EndsIn name path) :
    ∃ before, parts path = before ++ [name] := by
  obtain ⟨front, rfl, rfl | hlast⟩ := hp
  · exact ⟨[], Text.splitAt_of_not_mem h⟩
  · obtain ⟨front, rfl⟩ := List.getLast?_eq_some_iff.mp hlast
    refine ⟨parts front, ?_⟩
    rw [parts, List.append_assoc, List.singleton_append, Text.splitAt_append, Text.splitAt_of_not_mem h]
    rfl

theorem extension_of_endsIn {name path : Text} (h : separator ∉ name) (hp : EndsIn name path) :
    extension path = extension name := by
  have hall := Text.bne_of_mem_reverse h
  have hlast : path.reverse.takeWhile (· != separator) = name.reverse.takeWhile (· != separator) := by
    obtain ⟨front, rfl, rfl | hlast⟩ := hp
    · rfl
    · obtain ⟨front, rfl⟩ := List.getLast?_eq_some_iff.mp hlast
      rw [List.reverse_append, List.reverse_append, List.takeWhile_append_of_pos hall,
        List.takeWhile_eq_self_iff.mpr hall]
      simp
  unfold extension
  rw [hlast]

theorem plain_of_extension {name : Text} (h : separator ∉ name) (hx : 1 < (extension name).length) : Plain name := by
  refine ⟨h, ?_, ?_, ?_⟩
  all_goals
    rintro rfl
    exact absurd hx (by decide)

theorem exists_plain {path : Text} (h : 1 < (extension path).length) :
    ∃ name, Plain name ∧ EndsIn name path ∧ extension name = extension path := by
  obtain ⟨name, hname, hends⟩ := exists_endsIn path
  have hx := extension_of_endsIn hname hends
  exact ⟨name, plain_of_extension hname (hx ▸ h), hends, hx.symm⟩

theorem extension_append (front : Text) {rest : Text} (hdot : 46 ∉ rest) (hseparator : separator ∉ rest) :
    extension (front ++ 46 :: rest) = 46 :: rest := by
  have hall := Text.bne_of_mem_reverse hseparator
  have hall' := Text.bne_of_mem_reverse hdot
  have hreverse : (front ++ 46 :: rest).reverse = rest.reverse ++ 46 :: front.reverse := by simp
  unfold extension
  simp only [hreverse]
  rw [List.takeWhile_append_of_pos hall, List.takeWhile_cons_of_pos (by decide)]
  simp [List.takeWhile_append_of_pos hall']

theorem parts_join {dir name : Text} (hdir : dir ≠ []) (hname : name ≠ []) :
    join dir name = clean (dir ++ separator :: name) ∧
      parts (dir ++ separator :: name) = parts dir ++ parts name := by
  have hkept : [dir, name].filter (fun p => !p.isEmpty) = [dir, name] := by simp [hdir, hname]
  refine ⟨?_, Text.splitAt_append separator name dir⟩
  unfold join
  rw [hkept]
  simp [Text.join]

theorem extension_join (dir : Text) {name : Text} (h : 1 < (extension name).length) :
    extension (join dir name) = extension name := by
  obtain ⟨last, hplain, hends, hx⟩ := exists_plain h
  obtain ⟨before, hparts⟩ := parts_of_endsIn hplain.noSeparator hends
  have hname : name ≠ [] := by
    rintro rfl
    exact absurd h (by decide)
  have hpath : ∃ path before, join dir name = clean path ∧ parts path = before ++ [last] := by
    by_cases hdir : dir = []
    · exact ⟨name, before, by simp [join, hdir, hname, Text.join], hparts⟩
    · obtain ⟨hjoin, hall⟩ := parts_join hdir hname
      exact ⟨_, parts dir ++ before, hjoin, by rw [hall, hparts, List.append_assoc]⟩
  obtain ⟨path, before, hjoin, hall⟩ := hpath
  rw [hjoin, extension_of_endsIn hplain.noSeparator (endsIn_clean hplain hall), hx]

end Path

/-! ## Walks -/

namespace FileTree

def enter (l : Location) (name : Text) : Location :=
  if name = [] ∨ name = Path.here then l else if name = Path.above then l.dropLast else l ++ [name]

def walk (l : Location) (names : List Text) : Location := names.foldl enter l

/-- Whether every name on a walk is looked up in a directory, and none is too long. -/
def Passable (t : FileTree) : Location → List Text → Prop
  | _, [] => True
  | l, name :: rest => t.get? l = some .directory ∧ name.length ≤ nameLimit ∧ t.Passable (enter l name) rest

def LinkFree (t : FileTree) : Prop := ∀ e ∈ t.entries, ∀ target, e.2 ≠ .link target

theorem enter_plain {name : Text} (h : Path.Plain name) (l : Location) : enter l name = l ++ [name] := by
  simp [enter, h.nonempty, h.notHere, h.notAbove]

theorem walk_append (l : Location) (xs ys : List Text) : walk l (xs ++ ys) = walk (walk l xs) ys := List.foldl_append

theorem passable_append {t : FileTree} : ∀ {xs ys : List Text} {l : Location},
    t.Passable l (xs ++ ys) ↔ t.Passable l xs ∧ t.Passable (walk l xs) ys
  | [], _, _ => by simp [Passable, walk]
  | x :: xs, ys, l => by
    have ih : t.Passable (enter l x) (xs ++ ys) ↔ _ := passable_append
    rw [List.cons_append, Passable, Passable, ih, and_assoc, and_assoc]
    rfl

theorem mem_of_get? {t : FileTree} {l : Location} {e : FileEntry} (hl : l ≠ []) (h : t.get? l = some e) :
    (l, e) ∈ t.entries := by
  unfold get? at h
  rw [if_neg (by simpa using hl)] at h
  obtain ⟨xs, ys, heq, -⟩ := List.lookup_eq_some_iff.mp h
  rw [heq]
  simp

theorem get?_root (t : FileTree) : t.get? [] = some .directory := rfl

theorem LinkFree.get?_ne {t : FileTree} (h : t.LinkFree) (l : Location) (target : Text) :
    t.get? l ≠ some (.link target) := by
  intro hl
  by_cases hnil : l = []
  · rw [hnil, get?_root] at hl
    cases hl
  · exact h _ (mem_of_get? hnil hl) target rfl

theorem follow_cons {t : FileTree} (h : t.LinkFree) {fuel links : Nat} {l : Location} {name : Text} {rest : List Text}
    {r : Location × Option FileEntry} : t.follow (fuel + 1) links l (name :: rest) = .ok r ↔
      t.get? l = some .directory ∧ name.length ≤ nameLimit ∧ t.follow fuel links (enter l name) rest = .ok r := by
  rw [follow]
  by_cases hl : t.get? l = some .directory
  · simp only [hl, true_and]
    by_cases hstay : name = [] ∨ name = Path.here
    · have henter : enter l name = l := if_pos hstay
      have hlength : name.length ≤ nameLimit := by obtain rfl | rfl := hstay <;> decide
      rw [if_pos (by simpa using hstay), henter, and_iff_right hlength]
    · rw [if_neg (by simpa using hstay)]
      by_cases habove : name = Path.above
      · have henter : enter l name = l.dropLast := by rw [enter, if_neg hstay, if_pos habove]
        have hlength : name.length ≤ nameLimit := by rw [habove]; decide
        rw [if_pos (by simpa using habove), henter, and_iff_right hlength]
      · have henter : enter l name = l ++ [name] := by rw [enter, if_neg hstay, if_neg habove]
        rw [if_neg (by simpa using habove), henter]
        by_cases hlong : nameLimit < name.length
        · simp [hlong, Nat.not_le_of_lt hlong]
        · rw [if_neg hlong, and_iff_right (Nat.le_of_not_lt hlong)]
          cases hnext : t.get? (l ++ [name]) with
          | none =>
            -- A missing name can only be the last one.
            cases rest with
            | nil => simp [follow, hnext]
            | cons next rest => cases fuel <;> simp [follow, hnext]
          | some entry =>
            cases entry with
            | link target => exact absurd hnext (h.get?_ne _ target)
            | file content => exact Iff.rfl
            | directory => exact Iff.rfl
            | fullDevice => exact Iff.rfl
  · simp only [hl, false_and, iff_false]
    cases hentry : t.get? l with
    | none => simp
    | some entry =>
      cases entry with
      | directory => exact absurd hentry hl
      | file content => simp
      | link target => simp
      | fullDevice => simp

theorem follow_eq_ok {t : FileTree} (h : t.LinkFree) {links : Nat} {m : Location} {e : Option FileEntry} :
    ∀ {fuel : Nat} {names : List Text} {l : Location}, names.length ≤ fuel →
      (t.follow fuel links l names = .ok (m, e) ↔ t.Passable l names ∧ m = walk l names ∧ e = t.get? m)
  | _, [], l, _ => by
    rw [follow]
    simp only [Passable, walk, List.foldl_nil, true_and, Except.ok.injEq, Prod.mk.injEq]
    constructor
    · rintro ⟨rfl, rfl⟩
      exact ⟨rfl, rfl⟩
    · rintro ⟨rfl, rfl⟩
      exact ⟨rfl, rfl⟩
  | fuel + 1, name :: rest, l, hfuel => by
    have ih : t.follow fuel links (enter l name) rest = .ok (m, e) ↔ _ :=
      follow_eq_ok h (Nat.le_of_succ_le_succ hfuel)
    rw [follow_cons h, ih, Passable, and_assoc, and_assoc]
    rfl

/-- The directory that a path starts in. -/
def start (t : FileTree) (path : Text) : Location := if Path.isAbsolute path then [] else t.current

/-- Whether a path leads to a location, where something may stand or not. -/
structure LeadsTo (t : FileTree) (path : Text) (m : Location) : Prop where
  nonempty : path ≠ []
  noNul : 0 ∉ path
  passable : t.Passable (t.start path) (Path.parts path)
  walk : m = walk (t.start path) (Path.parts path)

theorem LeadsTo.names {t : FileTree} {path : Text} {m : Location} (h : t.LeadsTo path m) :
    ∀ name ∈ Path.parts path, Path.separator ∉ name ∧ 0 ∉ name := fun _ hname =>
  ⟨Text.mark_not_mem_splitAt hname, fun hm => h.noNul ((Text.sublist_of_mem_splitAt hname).subset hm)⟩

theorem resolve_eq_ok {t : FileTree} (h : t.LinkFree) {path : Text} {m : Location} {e : Option FileEntry} :
    t.resolve path = .ok (m, e) ↔ t.LeadsTo path m ∧ e = t.get? m := by
  unfold resolve
  by_cases hempty : path = []
  · rw [if_pos (by simpa using hempty)]
    exact iff_of_false nofun fun hm => hm.1.nonempty hempty
  · rw [if_neg (by simpa using hempty)]
    by_cases hnul : path.contains 0 = true
    · rw [if_pos hnul]
      exact iff_of_false nofun fun hm => hm.1.noNul (List.contains_iff_mem.mp hnul)
    · have hfuel : (Path.parts path).length ≤ t.resolveFuel (Path.parts path) := by
        unfold resolveFuel
        omega
      rw [if_neg hnul, follow_eq_ok h hfuel]
      constructor
      · rintro ⟨hpass, hm, he⟩
        exact ⟨⟨hempty, fun hmem => hnul (List.contains_iff_mem.mpr hmem), hpass, hm⟩, he⟩
      · rintro ⟨hm, he⟩
        exact ⟨hm.passable, hm.walk, he⟩

theorem entryAt_eq_ok {t : FileTree} (h : t.LinkFree) {path : Text} {m : Location} {e : FileEntry} :
    t.entryAt path = .ok (m, e) ↔ t.LeadsTo path m ∧ t.get? m = some e := by
  have hresolve : t.entryAt path = .ok (m, e) ↔ t.resolve path = .ok (m, some e) := by
    unfold entryAt
    cases t.resolve path with
    | error p => simp
    | ok r =>
      obtain ⟨l, o⟩ := r
      cases o <;> simp
  rw [hresolve, resolve_eq_ok h, eq_comm (a := some e)]

theorem LeadsTo.unique {t : FileTree} {path : Text} {m m' : Location} (h : t.LeadsTo path m) (h' : t.LeadsTo path m') :
    m = m' := h.walk.trans h'.walk.symm

theorem LeadsTo.extension {t : FileTree} {path : Text} {m : Location} (h : t.LeadsTo path m)
    (hx : 1 < (Path.extension path).length) :
    ∃ front name, m = front ++ [name] ∧ Path.extension name = Path.extension path := by
  obtain ⟨name, hplain, hends, hname⟩ := Path.exists_plain hx
  obtain ⟨before, hparts⟩ := Path.parts_of_endsIn hplain.noSeparator hends
  refine ⟨FileTree.walk (t.start path) before, name, ?_, hname⟩
  rw [h.walk, hparts, walk_append]
  exact enter_plain hplain _

/-! ## Clean paths -/

structure Kept (name : Text) : Prop where
  nonempty : name ≠ []
  notHere : name ≠ Path.here
  noSeparator : Path.separator ∉ name
  noNul : 0 ∉ name

/-- Whether a stack of names, the last one first, leads from a location to another one. -/
structure Stacked (t : FileTree) (l : Location) (stack : List Text) (m : Location) : Prop where
  names : ∀ name ∈ stack, Kept name
  passable : t.Passable l stack.reverse
  walk : walk l stack.reverse = m

section
variable {t : FileTree}

theorem Stacked.push {l m : Location} {stack : List Text} {name : Text} (h : t.Stacked l stack m)
    (hm : t.get? m = some .directory) (hlength : name.length ≤ nameLimit) (hname : Kept name) :
    t.Stacked l (name :: stack) (enter m name) := by
  refine ⟨List.forall_mem_cons.mpr ⟨hname, h.names⟩, ?_, ?_⟩
  · rw [List.reverse_cons, passable_append, h.walk]
    exact ⟨h.passable, hm, hlength, trivial⟩
  · rw [List.reverse_cons, walk_append, h.walk]
    rfl

theorem Stacked.pop {l m : Location} {stack : List Text} {top : Text} (h : t.Stacked l (top :: stack) m)
    (htop : top ≠ Path.above) : t.Stacked l stack m.dropLast := by
  obtain ⟨hkept, hstack⟩ := List.forall_mem_cons.mp h.names
  have hpass := h.passable
  have hwalk := h.walk
  rw [List.reverse_cons, passable_append] at hpass
  rw [List.reverse_cons, walk_append] at hwalk
  refine ⟨hstack, hpass.1, ?_⟩
  rw [← hwalk]
  simp [FileTree.walk, enter, hkept.nonempty, hkept.notHere, htop]

theorem Stacked.pushPart {l m : Location} {stack : List Text} {name : Text} {absolute : Bool}
    (h : t.Stacked l stack m) (hl : absolute = true → l = []) (hm : t.get? m = some .directory)
    (hlength : name.length ≤ nameLimit) (hseparator : Path.separator ∉ name) (hnul : 0 ∉ name) :
    t.Stacked l (Path.pushPart absolute stack name) (enter m name) := by
  unfold Path.pushPart
  by_cases hstay : name = [] ∨ name = Path.here
  · rw [if_pos (by simpa using hstay), enter, if_pos hstay]
    exact h
  · have hpush := h.push hm hlength
      ⟨fun hnil => hstay (.inl hnil), fun hhere => hstay (.inr hhere), hseparator, hnul⟩
    rw [if_neg (by simpa using hstay)]
    by_cases habove : name = Path.above
    · have henter : enter m name = m.dropLast := by rw [enter, if_neg hstay, if_pos habove]
      subst habove
      rw [if_pos (by simp)]
      cases stack with
      | nil =>
        cases absolute with
        | true =>
          -- Two dots at the root stay there.
          have hroot : m = [] := h.walk.symm.trans (hl rfl)
          rw [henter, hroot]
          rw [hroot] at h
          exact h
        | false => exact hpush
      | cons top rest =>
        by_cases htop : top = Path.above
        · rw [← htop] at hpush ⊢
          simpa using hpush
        · rw [henter]
          simpa [htop] using h.pop htop
    · rw [if_neg (by simpa using habove)]
      exact hpush

theorem Stacked.foldl {l : Location} {absolute : Bool} (hl : absolute = true → l = []) :
    ∀ {names stack : List Text} {m : Location}, t.Stacked l stack m → t.Passable m names →
      (∀ name ∈ names, Path.separator ∉ name ∧ 0 ∉ name) →
      t.Stacked l (names.foldl (Path.pushPart absolute) stack) (FileTree.walk m names)
  | [], _, _, h, _, _ => h
  | name :: rest, _, _, h, hpass, hnames => by
    obtain ⟨hm, hlength, hrest⟩ := hpass
    rw [List.forall_mem_cons] at hnames
    have ih := Stacked.foldl hl (h.pushPart hl hm hlength hnames.1.1 hnames.1.2) hrest hnames.2
    exact ih

theorem leadsTo_here (h : t.get? t.current = some .directory) : t.LeadsTo Path.here t.current :=
  ⟨by decide, by decide, ⟨h, by decide, trivial⟩, rfl⟩

section
variable {kept : List Text} (hkept : ∀ name ∈ kept, Kept name)
include hkept

theorem noNul_join : 0 ∉ Text.join [Path.separator] kept := by
  intro hm
  cases kept with
  | nil => simp [Text.join] at hm
  | cons name rest =>
    obtain ⟨w, hw, hm⟩ := Text.mem_join (by decide) hm
    exact (hkept w hw).noNul hm

theorem parts_joined (hne : kept ≠ []) : Path.parts (Text.join [Path.separator] kept) = kept :=
  Text.splitAt_join hne fun name hname => (hkept name hname).noSeparator

theorem leadsTo_absolute (hpass : t.Passable [] kept) :
    t.LeadsTo (Path.separator :: Text.join [Path.separator] kept) (walk [] kept) := by
  have hstart : t.start (Path.separator :: Text.join [Path.separator] kept) = [] := rfl
  have hparts : Path.parts (Path.separator :: Text.join [Path.separator] kept) =
      [] :: Path.parts (Text.join [Path.separator] kept) := Text.splitAt_mark _ _
  refine ⟨List.cons_ne_nil _ _, ?_, ?_, ?_⟩
  · rw [List.mem_cons, not_or]
    exact ⟨by decide, noNul_join hkept⟩
  · rw [hstart, hparts]
    refine ⟨t.get?_root, by decide, ?_⟩
    cases kept with
    | nil => exact ⟨t.get?_root, by decide, trivial⟩
    | cons name rest =>
      rw [parts_joined hkept (List.cons_ne_nil _ _)]
      exact hpass
  · rw [hstart, hparts]
    cases kept with
    | nil => rfl
    | cons name rest =>
      rw [parts_joined hkept (List.cons_ne_nil _ _)]
      rfl

theorem leadsTo_relative (hne : kept ≠ []) (hpass : t.Passable t.current kept) :
    t.LeadsTo (Text.join [Path.separator] kept) (walk t.current kept) := by
  have hparts := parts_joined hkept hne
  have hstart : t.start (Text.join [Path.separator] kept) = t.current := by
    refine if_neg ?_
    cases kept with
    | nil => exact absurd rfl hne
    | cons name rest =>
      have hname := hkept name List.mem_cons_self
      cases name with
      | nil => exact absurd rfl hname.nonempty
      | cons b bs =>
        have hb : b ≠ Path.separator := by
          rintro rfl
          exact hname.noSeparator List.mem_cons_self
        cases rest with
        | nil => simp [Text.join, Path.isAbsolute, hb]
        | cons name' rest =>
          rw [Text.join_cons_cons]
          simp [Path.isAbsolute, hb]
  refine ⟨?_, noNul_join hkept, ?_, ?_⟩
  · intro hnil
    rw [hnil] at hparts
    exact (hkept [] (by rw [← hparts]; exact List.mem_cons_self)).nonempty rfl
  · rw [hstart, hparts]
    exact hpass
  · rw [hstart, hparts]

end

theorem LeadsTo.clean {path : Text} {m : Location} (h : t.LeadsTo path m) : t.LeadsTo (Path.clean path) m := by
  have hstart : t.get? (t.start path) = some .directory := by
    have hpass := h.passable
    cases hparts : Path.parts path with
    | nil => exact absurd hparts (Text.splitAt_ne_nil _ _)
    | cons name rest =>
      rw [hparts] at hpass
      exact hpass.1
  have hstack : t.Stacked (t.start path) ((Path.parts path).foldl (Path.pushPart (Path.isAbsolute path)) [])
      (FileTree.walk (t.start path) (Path.parts path)) :=
    Stacked.foldl (fun ha => if_pos ha) ⟨by simp, trivial, rfl⟩ h.passable h.names
  obtain ⟨hkept, hpass, hwalk⟩ := hstack
  have hkept' := fun name hname => hkept name (List.mem_reverse.mp hname)
  rw [h.walk, ← hwalk]
  unfold Path.clean
  generalize ((Path.parts path).foldl (Path.pushPart (Path.isAbsolute path)) []).reverse = kept at hkept' hpass
  by_cases ha : Path.isAbsolute path = true
  · have hroot : t.start path = [] := if_pos ha
    rw [hroot] at hpass ⊢
    simp only [ha, if_true]
    exact leadsTo_absolute hkept' hpass
  · have hcurrent : t.start path = t.current := if_neg ha
    rw [hcurrent] at hpass hstart ⊢
    cases kept with
    | nil => simpa [ha, FileTree.walk] using leadsTo_here hstart
    | cons name rest => simpa [ha] using leadsTo_relative hkept' (List.cons_ne_nil _ _) hpass

/-- The path of a directory joined with a name leads to that name in the directory. -/
theorem LeadsTo.join {dir name : Text} {m : Location} (h : t.LeadsTo dir m) (hm : t.get? m = some .directory)
    (hname : Path.Plain name) (hnul : 0 ∉ name) (hlength : name.length ≤ nameLimit) :
    t.LeadsTo (Path.join dir name) (m ++ [name]) := by
  obtain ⟨hjoin, hparts⟩ := Path.parts_join h.nonempty hname.nonempty
  have hsingle : Path.parts name = [name] := Text.splitAt_of_not_mem hname.noSeparator
  have hstart : t.start (dir ++ Path.separator :: name) = t.start dir := by
    unfold start Path.isAbsolute
    cases hdir : dir with
    | nil => exact absurd hdir h.nonempty
    | cons b bs => rfl
  rw [hjoin]
  refine LeadsTo.clean ⟨by simp, ?_, ?_, ?_⟩
  · simp only [List.mem_append, List.mem_cons, not_or]
    exact ⟨h.noNul, by decide, hnul⟩
  · rw [hstart, hparts, hsingle, passable_append, ← h.walk]
    exact ⟨h.passable, hm, hlength, trivial⟩
  · rw [hstart, hparts, hsingle, walk_append, ← h.walk]
    exact (enter_plain hname m).symm

end

/-! ## Trees as a disk has them -/

/-- Whether a disk has a name, at the end of a path or not. -/
structure Valid (name : Text) : Prop where
  noSeparator : Path.separator ∉ name
  noNul : 0 ∉ name
  short : name.length ≤ nameLimit

/-- Whether a tree is one that a disk has: at most one entry for a location, names without slashes and zero bytes that
are not too long, and a directory as the current one. -/
structure OnDisk (t : FileTree) : Prop where
  nodup : (t.entries.map Prod.fst).Nodup
  names : ∀ e ∈ t.entries, ∀ name ∈ e.1, Valid name
  current : t.get? t.current = some .directory

theorem names_of_walk {t : FileTree} : ∀ {names : List Text} {l : Location}, t.Passable l names →
    (∀ name ∈ names, Path.separator ∉ name ∧ 0 ∉ name) → (∀ name ∈ l, Valid name) → ∀ name ∈ walk l names, Valid name
  | [], _, _, _, hl => hl
  | next :: rest, l, hpass, hnames, hl => by
    obtain ⟨-, hlength, hrest⟩ := hpass
    obtain ⟨hnext, hnames⟩ := List.forall_mem_cons.mp hnames
    have henter : ∀ name ∈ enter l next, Valid name := by
      unfold enter
      split
      · exact hl
      · split
        · exact fun name hname => hl name (List.dropLast_subset l hname)
        · rw [List.forall_mem_append, List.forall_mem_singleton]
          exact ⟨hl, hnext.1, hnext.2, hlength⟩
    have ih := names_of_walk hrest hnames henter
    exact ih

theorem OnDisk.wellFormed {t : FileTree} (h : t.OnDisk) : t.WellFormed :=
  ⟨h.nodup, fun e he name hname => (h.names e he name hname).noSeparator⟩

section
variable {t : FileTree} (h : t.OnDisk)
include h

theorem OnDisk.mem_iff {l : Location} {e : FileEntry} (hl : l ≠ []) : (l, e) ∈ t.entries ↔ t.get? l = some e := by
  refine ⟨fun hm => ?_, mem_of_get? hl⟩
  have hnodup := h.nodup
  unfold get?
  rw [if_neg (by simpa using hl)]
  obtain ⟨xs, ys, heq⟩ := List.append_of_mem hm
  rw [heq, List.map_append, List.map_cons, List.nodup_append] at hnodup
  refine List.lookup_eq_some_iff.mpr ⟨xs, ys, heq, fun p hp => ?_⟩
  simpa using (hnodup.2.2 p.1 (List.mem_map_of_mem hp) l List.mem_cons_self).symm

theorem OnDisk.names_of_get? {l : Location} {e : FileEntry} (hl : t.get? l = some e) : ∀ name ∈ l, Valid name := by
  intro name hname
  have hne : l ≠ [] := List.ne_nil_of_mem hname
  exact h.names _ (mem_of_get? hne hl) name hname

theorem OnDisk.names_of_leadsTo {path : Text} {m : Location} (hp : t.LeadsTo path m) : ∀ name ∈ m, Valid name := by
  have hstart : ∀ name ∈ t.start path, Valid name := by
    unfold start
    split
    · simp
    · exact h.names_of_get? h.current
  rw [hp.walk]
  exact names_of_walk hp.passable hp.names hstart

end

/-! ## Files that are written -/

/-- Whether two trees have the same directories, and the same as the current one. -/
structure SameDirectories (t t' : FileTree) : Prop where
  current : t'.current = t.current
  directory : ∀ l, t'.get? l = some .directory ↔ t.get? l = some .directory

theorem SameDirectories.symm {t t' : FileTree} (h : t.SameDirectories t') : t'.SameDirectories t :=
  ⟨h.current.symm, fun l => (h.directory l).symm⟩

theorem SameDirectories.passable {t t' : FileTree} (h : t.SameDirectories t') : ∀ {names : List Text} {l : Location},
    t'.Passable l names ↔ t.Passable l names
  | [], _ => Iff.rfl
  | name :: rest, l => by rw [Passable, Passable, h.directory, h.passable]

theorem SameDirectories.leadsTo {t t' : FileTree} (h : t.SameDirectories t') {path : Text} {m : Location} :
    t'.LeadsTo path m ↔ t.LeadsTo path m := by
  have hstart : t'.start path = t.start path := by unfold start; rw [h.current]
  constructor
  · rintro ⟨hne, hnul, hpass, hwalk⟩
    rw [hstart] at hpass hwalk
    exact ⟨hne, hnul, h.passable.mp hpass, hwalk⟩
  · rintro ⟨hne, hnul, hpass, hwalk⟩
    rw [← hstart] at hpass hwalk
    exact ⟨hne, hnul, h.passable.mpr hpass, hwalk⟩

theorem lookup_filter_ne {l m : Location} (hm : m ≠ l) (entries : List (Location × FileEntry)) :
    (entries.filter fun x => x.1 != l).lookup m = entries.lookup m := by
  induction entries with
  | nil => rfl
  | cons x xs ih =>
    obtain ⟨k, e⟩ := x
    by_cases hk : k = l
    · have hmk : (m == k) = false := by simpa [hk] using hm
      rw [List.filter_cons_of_neg (by simpa using hk), ih, List.lookup_cons, hmk]
    · rw [List.filter_cons_of_pos (by simpa using hk), List.lookup_cons, List.lookup_cons, ih]

theorem get?_set {t : FileTree} {l : Location} (hl : l ≠ []) (e : FileEntry) (m : Location) :
    (t.set l e).get? m = if m = l then some e else t.get? m := by
  unfold get? set
  by_cases hroot : m = []
  · subst hroot
    simp [hl.symm]
  · by_cases hm : m = l
    · simp [hm, hl]
    · have hml : (m == l) = false := by simpa using hm
      rw [if_neg (by simpa using hroot), if_neg hm, if_neg (by simpa using hroot), List.lookup_cons, hml]
      exact lookup_filter_ne hm _

theorem set_set (t : FileTree) (l : Location) (e e' : FileEntry) : (t.set l e).set l e' = t.set l e' := by
  simp [set, List.filter_filter]

theorem linkFree_set {t : FileTree} (h : t.LinkFree) (l : Location) (content : Text) :
    (t.set l (.file content)).LinkFree := by
  unfold LinkFree set
  rw [List.forall_mem_cons]
  exact ⟨nofun, fun e he => h e (List.mem_of_mem_filter he)⟩

section
variable {t : FileTree} {l : Location} (hl : t.get? l ≠ some .directory)
include hl

theorem ne_root : l ≠ [] := by
  rintro rfl
  exact hl t.get?_root

theorem sameDirectories_set (content : Text) : t.SameDirectories (t.set l (.file content)) := by
  refine ⟨rfl, fun m => ?_⟩
  rw [get?_set (ne_root hl)]
  by_cases hm : m = l
  · simp [hm, hl]
  · rw [if_neg hm]

theorem onDisk_set (h : t.OnDisk) (hnames : ∀ name ∈ l, Valid name) (content : Text) :
    (t.set l (.file content)).OnDisk := by
  refine ⟨?_, ?_, ?_⟩
  · unfold set
    rw [List.map_cons, List.nodup_cons]
    refine ⟨?_, h.nodup.sublist (List.filter_sublist.map _)⟩
    simp
  · unfold set
    rw [List.forall_mem_cons]
    exact ⟨hnames, fun e he => h.names e (List.mem_of_mem_filter he)⟩
  · exact ((sameDirectories_set hl content).directory t.current).mpr h.current

end

/-- A file is made or emptied where its path leads, unless a directory is there. The full device stays as it is. -/
theorem create_ok {t t' : FileTree} (h : t.LinkFree) {path : Text} {l : Location}
    (hc : t.create path = .ok (l, t')) : t.LeadsTo path l ∧ t.get? l ≠ some .directory ∧
      (t.get? l = some .fullDevice ∧ t' = t ∨ t.get? l ≠ some .fullDevice ∧ t' = t.set l (.file [])) := by
  unfold create at hc
  split at hc
  · cases hc
  · cases hr : t.resolve path with
    | error p => simp [hr] at hc
    | ok r =>
      obtain ⟨m, e⟩ := r
      obtain ⟨hleads, he⟩ := (resolve_eq_ok h).mp hr
      simp only [hr] at hc
      split at hc
      · cases hc
      · cases hc
      · rename_i heq
        cases heq
        cases hc
        rw [← he]
        exact ⟨hleads, nofun, .inl ⟨rfl, rfl⟩⟩
      · rename_i hne hne' heq
        cases heq
        cases hc
        rw [← he]
        exact ⟨hleads, fun hd => hne hd, .inr ⟨fun hf => hne' hf, rfl⟩⟩

theorem append_ok {t t' : FileTree} {l : Location} {path bytes : Text} (h : t.append l path bytes = .ok t') :
    ∃ content, t.get? l = some (.file content) ∧ t' = t.set l (.file (content ++ bytes)) := by
  unfold append at h
  split at h
  · cases h
    exact ⟨_, ‹_›, rfl⟩
  · cases h

end FileTree

end HackStack
