import HackStack.Generator
import HackStack.Proofs.Text
import HackStack.Sources
import Mathlib.Data.List.Nodup
import Mathlib.Data.List.Perm.Basic

/-!
# Names of source files

Going into a directory and taking the last part of the path again gives the name that one went in with. So the
source files of a directory have different names for the generator, since they all have the same extension.
-/

namespace HackStack

namespace Path

/-! ## The last part of a path -/

/-- Whether a text can be a name in a directory whose path is cleaned. -/
structure Plain (name : Text) : Prop where
  noSeparator : separator ∉ name
  nonempty : name ≠ []
  notHere : name ≠ here
  notAbove : name ≠ above

/-- Whether a path ends in a name, which stands alone or behind a slash. -/
def EndsIn (name path : Text) : Prop := ∃ front, path = front ++ name ∧ (front = [] ∨ front.getLast? = some separator)

theorem pushPart_plain {name : Text} (h : Plain name) (absolute : Bool) (stack : List Text) :
    pushPart absolute stack name = name :: stack := by
  simp [pushPart, h.nonempty, h.notHere, h.notAbove]

theorem endsIn_join (name : Text) : ∀ parts : List Text, EndsIn name (Text.join [separator] (parts ++ [name]))
  | [] => ⟨[], by simp [Text.join], .inl rfl⟩
  | part :: rest => by
    obtain ⟨front, hpath, hfront⟩ := endsIn_join name rest
    refine ⟨part ++ separator :: front, ?_, .inr ?_⟩
    · unfold Text.join at hpath ⊢
      rw [List.cons_append, List.intercalate_cons_of_ne_nil (by simp), hpath]
      simp
    · obtain rfl | hlast := hfront
      · simp
      · have hne : front ≠ [] := by rintro rfl; cases hlast
        rw [List.getLast?_append_of_ne_nil _ (by simp), List.getLast?_cons_of_ne_nil hne, hlast]

theorem endsIn_clean {name path : Text} {before : List Text} (h : Plain name) (hp : parts path = before ++ [name]) :
    EndsIn name (clean path) := by
  unfold clean
  rw [hp, List.foldl_append, List.foldl_cons, List.foldl_nil, pushPart_plain h, List.reverse_cons]
  generalize (before.foldl (pushPart (isAbsolute path)) []).reverse = kept
  obtain ⟨front, hpath, hfront⟩ := endsIn_join name kept
  by_cases ha : isAbsolute path = true
  · rw [if_pos ha, hpath]
    refine ⟨separator :: front, rfl, .inr ?_⟩
    obtain rfl | hlast := hfront
    · rfl
    · have hne : front ≠ [] := by rintro rfl; cases hlast
      rw [List.getLast?_cons_of_ne_nil hne, hlast]
  · rw [if_neg ha, if_neg (by simp), hpath]
    exact ⟨front, rfl, hfront⟩

theorem endsIn_joined {name : Text} (h : Plain name) (dir : Text) : EndsIn name (join dir name) := by
  have hname : parts name = [] ++ [name] := Text.splitAt_of_not_mem h.noSeparator
  unfold join
  by_cases hdir : dir = []
  · have hkept : [dir, name].filter (fun p => !p.isEmpty) = [name] := by simp [hdir, h.nonempty]
    rw [hkept]
    have hjoin : Text.join [separator] [name] = name := by simp [Text.join]
    simp only [hjoin]
    exact endsIn_clean h hname
  · have hkept : [dir, name].filter (fun p => !p.isEmpty) = [dir, name] := by simp [hdir, h.nonempty]
    rw [hkept]
    have hjoin : Text.join [separator] [dir, name] = dir ++ separator :: name := by simp [Text.join]
    simp only [hjoin]
    have hparts : parts (dir ++ separator :: name) = parts dir ++ [name] := by
      rw [parts, Text.splitAt_append]
      exact congrArg _ hname
    exact endsIn_clean h hparts

theorem base_of_endsIn {name path : Text} (h : Plain name) (hp : EndsIn name path) : base path = name := by
  obtain ⟨front, rfl, hfront⟩ := hp
  have hall := Text.bne_of_mem_reverse h.noSeparator
  have htake : (name.reverse ++ front.reverse).takeWhile (· != separator) = name.reverse := by
    rw [List.takeWhile_append_of_pos hall]
    obtain rfl | hlast := hfront
    · simp
    · rw [← List.head?_reverse] at hlast
      obtain ⟨rest, hrest⟩ := List.head?_eq_some_iff.mp hlast
      rw [hrest]
      simp
  have hdrop : (name.reverse ++ front.reverse).dropWhile (· == separator) = name.reverse ++ front.reverse := by
    cases hr : name.reverse with
    | nil => exact absurd (List.reverse_eq_nil_iff.mp hr) h.nonempty
    | cons b rest =>
      have hb := hall b (by simp [hr])
      rw [List.cons_append, List.dropWhile_cons_of_neg]
      simpa using hb
  unfold base
  rw [if_neg (by simp [h.nonempty]), List.reverse_append, hdrop]
  split
  · rename_i heq
    simp [h.nonempty] at heq
  · rw [htake, List.reverse_reverse]

/-! ## Extensions -/

theorem extension_suffix {name : Text} (h : separator ∉ name) : extension name <:+ name := by
  have hall := Text.bne_of_mem_reverse h
  unfold extension
  rw [List.takeWhile_eq_self_iff.mpr hall]
  by_cases hdot : name.reverse.contains 46 = true
  · rw [if_pos hdot]
    have hmem : (46 : UInt8) ∈ name.reverse := List.contains_iff_mem.mp hdot
    rw [← List.reverse_prefix, List.reverse_cons, List.reverse_reverse]
    -- The bytes after the last dot, and then the dot itself.
    have hsplit := @List.takeWhile_append_dropWhile _ (· != 46) name.reverse
    have hhead := List.head?_dropWhile_not (· != 46) name.reverse
    cases hdrop : name.reverse.dropWhile (· != 46) with
    | nil =>
      rw [List.dropWhile_eq_nil_iff] at hdrop
      simpa using hdrop 46 hmem
    | cons b rest =>
      rw [hdrop] at hsplit hhead
      have hb : b = 46 := by simpa using hhead
      rw [hb] at hsplit
      refine ⟨rest, ?_⟩
      rw [List.append_assoc]
      exact hsplit
  · rw [if_neg hdot]
    exact List.nil_suffix

end Path

namespace Generator

theorem keptName_join {name dir : Text} (h : Path.Plain name) :
    keptName (Path.join dir name) = Text.dropEnding (Path.extension name) name := by
  unfold keptName
  rw [Path.base_of_endsIn h (Path.endsIn_joined h dir)]

theorem dropEnding_append {p t : Text} (h : p <:+ t) : Text.dropEnding p t ++ p = t := by
  obtain ⟨front, rfl⟩ := h
  simp [Text.dropEnding, Text.endsWith]

end Generator

namespace FileTree

/-! ## Source files of a directory -/

/-- Whether a tree has at most one entry for a location and no slashes in names. -/
structure WellFormed (t : FileTree) : Prop where
  nodup : (t.entries.map Prod.fst).Nodup
  names : ∀ e ∈ t.entries, ∀ name ∈ e.1, Path.separator ∉ name

def nameIn? (l m : Location) : Option Text := if m.dropLast == l then m.getLast? else none

theorem nameIn?_eq_some {l m : Location} {name : Text} : nameIn? l m = some name ↔ m = l ++ [name] := by
  unfold nameIn?
  constructor
  · intro h
    split at h
    · rename_i hl
      rw [← beq_iff_eq.mp hl]
      exact (List.dropLast_append_getLast? name h).symm
    · cases h
  · rintro rfl
    simp

theorem namesIn_perm (t : FileTree) (l : Location) :
    ((t.namesIn l).map Prod.fst).Perm ((t.entries.map Prod.fst).filterMap (nameIn? l)) := by
  unfold namesIn
  refine ((List.mergeSort_perm _ _).map _).trans (List.Perm.of_eq ?_)
  rw [List.map_filterMap, List.filterMap_map]
  congr 1
  funext e
  obtain ⟨m, e⟩ := e
  unfold nameIn?
  cases hm : m.getLast? with
  | none => simp [hm]
  | some name =>
    simp only [hm, Function.comp_apply]
    split <;> rfl

section
variable {t : FileTree} (h : t.WellFormed)
include h

theorem separator_not_mem_namesIn {l : Location} {name : Text} (hm : name ∈ (t.namesIn l).map Prod.fst) :
    Path.separator ∉ name := by
  rw [(namesIn_perm t l).mem_iff, List.mem_filterMap] at hm
  obtain ⟨m, hmem, hname⟩ := hm
  obtain ⟨e, he, rfl⟩ := List.mem_map.mp hmem
  rw [nameIn?_eq_some] at hname
  exact h.names e he name (by simp [hname])

theorem nodup_namesIn (l : Location) : ((t.namesIn l).map Prod.fst).Nodup := by
  rw [(namesIn_perm t l).nodup_iff]
  refine h.nodup.filterMap fun m m' name hm hm' => ?_
  rw [nameIn?_eq_some.mp hm, nameIn?_eq_some.mp hm']

theorem nodup_keptName_sourcesIn (path : Text) : ((t.sourcesIn path).map Generator.keptName).Nodup := by
  unfold sourcesIn
  split
  · rename_i l _
    rw [((List.mergeSort_perm _ _).map _).nodup_iff]
    generalize hX : (t.namesIn l).filter _ = X
    have hsub : (X.map Prod.fst).Sublist ((t.namesIn l).map Prod.fst) := by
      rw [← hX]
      exact List.filter_sublist.map _
    have hplain : ∀ name ∈ X.map Prod.fst, Path.Plain name ∧ Path.extension name = sourceExtension := by
      intro name hname
      have hext : Path.extension name = sourceExtension := by
        obtain ⟨e, he, rfl⟩ := List.mem_map.mp hname
        rw [← hX, List.mem_filter, Bool.and_eq_true, beq_iff_eq] at he
        exact he.2.2
      refine ⟨⟨separator_not_mem_namesIn h (hsub.subset hname), ?_, ?_, ?_⟩, hext⟩
      all_goals
        rintro rfl
        exact absurd hext (by decide)
    have hmap : (X.map fun e => Path.join path e.1).map Generator.keptName =
        (X.map Prod.fst).map fun name => Generator.keptName (Path.join path name) := by
      rw [List.map_map, List.map_map]
      rfl
    change ((X.map fun e => Path.join path e.1).map Generator.keptName).Nodup
    rw [hmap]
    refine ((nodup_namesIn h l).sublist hsub).map_on fun name hname name' hname' heq => ?_
    obtain ⟨hp, hext⟩ := hplain name hname
    obtain ⟨hp', hext'⟩ := hplain name' hname'
    rw [Generator.keptName_join hp, Generator.keptName_join hp', hext, hext'] at heq
    calc name = Text.dropEnding sourceExtension name ++ sourceExtension :=
          (Generator.dropEnding_append (hext ▸ Path.extension_suffix hp.noSeparator)).symm
      _ = Text.dropEnding sourceExtension name' ++ sourceExtension := by rw [heq]
      _ = name' := Generator.dropEnding_append (hext' ▸ Path.extension_suffix hp'.noSeparator)
  · simp

theorem nodup_keptName_sourceFiles {input : Text} {paths : List Text} (hp : t.sourceFiles input = .ok paths) :
    (paths.map Generator.keptName).Nodup := by
  unfold sourceFiles at hp
  cases hd : t.inputIsDirectory input with
  | error e => rw [hd] at hp; cases hp
  | ok isDirectory =>
    rw [hd] at hp
    simp only [bind, Except.bind, pure, Except.pure] at hp
    split at hp
    · split at hp
      · cases hp
      · cases hp
        exact nodup_keptName_sourcesIn h input
    · split at hp
      · cases hp
        simp
      · cases hp

end

end FileTree

end HackStack
