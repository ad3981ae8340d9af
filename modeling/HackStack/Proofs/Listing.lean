import HackStack.Proofs.Asm.Grammar
import HackStack.Proofs.Command.Written

/-!
# Listings and readers

A listing has one entry for each line of its source that is not empty without remark and white space, with the number
of the line. A reader goes through it entry by entry, whether they are commands or not, and stays at the end. So lines
without a command change nothing but numbers, and a carriage return before a line feed changes nothing at all.
-/

namespace HackStack

open Asm

/-! ## Carriage returns -/

namespace Text

def withReturns (t : Text) : Text := t.flatMap fun b => if b = lineFeed then [13, lineFeed] else [b]

theorem lines_withReturns : ∀ t : Text, ∃ init last, lines t = init ++ [last] ∧
    lines (withReturns t) = init.map (· ++ [13]) ++ [last]
  | [] => ⟨[], [], rfl, rfl⟩
  | b :: t => by
    obtain ⟨init, last, hlines, hreturns⟩ := lines_withReturns t
    unfold lines at hlines hreturns ⊢
    by_cases hb : b = lineFeed
    · subst hb
      refine ⟨[] :: init, last, ?_, ?_⟩
      · rw [splitAt_mark, hlines]
        rfl
      · have htext : withReturns (lineFeed :: t) = [13] ++ lineFeed :: withReturns t := by simp [withReturns]
        rw [htext, splitAt_append_mark _ (by decide), hreturns]
        rfl
    · have htext : withReturns (b :: t) = b :: withReturns t := by simp [withReturns, hb]
      obtain ⟨part, rest, hs, hc⟩ := splitAt_cons_ne hb t
      obtain ⟨part', rest', hs', hc'⟩ := splitAt_cons_ne hb (withReturns t)
      rw [hlines] at hs
      rw [hreturns] at hs'
      rw [htext, hc, hc']
      cases init with
      | nil =>
        cases hs
        cases hs'
        exact ⟨[], b :: last, rfl, rfl⟩
      | cons line init =>
        cases hs
        cases hs'
        exact ⟨(b :: part) :: init, last, rfl, rfl⟩

end Text

namespace Listing

theorem dropReturn_append (line : Text) : dropReturn (line ++ [13]) = line := by
  simp [dropReturn, Text.dropEnding, Text.endsWith]

theorem dropReturn_cases (line : Text) : dropReturn line = line ∨ ∃ front, line = front ++ [13] := by
  unfold dropReturn Text.dropEnding
  by_cases hends : Text.endsWith [13] line = true
  · obtain ⟨front, hfront⟩ := List.isSuffixOf_iff_suffix.mp hends
    exact .inr ⟨front, hfront.symm⟩
  · exact .inl (if_neg hends)

theorem content_append_return (line : Text) : content (line ++ [13]) = content line := by
  unfold content
  rw [dropReturn_append]
  obtain hline | ⟨front, rfl⟩ := dropReturn_cases line
  · rw [hline]
  · rw [dropReturn_append]
    obtain hstrip | hstrip := Text.stripRemark_append (b := 13) (by decide) front
    · rw [hstrip]
    · rw [hstrip, Text.trim_append rfl]

/-! ## Entries of a source -/

def entry? (line : Text × Nat) : Option Entry :=
  if (content line.1).isEmpty then none else some ⟨line.2, content line.1⟩

theorem entriesFrom_eq : ∀ (lines : List Text) (n : Nat),
    entriesFrom n (lines.map content) = (lines.zipIdx n).filterMap entry?
  | [], _ => rfl
  | line :: lines, n => by
    rw [List.map_cons, entriesFrom, List.zipIdx_cons, List.filterMap_cons, entriesFrom_eq lines (n + 1), entry?]
    split <;> rfl

theorem entries_of_read? {source : Text} {list : List Entry} (h : read? source = some list) :
    list = ((Text.lines source).zipIdx 1).filterMap entry? := by
  rcases read?_eq_some.mp h with ⟨-, rfl⟩
  exact (numberedFrom_eq content (Text.lines source) 1).trans (entriesFrom_eq _ 1)

theorem contents_withReturns (source : Text) :
    (Text.lines (Text.withReturns source)).map content = (Text.lines source).map content := by
  obtain ⟨init, last, hlines, hreturns⟩ := Text.lines_withReturns source
  rw [hlines, hreturns, List.map_append, List.map_append, List.map_map]
  congr 1
  apply List.map_congr_left
  intro line _
  exact content_append_return line

theorem numbered_withReturns (source : Text) :
    numbered content (Text.withReturns source) = numbered content source := by
  unfold numbered
  rw [numberedFrom_eq, numberedFrom_eq, contents_withReturns]

theorem short_of_withReturns {source : Text}
    (h : ∀ line ∈ Text.lines (Text.withReturns source), line.length < lineLimit) :
    ∀ line ∈ Text.lines source, line.length < lineLimit := by
  obtain ⟨init, last, hlines, hreturns⟩ := Text.lines_withReturns source
  intro line hline
  rw [hlines, List.mem_append] at hline
  rw [hreturns, List.forall_mem_append, List.forall_mem_map] at h
  obtain hline | hline := hline
  · have hlong := h.1 line hline
    rw [List.length_append, List.length_singleton] at hlong
    omega
  · exact h.2 line hline

theorem read?_withReturns {source : Text}
    (h : ∀ line ∈ Text.lines (Text.withReturns source), line.length < lineLimit) :
    read? (Text.withReturns source) = read? source := by
  rw [read?_eq_some.mpr ⟨h, rfl⟩, read?_eq_some.mpr ⟨short_of_withReturns h, rfl⟩, numbered_withReturns]

def isFilled (line : Text) : Bool := !(content line).isEmpty

def filledLines (source : Text) : List (Text × Nat) := ((Text.lines source).zipIdx 1).filter fun line => isFilled line.1

theorem filterMap_entry? (lines : List (Text × Nat)) : lines.filterMap entry? =
    (lines.filter fun line => isFilled line.1).map fun line => ⟨line.2, content line.1⟩ := by
  induction lines with
  | nil => rfl
  | cons line lines ih =>
    by_cases h : (content line.1).isEmpty = true
    · rw [List.filterMap_cons_none (by simp [h, entry?]), List.filter_cons_of_neg (by simp [isFilled, h]), ih]
    · rw [List.filterMap_cons_some (by rw [ entry?, if_neg h]), List.filter_cons_of_pos (by simpa [isFilled] using h), ih,
        List.map_cons]

theorem numbered_filled (source : Text) :
    numbered content source = (filledLines source).map fun line => ⟨line.2, content line.1⟩ := by
  rw [filledLines, ← filterMap_entry?, ← entriesFrom_eq]
  exact numberedFrom_eq content (Text.lines source) 1

/-- The texts of the entries are those of the lines that are not blank, whatever stands between them. -/
theorem texts_filled (source : Text) :
    (numbered content source).map Entry.text = ((Text.lines source).filter isFilled).map content := by
  rw [texts_numbered, List.filter_map]
  rfl

end Listing

/-! ## Readers -/

namespace Reader

def after (r : Reader) : Nat → Reader
  | 0 => r
  | k + 1 => r.next.2.after k

def Item.ofEntry (entry : Entry) : Item :=
  match Command.decode entry.text with
  | .ok c => .command c
  | .error e => .invalid entry.line e

/-- What an item says apart from its line: a command, or why a text is none. -/
def Item.result? : Item → Option (Except Command.DecodeError Command)
  | .command c => some (.ok c)
  | .invalid _ e => some (.error e)
  | .endOfListing => none

theorem Item.result?_ofEntry (entry : Entry) : (ofEntry entry).result? = some (Command.decode entry.text) := by
  unfold ofEntry
  cases Command.decode entry.text <;> rfl

theorem after_eq : ∀ (k : Nat) (past rest : List Entry),
    (Reader.mk past rest).after k = ⟨(rest.take k).reverse ++ past, rest.drop k⟩
  | 0, _, _ => by simp [after]
  | k + 1, past, [] => by
    have ih := after_eq k past []
    simpa [after, next] using ih
  | k + 1, past, entry :: rest => by
    have ih := after_eq k (entry :: past) rest
    simpa [after, next] using ih

section
variable (entries : List Entry) (k : Nat)

theorem after_start : (start entries).after k = ⟨(entries.take k).reverse, entries.drop k⟩ := by
  unfold start
  rw [after_eq, List.append_nil]

theorem length_past_after : ((start entries).after k).past.length = min k entries.length := by
  rw [after_start, List.length_reverse, List.length_take]

theorem next_at_end (h : entries.length ≤ k) : ((start entries).after k).hasNext = false ∧
    ((start entries).after k).next = (.endOfListing, (start entries).after k) := by
  rw [after_start, List.drop_eq_nil_of_le h]
  exact ⟨rfl, rfl⟩

end

section
variable {entries : List Entry} {k : Nat} {entry : Entry} (h : entries[k]? = some entry)
include h

theorem next_after : ((start entries).after k).hasNext = true ∧
    ((start entries).after k).next.1 = Item.ofEntry entry := by
  obtain ⟨hlt, rfl⟩ := List.getElem?_eq_some_iff.mp h
  rw [after_start, List.drop_eq_getElem_cons hlt]
  exact ⟨rfl, rfl⟩

theorem lineNumber_after : ((start entries).after (k + 1)).lineNumber = entry.line := by
  rw [after_start, List.take_add_one, h]
  simp [lineNumber]

end

/-- The line number of a reader is 0 before the first entry, and otherwise that of the entry before its position. -/
theorem lineNumber_cases (entries : List Entry) (k : Nat) :
    ((start entries).after k).past.length = 0 ∧ ((start entries).after k).lineNumber = 0 ∨
      ∃ i entry, ((start entries).after k).past.length = i + 1 ∧ entries[i]? = some entry ∧
        ((start entries).after k).lineNumber = entry.line := by
  rw [after_start]
  cases hpast : (entries.take k).reverse with
  | nil => exact .inl ⟨rfl, rfl⟩
  | cons entry past =>
    have htake : entries.take k = past.reverse ++ [entry] := by rw [← List.reverse_cons, ← hpast, List.reverse_reverse]
    have hentry : (entries.take k)[past.length]? = some entry := by simp [htake]
    rw [List.getElem?_take] at hentry
    split at hentry
    · exact .inr ⟨past.length, entry, rfl, hentry, rfl⟩
    · cases hentry

/-- Readers of entries with the same texts hand out the same, line numbers apart. -/
theorem result?_after {entries entries' : List Entry} (h : entries.map Entry.text = entries'.map Entry.text) (k : Nat) :
    ((start entries).after k).next.1.result? = ((start entries').after k).next.1.result? := by
  have hk : (entries[k]?).map Entry.text = (entries'[k]?).map Entry.text := by
    rw [← List.getElem?_map, ← List.getElem?_map, h]
  cases he : entries[k]? with
  | some entry =>
    rw [he, Option.map_some, eq_comm, Option.map_eq_some_iff] at hk
    obtain ⟨entry', he', htext⟩ := hk
    rw [(next_after he).2, (next_after he').2, Item.result?_ofEntry, Item.result?_ofEntry, htext]
  | none =>
    have hlength : entries.length = entries'.length := by simpa using congrArg List.length h
    have hend := List.getElem?_eq_none_iff.mp he
    rw [(next_at_end entries k hend).2, (next_at_end entries' k (hlength ▸ hend)).2]

end Reader

/-- A source without a line of 65536 bytes or more has a listing. Its reader hands out what the lines stand for that
are not blank, one by one and with their numbers, and then stays at the end. Other blank lines change only the numbers,
and a carriage return before every line feed changes nothing. -/
theorem reader_hands_out_lines {source : Text} (h : ∀ line ∈ Text.lines source, line.length < 65536) :
    let lines := Listing.filledLines source
    ∃ entries, Listing.read? source = some entries ∧
      let reader := Reader.start entries
      reader.size = lines.length ∧
      (∀ (k : Nat) (line : Text) (n : Nat), lines[k]? = some (line, n) → (reader.after k).hasNext = true ∧
        (reader.after k).next.1 = .ofEntry ⟨n, Listing.content line⟩ ∧ (reader.after (k + 1)).lineNumber = n) ∧
      (∀ k, (reader.after k).past.length = min k lines.length) ∧
      (∀ k, lines.length ≤ k → (reader.after k).hasNext = false ∧
        (reader.after k).next = (.endOfListing, reader.after k)) ∧
      (∀ k, (reader.after k).past.length = 0 ∧ (reader.after k).lineNumber = 0 ∨
        ∃ i entry, (reader.after k).past.length = i + 1 ∧ entries[i]? = some entry ∧
          (reader.after k).lineNumber = entry.line) ∧
      (∀ source' entries', Listing.read? source' = some entries' →
        (Text.lines source').filter Listing.isFilled = (Text.lines source).filter Listing.isFilled →
        ∀ k, ((Reader.start entries').after k).next.1.result? = (reader.after k).next.1.result?) ∧
      ((∀ line ∈ Text.lines (Text.withReturns source), line.length < 65536) →
        Listing.read? (Text.withReturns source) = some entries) := by
  intro lines
  have hread := Listing.read?_eq_some.mpr ⟨h, rfl⟩
  have hentries := Listing.numbered_filled source
  have hlength : (Listing.numbered Listing.content source).length = lines.length := by rw [hentries, List.length_map]
  refine ⟨_, hread, ?_, ?_, ?_, ?_, ?_, ?_, ?_⟩
  · simp [Reader.start, Reader.size, hlength]
  · intro k line n hline
    have hentry : (Listing.numbered Listing.content source)[k]? = some ⟨n, Listing.content line⟩ := by
      rw [hentries, List.getElem?_map, hline]
      rfl
    obtain ⟨hnext, hitem⟩ := Reader.next_after hentry
    exact ⟨hnext, hitem, Reader.lineNumber_after hentry⟩
  · intro k
    rw [Reader.length_past_after, hlength]
  · intro k hk
    exact Reader.next_at_end _ k (hlength.trans_le hk)
  · exact Reader.lineNumber_cases _
  · intro source' entries' hread' hlines
    obtain ⟨-, rfl⟩ := Listing.read?_eq_some.mp hread'
    apply Reader.result?_after
    rw [Listing.texts_filled, Listing.texts_filled, hlines]
  · intro hreturns
    rw [Listing.read?_withReturns hreturns, hread]

/-- The first two lines are blank, the fourth is no command, and the last has no line feed. -/
theorem reader_hands_out_lines_sample :
    let source := ascii "// start\n\n add \r\nbogus // no command\nlabel X"
    (∀ line ∈ Text.lines source, line.length < 65536) ∧
    ∃ entries, Listing.read? source = some entries ∧ (Reader.start entries).size = 3 ∧
      ((Reader.start entries).after 1).next.1 = .invalid 4 (.unknownWord (ascii "bogus")) ∧
      ((Reader.start entries).after 2).lineNumber = 4 ∧ ((Reader.start entries).after 3).hasNext = false ∧
      Listing.read? (Text.withReturns source) = some entries := by
  intro source
  have hshort : ∀ line ∈ Text.lines source, line.length < 65536 := by decide +kernel
  have hlines : Listing.filledLines source =
      [(ascii " add \r", 3), (ascii "bogus // no command", 4), (ascii "label X", 5)] := by decide +kernel
  have hitem : Reader.Item.ofEntry ⟨4, Listing.content (ascii "bogus // no command")⟩ =
      .invalid 4 (.unknownWord (ascii "bogus")) := by decide +kernel
  obtain ⟨entries, hread, hsize, hnext, -, hend, -, -, hreturns⟩ := reader_hands_out_lines hshort
  rw [hlines] at hsize hnext hend
  obtain ⟨-, hbogus, hnumber⟩ := hnext 1 _ 4 rfl
  refine ⟨hshort, entries, hread, hsize, hbogus.trans hitem, hnumber, (hend 3 (Nat.le_refl 3)).1, hreturns ?_⟩
  decide +kernel

end HackStack
