import HackStack.Proofs.Asm.Resolution
import HackStack.Proofs.Text.Words

/-!
# Commands written and read back

Whether a text is a command, and which one, depends on its words alone: `Reads` is the grammar of these words. A
command is written as its words with the number in canonical form, so it is read back as itself. It holds no remark
and no end of a line if the text that it was read from did not, and is no longer than this text, so a whole source can
be written again.
-/

namespace HackStack

namespace Command

/-! ## The grammar of commands -/

inductive Reads : List Text → Command → Prop
  | operator {word : Text} : (Operator.ofName? word).isSome = true → Reads [word] (.arithmetic word)
  | ret : Reads [Kind.ret.name] .ret
  | named {kind : Kind} (name : Text) : kind ∈ Kind.withArguments → kind.hasIndex = false →
      Reads [kind.name, name] (ofParts kind name 0)
  | indexed {kind : Kind} (name : Text) {digits : Text} : kind ∈ Kind.withArguments → kind.hasIndex = true →
      digits ≠ [] → (∀ b ∈ digits, Text.isDigit b = true) → Text.digitsValue digits ≤ maxIndex →
      Reads [kind.name, name, digits] (ofParts kind name (Text.digitsValue digits))

theorem name_withArguments : ∀ kind ∈ Kind.withArguments, (Operator.ofName? kind.name).isSome = false ∧
    kind.name ≠ Kind.ret.name ∧ Kind.ofWord? kind.name = some kind ∧ kind.name ≠ [] ∧
    kind.name.all Text.isGraphic = true := by decide

theorem readIndex?_eq_some {word : Text} {index : Nat} : readIndex? word = some index ↔
    word ≠ [] ∧ (∀ b ∈ word, Text.isDigit b = true) ∧ Text.digitsValue word = index ∧ index ≤ maxIndex := by
  unfold readIndex?
  rw [Option.filter_eq_some_iff, Text.readNat?_eq_some, decide_eq_true_eq, and_assoc, and_assoc]

theorem reads_of_ofWords {text : Text} {ws : List Text} {c : Command} (h : ofWords text ws = .ok c) : Reads ws c := by
  match ws with
  | [] => cases h
  | head :: args =>
    rw [ofWords] at h
    by_cases hlong : 2 < args.length
    · rw [if_pos hlong] at h
      cases h
    · rw [if_neg hlong] at h
      by_cases hop : (Operator.ofName? head).isSome = true
      · rw [if_pos hop] at h
        match args with
        | [] =>
          cases h
          exact .operator hop
        | _ :: _ => cases h
      · rw [if_neg hop] at h
        by_cases hret : head = Kind.ret.name
        · rw [if_pos hret] at h
          match args with
          | [] =>
            cases h
            rw [hret]
            exact .ret
          | _ :: _ => cases h
        · rw [if_neg hret] at h
          cases hkind : Kind.ofWord? head with
          | none => rw [hkind] at h; cases h
          | some kind =>
            have hname : kind.name = head := by simpa using List.find?_some hkind
            have hmem : kind ∈ Kind.withArguments := List.mem_of_find?_eq_some hkind
            subst hname
            rw [hkind] at h
            dsimp only at h
            split at h
            · rename_i hindex
              cases h
              exact .named _ hmem hindex
            · rename_i name word hindex
              cases hread : readIndex? word with
              | none => rw [hread] at h; cases h
              | some index =>
                rw [hread] at h
                cases h
                obtain ⟨hne, hdigits, rfl, hle⟩ := readIndex?_eq_some.mp hread
                exact .indexed name hmem hindex hne hdigits hle
            · cases h

theorem ofWords_of_reads {ws : List Text} {c : Command} (h : Reads ws c) (text : Text) : ofWords text ws = .ok c := by
  cases h with
  | operator hop => simp [ofWords, hop]
  | ret => rfl
  | named name hkind hindex =>
    obtain ⟨hop, hret, hword, -⟩ := name_withArguments _ hkind
    simp [ofWords, hop, hret, hword, hindex]
  | indexed name hkind hindex hne hdigits hle =>
    obtain ⟨hop, hret, hword, -⟩ := name_withArguments _ hkind
    have hread := readIndex?_eq_some.mpr ⟨hne, hdigits, rfl, hle⟩
    simp [ofWords, hop, hret, hword, hindex, hread]

theorem decode_eq_ok_iff {text : Text} {c : Command} : decode text = .ok c ↔ Reads (Text.words text) c :=
  ⟨reads_of_ofWords, fun h => ofWords_of_reads h text⟩

/-! ## Canonical words -/

/-- The words of a command with its number, which is the third word, in canonical form. -/
def canonical : List Text → List Text
  | [head, name, digits] => [head, name, Text.decimal (Text.digitsValue digits)]
  | ws => ws

theorem toText_ofParts (name : Text) (n : Nat) : ∀ kind ∈ Kind.withArguments, (ofParts kind name n).toText =
    if kind.hasIndex then kind.name ++ 32 :: (name ++ 32 :: Text.decimal n) else kind.name ++ 32 :: name := by
  intro kind hkind
  simp only [Kind.withArguments, List.mem_cons, List.not_mem_nil, or_false] at hkind
  obtain rfl | rfl | rfl | rfl | rfl | rfl | rfl := hkind <;> rfl

section
variable {ws : List Text} {c : Command} (h : Reads ws c)
include h

theorem Reads.ne_nil : ws ≠ [] := by
  cases h <;> exact List.cons_ne_nil _ _

theorem Reads.canonical : Reads (canonical ws) c := by
  cases h with
  | operator hop => exact .operator hop
  | ret => exact .ret
  | named name hkind hindex => exact .named name hkind hindex
  | @indexed kind name digits hkind hindex hne hdigits hle =>
    have hvalue := Text.digitsValue_decimal (Text.digitsValue digits)
    have hreads := Reads.indexed name hkind hindex (Text.decimal_ne_nil (Text.digitsValue digits))
      (List.all_eq_true.mp (Text.all_isDigit_decimal _)) (hvalue.trans_le hle)
    rw [hvalue] at hreads
    exact hreads

theorem Reads.toText_eq : c.toText = Text.join [32] (Command.canonical ws) := by
  cases h with
  | operator hop => simp [toText, Command.canonical, Text.join]
  | ret => simp [toText, Command.canonical, Text.join]
  | @named kind name hkind hindex =>
    have htext := toText_ofParts name 0 kind hkind
    rw [hindex, if_neg (by simp)] at htext
    simpa [Command.canonical, Text.join, List.intercalate] using htext
  | @indexed kind name digits hkind hindex hne hdigits hle =>
    rw [toText_ofParts name _ kind hkind, hindex, if_pos rfl]
    simp [Command.canonical, Text.join, List.intercalate]

theorem Reads.forall_canonical {P : Text → Prop} (hws : ∀ w ∈ ws, P w) (hdecimal : ∀ n, P (Text.decimal n)) :
    ∀ w ∈ Command.canonical ws, P w := by
  cases h with
  | operator | ret | named => exact hws
  | indexed =>
    simp only [Command.canonical, List.forall_mem_cons] at hws ⊢
    exact ⟨hws.1, hws.2.1, hdecimal _, by simp⟩

theorem Reads.length_canonical :
    (Text.join [32] (Command.canonical ws)).length ≤ (Text.join [32] ws).length := by
  cases h with
  | operator | ret | named => exact Nat.le_refl _
  | indexed name hkind hindex hne hdigits hle =>
    have hlength := Text.length_decimal_digitsValue hne hdigits
    simp only [Command.canonical, Text.join, List.intercalate, List.intersperse, List.flatten_cons, List.flatten_nil,
      List.length_append, List.length_nil]
    omega

theorem Reads.words_toText (hws : ∀ w ∈ ws, w ≠ [] ∧ Text.Unbroken w) :
    Text.words c.toText = Command.canonical ws := by
  rw [h.toText_eq]
  refine Text.words_join (h.forall_canonical hws fun n => ⟨Text.decimal_ne_nil n, ?_⟩)
  exact Text.unbroken_graphic (Asm.all_isGraphic_decimal n)

end

theorem decode_toText {text : Text} {c : Command} (h : decode text = .ok c) :
    decode c.toText = .ok c ∧ c.toText = Text.join [32] (canonical (Text.words text)) := by
  rw [decode_eq_ok_iff] at h ⊢
  have hwords := h.words_toText fun w hw => ⟨(Text.mem_words hw).1, (Text.mem_words hw).2.1⟩
  exact ⟨hwords ▸ h.canonical, h.toText_eq⟩

/-! ## Commands as lines

A command whose words are neither empty nor broken by white space, and hold no remark, has a text that can stand on a
line of its own. -/

section
variable {ws : List Text} {c : Command} (h : Reads ws c)
variable (hws : ∀ w ∈ ws, w ≠ [] ∧ Text.Unbroken w ∧ ¬ [47, 47] <:+: w)
include h hws

theorem Reads.not_mem_toText {b : UInt8} (hb : Text.isAsciiBlank b = true) (hne : b ≠ 32) : b ∉ c.toText := by
  have hwords : ∀ w ∈ Command.canonical ws, b ∉ w := by
    apply h.forall_canonical (P := fun w => b ∉ w)
    · intro w hw
      exact Text.not_mem_unbroken hb (hws w hw).2.1
    · intro n
      exact Text.not_mem_unbroken hb (Text.unbroken_graphic (Asm.all_isGraphic_decimal n))
  rw [h.toText_eq]
  intro hm
  obtain ⟨w, hw, hm⟩ := Text.mem_join hne hm
  exact hwords w hw hm

theorem Reads.not_infix_toText : ¬ [47, 47] <:+: c.toText := by
  rw [h.toText_eq]
  apply Text.not_infix_join
  apply h.forall_canonical (P := fun w => ¬ [47, 47] <:+: w)
  · intro w hw
    exact (hws w hw).2.2
  · intro n hremark
    exact Text.not_mem_decimal (b := 47) rfl n (hremark.subset (by simp))

theorem Reads.decode_content_toText : decode (Listing.content c.toText) = .ok c := by
  have hreturn : Listing.dropReturn c.toText = c.toText := by
    unfold Listing.dropReturn Text.dropEnding
    rw [if_neg]
    intro hends
    have hm := (List.isSuffixOf_iff_suffix.mp hends).subset (List.mem_singleton_self 13)
    exact h.not_mem_toText hws rfl (by decide) hm
  have hwords : Text.words (Listing.content c.toText) = Command.canonical ws := by
    unfold Listing.content
    rw [hreturn, Text.stripRemark_of_not_infix (h.not_infix_toText hws), Text.words_trim,
      h.words_toText fun w hw => ⟨(hws w hw).1, (hws w hw).2.1⟩]
  rw [decode_eq_ok_iff, hwords]
  exact h.canonical

end

/-! ## Commands of a source

A command that was read from a line of a source, without the remark. -/

theorem length_toText_le {line : Text} {c : Command} (h : decode (Listing.content line) = .ok c) :
    c.toText.length ≤ line.length := by
  have hreads := decode_eq_ok_iff.mp h
  calc c.toText.length
      = (Text.join [32] (canonical (Text.words (Listing.content line)))).length := by rw [hreads.toText_eq]
    _ ≤ (Text.join [32] (Text.words (Listing.content line))).length := hreads.length_canonical
    _ ≤ (Listing.content line).length := Text.length_join_words hreads.ne_nil
    _ ≤ (Text.stripRemark (Listing.dropReturn line)).length := (Text.trim_isInfix _).length_le
    _ ≤ (Listing.dropReturn line).length := (Text.stripRemark_isPrefix _).length_le
    _ ≤ line.length := by
      unfold Listing.dropReturn Text.dropEnding
      split
      · rw [List.length_take]
        exact Nat.min_le_right _ _
      · exact Nat.le_refl _

theorem mem_words_content {line : Text} : ∀ w ∈ Text.words (Listing.content line),
    w ≠ [] ∧ Text.Unbroken w ∧ ¬ [47, 47] <:+: w := by
  intro w hw
  obtain ⟨hne, hunbroken, hcontent⟩ := Text.mem_words hw
  refine ⟨hne, hunbroken, fun hremark => ?_⟩
  exact Text.not_infix_stripRemark _ ((hremark.trans hcontent).trans (Text.trim_isInfix _))

end Command

/-! ## Whole sources -/

namespace Reader

theorem rest_next {r : Reader} (h : r.hasNext = true) : r.next.2.rest.length < r.rest.length := by
  unfold hasNext at h
  unfold next
  cases hr : r.rest with
  | nil => rw [hr] at h; cases h
  | cons e rest => exact Nat.lt_succ_self _

def items (r : Reader) : List Item := if _h : r.hasNext = true then r.next.1 :: items r.next.2 else []
termination_by r.rest.length
decreasing_by exact rest_next ‹_›

/-- A reader hands out commands only exactly if these are what its entries decode to. -/
theorem items_eq_commands : ∀ {rest past : List Entry} {cs : List Command},
    (Reader.mk past rest).items = cs.map .command ↔ (rest.map Entry.text).map Command.decode = cs.map .ok
  | [], past, cs => by
    rw [items]
    simp [hasNext, eq_comm]
  | e :: rest, past, cs => by
    have ih := @items_eq_commands rest (e :: past)
    have hnext : (Reader.mk past (e :: rest)).hasNext = true := rfl
    rw [items, dif_pos hnext]
    cases cs with
    | nil => simp
    | cons c cs =>
      simp only [List.map_cons, List.cons.injEq]
      refine and_congr ?_ ih
      simp only [next]
      cases Command.decode e.text <;> simp

end Reader

namespace Listing

def written (cs : List Command) : Text := cs.flatMap fun c => c.toText ++ [Text.lineFeed]

theorem read?_eq_some {source : Text} {entries : List Entry} : read? source = some entries ↔
    (∀ line ∈ Text.lines source, line.length < lineLimit) ∧ numbered content source = entries := by
  have hany : ((Text.lines source).any fun line => lineLimit ≤ line.length) = false ↔
      ∀ line ∈ Text.lines source, line.length < lineLimit := by simp
  unfold read?
  rw [← hany]
  cases (Text.lines source).any fun line => lineLimit ≤ line.length <;> simp

theorem texts_numbered (source : Text) : (numbered content source).map Entry.text =
    ((Text.lines source).map content).filter fun text => !text.isEmpty :=
  Asm.texts_numberedFrom content (Text.lines source) 1 []

theorem read?_written {cs : List Command}
    (h : ∀ c ∈ cs, ∃ line : Text, line.length < lineLimit ∧ Command.decode (content line) = .ok c) :
    ∃ entries, read? (written cs) = some entries ∧ (entries.map Entry.text).map Command.decode = cs.map .ok := by
  have hlines : Text.lines (written cs) = cs.map Command.toText ++ [[]] := by
    apply Text.lines_flatMap
    intro c hc
    obtain ⟨line, -, hline⟩ := h c hc
    exact (Command.decode_eq_ok_iff.mp hline).not_mem_toText Command.mem_words_content rfl (by decide)
  have hdecode : ∀ c ∈ cs, Command.decode (content c.toText) = .ok c := by
    intro c hc
    obtain ⟨line, -, hline⟩ := h c hc
    exact (Command.decode_eq_ok_iff.mp hline).decode_content_toText Command.mem_words_content
  have htexts : ((Text.lines (written cs)).map content).filter (fun text => !text.isEmpty) =
      (cs.map Command.toText).map content := by
    rw [hlines, List.map_append, List.filter_append]
    have hnil : ([[]].map content).filter (fun text => !text.isEmpty) = ([] : List Text) := rfl
    rw [hnil, List.append_nil, List.filter_eq_self, List.forall_mem_map, List.forall_mem_map]
    intro c hc
    rw [Bool.not_eq_true', List.isEmpty_eq_false_iff]
    intro hempty
    have hc := hdecode c hc
    rw [hempty] at hc
    cases hc
  refine ⟨_, read?_eq_some.mpr ⟨?_, rfl⟩, ?_⟩
  · intro text htext
    rw [hlines, List.mem_append, List.mem_singleton] at htext
    obtain htext | rfl := htext
    · obtain ⟨c, hc, rfl⟩ := List.mem_map.mp htext
      obtain ⟨line, hlength, hline⟩ := h c hc
      exact (Command.length_toText_le hline).trans_lt hlength
    · decide
  · rw [texts_numbered, htexts, List.map_map, List.map_map]
    exact List.map_congr_left hdecode

end Listing

/-- A command is read back from its own text, which is the words of the text that it was read from with the number in
canonical form. So a source of commands can be written again, one command on a line, without changing any of them. -/
theorem commands_read_back :
    (∀ text c, Command.decode text = .ok c → Command.decode c.toText = .ok c ∧
      c.toText = Text.join [32] (Command.canonical (Text.words text))) ∧
    ∀ source entries cs, Listing.read? source = some entries → (Reader.start entries).items = cs.map .command →
      ∃ entries', Listing.read? (Listing.written cs) = some entries' ∧
        (Reader.start entries').items = cs.map .command := by
  refine ⟨fun text c => Command.decode_toText, fun source entries cs hread hitems => ?_⟩
  obtain ⟨hshort, rfl⟩ := Listing.read?_eq_some.mp hread
  have hdecoded := Reader.items_eq_commands.mp hitems
  rw [Listing.texts_numbered] at hdecoded
  have hlines : ∀ c ∈ cs, ∃ line : Text, line.length < Listing.lineLimit ∧
      Command.decode (Listing.content line) = .ok c := by
    intro c hc
    have hmem : Except.ok c ∈ cs.map (Except.ok (ε := Command.DecodeError)) := List.mem_map_of_mem hc
    rw [← hdecoded, List.mem_map] at hmem
    obtain ⟨text, htext, hc⟩ := hmem
    obtain ⟨line, hline, rfl⟩ := List.mem_map.mp (List.mem_filter.mp htext).1
    exact ⟨line, hshort line hline, hc⟩
  obtain ⟨entries', hread', hdecoded'⟩ := Listing.read?_written hlines
  exact ⟨entries', hread', Reader.items_eq_commands.mpr hdecoded'⟩

/-- White space, a remark, a carriage return and leading zeros are gone, and the commands are the same. -/
theorem commands_read_back_sample :
    let source := ascii "// start\n  push\tconstant 007 // seven\r\n\nlabel A/B\n add\n"
    let cs := [Command.push (ascii "constant") 7, .label (ascii "A/B"), .arithmetic (ascii "add")]
    (∃ entries, Listing.read? source = some entries ∧ (Reader.start entries).items = cs.map .command) ∧
    Listing.written cs = ascii "push constant 7\nlabel A/B\nadd\n" ∧
    ∃ entries, Listing.read? (ascii "push constant 7\nlabel A/B\nadd\n") = some entries ∧
      (Reader.start entries).items = cs.map .command := by
  intro source cs
  have hread : Listing.read? source =
      some [⟨2, ascii "push\tconstant 007"⟩, ⟨4, ascii "label A/B"⟩, ⟨5, ascii "add"⟩] := by decide +kernel
  have hitems : (Reader.start [⟨2, ascii "push\tconstant 007"⟩, ⟨4, ascii "label A/B"⟩, ⟨5, ascii "add"⟩]).items =
      cs.map .command := Reader.items_eq_commands.mpr (by decide +kernel)
  have hwritten : Listing.written cs = ascii "push constant 7\nlabel A/B\nadd\n" := by decide +kernel
  exact ⟨⟨_, hread, hitems⟩, hwritten, hwritten ▸ commands_read_back.2 source _ cs hread hitems⟩

end HackStack
