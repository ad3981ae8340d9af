import HackStack.Proofs.Command.Written
import Mathlib.Data.List.Basic

/-!
# Texts that are no commands

The first word of a text decides how many words a command has. So a text is a command, or it begins with an unknown
word, or it is malformed, and its words alone say which. Too many words make a text malformed whatever it begins with.
-/

namespace HackStack.Command

/-! ## Words and their counts -/

def operatorWords : List Text :=
  [ascii "add", ascii "sub", ascii "neg", ascii "eq", ascii "gt", ascii "lt", ascii "and", ascii "or", ascii "not"]

def bareWords : List Text := operatorWords ++ [ascii "return"]

def namingWords : List Text := [ascii "label", ascii "goto", ascii "if"]

def countingWords : List Text := [ascii "push", ascii "pop", ascii "function", ascii "call"]

def length? (head : Text) : Option Nat :=
  if bareWords.contains head then some 1
  else if namingWords.contains head then some 2
  else if countingWords.contains head then some 3
  else none

/-- Whether a word is a decimal numeral below 2^31. -/
def IsNumber (word : Text) : Prop :=
  word ≠ [] ∧ (∀ b ∈ word, Text.isDigit b = true) ∧ Text.digitsValue word ≤ 2147483647

instance (word : Text) : Decidable (IsNumber word) :=
  have := List.decidableBAll (fun b => Text.isDigit b = true) word
  inferInstanceAs (Decidable (word ≠ [] ∧ (∀ b ∈ word, Text.isDigit b = true) ∧ Text.digitsValue word ≤ 2147483647))

/-- Whether words make a command. -/
inductive Complete : List Text → Prop
  | bare {head : Text} : head ∈ bareWords → Complete [head]
  | naming {head : Text} (name : Text) : head ∈ namingWords → Complete [head, name]
  | counting {head : Text} (name : Text) {digits : Text} : head ∈ countingWords → IsNumber digits →
      Complete [head, name, digits]

/-- Whether words begin with one that no command begins with, and are not too many. -/
inductive Unknown : List Text → Prop
  | intro {head : Text} {args : List Text} : args.length ≤ 2 → length? head = none → Unknown (head :: args)

/-- Whether words are none or too many, or begin like a command and go on differently. -/
inductive Malformed : List Text → Prop
  | empty : Malformed []
  | long {ws : List Text} : 3 < ws.length → Malformed ws
  | miscounted {head : Text} {args : List Text} {n : Nat} : length? head = some n → args.length + 1 ≠ n →
      Malformed (head :: args)
  | misnumbered {head : Text} (name : Text) {word : Text} : head ∈ countingWords → ¬ IsNumber word →
      Malformed [head, name, word]

theorem length?_bare : ∀ head ∈ bareWords, length? head = some 1 := by decide

theorem length?_naming : ∀ head ∈ namingWords, length? head = some 2 := by decide

theorem length?_counting : ∀ head ∈ countingWords, length? head = some 3 := by decide

theorem Complete.length_eq {head : Text} {args : List Text} (h : Complete (head :: args)) :
    length? head = some (args.length + 1) := by
  cases h with
  | bare hhead => exact length?_bare _ hhead
  | naming name hhead => exact length?_naming _ hhead
  | counting name hhead hnumber => exact length?_counting _ hhead

theorem Complete.not_unknown {ws : List Text} (h : Complete ws) : ¬ Unknown ws := by
  intro hu
  cases hu with
  | intro hshort hnone =>
    rw [h.length_eq] at hnone
    cases hnone

theorem Complete.not_malformed {ws : List Text} (h : Complete ws) : ¬ Malformed ws := by
  intro hm
  cases hm with
  | empty => cases h
  | long hlong => cases h <;> simp at hlong
  | miscounted hcount hne =>
    rw [h.length_eq, Option.some.injEq] at hcount
    exact hne hcount
  | misnumbered name hhead hnumber =>
    cases h with
    | counting name hhead' hnumber' => exact hnumber hnumber'

theorem Unknown.not_malformed {ws : List Text} (h : Unknown ws) : ¬ Malformed ws := by
  intro hm
  cases h with
  | intro hshort hnone =>
    cases hm with
    | long hlong =>
      rw [List.length_cons] at hlong
      omega
    | miscounted hcount hne =>
      rw [hnone] at hcount
      cases hcount
    | misnumbered name hhead hnumber =>
      rw [length?_counting _ hhead] at hnone
      cases hnone

/-! ## What decoding makes of the words -/

theorem isSome_ofName? {word : Text} : (Operator.ofName? word).isSome = true ↔ word ∈ operatorWords := by
  constructor
  · intro h
    have hnames : ∀ op ∈ Operator.all, op.name ∈ operatorWords := by decide
    obtain ⟨op, hfind⟩ := Option.isSome_iff_exists.mp h
    exact Operator.name_of_ofName? hfind ▸ hnames op (List.mem_of_find?_eq_some hfind)
  · intro h
    have hwords : ∀ word ∈ operatorWords, (Operator.ofName? word).isSome = true := by decide
    exact hwords word h

theorem mem_bareWords {word : Text} :
    word ∈ bareWords ↔ (Operator.ofName? word).isSome = true ∨ word = Kind.ret.name := by
  rw [bareWords, List.mem_append, isSome_ofName?, List.mem_singleton]
  rfl

theorem head_cases (head : Text) :
    head ∈ bareWords ∨
      (∃ kind ∈ Kind.withArguments, head = kind.name ∧ head ∈ if kind.hasIndex then countingWords else namingWords) ∨
      length? head = none ∧ head ∉ bareWords ∧ Kind.ofWord? head = none := by
  by_cases hbare : head ∈ bareWords
  · exact .inl hbare
  · cases hfind : Kind.ofWord? head with
    | some kind =>
      have hnames : ∀ kind ∈ Kind.withArguments,
          kind.name ∈ if kind.hasIndex then countingWords else namingWords := by decide
      have hmem : kind ∈ Kind.withArguments := List.mem_of_find?_eq_some hfind
      have hname : kind.name = head := by simpa using List.find?_some hfind
      exact .inr (.inl ⟨kind, hmem, hname.symm, hname ▸ hnames kind hmem⟩)
    | none =>
      have hkinds : ∀ word ∈ namingWords ++ countingWords, (Kind.ofWord? word).isSome = true := by decide
      have hnotKind : head ∉ namingWords ++ countingWords := by
        intro hm
        have hsome := hkinds head hm
        rw [hfind] at hsome
        cases hsome
      rw [List.mem_append, not_or] at hnotKind
      have hlength : length? head = none := by
        simp [length?, hbare, hnotKind]
      exact .inr (.inr ⟨hlength, hbare, rfl⟩)

theorem readIndex?_eq_none {word : Text} : readIndex? word = none ↔ ¬ IsNumber word := by
  rw [Option.eq_none_iff_forall_ne_some]
  constructor
  · intro h hnumber
    exact h _ (readIndex?_eq_some.mpr ⟨hnumber.1, hnumber.2.1, rfl, hnumber.2.2⟩)
  · intro h index hread
    obtain ⟨hne, hdigits, rfl, hle⟩ := readIndex?_eq_some.mp hread
    exact h ⟨hne, hdigits, hle⟩

/-- How decoding ends for words, and which words they are. -/
def Judged (text : Text) (ws : List Text) : Prop :=
  (∃ c, ofWords text ws = .ok c) ∧ Complete ws ∨
    (∃ e, ofWords text ws = .error e ∧ e.isUnknown = true) ∧ Unknown ws ∨
    (∃ e, ofWords text ws = .error e ∧ e.isUnknown = false) ∧ Malformed ws

section
variable (text : Text) {head : Text} {args : List Text} (hshort : ¬ 2 < args.length)
include hshort

theorem judged_bare (hbare : head ∈ bareWords) : Judged text (head :: args) := by
  have hhead := mem_bareWords.mp hbare
  unfold Judged
  rw [ofWords, if_neg hshort]
  cases args with
  | nil =>
    refine .inl ⟨?_, .bare hbare⟩
    by_cases hop : (Operator.ofName? head).isSome = true
    · exact ⟨_, by rw [if_pos hop]; rfl⟩
    · exact ⟨_, by rw [if_neg hop, if_pos (hhead.resolve_left hop)]; rfl⟩
  | cons arg args =>
    refine .inr (.inr ⟨⟨.unexpectedArguments text head, ?_, rfl⟩, .miscounted (length?_bare head hbare) (by simp)⟩)
    by_cases hop : (Operator.ofName? head).isSome = true
    · rw [if_pos hop]
      rfl
    · rw [if_neg hop, if_pos (hhead.resolve_left hop)]
      rfl

theorem ofWords_miscounted {kind : Kind} (hkind : kind ∈ Kind.withArguments)
    (hcount : args.length ≠ if kind.hasIndex then 2 else 1) : ofWords text (kind.name :: args) =
      .error (.wrongArity text kind (if kind.hasIndex then 2 else 1) args.length) := by
  obtain ⟨hop, hret, hfind, -⟩ := name_withArguments kind hkind
  rw [ofWords, if_neg hshort, if_neg (by simp [hop]), if_neg hret, hfind]
  dsimp only
  split
  · rename_i hindex
    simp [hindex] at hcount
  · rename_i hindex
    simp [hindex] at hcount
  · rfl

theorem judged_kind {kind : Kind} (hkind : kind ∈ Kind.withArguments)
    (hword : kind.name ∈ if kind.hasIndex then countingWords else namingWords) : Judged text (kind.name :: args) := by
  by_cases hcount : args.length = if kind.hasIndex then 2 else 1
  · cases hindex : kind.hasIndex with
    | false =>
      rw [hindex, if_neg (by simp)] at hword hcount
      obtain ⟨name, rfl⟩ := List.length_eq_one_iff.mp hcount
      exact .inl ⟨⟨_, ofWords_of_reads (.named name hkind hindex) text⟩, .naming name hword⟩
    | true =>
      rw [hindex, if_pos rfl] at hword hcount
      obtain ⟨name, word, rfl⟩ := List.length_eq_two.mp hcount
      by_cases hnumber : IsNumber word
      · have hreads := Reads.indexed name hkind hindex hnumber.1 hnumber.2.1 hnumber.2.2
        exact .inl ⟨⟨_, ofWords_of_reads hreads text⟩, .counting name hword hnumber⟩
      · obtain ⟨hop, hret, hfind, -⟩ := name_withArguments kind hkind
        refine .inr (.inr ⟨⟨.badNumber text word, ?_, rfl⟩, .misnumbered name hword hnumber⟩)
        simp [ofWords, hop, hret, hfind, hindex, readIndex?_eq_none.mpr hnumber]
  · have hlength : length? kind.name = some ((if kind.hasIndex then 2 else 1) + 1) := by
      cases hindex : kind.hasIndex with
      | false =>
        rw [hindex] at hword
        exact length?_naming _ hword
      | true =>
        rw [hindex] at hword
        exact length?_counting _ hword
    refine .inr (.inr ⟨⟨_, ofWords_miscounted text hshort hkind hcount, rfl⟩, .miscounted hlength ?_⟩)
    exact fun h => hcount (Nat.succ.inj h)

end

theorem judged (text : Text) (ws : List Text) : Judged text ws := by
  cases ws with
  | nil => exact .inr (.inr ⟨⟨.empty, rfl, rfl⟩, .empty⟩)
  | cons head args =>
    by_cases hlong : 2 < args.length
    · refine .inr (.inr ⟨⟨.tooManyWords text (args.length + 1), ?_, rfl⟩, .long (Nat.succ_lt_succ hlong)⟩)
      rw [ofWords, if_pos hlong]
    · obtain hbare | ⟨kind, hkind, rfl, hword⟩ | ⟨hlength, hbare, hfind⟩ := head_cases head
      · exact judged_bare text hlong hbare
      · exact judged_kind text hlong hkind hword
      · rw [mem_bareWords, not_or] at hbare
        refine .inr (.inl ⟨⟨.unknownWord head, ?_, rfl⟩, .intro (Nat.le_of_not_lt hlong) hlength⟩)
        rw [ofWords, if_neg hlong, if_neg hbare.1, if_neg hbare.2, hfind]

/-! ## Parts of a command -/

theorem parts_ofParts (name : Text) (index : Int) : ∀ kind ∈ Kind.withArguments,
    (ofParts kind name index).kind = kind ∧ (ofParts kind name index).name? = some name ∧
      (ofParts kind name index).index? = if kind.hasIndex then some index else none := by
  intro kind hkind
  simp only [Kind.withArguments, List.mem_cons, List.not_mem_nil, or_false] at hkind
  obtain rfl | rfl | rfl | rfl | rfl | rfl | rfl := hkind <;> exact ⟨rfl, rfl, rfl⟩

/-- What a command takes from its words: the kind from the first, the name and the number from those behind it. An
operator is its own name. -/
theorem parts_of_reads {head : Text} {args : List Text} {c : Command} (h : Reads (head :: args) c) :
    if head ∈ operatorWords then c = .arithmetic head
    else c.kind.name = head ∧ c.name? = args[0]? ∧
      c.index? = args[1]?.map fun digits => (Text.digitsValue digits : Int) := by
  have hkinds : ∀ kind ∈ Kind.withArguments, kind.name ∉ operatorWords := by decide
  cases h with
  | operator hop => rw [if_pos (isSome_ofName?.mp hop)]
  | ret => rw [if_neg (by decide)]; exact ⟨rfl, rfl, rfl⟩
  | @named kind name hkind hindex =>
    obtain ⟨hparts, hname, hnumber⟩ := parts_ofParts name 0 kind hkind
    rw [hindex, if_neg (by simp)] at hnumber
    rw [if_neg (hkinds kind hkind), hparts]
    exact ⟨rfl, hname, hnumber⟩
  | @indexed kind name digits hkind hindex hne hdigits hle =>
    obtain ⟨hparts, hname, hnumber⟩ := parts_ofParts name (Text.digitsValue digits) kind hkind
    rw [hindex, if_pos rfl] at hnumber
    rw [if_neg (hkinds kind hkind), hparts]
    exact ⟨rfl, hname, hnumber⟩

theorem message_ending (e : DecodeError) :
    (if e.isUnknown then ascii ": unknown command" else ascii ": malformed command") <:+ e.message := by
  cases e with
  | empty => decide
  | unknownWord word => exact List.suffix_append _ _
  | tooManyWords text count =>
    have hend : ascii ": malformed command" <:+ ascii " tokens, at most 3 allowed: malformed command" := by decide
    exact hend.trans (List.suffix_append _ _)
  | unexpectedArguments text word =>
    have hend : ascii ": malformed command" <:+ ascii " takes no arguments: malformed command" := by decide
    exact hend.trans (List.suffix_append _ _)
  | wrongArity text kind expected given => exact List.suffix_append _ _
  | badNumber text word =>
    have hend : ascii ": malformed command" <:+ ascii " is not a non-negative integer: malformed command" := by decide
    exact hend.trans (List.suffix_append _ _)

/-- A text is a command, begins with an unknown word, or is malformed, as its words say. A command has the kind that
its first word names, the name behind it and the number behind that. -/
theorem decode_classifies (text : Text) :
    let ws := Text.words text
    ((∃ c, decode text = .ok c) ↔ Complete ws) ∧
    (∀ c, decode text = .ok c → ∃ head args, ws = head :: args ∧
      if head ∈ operatorWords then c = .arithmetic head
      else c.kind.name = head ∧ c.name? = args[0]? ∧
        c.index? = args[1]?.map fun digits => (Text.digitsValue digits : Int)) ∧
    ((∃ e, decode text = .error e ∧ e.isUnknown = true) ↔ Unknown ws) ∧
    ((∃ e, decode text = .error e ∧ e.isUnknown = false) ↔ Malformed ws) ∧
    ∀ e, decode text = .error e →
      (if e.isUnknown then ascii ": unknown command" else ascii ": malformed command") <:+ e.message := by
  intro ws
  have hjudged : ((∃ c, decode text = .ok c) ↔ Complete ws) ∧
      ((∃ e, decode text = .error e ∧ e.isUnknown = true) ↔ Unknown ws) ∧
      ((∃ e, decode text = .error e ∧ e.isUnknown = false) ↔ Malformed ws) := by
    unfold decode
    obtain ⟨⟨c, hc⟩, h⟩ | ⟨⟨e, he, hunknown⟩, h⟩ | ⟨⟨e, he, hunknown⟩, h⟩ := judged text ws
    · simp [ws, hc, h, h.not_unknown, h.not_malformed]
    · have hcomplete : ¬ Complete ws := fun hc => hc.not_unknown h
      simp [ws, he, hunknown, h, hcomplete, h.not_malformed]
    · have hcomplete : ¬ Complete ws := fun hc => hc.not_malformed h
      have hnot : ¬ Unknown ws := fun hu => hu.not_malformed h
      simp [ws, he, hunknown, h, hcomplete, hnot]
  refine ⟨hjudged.1, ?_, hjudged.2.1, hjudged.2.2, fun e _ => message_ending e⟩
  intro c hc
  have hreads := decode_eq_ok_iff.mp hc
  obtain ⟨head, args, hws⟩ := List.exists_cons_of_ne_nil hreads.ne_nil
  exact ⟨head, args, hws, parts_of_reads (hws ▸ hreads)⟩

/-- A number with leading zeros, too many words behind an unknown one, and a number that is too large. -/
theorem decode_classifies_sample :
    (∃ c, decode (ascii "function  f\t0012") = .ok c ∧ c.kind.name = ascii "function" ∧ c.name? = some (ascii "f") ∧
      c.index? = some 12) ∧
    (∃ e, decode (ascii "jump a b c") = .error e ∧ e.isUnknown = false) ∧
    ∃ e, decode (ascii "push constant 2147483648") = .error e ∧ ascii ": malformed command" <:+ e.message := by
  refine ⟨?_, ?_, ?_⟩
  · have hwords : Text.words (ascii "function  f\t0012") = [ascii "function", ascii "f", ascii "0012"] := by decide +kernel
    have hnumber : IsNumber (ascii "0012") := by decide
    obtain ⟨hok, hparts, -⟩ := decode_classifies (ascii "function  f\t0012")
    obtain ⟨c, hc⟩ := hok.mpr (hwords ▸ .counting _ (by decide) hnumber)
    obtain ⟨head, args, hws, hrest⟩ := hparts c hc
    rw [hwords] at hws
    obtain ⟨rfl, rfl⟩ := List.cons.inj hws
    rw [if_neg (by decide)] at hrest
    exact ⟨c, hc, hrest⟩
  · have hwords : (Text.words (ascii "jump a b c")).length = 4 := by decide +kernel
    exact (decode_classifies (ascii "jump a b c")).2.2.2.1.mpr (.long (by rw [hwords]; decide))
  · have hwords : Text.words (ascii "push constant 2147483648") =
        [ascii "push", ascii "constant", ascii "2147483648"] := by decide +kernel
    have hnumber : ¬ IsNumber (ascii "2147483648") := by decide
    obtain ⟨-, -, -, hmalformed, hmessage⟩ := decode_classifies (ascii "push constant 2147483648")
    obtain ⟨e, he, hknown⟩ := hmalformed.mpr (hwords ▸ .misnumbered _ (by decide) hnumber)
    have hending := hmessage e he
    rw [hknown] at hending
    exact ⟨e, he, hending⟩

end HackStack.Command
