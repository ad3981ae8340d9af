import HackStack.Text.Blank
import HackStack.Text.Numeral
import Mathlib.Data.List.Induction
import Mathlib.Data.List.TakeDrop
import Mathlib.Data.List.TakeWhile

/-!
# Lines, white space and numerals

A text is divided at its line feeds, one without white space is left as it is when white space is taken out, and a
decimal numeral is read back as the number that it was written for.
-/

namespace HackStack.Text

/-! ## Lines of a text -/

theorem splitAt_cons_ne {mark b : UInt8} (h : b ≠ mark) (t : Text) :
    ∃ part rest, splitAt mark t = part :: rest ∧ splitAt mark (b :: t) = (b :: part) :: rest := by
  cases ht : splitAt mark t with
  | nil => exact absurd ht (splitAt_ne_nil mark t)
  | cons part rest =>
    refine ⟨part, rest, rfl, ?_⟩
    unfold splitAt at ht ⊢
    rw [List.foldr_cons, if_neg h, ht]

theorem splitAt_append_mark {mark : UInt8} (t : Text) :
    ∀ {xs : Text}, mark ∉ xs → splitAt mark (xs ++ mark :: t) = xs :: splitAt mark t
  | [], _ => splitAt_mark mark t
  | b :: xs, h => by
    simp only [List.mem_cons, not_or] at h
    have ih := splitAt_append_mark t h.2
    obtain ⟨part, rest, hs, hc⟩ := splitAt_cons_ne (Ne.symm h.1) (xs ++ mark :: t)
    rw [ih] at hs
    obtain ⟨rfl, rfl⟩ := List.cons.inj hs
    exact hc

theorem splitAt_append (mark : UInt8) (u : Text) : ∀ t : Text,
    splitAt mark (t ++ mark :: u) = splitAt mark t ++ splitAt mark u
  | [] => splitAt_mark mark u
  | b :: t => by
    have ih := splitAt_append mark u t
    by_cases h : b = mark
    · subst h
      rw [List.cons_append, splitAt_mark, splitAt_mark, ih, List.cons_append]
    · obtain ⟨part, rest, hs, hc⟩ := splitAt_cons_ne h t
      obtain ⟨part', rest', hs', hc'⟩ := splitAt_cons_ne h (t ++ mark :: u)
      rw [ih, hs, List.cons_append] at hs'
      obtain ⟨rfl, rfl⟩ := List.cons.inj hs'
      rw [List.cons_append, hc', hc, List.cons_append]

theorem splitAt_of_not_mem {mark : UInt8} : ∀ {t : Text}, mark ∉ t → splitAt mark t = [t]
  | [], _ => rfl
  | b :: t, h => by
    simp only [List.mem_cons, not_or] at h
    obtain ⟨part, rest, hs, hc⟩ := splitAt_cons_ne (Ne.symm h.1) t
    rw [splitAt_of_not_mem h.2] at hs
    obtain ⟨rfl, rfl⟩ := List.cons.inj hs
    exact hc

theorem bne_of_mem_reverse {mark : UInt8} {t : Text} (h : mark ∉ t) : ∀ b ∈ t.reverse, (b != mark) = true := by
  intro b hb
  rw [bne_iff_ne]
  rintro rfl
  exact h (List.mem_reverse.mp hb)

theorem lines_flatMap {α : Type} {f : α → Text} : ∀ {as : List α}, (∀ a ∈ as, lineFeed ∉ f a) →
    lines (as.flatMap fun a => f a ++ [lineFeed]) = as.map f ++ [[]]
  | [], _ => rfl
  | a :: as, h => by
    rw [List.forall_mem_cons] at h
    have ih := lines_flatMap h.2
    unfold lines at ih ⊢
    rw [List.flatMap_cons, List.append_assoc, List.singleton_append, splitAt_append_mark _ h.1, ih]
    rfl

theorem join_cons_cons (b : UInt8) (w w' : Text) (ws : List Text) :
    join [b] (w :: w' :: ws) = w ++ b :: join [b] (w' :: ws) := by
  simp [join, List.intercalate]

theorem splitAt_join {mark : UInt8} : ∀ {ws : List Text}, ws ≠ [] → (∀ w ∈ ws, mark ∉ w) →
    splitAt mark (join [mark] ws) = ws
  | [w], _, h => by
    have hw : join [mark] [w] = w := by simp [join]
    rw [hw]
    exact splitAt_of_not_mem (h w (by simp))
  | w :: w' :: ws, _, h => by
    rw [List.forall_mem_cons] at h
    have ih := splitAt_join (List.cons_ne_nil w' ws) h.2
    rw [join_cons_cons, splitAt_append_mark _ h.1, ih]

theorem lines_join {ls : List Text} (hne : ls ≠ []) (h : ∀ l ∈ ls, lineFeed ∉ l) :
    lines (join [lineFeed] ls) = ls := splitAt_join hne h

theorem mem_join {mark b : UInt8} (hb : b ≠ mark) : ∀ {ws : List Text}, b ∈ join [mark] ws → ∃ w ∈ ws, b ∈ w
  | [w], h => ⟨w, by simp, by simpa [join] using h⟩
  | w :: w' :: ws, h => by
    rw [join_cons_cons, List.mem_append, List.mem_cons] at h
    obtain h | rfl | h := h
    · exact ⟨w, by simp, h⟩
    · exact absurd rfl hb
    · obtain ⟨v, hv, hm⟩ := mem_join hb h
      exact ⟨v, List.mem_cons_of_mem _ hv, hm⟩

theorem mark_not_mem_splitAt {mark : UInt8} : ∀ {t part : Text}, part ∈ splitAt mark t → mark ∉ part
  | [], part, h => by
    rw [List.mem_singleton.mp h]
    simp
  | b :: t, part, h => by
    by_cases hb : b = mark
    · subst hb
      rw [splitAt_mark] at h
      obtain rfl | h := List.mem_cons.mp h
      · simp
      · exact mark_not_mem_splitAt h
    · obtain ⟨first, rest, hs, hc⟩ := splitAt_cons_ne hb t
      rw [hc] at h
      obtain rfl | h := List.mem_cons.mp h
      · have hfirst : mark ∉ first := mark_not_mem_splitAt (hs ▸ List.mem_cons_self)
        simpa [Ne.symm hb] using hfirst
      · exact mark_not_mem_splitAt (hs ▸ List.mem_cons_of_mem _ h)

theorem sublist_of_mem_splitAt {mark : UInt8} : ∀ {t part : Text}, part ∈ splitAt mark t → part.Sublist t := by
  intro t
  induction t with
  | nil =>
    intro part hpart
    obtain rfl := List.mem_singleton.mp hpart
    exact List.nil_sublist _
  | cons b t ih =>
    intro part hpart
    by_cases hb : b = mark
    · subst hb
      rw [splitAt_mark] at hpart
      obtain rfl | hpart := List.mem_cons.mp hpart
      · exact List.nil_sublist _
      · exact (ih hpart).cons b
    · obtain ⟨first, rest, hs, hc⟩ := splitAt_cons_ne hb t
      rw [hs] at ih
      rw [hc] at hpart
      obtain rfl | hpart := List.mem_cons.mp hpart
      · exact (ih List.mem_cons_self).cons_cons b
      · exact (ih (List.mem_cons_of_mem _ hpart)).cons b

/-! ## The first mark -/

theorem cut?_append {mark : UInt8} {xs : Text} (h : mark ∉ xs) (t : Text) :
    cut? mark (xs ++ mark :: t) = some (xs, t) := by
  have hx : ∀ b ∈ xs, (b != mark) = true := by
    intro b hb
    simp only [bne_iff_ne]
    rintro rfl; exact h hb
  unfold cut?
  rw [List.span_eq_takeWhile_dropWhile, List.takeWhile_append_of_pos hx, List.dropWhile_append_of_pos hx]
  simp

theorem cut?_none {mark : UInt8} {xs : Text} (h : mark ∉ xs) : cut? mark xs = none := by
  have hx : ∀ b ∈ xs, (b != mark) = true := by
    intro b hb
    simp only [bne_iff_ne]
    rintro rfl; exact h hb
  unfold cut?
  rw [List.span_eq_takeWhile_dropWhile, List.dropWhile_eq_nil_iff.mpr hx]

theorem cut?_eq_some {mark : UInt8} {t before after : Text} (h : cut? mark t = some (before, after)) :
    t = before ++ mark :: after ∧ mark ∉ before := by
  have hall : ∀ b ∈ t.takeWhile (· != mark), (b != mark) = true := by
    intro b hb
    exact List.mem_takeWhile_imp (p := (· != mark)) hb
  have happend := List.takeWhile_append_dropWhile (p := (· != mark)) (l := t)
  unfold cut? at h
  rw [List.span_eq_takeWhile_dropWhile] at h
  cases hd : t.dropWhile (· != mark) with
  | nil => rw [hd] at h; cases h
  | cons b rest =>
    have hb := List.head?_dropWhile_not (· != mark) t
    rw [hd] at h hb happend
    simp only [Option.some.injEq, Prod.mk.injEq] at h
    obtain ⟨rfl, rfl⟩ := h
    simp only [List.head?_cons, bne_eq_false_iff_eq] at hb
    subst hb
    refine ⟨happend.symm, fun hm => ?_⟩
    simpa using hall b hm

/-! ## Graphic bytes and white space -/

def isGraphic (b : UInt8) : Bool := 33 ≤ b && b ≤ 126 && b != 47

theorem ne_of_isGraphic {b c : UInt8} (h : isGraphic b = true) (hc : 126 < c.toNat) : b ≠ c := by
  simp only [isGraphic, Bool.and_eq_true, decide_eq_true_eq, UInt8.le_iff_toNat_le] at h
  rintro rfl
  exact absurd h.1.2 (Nat.not_le.mpr hc)

theorem blankWidth_graphic {b : UInt8} (h : isGraphic b = true) (rest : Text) : blankWidth (b :: rest) = 0 := by
  have h1 := ne_of_isGraphic h (c := 0xC2) (by decide)
  have h2 := ne_of_isGraphic h (c := 0xE1) (by decide)
  have h3 := ne_of_isGraphic h (c := 0xE2) (by decide)
  have h4 := ne_of_isGraphic h (c := 0xE3) (by decide)
  simp only [isGraphic, Bool.and_eq_true, decide_eq_true_eq, bne_iff_ne, UInt8.le_iff_toNat_le] at h
  have hb : isAsciiBlank b = false := by
    simp only [isAsciiBlank, Bool.or_eq_false_iff, Bool.and_eq_false_iff, decide_eq_false_iff_not, beq_eq_false_iff_ne,
      UInt8.le_iff_toNat_le]
    refine ⟨?_, Or.inr ?_⟩
    · rintro rfl; exact absurd h.1.1 (by decide)
    · have : (33 : UInt8).toNat = 33 := rfl
      have : (13 : UInt8).toNat = 13 := rfl
      omega
  unfold blankWidth
  cases rest with
  | nil => simp [hb]
  | cons c rest =>
    cases rest with
    | nil => simp [hb, h1]
    | cons d rest => simp [hb, h1, h2, h3, h4]

def isContinuation (b : UInt8) : Bool := 0x80 ≤ b && b ≤ 0xBF

theorem isContinuation_graphic {b : UInt8} (h : isGraphic b = true) : isContinuation b = false := by
  simp only [isGraphic, Bool.and_eq_true, decide_eq_true_eq, UInt8.le_iff_toNat_le] at h
  simp only [isContinuation, Bool.and_eq_false_iff, decide_eq_false_iff_not, UInt8.le_iff_toNat_le]
  have h126 : (126 : UInt8).toNat = 126 := rfl
  have h128 : (0x80 : UInt8).toNat = 128 := rfl
  omega

theorem ne_of_isContinuation {b c : UInt8} (hb : isContinuation b = false) (hc : isContinuation c = true) : b ≠ c := by
  rintro rfl
  rw [hb] at hc
  cases hc

/-- No white space character begins in a text and goes on with a byte that begins a character. -/
theorem blankWidth_append {b c : UInt8} (hc : isContinuation c = false) (t u : Text) :
    blankWidth (b :: t ++ c :: u) = blankWidth (b :: t) := by
  have h1 := ne_of_isContinuation hc (c := 0x80) rfl
  have h2 := ne_of_isContinuation hc (c := 0x81) rfl
  have h3 := ne_of_isContinuation hc (c := 0x85) rfl
  have h4 := ne_of_isContinuation hc (c := 0x9A) rfl
  have h5 := ne_of_isContinuation hc (c := 0x9F) rfl
  have h6 := ne_of_isContinuation hc (c := 0xA0) rfl
  have h7 := ne_of_isContinuation hc (c := 0xA8) rfl
  have h8 := ne_of_isContinuation hc (c := 0xA9) rfl
  have h9 := ne_of_isContinuation hc (c := 0xAF) rfl
  have hrange : ¬ ((0x80 : UInt8) ≤ c ∧ c ≤ 0x8A) := by
    simp only [isContinuation, Bool.and_eq_false_iff, decide_eq_false_iff_not, UInt8.le_iff_toNat_le] at hc
    rw [UInt8.le_iff_toNat_le, UInt8.le_iff_toNat_le]
    have h138 : (0x8A : UInt8).toNat = 138 := rfl
    have h191 : (0xBF : UInt8).toNat = 191 := rfl
    omega
  unfold blankWidth
  match t, u with
  | [], [] => simp [h3, h6]
  | [], d :: u => simp [h1, h2, h3, h4, h6]
  | [d], u => simp [h1, h5, h7, h8, h9, hrange]
  | d :: e :: t, u => simp

/-- Whether no white space begins anywhere in a text. -/
def Unbroken : Text → Prop
  | [] => True
  | b :: t => blankWidth (b :: t) = 0 ∧ Unbroken t

theorem unbroken_graphic : ∀ {t : Text}, t.all isGraphic = true → Unbroken t
  | [], _ => trivial
  | b :: t, h => by
    rw [List.all_cons, Bool.and_eq_true] at h
    exact ⟨blankWidth_graphic h.1 t, unbroken_graphic h.2⟩

theorem Unbroken.append_graphic {c : UInt8} {u : Text} (hu : (c :: u).all isGraphic = true) :
    ∀ {t : Text}, Unbroken t → Unbroken (t ++ c :: u)
  | [], _ => unbroken_graphic hu
  | b :: t, h => by
    have hc : isGraphic c = true := List.all_eq_true.mp hu c List.mem_cons_self
    exact ⟨(blankWidth_append (isContinuation_graphic hc) t u).trans h.1, append_graphic hu h.2⟩

theorem blankWidth_ascii {b : UInt8} (hb : isAsciiBlank b = true) (t : Text) : blankWidth (b :: t) = 1 := if_pos hb

theorem not_mem_unbroken {c : UInt8} (hc : isAsciiBlank c = true) : ∀ {t : Text}, Unbroken t → c ∉ t
  | [], _ => by simp
  | b :: t, h => by
    rw [List.mem_cons, not_or]
    refine ⟨?_, not_mem_unbroken hc h.2⟩
    rintro rfl
    exact absurd h.1 (by simp [blankWidth_ascii hc])

theorem lineFeed_not_mem_unbroken {t : Text} (h : Unbroken t) : lineFeed ∉ t := not_mem_unbroken rfl h

theorem wordsFrom_unbroken (word : Text) :
    ∀ {t : Text}, Unbroken t → (wordsFrom 0 word [] t).flatten = word.reverse ++ t
  | [], _ => by cases word <;> simp [wordsFrom]
  | b :: t, h => by
    rw [wordsFrom]
    simp only [h.1]
    rw [wordsFrom_unbroken (b :: word) h.2]
    simp

theorem length_wordsFrom_le : ∀ (t : Text) (skip : Nat) (word : Text) (done : List Text),
    (wordsFrom skip word done t).flatten.length ≤ done.flatten.length + word.length + t.length
  | [], _, word, done => by
    rw [wordsFrom]
    split <;> simp [Nat.add_comm]
  | b :: t, skip + 1, word, done => by
    have ih := length_wordsFrom_le t skip word done
    rw [wordsFrom, List.length_cons]
    omega
  | b :: t, 0, word, done => by
    rw [wordsFrom, List.length_cons]
    cases blankWidth (b :: t) with
    | zero =>
      have ih := length_wordsFrom_le t 0 (b :: word) done
      rw [List.length_cons] at ih
      simp only
      omega
    | succ n =>
      have ih := length_wordsFrom_le t n [] (if word.isEmpty then done else word.reverse :: done)
      have hdone : (if word.isEmpty then done else word.reverse :: done).flatten.length =
          done.flatten.length + word.length := by
        cases word with
        | nil => simp
        | cons b word => simp; omega
      rw [hdone, List.length_nil] at ih
      simp only
      omega

theorem unbroken_of_wordsFrom : ∀ {t : Text} (word : Text),
    (wordsFrom 0 word [] t).flatten.length = word.length + t.length → Unbroken t
  | [], _, _ => trivial
  | b :: t, word, h => by
    rw [wordsFrom] at h
    cases hwidth : blankWidth (b :: t) with
    | zero =>
      rw [hwidth] at h
      refine ⟨hwidth, unbroken_of_wordsFrom (b :: word) ?_⟩
      rw [h, List.length_cons, List.length_cons]
      omega
    | succ n =>
      rw [hwidth] at h
      have hle := length_wordsFrom_le t n [] (if word.isEmpty then [] else [word.reverse])
      have hdone : (if word.isEmpty then [] else [word.reverse]).flatten.length = word.length := by
        cases word <;> simp
      rw [hdone, List.length_nil] at hle
      simp only [List.length_cons] at h
      omega

theorem unbroken_iff {t : Text} : Unbroken t ↔ compact t = t := by
  constructor
  · exact wordsFrom_unbroken []
  · intro h
    refine unbroken_of_wordsFrom [] ?_
    rw [List.length_nil, Nat.zero_add]
    exact congrArg List.length h

theorem trimEnd_go_unbroken : ∀ {t : Text} (kept : Text), Unbroken t → trimEnd.go 0 kept [] t = kept.reverse ++ t
  | [], kept, _ => by simp [trimEnd.go]
  | b :: t, kept, h => by
    rw [trimEnd.go]
    simp only [h.1]
    rw [trimEnd_go_unbroken _ h.2]
    simp

theorem trim_unbroken {t : Text} (h : Unbroken t) : trim t = t := by
  have hstart : trimStart t = t := by
    cases t with
    | nil => rfl
    | cons b t =>
      unfold trimStart
      rw [trimStart.go]
      simp only [h.1]
  unfold trim trimEnd
  rw [hstart, trimEnd_go_unbroken [] h]
  rfl

theorem stripRemark_go_of_not_mem (kept : Text) : ∀ {t : Text}, 47 ∉ t → stripRemark.go kept t = kept.reverse ++ t
  | [], _ => by simp [stripRemark.go]
  | b :: t, h => by
    rw [List.mem_cons, not_or] at h
    rw [stripRemark.go, stripRemark_go_of_not_mem (b :: kept) h.2]
    · simp
    · rintro rest rfl; exact absurd rfl h.1

/-! ## Numerals -/

theorem digitChar_toUInt8 {d : Nat} (h : d < 10) : (Nat.digitChar d).toNat.toUInt8 = 48 + d.toUInt8 := by
  match d, h with
  | 0, _ | 1, _ | 2, _ | 3, _ | 4, _ | 5, _ | 6, _ | 7, _ | 8, _ | 9, _ => rfl

theorem decimal_of_lt {n : Nat} (h : n < 10) : decimal n = [48 + n.toUInt8] := by
  unfold decimal
  rw [Nat.toDigits_of_lt_base h, List.map_singleton, digitChar_toUInt8 h]

theorem decimal_of_le {n : Nat} (h : 10 ≤ n) : decimal n = decimal (n / 10) ++ [48 + (n % 10).toUInt8] := by
  unfold decimal
  rw [Nat.toDigits_of_base_le (by omega) h, List.map_append, List.map_singleton,
    digitChar_toUInt8 (Nat.mod_lt n (by omega))]

theorem isDigit_digit {d : Nat} (h : d < 10) : isDigit (48 + d.toUInt8) = true := by
  match d, h with
  | 0, _ | 1, _ | 2, _ | 3, _ | 4, _ | 5, _ | 6, _ | 7, _ | 8, _ | 9, _ => rfl

theorem toNat_digit {d : Nat} (h : d < 10) : (48 + d.toUInt8).toNat - 48 = d := by
  match d, h with
  | 0, _ | 1, _ | 2, _ | 3, _ | 4, _ | 5, _ | 6, _ | 7, _ | 8, _ | 9, _ => rfl

theorem decimal_ne_nil (n : Nat) : decimal n ≠ [] := by
  by_cases h : n < 10
  · rw [decimal_of_lt h]; simp
  · rw [decimal_of_le (by omega)]; simp

theorem all_isDigit_decimal (n : Nat) : (decimal n).all isDigit = true := by
  induction n using Nat.strongRecOn with
  | ind n ih =>
    by_cases h : n < 10
    · rw [decimal_of_lt h]; simp [isDigit_digit h]
    · rw [decimal_of_le (by omega)]
      simp [ih (n / 10) (by omega), isDigit_digit (Nat.mod_lt n (by omega))]

theorem not_mem_decimal {b : UInt8} (h : isDigit b = false) (n : Nat) : b ∉ decimal n := by
  intro hb
  have hd := List.all_eq_true.mp (all_isDigit_decimal n) b hb
  rw [h] at hd
  cases hd

theorem digitsValue_decimal (n : Nat) : digitsValue (decimal n) = n := by
  induction n using Nat.strongRecOn with
  | ind n ih =>
    by_cases h : n < 10
    · rw [decimal_of_lt h]; simp [digitsValue]; omega
    · have ih := ih (n / 10) (by omega)
      rw [decimal_of_le (by omega)]
      unfold digitsValue at ih ⊢
      rw [List.foldl_append, ih, List.foldl_cons, List.foldl_nil, toNat_digit (Nat.mod_lt n (by omega))]
      omega

theorem readNat?_decimal (n : Nat) : readNat? (decimal n) = some n := by
  have hne : (decimal n).isEmpty = false := by simp [decimal_ne_nil]
  simp [readNat?, hne, all_isDigit_decimal, digitsValue_decimal]

theorem decimal_injective {m n : Nat} (h : decimal m = decimal n) : m = n := by
  rw [← digitsValue_decimal m, h, digitsValue_decimal]

theorem readNat?_eq_some {t : Text} {n : Nat} :
    readNat? t = some n ↔ t ≠ [] ∧ (∀ b ∈ t, isDigit b = true) ∧ digitsValue t = n := by
  unfold readNat?
  by_cases h : (!t.isEmpty && t.all isDigit) = true
  · rw [if_pos h, Option.some.injEq]
    simp only [Bool.and_eq_true, Bool.not_eq_true', List.isEmpty_eq_false_iff, List.all_eq_true] at h
    exact ⟨fun hn => ⟨h.1, h.2, hn⟩, fun hn => hn.2.2⟩
  · rw [if_neg h]
    simp only [Bool.and_eq_true, Bool.not_eq_true', List.isEmpty_eq_false_iff, List.all_eq_true] at h
    constructor
    · intro hn
      cases hn
    · intro hn
      exact absurd ⟨hn.1, hn.2.1⟩ h

theorem length_decimal_digitsValue {t : Text} (hne : t ≠ []) (h : ∀ b ∈ t, isDigit b = true) :
    (decimal (digitsValue t)).length ≤ t.length := by
  induction t using List.reverseRecOn with
  | nil => exact absurd rfl hne
  | append_singleton t b ih =>
    rw [List.forall_mem_append] at h
    have hb := h.2 b (by simp)
    simp only [isDigit, Bool.and_eq_true, decide_eq_true_eq, UInt8.le_iff_toNat_le] at hb
    have h57 : (57 : UInt8).toNat = 57 := rfl
    have hvalue : digitsValue (t ++ [b]) = 10 * digitsValue t + (b.toNat - 48) := by
      unfold digitsValue
      rw [List.foldl_append, List.foldl_cons, List.foldl_nil]
    rw [hvalue, List.length_append, List.length_singleton]
    by_cases hsmall : 10 * digitsValue t + (b.toNat - 48) < 10
    · rw [decimal_of_lt hsmall, List.length_singleton]
      exact Nat.le_add_left 1 _
    · have hdiv : (10 * digitsValue t + (b.toNat - 48)) / 10 = digitsValue t := by omega
      have hmore : t ≠ [] := by
        rintro rfl
        exact hsmall (by simp only [digitsValue, List.foldl_nil]; omega)
      rw [decimal_of_le (Nat.le_of_not_lt hsmall), hdiv, List.length_append, List.length_singleton]
      exact Nat.succ_le_succ (ih hmore h.1)

end HackStack.Text
