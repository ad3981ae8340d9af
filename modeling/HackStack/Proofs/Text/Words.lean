import HackStack.Proofs.Text

/-!
# Words of a text

A white space character ends the word before it, whatever stands behind it: `words_append` says so, and what a text
means to a reader that goes by words follows from it. White space at the ends adds no word, every word is a part of its
text without white space, and words that are joined by spaces are found again.
-/

namespace HackStack.Text

/-! ## White space characters -/

/-- A white space character at the head of a text is there whatever follows it. -/
theorem blankWidth_split {t : Text} (h : blankWidth t ≠ 0) :
    ∃ c u, t = c ++ u ∧ c.length = blankWidth t ∧ ∀ v, blankWidth (c ++ v) = blankWidth t := by
  match t with
  | [] => exact absurd rfl h
  | b :: t =>
    by_cases hb : isAsciiBlank b = true
    · exact ⟨[b], t, rfl, by simp [blankWidth, hb], by simp [blankWidth, hb]⟩
    · match t with
      | [] => exact absurd (by simp [blankWidth, hb]) h
      | c :: t =>
        by_cases hc : (b == 0xC2 && (c == 0x85 || c == 0xA0)) = true
        · have hwidth : ∀ v, blankWidth (b :: c :: v) = 2 := fun v => (if_neg hb).trans (if_pos hc)
          exact ⟨[b, c], t, rfl, (hwidth t).symm, fun v => (hwidth v).trans (hwidth t).symm⟩
        · match t with
          | [] => exact absurd ((if_neg hb).trans (if_neg hc)) h
          | d :: t =>
            refine ⟨[b, c, d], t, rfl, ?_, fun v => rfl⟩
            simp only [blankWidth, if_neg hb, if_neg hc] at h ⊢
            split at h
            · rename_i hd
              rw [if_pos hd]
              rfl
            · exact absurd rfl h

theorem blankWidth_le (t : Text) : blankWidth t ≤ t.length := by
  by_cases h : blankWidth t = 0
  · rw [h]
    exact Nat.zero_le _
  · obtain ⟨c, u, rfl, hlength, -⟩ := blankWidth_split h
    rw [← hlength, List.length_append]
    exact Nat.le_add_right _ _

theorem blankWidth_eq_append {t : Text} (h : blankWidth t ≠ 0) (u : Text) : blankWidth (t ++ u) = blankWidth t := by
  obtain ⟨c, v, rfl, -, hwidth⟩ := blankWidth_split h
  rw [List.append_assoc]
  exact hwidth (v ++ u)

theorem blankWidth_eq_zero_of_append {t u : Text} (h : blankWidth (t ++ u) = 0) : blankWidth t = 0 := by
  by_contra hne
  exact hne (blankWidth_eq_append hne u ▸ h)

theorem blankWidth_take (t : Text) : blankWidth (t.take (blankWidth t)) = blankWidth t := by
  by_cases h : blankWidth t = 0
  · rw [h]
    rfl
  · obtain ⟨c, u, hsplit, hlength, hwidth⟩ := blankWidth_split h
    have htake : t.take (blankWidth t) = c := by rw [← hlength, hsplit, List.take_left]
    have hc := hwidth []
    rw [List.append_nil] at hc
    rw [htake, hc]

theorem isContinuation_of_blankWidth {b : UInt8} {t : Text} (h : blankWidth (b :: t) ≠ 0) :
    isContinuation b = false := by
  by_contra hb
  rw [Bool.not_eq_false] at hb
  have hne : ∀ c, isContinuation c = false → b ≠ c := fun c hc => (ne_of_isContinuation hc hb).symm
  have hascii : isAsciiBlank b = false := by
    simp only [isContinuation, Bool.and_eq_true, decide_eq_true_eq, UInt8.le_iff_toNat_le] at hb
    simp only [isAsciiBlank, Bool.or_eq_false_iff, Bool.and_eq_false_iff, decide_eq_false_iff_not, beq_eq_false_iff_ne,
      UInt8.le_iff_toNat_le]
    have h128 : (0x80 : UInt8).toNat = 128 := rfl
    have h13 : (13 : UInt8).toNat = 13 := rfl
    exact ⟨hne 32 rfl, .inr (by omega)⟩
  apply h
  unfold blankWidth
  rcases t with _ | ⟨c, _ | ⟨d, t⟩⟩
  · simp [hascii]
  · simp [hascii, hne 0xC2 rfl]
  · simp [hascii, hne 0xC2 rfl, hne 0xE1 rfl, hne 0xE2 rfl, hne 0xE3 rfl]

def BlankFirst (t : Text) : Prop := t = [] ∨ blankWidth t ≠ 0

theorem blankWidth_append_blank {b : UInt8} {v : Text} (hv : BlankFirst v) (t : Text) :
    blankWidth (b :: t ++ v) = blankWidth (b :: t) := by
  obtain rfl | hv := hv
  · rw [List.append_nil]
  · cases v with
    | nil => rw [List.append_nil]
    | cons c u => exact blankWidth_append (isContinuation_of_blankWidth hv) t u

theorem BlankFirst.append {u v : Text} (hu : BlankFirst u) (hv : BlankFirst v) : BlankFirst (u ++ v) := by
  obtain rfl | hu := hu
  · exact hv
  · exact .inr (blankWidth_eq_append hu v ▸ hu)

/-! ## The scan for words -/

theorem wordsFrom_done : ∀ (t : Text) (skip : Nat) (word : Text) (done : List Text),
    wordsFrom skip word done t = done.reverse ++ wordsFrom skip word [] t
  | [], _, word, _ => by cases word <;> simp [wordsFrom]
  | _ :: t, skip + 1, word, done => by
    rw [wordsFrom, wordsFrom]
    exact wordsFrom_done t skip word done
  | b :: t, 0, word, done => by
    rw [wordsFrom, wordsFrom]
    cases blankWidth (b :: t) with
    | zero => exact wordsFrom_done t 0 (b :: word) done
    | succ n =>
      dsimp only
      rw [wordsFrom_done t n [], wordsFrom_done t n [] (ite _ [] _)]
      cases word <;> simp

theorem wordsFrom_append {v : Text} (hv : BlankFirst v) : ∀ {u : Text} {skip : Nat} (word : Text) (done : List Text),
    skip ≤ u.length → wordsFrom skip word done (u ++ v) = wordsFrom skip word done u ++ words v
  | [], skip, word, done, hskip => by
    obtain rfl := Nat.le_zero.mp hskip
    rw [List.nil_append]
    obtain rfl | hv := hv
    · simp [words, wordsFrom]
    · cases v with
      | nil => exact absurd rfl hv
      | cons b v =>
        obtain ⟨n, hn⟩ := Nat.exists_eq_succ_of_ne_zero hv
        simp only [words, wordsFrom, hn]
        rw [wordsFrom_done]
        rfl
  | b :: u, skip + 1, word, done, hskip => by
    rw [List.cons_append, wordsFrom, wordsFrom]
    exact wordsFrom_append hv word done (Nat.le_of_succ_le_succ hskip)
  | b :: u, 0, word, done, _ => by
    rw [List.cons_append, wordsFrom, wordsFrom, ← List.cons_append, blankWidth_append_blank hv]
    have hle := blankWidth_le (b :: u)
    cases hn : blankWidth (b :: u) with
    | zero => exact wordsFrom_append hv (b :: word) done (Nat.zero_le _)
    | succ n =>
      rw [hn] at hle
      exact wordsFrom_append hv [] _ (Nat.le_of_succ_le_succ hle)

theorem words_append (u : Text) {v : Text} (hv : BlankFirst v) : words (u ++ v) = words u ++ words v :=
  wordsFrom_append hv [] [] (Nat.zero_le _)

theorem wordsFrom_skip : ∀ {t : Text} (n : Nat), n ≤ t.length → wordsFrom n [] [] t = words (t.drop n)
  | _, 0, _ => rfl
  | _ :: t, n + 1, h => by
    rw [wordsFrom, List.drop_succ_cons]
    exact wordsFrom_skip n (Nat.le_of_succ_le_succ h)

theorem words_blank {t : Text} (h : blankWidth t ≠ 0) : words t = words (t.drop (blankWidth t)) := by
  have hle := blankWidth_le t
  cases t with
  | nil => rfl
  | cons b t =>
    obtain ⟨n, hn⟩ := Nat.exists_eq_succ_of_ne_zero h
    rw [hn] at hle
    rw [hn, List.drop_succ_cons, ← wordsFrom_skip n (Nat.le_of_succ_le_succ hle)]
    simp only [words, wordsFrom, hn]
    rfl

theorem words_space (u v : Text) : words (u ++ 32 :: v) = words u ++ words v := by
  have hwidth := blankWidth_ascii (b := 32) rfl v
  have hne : blankWidth (32 :: v) ≠ 0 := by simp [hwidth]
  rw [words_append u (.inr hne), words_blank hne, hwidth]
  rfl

theorem wordsFrom_of_unbroken : ∀ {t : Text} (word : Text), Unbroken t → word ++ t ≠ [] →
    wordsFrom 0 word [] t = [word.reverse ++ t]
  | [], word, _, hne => by
    rw [List.append_nil] at hne
    simp [wordsFrom, hne]
  | b :: t, word, h, _ => by
    rw [wordsFrom]
    simp only [h.1]
    rw [wordsFrom_of_unbroken (b :: word) h.2 (by simp)]
    simp

theorem words_unbroken {t : Text} (h : Unbroken t) (hne : t ≠ []) : words t = [t] :=
  wordsFrom_of_unbroken [] h hne

theorem words_join : ∀ {ws : List Text}, (∀ w ∈ ws, w ≠ [] ∧ Unbroken w) → words (join [32] ws) = ws
  | [], _ => rfl
  | [w], h => by
    obtain ⟨hne, hw⟩ := h w (by simp)
    simpa [join] using words_unbroken hw hne
  | w :: w' :: ws, h => by
    rw [List.forall_mem_cons] at h
    rw [join_cons_cons, words_space, words_join h.2, words_unbroken h.1.2 h.1.1]
    rfl

/-! ## What a word is -/

/-- Whether no white space begins in a text when `t` stands behind it. -/
def UnbrokenBefore (t : Text) : Text → Prop
  | [] => True
  | b :: w => blankWidth (b :: w ++ t) = 0 ∧ UnbrokenBefore t w

theorem UnbrokenBefore.unbroken {t : Text} : ∀ {w : Text}, UnbrokenBefore t w → Unbroken w
  | [], _ => trivial
  | _ :: _, h => ⟨blankWidth_eq_zero_of_append h.1, unbroken h.2⟩

theorem UnbrokenBefore.snoc {b : UInt8} {t : Text} (hb : blankWidth (b :: t) = 0) :
    ∀ {w : Text}, UnbrokenBefore (b :: t) w → UnbrokenBefore t (w ++ [b])
  | [], _ => ⟨hb, trivial⟩
  | _ :: w, h => ⟨by simpa using h.1, snoc hb h.2⟩

/-- The scan has no word open inside a white space character, and no white space begins in the open word, as seen from
the text that is left. -/
theorem mem_wordsFrom {w : Text} : ∀ {t : Text} {skip : Nat} {word : Text}, (skip = 0 ∨ word = []) →
    UnbrokenBefore t word.reverse → w ∈ wordsFrom skip word [] t →
    w ≠ [] ∧ Unbroken w ∧ w <:+: word.reverse ++ t
  | [], _, word, _, hword, hw => by
    cases word with
    | nil => cases hw
    | cons b word =>
      rw [wordsFrom] at hw
      obtain rfl : w = (b :: word).reverse := by simpa using hw
      exact ⟨by simp, hword.unbroken, by simp⟩
  | b :: t, skip + 1, word, hskip, _, hw => by
    obtain rfl : word = [] := hskip.resolve_left (Nat.succ_ne_zero skip)
    rw [wordsFrom] at hw
    obtain ⟨hne, hunbroken, hpart⟩ := mem_wordsFrom (.inr rfl) trivial hw
    exact ⟨hne, hunbroken, hpart.trans (List.suffix_cons b t).isInfix⟩
  | b :: t, 0, word, _, hword, hw => by
    rw [wordsFrom] at hw
    cases hn : blankWidth (b :: t) with
    | zero =>
      rw [hn] at hw
      have hsnoc : UnbrokenBefore t (b :: word).reverse := by
        rw [List.reverse_cons]
        exact hword.snoc hn
      obtain ⟨hne, hunbroken, hpart⟩ := mem_wordsFrom (.inl rfl) hsnoc hw
      exact ⟨hne, hunbroken, by simpa using hpart⟩
    | succ n =>
      rw [hn] at hw
      dsimp only at hw
      rw [wordsFrom_done, List.mem_append] at hw
      obtain hw | hw := hw
      · cases word with
        | nil => cases hw
        | cons c word =>
          obtain rfl : w = (c :: word).reverse := by simpa using hw
          exact ⟨by simp, hword.unbroken, (List.prefix_append _ _).isInfix⟩
      · obtain ⟨hne, hunbroken, hpart⟩ := mem_wordsFrom (.inr rfl) trivial hw
        refine ⟨hne, hunbroken, hpart.trans ?_⟩
        exact ((List.suffix_cons b t).trans (List.suffix_append _ _)).isInfix

theorem mem_words {w t : Text} (h : w ∈ words t) : w ≠ [] ∧ Unbroken w ∧ w <:+: t := by
  have hopen : UnbrokenBefore t ([] : Text).reverse := trivial
  exact mem_wordsFrom (.inl rfl) hopen h

theorem length_wordsFrom : ∀ (t : Text) (skip : Nat) (word : Text),
    (wordsFrom skip word [] t).flatten.length + (wordsFrom skip word [] t).length ≤ word.length + t.length + 1
  | [], _, word => by cases word <;> simp [wordsFrom]
  | b :: t, skip + 1, word => by
    have ih := length_wordsFrom t skip word
    rw [wordsFrom, List.length_cons]
    omega
  | b :: t, 0, word => by
    rw [wordsFrom]
    cases blankWidth (b :: t) with
    | zero =>
      have ih := length_wordsFrom t 0 (b :: word)
      simp only [List.length_cons] at ih ⊢
      omega
    | succ n =>
      have ih := length_wordsFrom t n []
      dsimp only
      rw [wordsFrom_done, List.flatten_append, List.length_append, List.length_append, List.length_cons]
      rw [List.length_nil] at ih
      cases word with
      | nil =>
        simp only [List.isEmpty_nil, if_true, List.reverse_nil, List.flatten_nil, List.length_nil]
        omega
      | cons c word =>
        simp only [List.isEmpty_cons, Bool.false_eq_true, if_false, List.reverse_singleton, List.flatten_singleton,
          List.length_reverse, List.length_cons, List.length_nil]
        omega

theorem length_join : ∀ {ws : List Text}, ws ≠ [] → (join [32] ws).length + 1 = ws.flatten.length + ws.length
  | [w], _ => by simp [join]
  | w :: w' :: ws, _ => by
    have ih := length_join (List.cons_ne_nil w' ws)
    rw [join_cons_cons, List.flatten_cons, List.length_append, List.length_append, List.length_cons, List.length_cons]
    omega

theorem length_join_words {t : Text} (h : words t ≠ []) : (join [32] (words t)).length ≤ t.length := by
  have hwords := length_wordsFrom t 0 []
  have hjoin := length_join h
  unfold words at hjoin ⊢
  rw [List.length_nil] at hwords
  omega

theorem flatten_wordsFrom : ∀ (t : Text) (skip : Nat) (word : Text),
    (wordsFrom skip word [] t).flatten = word.reverse ++ (wordsFrom skip [] [] t).flatten
  | [], _, word => by cases word <;> simp [wordsFrom]
  | _ :: t, skip + 1, word => by
    rw [wordsFrom, wordsFrom]
    exact flatten_wordsFrom t skip word
  | b :: t, 0, word => by
    rw [wordsFrom, wordsFrom]
    cases blankWidth (b :: t) with
    | zero =>
      dsimp only
      rw [flatten_wordsFrom t 0 (b :: word), flatten_wordsFrom t 0 [b]]
      simp
    | succ n =>
      dsimp only
      rw [wordsFrom_done]
      cases word <;> simp

theorem compact_cons {b : UInt8} {t : Text} (h : blankWidth (b :: t) = 0) : compact (b :: t) = b :: compact t := by
  unfold compact words
  rw [wordsFrom, h, flatten_wordsFrom]
  rfl

theorem flatten_wordsFrom_append {c : UInt8} (hc : isContinuation c = false) (u : Text) : ∀ (t : Text) (skip : Nat),
    skip ≤ t.length →
    (wordsFrom skip [] [] (t ++ c :: u)).flatten = (wordsFrom skip [] [] t).flatten ++ compact (c :: u)
  | [], 0, _ => rfl
  | _ :: t, skip + 1, h => by
    rw [List.cons_append, wordsFrom, wordsFrom]
    exact flatten_wordsFrom_append hc u t skip (Nat.le_of_succ_le_succ h)
  | b :: t, 0, _ => by
    have hwidth := blankWidth_le (b :: t)
    rw [wordsFrom, List.cons_append, wordsFrom, ← List.cons_append, blankWidth_append hc]
    cases hn : blankWidth (b :: t) with
    | zero =>
      dsimp only
      rw [flatten_wordsFrom, flatten_wordsFrom t, flatten_wordsFrom_append hc u t 0 (Nat.zero_le _), List.append_assoc]
    | succ n =>
      rw [hn] at hwidth
      exact flatten_wordsFrom_append hc u t n (Nat.le_of_succ_le_succ hwidth)

theorem compact_append {c : UInt8} (hc : isContinuation c = false) (t u : Text) :
    compact (t ++ c :: u) = compact t ++ compact (c :: u) :=
  flatten_wordsFrom_append hc u t 0 (Nat.zero_le _)

/-- A text that does not begin with white space keeps its first byte when white space is taken out. -/
theorem head?_compact {t : Text} (h : blankWidth t = 0) : (compact t).head? = t.head? := by
  cases t with
  | nil => rfl
  | cons b t => rw [compact_cons h, List.head?_cons, List.head?_cons]

/-! ## White space at the ends -/

theorem trimStart_go_spec : ∀ (t : Text) (skip : Nat),
    trimStart.go skip t <:+ t ∧ blankWidth (trimStart.go skip t) = 0 ∧
      words (trimStart.go skip t) = wordsFrom skip [] [] t
  | [], _ => by simp [trimStart.go, blankWidth, words, wordsFrom]
  | b :: t, skip + 1 => by
    obtain ⟨hsuffix, hwidth, hwords⟩ := trimStart_go_spec t skip
    rw [trimStart.go, wordsFrom]
    exact ⟨hsuffix.trans (List.suffix_cons b t), hwidth, hwords⟩
  | b :: t, 0 => by
    rw [trimStart.go, wordsFrom]
    cases hn : blankWidth (b :: t) with
    | zero =>
      refine ⟨List.suffix_rfl, hn, ?_⟩
      simp only [words, wordsFrom, hn]
    | succ n =>
      obtain ⟨hsuffix, hwidth, hwords⟩ := trimStart_go_spec t n
      exact ⟨hsuffix.trans (List.suffix_cons b t), hwidth, hwords⟩

def Blank (t : Text) : Prop := BlankFirst t ∧ words t = []

theorem Blank.append {u v : Text} (hu : Blank u) (hv : Blank v) : Blank (u ++ v) :=
  ⟨hu.1.append hv.1, by rw [words_append u hv.1, hu.2, hv.2]; rfl⟩

theorem blank_take {t : Text} (h : blankWidth t ≠ 0) : Blank (t.take (blankWidth t)) := by
  have hwidth := blankWidth_take t
  have hne : blankWidth (t.take (blankWidth t)) ≠ 0 := by rwa [hwidth]
  refine ⟨.inr hne, ?_⟩
  rw [words_blank hne, hwidth, List.drop_take, Nat.sub_self, List.take_zero]
  rfl

/-- What is cut off at the end is the white space that is pending. It counts as white space together with the bytes that
still belong to its last character. -/
theorem trimEnd_go_spec : ∀ (t : Text) (skip : Nat) (kept pending : Text), skip ≤ t.length →
    Blank (pending.reverse ++ t.take skip) →
    ∃ v, kept.reverse ++ pending.reverse ++ t = trimEnd.go skip kept pending t ++ v ∧ Blank v
  | [], _, kept, pending, _, hblank => ⟨pending.reverse, by simp [trimEnd.go], by simpa using hblank⟩
  | b :: t, skip + 1, kept, pending, hskip, hblank => by
    have ih := trimEnd_go_spec t skip kept (b :: pending) (Nat.le_of_succ_le_succ hskip) (by simpa using hblank)
    rw [trimEnd.go]
    simpa using ih
  | b :: t, 0, kept, pending, _, hblank => by
    rw [trimEnd.go]
    have hle := blankWidth_le (b :: t)
    cases hn : blankWidth (b :: t) with
    | zero =>
      have ih := trimEnd_go_spec t 0 (b :: (pending ++ kept)) [] (Nat.zero_le _) ⟨.inl rfl, rfl⟩
      simpa using ih
    | succ n =>
      rw [hn] at hle
      have hchar : Blank ((b :: t).take (n + 1)) := hn ▸ blank_take (by simp [hn])
      have hblank' : Blank ((b :: pending).reverse ++ t.take n) := by
        have happend := hblank.append hchar
        simpa using happend
      have ih := trimEnd_go_spec t n kept (b :: pending) (Nat.le_of_succ_le_succ hle) hblank'
      simpa using ih

theorem trimEnd_spec (t : Text) : ∃ v, t = trimEnd t ++ v ∧ Blank v := by
  unfold trimEnd
  simpa using trimEnd_go_spec t 0 [] [] (Nat.zero_le _) ⟨.inl rfl, rfl⟩

theorem words_trim (t : Text) : words (trim t) = words t := by
  obtain ⟨v, hv, hblank⟩ := trimEnd_spec (trimStart t)
  have happend := words_append (trimEnd (trimStart t)) hblank.1
  rw [← hv, hblank.2, List.append_nil] at happend
  exact happend.symm.trans (trimStart_go_spec t 0).2.2

theorem compact_trim (t : Text) : compact (trim t) = compact t := congrArg List.flatten (words_trim t)

theorem trim_isInfix (t : Text) : trim t <:+: t := by
  obtain ⟨v, hv, -⟩ := trimEnd_spec (trimStart t)
  have hstart : trim t <+: trimStart t := ⟨v, hv.symm⟩
  exact hstart.isInfix.trans (trimStart_go_spec t 0).1.isInfix

theorem blankWidth_trim (t : Text) : blankWidth (trim t) = 0 := by
  obtain ⟨v, hv, -⟩ := trimEnd_spec (trimStart t)
  have hstart : blankWidth (trimStart t) = 0 := (trimStart_go_spec t 0).2.1
  rw [hv] at hstart
  exact blankWidth_eq_zero_of_append hstart

section
variable {b : UInt8} (hb : isAsciiBlank b = true)
include hb

theorem isContinuation_blank : isContinuation b = false := by
  have hne : blankWidth [b] ≠ 0 := by simp [blankWidth_ascii hb]
  exact isContinuation_of_blankWidth hne

theorem trimStart_go_append : ∀ {t : Text} {skip : Nat}, skip ≤ t.length → trimStart.go skip (t ++ [b]) =
    if trimStart.go skip t = [] then [] else trimStart.go skip t ++ [b]
  | [], 0, _ => by simp [trimStart.go, blankWidth_ascii hb]
  | c :: t, skip + 1, hskip => by
    rw [List.cons_append, trimStart.go, trimStart.go]
    exact trimStart_go_append (Nat.le_of_succ_le_succ hskip)
  | c :: t, 0, _ => by
    have hwidth := blankWidth_append (b := c) (isContinuation_blank hb) t []
    rw [List.cons_append] at hwidth ⊢
    rw [trimStart.go, trimStart.go, hwidth]
    cases hn : blankWidth (c :: t) with
    | zero => simp
    | succ n =>
      have hle := blankWidth_le (c :: t)
      rw [hn, List.length_cons] at hle
      exact trimStart_go_append (Nat.le_of_succ_le_succ hle)

theorem trimEnd_go_append : ∀ {t : Text} {skip : Nat} (kept pending : Text), skip ≤ t.length →
    trimEnd.go skip kept pending (t ++ [b]) = trimEnd.go skip kept pending t
  | [], 0, kept, pending, _ => by simp [trimEnd.go, blankWidth_ascii hb]
  | c :: t, skip + 1, kept, pending, hskip => by
    rw [List.cons_append, trimEnd.go, trimEnd.go]
    exact trimEnd_go_append kept _ (Nat.le_of_succ_le_succ hskip)
  | c :: t, 0, kept, pending, _ => by
    have hwidth := blankWidth_append (b := c) (isContinuation_blank hb) t []
    rw [List.cons_append] at hwidth ⊢
    rw [trimEnd.go, trimEnd.go, hwidth]
    cases hn : blankWidth (c :: t) with
    | zero => exact trimEnd_go_append _ _ (Nat.zero_le _)
    | succ n =>
      have hle := blankWidth_le (c :: t)
      rw [hn, List.length_cons] at hle
      exact trimEnd_go_append kept _ (Nat.le_of_succ_le_succ hle)

theorem trim_append (t : Text) : trim (t ++ [b]) = trim t := by
  unfold trim trimStart
  rw [trimStart_go_append hb (Nat.zero_le _)]
  by_cases hnil : trimStart.go 0 t = []
  · rw [if_pos hnil, hnil]
  · rw [if_neg hnil]
    exact trimEnd_go_append hb [] [] (Nat.zero_le _)

end

/-! ## Remarks -/

theorem stripRemark_go_kept (t : Text) : ∀ kept : Text, stripRemark.go kept t = kept.reverse ++ stripRemark t := by
  induction t with
  | nil => simp [stripRemark, stripRemark.go]
  | cons b t ih =>
    intro kept
    unfold stripRemark
    by_cases hremark : b = 47 ∧ ∃ rest, t = 47 :: rest
    · obtain ⟨rfl, rest, rfl⟩ := hremark
      simp [stripRemark.go]
    · have hgo : ∀ kept : Text, stripRemark.go kept (b :: t) = stripRemark.go (b :: kept) t := by
        intro kept
        rw [stripRemark.go]
        rintro rest rfl rfl
        exact hremark ⟨rfl, rest, rfl⟩
      rw [hgo, hgo, ih, ih]
      simp

theorem stripRemark_cons {b : UInt8} {t : Text} (h : ¬ (b = 47 ∧ ∃ rest, t = 47 :: rest)) :
    stripRemark (b :: t) = b :: stripRemark t := by
  unfold stripRemark
  rw [stripRemark.go, stripRemark_go_kept]
  · rfl
  · rintro rest rfl rfl
    exact h ⟨rfl, rest, rfl⟩

theorem stripRemark_append {b : UInt8} (hb : b ≠ 47) : ∀ t : Text,
    stripRemark (t ++ [b]) = stripRemark t ∨ stripRemark (t ++ [b]) = stripRemark t ++ [b]
  | [] => .inr (stripRemark_cons (by simp))
  | c :: t => by
    by_cases hremark : c = 47 ∧ ∃ rest, t = 47 :: rest
    · obtain ⟨rfl, rest, rfl⟩ := hremark
      exact .inl rfl
    · have hremark' : ¬ (c = 47 ∧ ∃ rest, t ++ [b] = 47 :: rest) := by
        rintro ⟨rfl, rest, hrest⟩
        cases t with
        | nil => exact hb (List.cons.inj hrest).1
        | cons d t => exact hremark ⟨rfl, t, by rw [(List.cons.inj hrest).1]⟩
      rw [List.cons_append, stripRemark_cons hremark, stripRemark_cons hremark']
      obtain ih | ih := stripRemark_append hb t
      · exact .inl (by rw [ih])
      · exact .inr (by rw [ih]; rfl)

theorem stripRemark_drop (t : Text) : stripRemark (t.drop (stripRemark t).length) = [] := by
  induction t with
  | nil => rfl
  | cons b t ih =>
    by_cases hremark : b = 47 ∧ ∃ rest, t = 47 :: rest
    · obtain ⟨rfl, rest, rfl⟩ := hremark
      rfl
    · rw [stripRemark_cons hremark, List.length_cons, List.drop_succ_cons, ih]

theorem stripRemark_append_remark {r : Text} (hr : stripRemark r = []) : ∀ {t : Text}, 47 ∉ t → stripRemark (t ++ r) = t
  | [], _ => hr
  | b :: t, h => by
    rw [List.mem_cons, not_or] at h
    rw [List.cons_append, stripRemark_cons fun hb => h.1 hb.1.symm, stripRemark_append_remark hr h.2]

theorem stripRemark_isPrefix (t : Text) : stripRemark t <+: t := by
  induction t with
  | nil => exact List.prefix_rfl
  | cons b t ih =>
    by_cases hremark : b = 47 ∧ ∃ rest, t = 47 :: rest
    · obtain ⟨rfl, rest, rfl⟩ := hremark
      exact List.nil_prefix
    · rw [stripRemark_cons hremark]
      exact (List.prefix_cons_inj b).mpr ih

theorem not_infix_stripRemark (t : Text) : ¬ [47, 47] <:+: stripRemark t := by
  induction t with
  | nil => simp [stripRemark, stripRemark.go]
  | cons b t ih =>
    by_cases hremark : b = 47 ∧ ∃ rest, t = 47 :: rest
    · obtain ⟨rfl, rest, rfl⟩ := hremark
      simp [stripRemark, stripRemark.go]
    · rw [stripRemark_cons hremark, List.infix_cons_iff]
      rintro (hstart | hpart)
      · rw [List.cons_prefix_cons] at hstart
        obtain ⟨rest, hrest⟩ := hstart.2.trans (stripRemark_isPrefix t)
        exact hremark ⟨hstart.1.symm, rest, hrest.symm⟩
      · exact ih hpart

theorem stripRemark_of_not_infix {t : Text} (h : ¬ [47, 47] <:+: t) : stripRemark t = t := by
  induction t with
  | nil => rfl
  | cons b t ih =>
    rw [List.infix_cons_iff, not_or] at h
    rw [stripRemark_cons, ih h.2]
    rintro ⟨rfl, rest, rfl⟩
    exact h.1 ⟨rest, rfl⟩

theorem slashes_of_space {v : Text} (hv : ¬ [47, 47] <:+: v) :
    ∀ {u : Text}, ¬ [47, 47] <:+: u → ¬ [47, 47] <:+: u ++ 32 :: v
  | [], _ => by
    rw [List.nil_append, List.infix_cons_iff]
    rintro (h | h)
    · exact absurd (List.cons_prefix_cons.mp h).1 (by decide)
    · exact hv h
  | b :: u, hu => by
    rw [List.infix_cons_iff, not_or] at hu
    rw [List.cons_append, List.infix_cons_iff]
    rintro (h | h)
    · rw [List.cons_prefix_cons] at h
      cases u with
      | nil => exact absurd (List.cons_prefix_cons.mp h.2).1 (by decide)
      | cons c u =>
        obtain ⟨rfl, hc⟩ := h
        obtain ⟨rfl, -⟩ := List.cons_prefix_cons.mp hc
        exact hu.1 ⟨u, rfl⟩
    · exact slashes_of_space hv hu.2 h

theorem not_infix_of_count {t : Text} (h : t.count 47 ≤ 1) : ¬ [47, 47] <:+: t := by
  intro hinfix
  have hle := hinfix.sublist.count_le 47
  rw [show ([47, 47] : Text).count 47 = 2 from rfl] at hle
  omega

theorem not_infix_join : ∀ {ws : List Text}, (∀ w ∈ ws, ¬ [47, 47] <:+: w) → ¬ [47, 47] <:+: join [32] ws
  | [], _ => by simp [join]
  | [w], h => by simpa [join] using h w
  | w :: w' :: ws, h => by
    rw [List.forall_mem_cons] at h
    rw [join_cons_cons]
    exact slashes_of_space (not_infix_join h.2) h.1

end HackStack.Text
