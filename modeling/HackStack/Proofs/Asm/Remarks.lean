import HackStack.Proofs.Asm.Passes

/-!
# Remarks in the assembler

The assembler looks at a line only for its content, and at its number only for messages and the line table. So texts
with the same contents, empty ones apart, have the same words and symbols or are both rejected, and lines that hold
nothing but a remark can be taken out.
-/

namespace HackStack.Asm

def isRemark (line : Text) : Bool := Text.startsWith (ascii "//") line

def withoutRemarks (source : Text) : Text :=
  Text.join [Text.lineFeed] ((Text.lines source).filter fun line => !isRemark line)

theorem content_of_isRemark {line : Text} (h : isRemark line = true) : content line = [] := by
  obtain ⟨rest, rfl⟩ := List.isPrefixOf_iff_prefix.mp h
  rfl

/-! ## Passes over the same texts -/

def kept (lines : List Text) : List Text := lines.filter fun text => !text.isEmpty

theorem texts_entriesFrom : ∀ (lines : List Text) (n : Nat), (entriesFrom n lines).map Entry.text = kept lines
  | [], _ => rfl
  | text :: lines, n => by
    have ih := texts_entriesFrom lines (n + 1)
    unfold kept at ih ⊢
    rw [entriesFrom]
    by_cases h : text.isEmpty = true
    · rw [if_pos h, ih, List.filter_cons_of_neg (by simp [h])]
    · rw [if_neg h, List.map_cons, ih, List.filter_cons_of_pos (by simp [h])]

theorem bindLabels_texts : ∀ {es es' : List Entry} (table : SymbolTable) (address : Nat),
    es.map Entry.text = es'.map Entry.text →
    (bindLabels table address es).toOption = (bindLabels table address es').toOption
  | [], [], _, _, _ => rfl
  | e :: es, e' :: es', table, address, h => by
    obtain ⟨htext, hrest⟩ := List.cons.inj h
    rw [bindLabels, bindLabels, htext]
    by_cases hlabel : isLabel e'.text = true
    · rw [if_pos hlabel, if_pos hlabel]
      cases bindLabel table address e'.text with
      | ok bound => exact bindLabels_texts bound address hrest
      | error p => rfl
    · rw [if_neg hlabel, if_neg hlabel]
      exact bindLabels_texts table (address + 1) hrest

def Encoding.code (e : Encoding) : Array UInt16 × SymbolTable := (e.words, e.table)

theorem encode_numbers (e : Encoding) (numbers : Array Nat) (i : Instruction) :
    { e with lines := numbers }.encode i = ((e.encode i).1, { (e.encode i).2 with lines := numbers }) := by
  match i with
  | .load (.constant n) => rfl
  | .compute dest comp jump => rfl
  | .load (.symbol name) =>
    simp only [Encoding.encode, Encoding.resolve]
    cases e.table[name]? <;> rfl

theorem run_texts : ∀ {es es' : List Entry} (e : Encoding) (numbers : Array Nat),
    es.map Entry.text = es'.map Entry.text →
    (e.run es).toOption.map Encoding.code = (({ e with lines := numbers }).run es').toOption.map Encoding.code
  | [], [], _, _, _ => rfl
  | x :: es, x' :: es', e, numbers, h => by
    obtain ⟨htext, hrest⟩ := List.cons.inj h
    rw [Encoding.run, Encoding.run, htext]
    cases Instruction.ofText x'.text with
    | error p => rfl
    | ok i =>
      simp only [encode_numbers]
      exact run_texts ((e.encode i).2.push (e.encode i).1 x.line) (numbers.push x'.line) hrest

theorem map_filter_texts (es : List Entry) : (es.filter fun e => !isLabel e.text).map Entry.text =
    (es.map Entry.text).filter fun text => !isLabel text := by
  rw [List.filter_map]
  rfl

section
variable {lines lines' : List Text} (h : kept lines = kept lines')
include h

theorem firstPass_kept : (firstPass lines).toOption = (firstPass lines').toOption := by
  apply bindLabels_texts
  rw [texts_entriesFrom, texts_entriesFrom, h]

theorem secondPass_kept (bound : SymbolTable) :
    (secondPass bound lines).toOption.map Encoding.code = (secondPass bound lines').toOption.map Encoding.code := by
  apply run_texts (emptyCode bound) #[]
  rw [map_filter_texts, map_filter_texts, texts_entriesFrom, texts_entriesFrom, h]

end

/-! ## Whole texts -/

def image? (source : Text) : Option (Array UInt16 × SymbolTable) :=
  (assemble source).toOption.map fun p => (p.words, p.symbols)

theorem image?_eq (source : Text) : image? source = (firstPass (contents source)).toOption.bind fun bound =>
    (secondPass bound (contents source)).toOption.map Encoding.code := by
  unfold image?
  rw [assemble_eq]
  cases firstPass (contents source) with
  | error e => rfl
  | ok bound =>
    simp only [Except.bind, Except.toOption, Option.bind_some]
    cases secondPass bound (contents source) <;> rfl

theorem image?_congr {source source' : Text} (h : kept (contents source) = kept (contents source')) :
    image? source = image? source' := by
  rw [image?_eq, image?_eq, firstPass_kept h]
  congr 1
  funext bound
  exact secondPass_kept h bound

theorem kept_filter_remarks : ∀ lines : List Text,
    kept ((lines.filter fun line => !isRemark line).map content) = kept (lines.map content)
  | [] => rfl
  | line :: lines => by
    have ih := kept_filter_remarks lines
    unfold kept at ih ⊢
    by_cases h : isRemark line = true
    · rw [List.filter_cons_of_neg (by simp [h]), ih, List.map_cons, content_of_isRemark h]
      rfl
    · rw [List.filter_cons_of_pos (by simp [h]), List.map_cons, List.map_cons, List.filter_cons, List.filter_cons, ih]

theorem image?_withoutRemarks (source : Text) : image? (withoutRemarks source) = image? source := by
  apply image?_congr
  unfold withoutRemarks
  by_cases hnil : (Text.lines source).filter (fun line => !isRemark line) = []
  · -- Nothing is left: the empty text has one line, which is empty.
    have hkept := kept_filter_remarks (Text.lines source)
    rw [hnil] at hkept ⊢
    exact hkept
  · have hfeed : ∀ line ∈ (Text.lines source).filter fun line => !isRemark line, Text.lineFeed ∉ line := by
      intro line hline
      exact Text.mark_not_mem_splitAt (List.mem_filter.mp hline).1
    rw [contents, Text.lines_join hnil hfeed, kept_filter_remarks]
    rfl

end HackStack.Asm
