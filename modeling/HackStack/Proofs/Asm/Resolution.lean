import HackStack.Proofs.Asm.Written
import Mathlib.Order.Basic

/-!
# The two passes of the assembler

The first pass binds a label to the number of instructions before it and never rebinds a symbol; the second one
only adds to the table. So every word is the one that its instruction has under the final table, and a list of
written lines is found in the program as it stands: `Placed` says where.
-/

namespace HackStack.Asm

/-! ## Tables that grow -/

def SymbolTable.address (table : SymbolTable) (name : Text) : UInt16 := table[name]?.getD 0

def SymbolTable.Extends (table table' : SymbolTable) : Prop :=
  ∀ (name : Text) (address : UInt16), table[name]? = some address → table'[name]? = some address

theorem SymbolTable.Extends.refl (table : SymbolTable) : table.Extends table := fun _ _ h => h

theorem SymbolTable.Extends.trans {t₁ t₂ t₃ : SymbolTable} (h : t₁.Extends t₂) (h' : t₂.Extends t₃) :
    t₁.Extends t₃ := fun name address hn => h' name address (h name address hn)

theorem getElem?_insert (table : SymbolTable) (name other : Text) (address : UInt16) :
    (table.insert name address)[other]? = if name = other then some address else table[other]? := by
  rw [Std.TreeMap.getElem?_insert]
  simp

theorem SymbolTable.extends_insert {table : SymbolTable} {name : Text} (h : table[name]? = none) (address : UInt16) :
    table.Extends (table.insert name address) := by
  intro other v hv
  rw [getElem?_insert]
  by_cases e : name = other
  · subst e; rw [h] at hv; cases hv
  · rw [if_neg e, hv]

theorem getElem?_foldl_insert {name : Text} : ∀ {es : List (Text × UInt16)} {table : SymbolTable},
    name ∉ es.map Prod.fst → table[name]? = none →
    (es.foldl (fun table e => table.insert e.1 e.2) table)[name]? = none
  | [], _, _, h => h
  | e :: es, table, hname, h => by
    rw [List.map_cons, List.mem_cons, not_or] at hname
    have hinsert : (table.insert e.1 e.2)[name]? = none := by rw [getElem?_insert, if_neg (Ne.symm hname.1), h]
    exact @getElem?_foldl_insert name es (table.insert e.1 e.2) hname.2 hinsert

theorem initialTable_of_mem : ∀ entry ∈ predefined, initialTable[entry.1]? = some entry.2 := by decide

/-! ## First pass -/

def instructionCount (entries : List Entry) : Nat := (entries.filter fun e => !isLabel e.text).length

theorem bindLabel_ok {table table' : SymbolTable} {address : Nat} {text : Text}
    (h : bindLabel table address text = .ok table') :
    ∃ name, labelName text = .ok name ∧ table[name]? = none ∧ address ≤ maxConstant ∧
      table' = table.insert name address.toUInt16 := by
  unfold bindLabel at h
  cases hn : labelName text with
  | error p => rw [hn] at h; cases h
  | ok name =>
    rw [hn] at h
    simp only [bind, Except.bind, pure, Except.pure] at h
    split at h
    · cases h
    · rename_i hc
      split at h
      · cases h
      · rename_i ha
        simp only [Except.ok.injEq] at h
        refine ⟨name, rfl, ?_, by omega, h.symm⟩
        rw [Std.TreeMap.contains_eq_isSome_getElem?] at hc
        simpa using hc

theorem bindLabels_extends : ∀ {entries : List Entry} {table table' : SymbolTable} {address : Nat},
    bindLabels table address entries = .ok table' → table.Extends table'
  | [], table, table', address, h => by
    simp only [bindLabels, Except.ok.injEq] at h
    subst h; exact .refl table
  | e :: rest, table, table', address, h => by
    rw [bindLabels] at h
    split at h
    · cases hb : bindLabel table address e.text with
      | error p => rw [hb] at h; cases h
      | ok t =>
        rw [hb] at h
        obtain ⟨name, -, hnone, -, rfl⟩ := bindLabel_ok hb
        exact (SymbolTable.extends_insert hnone _).trans (bindLabels_extends h)
    · exact bindLabels_extends h

theorem bindLabels_append (ys : List Entry) : ∀ (xs : List Entry) (table : SymbolTable) (address : Nat),
    bindLabels table address (xs ++ ys) =
      (bindLabels table address xs).bind fun bound => bindLabels bound (address + instructionCount xs) ys
  | [], table, address => rfl
  | e :: xs, table, address => by
    rw [List.cons_append, bindLabels, bindLabels]
    by_cases hl : isLabel e.text = true
    · have hcount : instructionCount (e :: xs) = instructionCount xs := by simp [instructionCount, hl]
      rw [if_pos hl, if_pos hl, hcount]
      cases bindLabel table address e.text with
      | error p => rfl
      | ok bound => exact bindLabels_append ys xs bound address
    · have hcount : address + instructionCount (e :: xs) = address + 1 + instructionCount xs := by
        simp [instructionCount, hl]
        omega
      rw [if_neg hl, if_neg hl, hcount, bindLabels_append]

theorem bindLabels_label {pre post : List Entry} {e : Entry} {table table' : SymbolTable} {address : Nat}
    (h : bindLabels table address (pre ++ e :: post) = .ok table') (hl : isLabel e.text = true) :
    ∃ name, labelName e.text = .ok name ∧ address + instructionCount pre ≤ maxConstant ∧
      table'[name]? = some (address + instructionCount pre).toUInt16 := by
  rw [bindLabels_append] at h
  cases hpre : bindLabels table address pre with
  | error p => rw [hpre] at h; cases h
  | ok before =>
    rw [hpre] at h
    simp only [Except.bind, bindLabels, hl, if_true] at h
    cases hb : bindLabel before (address + instructionCount pre) e.text with
    | error p => rw [hb] at h; cases h
    | ok bound =>
      rw [hb] at h
      obtain ⟨name, hname, -, ha, rfl⟩ := bindLabel_ok hb
      refine ⟨name, hname, ha, bindLabels_extends h name _ ?_⟩
      rw [getElem?_insert, if_pos rfl]

/-! ## Second pass -/

def wordUnder (σ : Text → UInt16) : Instruction → UInt16
  | .load (.constant n) => n.toUInt16
  | .load (.symbol name) => σ name
  | .compute dest comp jump => computeWord dest comp jump

theorem encode_spec (e : Encoding) (i : Instruction) :
    e.table.Extends (e.encode i).2.table ∧ (e.encode i).2.words = e.words ∧
      ∀ table, (e.encode i).2.table.Extends table → (e.encode i).1 = wordUnder table.address i := by
  match i with
  | .load (.constant n) => exact ⟨.refl _, rfl, fun _ _ => rfl⟩
  | .compute dest comp jump => exact ⟨.refl _, rfl, fun _ _ => rfl⟩
  | .load (.symbol name) =>
    simp only [Encoding.encode, Encoding.resolve, wordUnder, SymbolTable.address]
    cases hn : e.table[name]? with
    | some address =>
      refine ⟨.refl _, rfl, fun table h => ?_⟩
      rw [h name address hn]; rfl
    | none =>
      refine ⟨SymbolTable.extends_insert hn _, rfl, fun table h => ?_⟩
      have : table[name]? = some e.next := by
        apply h
        simp
      rw [this]; rfl

theorem encode_lines (e : Encoding) (i : Instruction) : (e.encode i).2.lines = e.lines := by
  match i with
  | .load (.constant n) => rfl
  | .compute dest comp jump => rfl
  | .load (.symbol name) =>
    simp only [Encoding.encode, Encoding.resolve]
    cases e.table[name]? <;> rfl

theorem Encoding.run_append (ys : List Entry) : ∀ (xs : List Entry) (e : Encoding),
    e.run (xs ++ ys) = (e.run xs).bind fun e' => e'.run ys
  | [], _ => rfl
  | entry :: xs, e => by
    rw [List.cons_append, Encoding.run, Encoding.run]
    cases Instruction.ofText entry.text with
    | error p => rfl
    | ok i => exact Encoding.run_append ys xs _

/-- The second pass reads every entry as an instruction and writes the word it has under the final table. -/
theorem run_words : ∀ {entries : List Entry} {e e' : Encoding}, e.run entries = .ok e' →
    e.table.Extends e'.table ∧ ∃ is : List Instruction,
      entries.map (fun x => Instruction.ofText x.text) = is.map Except.ok ∧
        e'.words.toList = e.words.toList ++ is.map (wordUnder e'.table.address)
  | [], e, e', h => by
    simp only [Encoding.run, Except.ok.injEq] at h
    subst h
    exact ⟨.refl _, [], rfl, by simp⟩
  | entry :: rest, e, e', h => by
    rw [Encoding.run] at h
    cases hi : Instruction.ofText entry.text with
    | error p => rw [hi] at h; cases h
    | ok i =>
      rw [hi] at h
      have h : ((e.encode i).2.push (e.encode i).1 entry.line).run rest = .ok e' := h
      obtain ⟨hext, hwords, hword⟩ := encode_spec e i
      obtain ⟨hrest, is, hread, hw⟩ := run_words h
      refine ⟨hext.trans hrest, i :: is, ?_, ?_⟩
      · rw [List.map_cons, hi, hread, List.map_cons]
      · have hp : ((e.encode i).2.push (e.encode i).1 entry.line).words = e.words.push (e.encode i).1 := by
          rw [← hwords]; rfl
        rw [hw, hp, hword e'.table hrest]
        simp

theorem assemble_ok {source : Text} {p : Program} (h : assemble source = .ok p) :
    ∃ bound code, bindLabels initialTable 0 (Listing.numbered content source) = .ok bound ∧
      Encoding.run ⟨bound, firstVariable, #[], #[]⟩
        ((Listing.numbered content source).filter fun e => !isLabel e.text) = .ok code ∧
      p = ⟨code.words, code.lines, code.table⟩ := by
  unfold assemble at h
  simp only [bind, Except.bind, pure, Except.pure] at h
  cases hb : bindLabels initialTable 0 (Listing.numbered content source) with
  | error e => rw [hb] at h; cases h
  | ok bound =>
    rw [hb] at h
    simp only at h
    cases hr : Encoding.run ⟨bound, firstVariable, #[], #[]⟩
        ((Listing.numbered content source).filter fun e => !isLabel e.text) with
    | error e => rw [hr] at h; cases h
    | ok code =>
      rw [hr] at h
      cases h
      exact ⟨bound, code, rfl, hr, rfl⟩

theorem ok_of_any {ε α : Type} {f : α → Prop} [DecidablePred f] {result : Except ε α}
    (h : result.toOption.any (fun a => decide (f a)) = true) : ∃ a, result = .ok a ∧ f a := by
  cases result with
  | error e => cases h
  | ok a => exact ⟨a, rfl, of_decide_eq_true h⟩

/-! ## Written lines in a program -/

theorem toNat_toUInt16 {n : Nat} (h : n < 65536) : n.toUInt16.toNat = n := Nat.mod_eq_of_lt h

def instructions : List Line → List Instruction
  | [] => []
  | .instruction i :: ls => i :: instructions ls
  | _ :: ls => instructions ls

theorem instructions_append (xs ys : List Line) : instructions (xs ++ ys) = instructions xs ++ instructions ys := by
  induction xs with
  | nil => rfl
  | cons l xs ih => cases l <;> simp [instructions, ih]

theorem mem_instructions {i : Instruction} : ∀ {ls : List Line}, i ∈ instructions ls → .instruction i ∈ ls
  | .remark _ :: _, h => List.mem_cons_of_mem _ (mem_instructions h)
  | .label _ :: _, h => List.mem_cons_of_mem _ (mem_instructions h)
  | .instruction _ :: _, h => by
    rw [instructions] at h
    obtain rfl | h := List.mem_cons.mp h
    · exact List.mem_cons_self
    · exact List.mem_cons_of_mem _ (mem_instructions h)

/-- Lines that stand in a program from an address on: their instructions follow each other there, and their
labels have the addresses that they stand at, which are small enough to be loaded. -/
def Placed (rom : Array UInt16) (σ : Text → UInt16) (pc : Nat) : List Line → Prop
  | [] => True
  | .remark _ :: ls => Placed rom σ pc ls
  | .label name :: ls => ((σ name).toNat = pc ∧ pc ≤ maxConstant) ∧ Placed rom σ pc ls
  | .instruction i :: ls => rom[pc]? = some (wordUnder σ i) ∧ Placed rom σ (pc + 1) ls

theorem placed_append {rom : Array UInt16} {σ : Text → UInt16} : ∀ {xs ys : List Line} {pc : Nat},
    Placed rom σ pc (xs ++ ys) ↔ Placed rom σ pc xs ∧ Placed rom σ (pc + (instructions xs).length) ys
  | [], ys, pc => by simp [Placed, instructions]
  | .remark _ :: xs, ys, pc => by
    rw [List.cons_append, Placed, Placed, instructions, placed_append]
    simp
  | .label _ :: xs, ys, pc => by
    rw [List.cons_append, Placed, Placed, placed_append, ← and_assoc, instructions]
    simp
  | .instruction _ :: xs, ys, pc => by
    rw [List.cons_append, Placed, Placed, instructions, placed_append, and_assoc, List.length_cons,
      Nat.add_assoc pc 1, Nat.add_comm 1]

theorem placed_of {rom : Array UInt16} {σ : Text → UInt16} : ∀ {ls : List Line} {pc : Nat},
    (∀ pre name post, ls = pre ++ .label name :: post →
      (σ name).toNat = pc + (instructions pre).length ∧ pc + (instructions pre).length ≤ maxConstant) →
    (∀ k i, (instructions ls)[k]? = some i → rom[pc + k]? = some (wordUnder σ i)) → Placed rom σ pc ls
  | [], _, _, _ => trivial
  | .remark text :: ls, pc, hlabel, hword => by
    have hp : Placed rom σ pc ls := by
      refine placed_of (fun pre name post h => ?_) hword
      exact hlabel (.remark text :: pre) name post (by rw [h]; rfl)
    exact hp
  | .label name :: ls, pc, hlabel, hword => by
    refine ⟨hlabel [] name ls rfl, placed_of (fun pre name' post h => ?_) hword⟩
    exact hlabel (.label name :: pre) name' post (by rw [h]; rfl)
  | .instruction i :: ls, pc, hlabel, hword => by
    refine ⟨hword 0 i rfl, placed_of (fun pre name post h => ?_) fun k i' hk => ?_⟩
    · have := hlabel (.instruction i :: pre) name post (by rw [h]; rfl)
      rw [instructions, List.length_cons] at this
      omega
    · rw [Nat.add_assoc, Nat.add_comm 1]
      exact hword (k + 1) i' hk

theorem texts_numberedFrom (content : Text → Text) : ∀ (lines : List Text) (first : Nat) (done : List Entry),
    (Listing.numberedFrom content first done lines).map Entry.text =
      done.reverse.map Entry.text ++ (lines.map content).filter fun c => !c.isEmpty
  | [], first, done => by simp [Listing.numberedFrom]
  | line :: rest, first, done => by
    rw [Listing.numberedFrom, texts_numberedFrom]
    by_cases h : (content line).isEmpty = true
    · simp [h]
    · simp [h]

def codeTexts : List Line → List Text
  | [] => []
  | .remark _ :: ls => codeTexts ls
  | l :: ls => l.toText :: codeTexts ls

theorem codeTexts_append (xs ys : List Line) : codeTexts (xs ++ ys) = codeTexts xs ++ codeTexts ys := by
  induction xs with
  | nil => rfl
  | cons l xs ih => cases l <;> simp [codeTexts, ih]

theorem filter_content : ∀ {ls : List Line}, (∀ l ∈ ls, l.Legal) →
    ((ls.map Line.toText).map content).filter (fun c => !c.isEmpty) = codeTexts ls
  | [], _ => rfl
  | l :: ls, h => by
    have ih := filter_content fun x hx => h x (List.mem_cons_of_mem _ hx)
    have hl := h l List.mem_cons_self
    cases l with
    | remark text => simpa [codeTexts, content_remark] using ih
    | label name =>
      rw [List.map_cons, List.map_cons, content_line hl (by simp)]
      simp [codeTexts, ← ih, Line.toText]
    | instruction i =>
      rw [List.map_cons, List.map_cons, content_line hl (by simp)]
      simp [codeTexts, ← ih, Line.toText, instructionText_ne_nil]

theorem texts_render {ls : List Line} (h : ∀ l ∈ ls, l.Legal) :
    (Listing.numbered content (render ls)).map Entry.text = codeTexts ls := by
  unfold Listing.numbered
  rw [texts_numberedFrom, lines_render h, List.map_append, List.filter_append, filter_content h]
  have : content [] = [] := content_graphic rfl
  simp [this]

theorem map_ofText_code : ∀ {ls : List Line} {es : List Entry}, (∀ l ∈ ls, l.Legal) →
    es.map Entry.text = codeTexts ls →
    (es.filter fun e => !isLabel e.text).map (fun e => Instruction.ofText e.text) =
      (instructions ls).map Except.ok
  | [], es, _, h => by
    rw [codeTexts, List.map_eq_nil_iff] at h
    subst h; rfl
  | .remark _ :: ls, es, hl, h => by
    have ih := @map_ofText_code ls es (fun x hx => hl x (List.mem_cons_of_mem _ hx)) h
    exact ih
  | .label name :: ls, es, hl, h => by
    obtain ⟨e, es, rfl, he, hes⟩ := List.map_eq_cons_iff.mp h
    have hlabel : isLabel e.text = true := by rw [he]; rfl
    have ih := map_ofText_code (fun x hx => hl x (List.mem_cons_of_mem _ hx)) hes
    rw [List.filter_cons, hlabel]
    exact ih
  | .instruction i :: ls, es, hl, h => by
    obtain ⟨e, es, rfl, he, hes⟩ := List.map_eq_cons_iff.mp h
    have he : e.text = i.toText := he
    have hi : Instruction.ofText e.text = .ok i := by
      rw [he]; exact ofText_toText (hl (.instruction i) List.mem_cons_self)
    have ih := map_ofText_code (fun x hx => hl x (List.mem_cons_of_mem _ hx)) hes
    rw [List.filter_cons, he, isLabel_instruction]
    simp only [Bool.not_false, if_true, List.map_cons, instructions]
    rw [hi, ih]

theorem instructionCount_code {ls : List Line} {es : List Entry} (hl : ∀ l ∈ ls, l.Legal)
    (h : es.map Entry.text = codeTexts ls) : instructionCount es = (instructions ls).length := by
  have := congrArg List.length (map_ofText_code hl h)
  simpa [instructionCount] using this

/-- Assembling written lines places them at the start of the program, keeps the predefined symbols and writes
nothing else. -/
theorem assemble_render {ls : List Line} {p : Program} (hl : ∀ l ∈ ls, l.Legal)
    (h : assemble (render ls) = .ok p) :
    Placed p.words p.symbols.address 0 ls ∧ p.words.size = (instructions ls).length ∧
      initialTable.Extends p.symbols := by
  have htexts := texts_render hl
  obtain ⟨table, code, hb, hr, rfl⟩ := assemble_ok h
  generalize Listing.numbered content (render ls) = es at hb hr htexts
  obtain ⟨hext, is, hread, hwords⟩ := run_words hr
  rw [map_ofText_code hl htexts] at hread
  have his : instructions ls = is := (List.map_inj_right fun _ _ => Except.ok.inj).mp hread
  subst his
  simp only [List.nil_append] at hwords
  refine ⟨placed_of ?_ ?_, ?_, (bindLabels_extends hb).trans hext⟩
  · rintro pre name post rfl
    rw [codeTexts_append] at htexts
    obtain ⟨es₁, es₂, rfl, h₁, h₂⟩ := List.map_eq_append_iff.mp htexts
    obtain ⟨e, es₂, rfl, he, -⟩ := List.map_eq_cons_iff.mp h₂
    have hlegal : isSymbol name = true := hl (.label name) (by simp)
    obtain ⟨name', hname, hle, hbound⟩ := bindLabels_label hb (by rw [he]; rfl)
    rw [he, labelName_label hlegal, Except.ok.injEq] at hname
    subst hname
    rw [instructionCount_code (fun l h => hl l (by simp [h])) h₁] at hle hbound
    unfold SymbolTable.address
    rw [hext name _ hbound]
    rw [Nat.zero_add] at hle ⊢
    exact ⟨toNat_toUInt16 (Nat.lt_of_le_of_lt hle (by decide)), hle⟩
  · intro k i hk
    rw [Nat.zero_add, ← Array.getElem?_toList, hwords, List.getElem?_map, hk]
    rfl
  · rw [← Array.length_toList, hwords, List.length_map]

end HackStack.Asm
