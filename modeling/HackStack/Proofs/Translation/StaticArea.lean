import HackStack.Proofs.Command.Written
import HackStack.Proofs.Translation.Annotations
import HackStack.Proofs.Translation.Modes
import HackStack.Proofs.Translation.Outputs

/-!
# The area of static symbols

A translator that names static cells by symbols checks the index of an entry in its file, and the assembler gives the
symbols of all files consecutive addresses. So the addresses stay in the area of static cells exactly if there are not
more symbols than cells. A single file cannot have more, but two files can, and then a static cell is a cell of the
stack. White space in a name is lost in its symbols; a line feed would break their lines, so the names hold none.
-/

namespace HackStack

open Asm Template

/-! ## Lines with any name -/

/-- The assembler sees the symbol of a static cell without the white space in the name of the file. -/
theorem content_static {name : Text} (h : name.count 47 ≤ 1) (index : Nat) :
    content (load (.symbol (staticSymbol name index))).toText = 64 :: staticSymbol (Text.compact name) index := by
  have htext : (load (.symbol (staticSymbol name index))).toText = 64 :: (name ++ 46 :: Text.decimal index) := rfl
  have hdecimal : (Text.decimal index).count 47 = 0 := List.count_eq_zero.mpr (Text.not_mem_decimal rfl index)
  have hgraphic : (46 :: Text.decimal index).all Text.isGraphic = true := by
    rw [List.all_cons, all_isGraphic_decimal]
    rfl
  have hremark : Text.stripRemark (64 :: (name ++ 46 :: Text.decimal index)) =
      64 :: (name ++ 46 :: Text.decimal index) := by
    apply Text.stripRemark_of_not_infix
    apply Text.not_infix_of_count
    simpa [List.count_cons, hdecimal] using h
  rw [htext, content, hremark, Text.compact_cons (Text.blankWidth_graphic (by decide) _),
    Text.compact_append (by decide), Text.unbroken_iff.mp (Text.unbroken_graphic hgraphic)]
  rfl

namespace Generator

theorem dot_not_mem_pair {g : Generator} {r : Request} {name : Text} (h : name ∈ g.pair r) : 46 ∉ name := by
  unfold pair at h
  split at h
  · simp only [List.mem_cons, List.not_mem_nil, or_false] at h
    obtain rfl | rfl := h
    · exact (Mirrors.dot_not_mem_labels _).1
    · exact (Mirrors.dot_not_mem_labels _).2
  · cases h

section
variable {g g' : Generator} {r : Request} {plan : Plan} (h : g.lower r = .ok (plan, g'))
include h

/-- What is written for a request is legal, or it is the load of the static entry that the request is for. -/
theorem legal_or_static {l : Line} (hl : l ∈ g'.emission r plan) : l.Legal ∨ g.usesSymbols = true ∧
    ∃ (kind : Kind) (index : Nat), r = .access kind Segment.statics.name index ∧
      l = load (.symbol (staticSymbol g.fileName index)) := by
  cases writes_emission h l hl with
  | remark => exact .inl (lineFeed_not_mem_toText h)
  | plain hplain => exact .inl (Line.legal_of_isPlain hplain)
  | constant hn => exact .inl hn
  | target hname => exact .inl (isSymbol_of_mem_pair hname)
  | label hname => exact .inl (isSymbol_of_mem_pair hname)
  | static hg hr => exact .inr ⟨hg, _, _, hr, rfl⟩

/-- The code of a static entry begins with the load of its cell: the symbol of the entry, or a slot. -/
theorem static_code {kind : Kind} {i : Int} (hr : r = .access kind Segment.statics.name i) :
    ∃ (index : Nat) (operand : Operand) (rest : List Line), i = index ∧ index < Segment.staticSize ∧
      plan.lines = load operand :: rest ∧
      (g.usesSymbols = true ∧ operand = .symbol (staticSymbol g.fileName index) ∨
        g.usesSymbols = false ∧ ∃ slot < Segment.staticSize, operand = .constant (Segment.staticBase + slot)) := by
  obtain ⟨_, hop, _, _⟩ | ⟨pops, segment, index, hasks, hclaim, rfl⟩ := lower_cases h
  · rw [hr] at hop
    cases hop
  · obtain ⟨rfl, rfl⟩ := hasks.static hr
    have hload : ∃ rest, g'.entryCode pops .statics index = load (g'.staticOperand index) :: rest := by
      cases pops <;> exact ⟨_, rfl⟩
    obtain ⟨rest, hrest⟩ := hload
    refine ⟨index, g'.staticOperand index, rest, rfl, hasks.inRange, hrest, ?_⟩
    unfold staticOperand
    obtain ⟨hsymbols, rfl⟩ | ⟨-, hslots, hslot, rfl⟩ := claimEntry_cases hclaim
    · exact .inl ⟨hsymbols rfl, if_pos (hsymbols rfl)⟩
    · have hslots' : ({ g with staticUsed := max g.staticUsed (index + 1) } : Generator).usesSymbols = false := hslots
      rw [hslots', if_neg Bool.false_ne_true, Nat.add_assoc]
      exact .inr ⟨hslots, _, hslot, rfl⟩

theorem lineFeed_not_mem_emission (hfeed : Text.lineFeed ∉ g.fileName) {l : Line} (hl : l ∈ g'.emission r plan) :
    Text.lineFeed ∉ l.toText := by
  obtain hlegal | ⟨-, kind, index, -, rfl⟩ := legal_or_static h hl
  · exact lineFeed_not_mem hlegal
  · have hdecimal : Text.lineFeed ∉ Text.decimal index := Text.not_mem_decimal rfl index
    have htext : (load (.symbol (staticSymbol g.fileName index))).toText =
        64 :: (g.fileName ++ 46 :: Text.decimal index) := rfl
    rw [htext]
    simp only [List.mem_cons, List.mem_append, hfeed, hdecimal, or_false, not_or]
    decide

section
variable (hslash : g.fileName.count 47 ≤ 1) {l : Line} (hl : l ∈ g'.emission r plan) {name : Text}
include hslash hl

theorem label_seen (hc : content l.toText = labelText name) : name ∈ g.pair r := by
  obtain hlegal | ⟨-, kind, index, -, rfl⟩ := legal_or_static h hl
  · obtain rfl := bare_eq_labelText.mp ((content_toText hlegal).symm.trans hc)
    cases writes_emission h _ hl with
    | plain hplain => cases hplain
    | label hname => exact hname
  · rw [content_static hslash] at hc
    cases hc

/-- The symbols that the assembler sees are predefined, labels of the next pair, or that of the static entry. -/
theorem symbol_seen (hname : isSymbol name = true) (hc : content l.toText = 64 :: name) :
    name ∈ predefined.map Prod.fst ∨ name ∈ g.pair r ∨ g.usesSymbols = true ∧
      ∃ (kind : Kind) (index : Nat), r = .access kind Segment.statics.name index ∧
        name = staticSymbol (Text.compact g.fileName) index := by
  -- The assembler sees a legal line as it is written.
  have hload : l.Legal → l = load (.symbol name) := by
    intro hlegal
    exact load_of_bare hlegal hname ((content_toText hlegal).symm.trans hc)
  cases writes_emission h l hl with
  | remark => cases hload (lineFeed_not_mem_toText h)
  | plain hplain =>
    obtain rfl := hload (Line.legal_of_isPlain hplain)
    exact .inl (List.contains_iff_mem.mp hplain)
  | constant hn => cases hload hn
  | target hpair =>
    cases hload (isSymbol_of_mem_pair hpair)
    exact .inr (.inl hpair)
  | label hpair => cases hload (isSymbol_of_mem_pair hpair)
  | static hg hr =>
    rw [content_static hslash] at hc
    exact .inr (.inr ⟨hg, _, _, hr, (List.cons.inj hc).2.symm⟩)

end

end

end Generator

/-! ## Static entries -/

namespace Output

def symbol? (o : Output) : Option Text :=
  if Generator.keptName o.path = [] then none
  else o.staticIndex?.map fun i => staticSymbol (Text.compact (Generator.keptName o.path)) i.toNat

theorem symbol?_eq_some {o : Output} {name : Text} : o.symbol? = some name ↔ Generator.keptName o.path ≠ [] ∧
    ∃ i, o.staticIndex? = some i ∧ name = staticSymbol (Text.compact (Generator.keptName o.path)) i.toNat := by
  unfold symbol?
  split
  · rename_i hname
    simp [hname]
  · rename_i hname
    rw [Option.map_eq_some_iff]
    simp only [ne_eq, hname, not_false_eq_true, true_and, eq_comm]

/-- A static entry is loaded first, by a slot if its file has no name and by its symbol otherwise. -/
theorem WrittenAs.static {o : Output} {ls : List Line} (h : o.WrittenAs true ls) {i : Int}
    (hi : o.staticIndex? = some i) :
    ∃ (index : Nat) (operand : Operand) (pre rest : List Line), i = index ∧ index < Segment.staticSize ∧
      ls = pre ++ load operand :: rest ∧ (∀ l ∈ pre, content l.toText = []) ∧
      (Generator.keptName o.path ≠ [] ∧ operand = .symbol (staticSymbol (Generator.keptName o.path) index) ∨
        Generator.keptName o.path = [] ∧
          ∃ slot < Segment.staticSize, operand = .constant (Segment.staticBase + slot)) := by
  obtain ⟨g, g', plan, hat, hlower, hls⟩ := h.lowered
  obtain ⟨kind, hr⟩ := staticIndex?_eq_some.mp hi
  obtain ⟨index, operand, rest, hindex, hlt, hcode, hoperand⟩ := Generator.static_code hlower hr
  have hpre : ∃ pre : List Line, g'.emission o.request plan = pre ++ plan.lines ∧
      ∀ l ∈ pre, content l.toText = [] := by
    unfold Generator.emission
    split
    · exact ⟨[.remark o.request.toText], rfl, by simp [content_remark]⟩
    · exact ⟨[], rfl, by simp⟩
  obtain ⟨pre, hemission, hpre⟩ := hpre
  refine ⟨index, operand, pre, rest, hindex, hlt, by rw [hls, hemission, hcode], hpre, ?_⟩
  have hsymbols := hat.usesSymbols_iff
  rw [hat.name] at hoperand
  obtain ⟨hg, hoperand⟩ | ⟨hg, hslot⟩ := hoperand
  · exact .inl ⟨(hsymbols.mp hg).2, hoperand⟩
  · refine .inr ⟨?_, hslot⟩
    by_contra hne
    rw [hsymbols.mpr ⟨rfl, hne⟩] at hg
    cases hg

end Output

namespace Translator

def staticSymbols (os : List Output) : List Text := (os.filterMap Output.symbol?).dedup

def place (os : List Output) : Nat := (contents (os.flatMap Output.text)).countP isInstruction

/-- Whether the words of static entries are addresses of the area of static cells. -/
def InArea (os : List Output) (p : Program) : Prop :=
  ∀ xs o ys, os = xs ++ o :: ys → ∀ i, o.staticIndex? = some i → ∀ word, p.words[place xs]? = some word →
    Segment.staticBase ≤ word.toNat ∧ word.toNat < Segment.staticBase + Segment.staticSize

section
variable {f : Output → List Line} {os : List Output} (hf : ∀ o ∈ os, o.WrittenAs true (f o))
variable (hfeed : ∀ o ∈ os, Text.lineFeed ∉ Generator.keptName o.path)
include hf

theorem text_written : os.flatMap Output.text = render (os.flatMap f) := by
  induction os with
  | nil => rfl
  | cons o os ih =>
    rw [List.forall_mem_cons] at hf
    rw [List.flatMap_cons, List.flatMap_cons, render_append, ih hf.2, hf.1.text]

include hfeed

theorem contents_written :
    contents (os.flatMap Output.text) = (os.flatMap f).map (fun l => content l.toText) ++ [[]] := by
  have hlines : ∀ l ∈ os.flatMap f, Text.lineFeed ∉ l.toText := by
    intro l hl
    obtain ⟨o, ho, hl⟩ := List.mem_flatMap.mp hl
    obtain ⟨g, g', plan, hat, hlower, hls⟩ := (hf o ho).lowered
    rw [hls] at hl
    exact Generator.lineFeed_not_mem_emission hlower (hat.name ▸ hfeed o ho) hl
  rw [text_written hf, contents, lines_of_lineFeed_not_mem hlines, List.map_append, List.map_map]
  rfl

theorem mem_contents_written {text : Text} (hne : text ≠ []) :
    text ∈ contents (os.flatMap Output.text) ↔ ∃ o ∈ os, ∃ l ∈ f o, content l.toText = text := by
  rw [contents_written hf hfeed, List.mem_append, List.mem_map, List.mem_singleton, or_iff_left hne]
  simp only [List.mem_flatMap]
  constructor
  · rintro ⟨l, ⟨o, ho, hl⟩, hc⟩
    exact ⟨o, ho, l, hl, hc⟩
  · rintro ⟨o, ho, l, hl, hc⟩
    exact ⟨l, ⟨o, ho, hl⟩, hc⟩

section
variable {p : Program} (hp : assemble (os.flatMap Output.text) = .ok p)
include hp

theorem symbol_written {o : Output} (ho : o ∈ os) {name : Text} (hname : o.symbol? = some name) :
    (64 :: name) ∈ contents (os.flatMap Output.text) ∧ isSymbol name = true ∧ 46 ∈ name := by
  obtain ⟨hne, i, hi, rfl⟩ := Output.symbol?_eq_some.mp hname
  obtain ⟨index, operand, pre, rest, rfl, -, hls, -, ⟨-, rfl⟩ | ⟨hnil, -⟩⟩ := (hf o ho).static hi
  · have hdot := dot_mem_staticSymbol (Text.compact (Generator.keptName o.path)) index
    have hmem : (64 :: staticSymbol (Text.compact (Generator.keptName o.path)) index) ∈
        contents (os.flatMap Output.text) := by
      refine (mem_contents_written hf hfeed (by simp)).mpr ⟨o, ho, _, ?_, content_static ?_ index⟩
      · rw [hls]
        exact List.mem_append_right _ List.mem_cons_self
      · exact Generator.count_slash_keptName o.path
    obtain ⟨before, after, hlines⟩ := List.append_of_mem hmem
    have hresolved := resolved_of_assemble hp
    rw [hlines] at hresolved
    obtain ⟨instruction, word, -, hspells, -⟩ := hresolved.word_at rfl
    exact ⟨hmem, (symbol_of_spells hspells hdot).1, hdot⟩
  · exact absurd hnil hne

theorem mem_variables_iff {name : Text} :
    name ∈ variableNames (contents (os.flatMap Output.text)) ↔ ∃ o ∈ os, o.symbol? = some name := by
  rw [mem_variableNames]
  constructor
  · rintro ⟨hload, hsymbol, hfree, hlabel⟩
    obtain ⟨o, ho, l, hl, hc⟩ := (mem_contents_written hf hfeed (List.cons_ne_nil _ _)).mp hload
    obtain ⟨g, g', plan, hat, hlower, hls⟩ := (hf o ho).lowered
    have hslash : g.fileName.count 47 ≤ 1 := hat.name ▸ Generator.count_slash_keptName o.path
    rw [hls] at hl
    obtain hpre | hpair | ⟨hg, kind, index, hr, rfl⟩ := Generator.symbol_seen hlower hslash hl hsymbol hc
    · exact absurd hpre hfree
    · -- The label of a comparison is declared in the same output.
      have hdeclared : .label name ∈ f o := by
        rw [← (Generator.declares_emission hlower).1, List.mem_filterMap] at hpair
        obtain ⟨l', hl', hdeclares⟩ := hpair
        rw [hls, ← Line.declares?_eq_some.mp hdeclares]
        exact hl'
      have hseen : content (Line.label name).toText = labelText name := content_toText hsymbol
      exact absurd ((mem_contents_written hf hfeed (labelText_ne_nil name)).mpr ⟨o, ho, _, hdeclared, hseen⟩) hlabel
    · refine ⟨o, ho, Output.symbol?_eq_some.mpr ⟨(hat.usesSymbols_iff.mp hg).2, index, ?_, by rw [hat.name]; rfl⟩⟩
      exact Output.staticIndex?_eq_some.mpr ⟨kind, hr⟩
  · rintro ⟨o, ho, hname⟩
    obtain ⟨hload, hsymbol, hdot⟩ := symbol_written hf hfeed hp ho hname
    refine ⟨hload, hsymbol, initialTable_eq_none_iff.mp (initialTable_of_dot hdot), fun hlabel => ?_⟩
    obtain ⟨o', ho', l, hl, hc⟩ := (mem_contents_written hf hfeed (labelText_ne_nil name)).mp hlabel
    obtain ⟨g, g', plan, hat, hlower, hls⟩ := (hf o' ho').lowered
    rw [hls] at hl
    have hpair := Generator.label_seen hlower (hat.name ▸ Generator.count_slash_keptName o'.path) hl hc
    exact Generator.dot_not_mem_pair hpair hdot

theorem length_variables :
    (variableNames (contents (os.flatMap Output.text))).length = (staticSymbols os).length := by
  refine ((List.perm_ext_iff_of_nodup (nodup_eraseDups _) (List.nodup_dedup _)).mpr fun name => ?_).length_eq
  rw [List.mem_dedup, List.mem_filterMap]
  exact mem_variables_iff hf hfeed hp

/-- The first instruction of an output stands behind those of the outputs before. -/
theorem word_of_first {xs ys : List Output} {o : Output} (hos : os = xs ++ o :: ys) {l : Line} {pre rest : List Line}
    (hls : f o = pre ++ l :: rest) (hpre : ∀ l ∈ pre, content l.toText = [])
    (hl : isInstruction (content l.toText) = true) :
    ∃ i word, p.words[place xs]? = some word ∧ Spells (content l.toText) i ∧ Encodes p.symbols i word := by
  have hxs : ∀ o ∈ xs, o ∈ os := fun o ho => by rw [hos]; exact List.mem_append_left _ ho
  have hplace : place xs = ((xs.flatMap f ++ pre).map fun l => content l.toText).countP isInstruction := by
    have hnone : (pre.map fun l => content l.toText).countP isInstruction = 0 := by
      rw [List.countP_eq_zero]
      intro text htext
      obtain ⟨l, hl, rfl⟩ := List.mem_map.mp htext
      simp [hpre l hl, isInstruction]
    rw [place, contents_written (fun o ho => hf o (hxs o ho)) (fun o ho => hfeed o (hxs o ho)), List.map_append,
      List.countP_append, List.countP_append, hnone]
    rfl
  have hlines : contents (os.flatMap Output.text) =
      (xs.flatMap f ++ pre).map (fun l => content l.toText) ++ content l.toText ::
        ((rest ++ ys.flatMap f).map (fun l => content l.toText) ++ [[]]) := by
    rw [contents_written hf hfeed, hos, List.flatMap_append, List.flatMap_cons, hls]
    simp
  have hresolved := resolved_of_assemble hp
  rw [hlines] at hresolved
  rw [hplace]
  exact hresolved.word_at hl

/-- The word of a static entry in the program is its slot, or the address of its symbol. -/
theorem word_written {xs ys : List Output} {o : Output} (hos : os = xs ++ o :: ys) {i : Int}
    (hi : o.staticIndex? = some i) : ∃ word, p.words[place xs]? = some word ∧
      ((∃ slot < Segment.staticSize, o.symbol? = none ∧ word.toNat = Segment.staticBase + slot) ∨
        ∃ name, o.symbol? = some name ∧ p.symbols[name]? = some word) := by
  have ho : o ∈ os := by rw [hos]; simp
  obtain ⟨index, operand, pre, rest, rfl, -, hls, hpre, hoperand⟩ := (hf o ho).static hi
  have hfirst := word_of_first hf hfeed hp hos hls hpre
  obtain ⟨hne, rfl⟩ | ⟨hnil, slot, hslot, rfl⟩ := hoperand
  · rw [content_static (Generator.count_slash_keptName o.path)] at hfirst
    obtain ⟨instruction, word, hword, hspells, hencodes⟩ := hfirst rfl
    obtain ⟨-, rfl⟩ := symbol_of_spells hspells (dot_mem_staticSymbol _ _)
    exact ⟨word, hword, .inr ⟨_, Output.symbol?_eq_some.mpr ⟨hne, index, hi, rfl⟩, hencodes⟩⟩
  · have hsize : Segment.staticBase + Segment.staticSize ≤ maxConstant := by decide
    have hlegal : (Instruction.load (.constant (Segment.staticBase + slot))).Legal := by
      unfold Instruction.Legal
      omega
    rw [content_toText (l := load (.constant (Segment.staticBase + slot))) hlegal] at hfirst
    obtain ⟨instruction, word, hword, hspells, hencodes⟩ := hfirst (isInstruction_bare.mpr ⟨_, rfl⟩)
    obtain rfl := hspells.unique (ofText_eq_ok_iff.mp (ofText_toText hlegal))
    refine ⟨word, hword, .inl ⟨slot, hslot, by simp [Output.symbol?, hnil], ?_⟩⟩
    have hconstant : maxConstant < 65536 := by decide
    rw [show word = (Segment.staticBase + slot).toUInt16 from hencodes, toNat_toUInt16 (by omega)]

/-- Static entries stay in their area exactly if there are not more symbols than cells. -/
theorem inArea_iff : InArea os p ↔ (staticSymbols os).length ≤ Segment.staticSize := by
  have hsize : Segment.staticBase + Segment.staticSize = 256 := by decide
  have hbase : Segment.staticBase = 16 := by decide
  have hresolved := resolved_of_assemble hp
  rw [← length_variables hf hfeed hp]
  constructor
  · intro harea
    by_contra hmany
    -- The first variable behind the area belongs to some entry.
    rw [Nat.not_le] at hmany
    have hname := hresolved.allotted _ _ (List.getElem?_eq_getElem hmany)
    obtain ⟨o, ho, hsymbol⟩ := (mem_variables_iff hf hfeed hp).mp (List.getElem_mem hmany)
    obtain ⟨-, i, hi, -⟩ := Output.symbol?_eq_some.mp hsymbol
    obtain ⟨xs, ys, hos⟩ := List.append_of_mem ho
    obtain ⟨word, hword, ⟨slot, -, hnone, -⟩ | ⟨name, hsymbol', haddress⟩⟩ := word_written hf hfeed hp hos hi
    · rw [hsymbol] at hnone
      cases hnone
    · rw [hsymbol, Option.some.injEq] at hsymbol'
      subst hsymbol'
      rw [haddress, Option.some.injEq] at hname
      have hbelow := (harea xs o ys hos i hi word hword).2
      rw [hname, toNat_toUInt16 (by omega)] at hbelow
      omega
  · intro hfew xs o ys hos i hi word hword
    obtain ⟨word', hword', hcell⟩ := word_written hf hfeed hp hos hi
    rw [hword, Option.some.injEq] at hword'
    subst hword'
    obtain ⟨slot, hslot, -, hslots⟩ | ⟨name, hsymbol, haddress⟩ := hcell
    · omega
    · have ho : o ∈ os := by rw [hos]; simp
      obtain ⟨j, hj⟩ := List.mem_iff_getElem?.mp ((mem_variables_iff hf hfeed hp).mpr ⟨o, ho, hsymbol⟩)
      obtain ⟨hlt, -⟩ := List.getElem?_eq_some_iff.mp hj
      have hallotted := hresolved.allotted j name hj
      rw [haddress, Option.some.injEq] at hallotted
      rw [hallotted, toNat_toUInt16 (by omega)]
      omega

end

omit hfeed in
theorem length_staticSymbols_le {name : Text}
    (hname : ∀ o ∈ os, Generator.keptName o.path = [] ∨ Generator.keptName o.path = name) :
    (staticSymbols os).length ≤ Segment.staticSize := by
  have hsubset : staticSymbols os ⊆ (List.range Segment.staticSize).map (staticSymbol (Text.compact name)) := by
    intro symbol hsymbol
    rw [staticSymbols, List.mem_dedup, List.mem_filterMap] at hsymbol
    obtain ⟨o, ho, hsymbol⟩ := hsymbol
    obtain ⟨hne, i, hi, rfl⟩ := Output.symbol?_eq_some.mp hsymbol
    obtain ⟨index, -, -, -, rfl, hlt, -⟩ := (hf o ho).static hi
    rw [(hname o ho).resolve_left hne]
    exact List.mem_map.mpr ⟨index, List.mem_range.mpr hlt, rfl⟩
  have hle := (List.subperm_of_subset (List.nodup_dedup _) hsubset).length_le
  rwa [List.length_map, List.length_range] at hle

end

/-! ## Source files -/

section
variable {annotate : Bool} {fails : Nat → Bool} {files : List (Text × Text)} {t : Translator MemorySink}
variable (hnames : ∀ file ∈ files, Text.lineFeed ∉ Generator.keptName file.1)
variable (ht : (new annotate true ({ fails := fails } : MemorySink)).sources files = (t, none))

theorem at_new : At true [] (new annotate true ({ fails := fails } : MemorySink)).generator := ⟨rfl, rfl⟩

theorem keptName_sources {o : Output}
    (ho : o ∈ (new annotate true ({ fails := fails } : MemorySink)).sourcesOutputs files) :
    Generator.keptName o.path = [] ∨ ∃ file ∈ files, Generator.keptName o.path = Generator.keptName file.1 := by
  obtain hpath | hpath := (writtenAs_sources at_new ho).1
  · rw [hpath]
    exact .inl rfl
  · obtain ⟨file, hfile, hpath⟩ := List.mem_map.mp hpath
    exact .inr ⟨file, hfile, by rw [hpath]⟩

include hnames ht

theorem written_sources : ∃ f : Output → List Line,
    (∀ o ∈ (new annotate true ({ fails := fails } : MemorySink)).sourcesOutputs files, o.WrittenAs true (f o)) ∧
    (∀ o ∈ (new annotate true ({ fails := fails } : MemorySink)).sourcesOutputs files,
      Text.lineFeed ∉ Generator.keptName o.path) ∧
    t.sink.text = ((new annotate true ({ fails := fails } : MemorySink)).sourcesOutputs files).flatMap Output.text := by
  have hwritten : ∀ o ∈ (new annotate true ({ fails := fails } : MemorySink)).sourcesOutputs files,
      ∃ ls, o.WrittenAs true ls := fun o ho => (writtenAs_sources at_new ho).2
  choose! f hf using hwritten
  refine ⟨f, hf, fun o ho => ?_, text_sources ht⟩
  obtain hnil | ⟨file, hfile, hname⟩ := keptName_sources ho
  · rw [hnil]
    exact List.not_mem_nil
  · rw [hname]
    exact hnames file hfile

end

/-- Source files without a line feed in their names that are translated with symbols for static cells and whose text is
accepted. Every command that is lowered has its output. The program has a word for every static entry, at the place of
its output: a slot of the area of static cells if the file has no name, and otherwise the address of the symbol of its
file and index. All these words are addresses of the area exactly if there are not more symbols than it has cells, as is
always so if the files share a name. -/
theorem static_words_in_area {annotate : Bool} {fails : Nat → Bool} {files : List (Text × Text)}
    {t : Translator MemorySink} {p : Program}
    (hnames : ∀ file ∈ files, Text.lineFeed ∉ Generator.keptName file.1)
    (ht : (new annotate true ({ fails := fails } : MemorySink)).sources files = (t, none))
    (hp : assemble t.sink.text = .ok p) :
    let outs := (new annotate true ({ fails := fails } : MemorySink)).sourcesOutputs files
    (∀ file ∈ files, ∀ c ∈ sourceCommands file.2, ∀ r, requestFor? c = some r →
      ∃ o ∈ outs, o.path = file.1 ∧ o.request = r) ∧
    (∀ xs o ys, outs = xs ++ o :: ys → ∀ i, o.staticIndex? = some i → ∃ word, p.words[place xs]? = some word ∧
      ((∃ slot < Segment.staticSize, o.symbol? = none ∧ word.toNat = Segment.staticBase + slot) ∨
        ∃ name, o.symbol? = some name ∧ p.symbols[name]? = some word)) ∧
    (InArea outs p ↔ (staticSymbols outs).length ≤ Segment.staticSize) ∧
    ((∃ name, ∀ file ∈ files, Generator.keptName file.1 = name) → InArea outs p) := by
  intro outs
  obtain ⟨f, hf, hfeed, htext⟩ := written_sources hnames ht
  rw [htext] at hp
  have hiff := inArea_iff hf hfeed hp
  refine ⟨output_of_command [] 0 ht, fun xs o ys hos i hi => word_written hf hfeed hp hos hi, hiff, ?_⟩
  rintro ⟨name, hname⟩
  have hkept : ∀ o ∈ outs, Generator.keptName o.path = [] ∨ Generator.keptName o.path = name := by
    intro o ho
    obtain hnil | ⟨file, hfile, hkept⟩ := keptName_sources ho
    · exact .inl hnil
    · exact .inr (hkept.trans (hname file hfile))
  exact hiff.mpr (length_staticSymbols_le hf hkept)

def oddFiles : List (Text × Text) :=
  [(ascii "A B.vm", ascii "pop static 239\n"), (ascii ".vm", ascii "push static 3\n")]

theorem static_words_in_area_sample :
    ∃ t p, (new true true ({} : MemorySink)).sources oddFiles = (t, none) ∧ assemble t.sink.text = .ok p ∧
      InArea ((new true true ({} : MemorySink)).sourcesOutputs oddFiles) p := by
  have ht : (new true true ({} : MemorySink)).sources oddFiles =
      (((new true true ({} : MemorySink)).sources oddFiles).1, none) := Prod.ext rfl (by decide +kernel)
  have hp : ∃ p, assemble ((new true true ({} : MemorySink)).sources oddFiles).1.sink.text = .ok p ∧ True :=
    ok_of_any (by decide +kernel)
  obtain ⟨p, hp, -⟩ := hp
  exact ⟨_, p, ht, hp, (static_words_in_area (by decide) ht hp).2.2.1.mpr (by decide +kernel)⟩

/-! ## Full files -/

def pushes (n : Nat) : List Command := (List.range n).map fun i : Nat => .push Segment.statics.name i

theorem decode_push (i : Nat) (hi : i < Segment.staticSize) :
    Command.decode (Listing.content (Command.push Segment.statics.name i).toText) =
      .ok (.push Segment.statics.name i) := by
  have hvalue := Text.digitsValue_decimal i
  have hkind : Kind.push ∈ Kind.withArguments := by decide
  have hlimit : Text.digitsValue (Text.decimal i) ≤ Command.maxIndex := by
    rw [hvalue]
    exact Nat.le_trans (Nat.le_of_lt hi) (by decide)
  have hreads := Command.Reads.indexed Segment.statics.name hkind rfl (Text.decimal_ne_nil i)
    (List.all_eq_true.mp (Text.all_isDigit_decimal i)) hlimit
  rw [hvalue] at hreads
  refine hreads.decode_content_toText ?_
  have hgraphic : ∀ w, w ≠ [] → w.all Text.isGraphic = true → 47 ∉ w →
      w ≠ [] ∧ Text.Unbroken w ∧ ¬ [47, 47] <:+: w := by
    intro w hne hall hslash
    exact ⟨hne, Text.unbroken_graphic hall, fun hremark => hslash (hremark.subset (by simp))⟩
  simp only [List.forall_mem_cons]
  refine ⟨hgraphic _ (by decide) (by decide) (by decide), hgraphic _ (by decide) (by decide) (by decide), ?_, by simp⟩
  exact hgraphic _ (Text.decimal_ne_nil i) (all_isGraphic_decimal i) (Text.not_mem_decimal rfl i)

theorem read?_pushes {n : Nat} (hn : n ≤ Segment.staticSize) :
    ∃ list, Listing.read? (Listing.written (pushes n)) = some list ∧
      (list.map Entry.text).map Command.decode = (pushes n).map .ok := by
  apply Listing.read?_written
  intro c hc
  obtain ⟨i, hi, rfl⟩ := List.mem_map.mp hc
  have hi : i < Segment.staticSize := Nat.lt_of_lt_of_le (List.mem_range.mp hi) hn
  have hlength : ∀ i < Segment.staticSize, (Text.decimal i).length ≤ 3 := by decide +kernel
  refine ⟨_, ?_, decode_push i hi⟩
  have hlength := hlength i hi
  have htext : (Command.push Segment.statics.name i).toText = ascii "push static " ++ Text.decimal i := rfl
  have hname : (ascii "push static ").length = 12 := by decide
  rw [htext, List.length_append, hname]
  have hlimit : 15 < Listing.lineLimit := by decide
  omega

theorem sourceCommands_pushes {n : Nat} (hn : n ≤ Segment.staticSize) :
    sourceCommands (Listing.written (pushes n)) = pushes n := by
  obtain ⟨list, hread, hdecoded⟩ := read?_pushes hn
  have hmap : decoded list = ((list.map Entry.text).map Command.decode).filterMap Except.toOption := by
    rw [List.filterMap_map, List.filterMap_map]
    rfl
  rw [sourceCommands, hread, Option.getD_some, hmap, hdecoded, List.filterMap_map]
  exact List.filterMap_some

theorem entries_pushes : ∀ {list : List Entry} {t : Translator MemorySink}, t.generator.usesSymbols = true →
    (∀ n, t.sink.fails n = false) →
    (∀ e ∈ list, ∃ i : Nat, i < Segment.staticSize ∧ Command.decode e.text = .ok (.push Segment.statics.name i)) →
    ∃ t', t.entries list = (t', none) ∧ t'.generator = t.generator ∧ ∀ n, t'.sink.fails n = false
  | [], t, _, hsink, _ => ⟨t, rfl, rfl, hsink⟩
  | entry :: rest, t, hg, hsink, hlist => by
    rw [List.forall_mem_cons] at hlist
    obtain ⟨⟨i, hi, hd⟩, hrest⟩ := hlist
    have hasks : Generator.Asks (.access .push Segment.statics.name i) false .statics i := ⟨rfl, hi, by simp⟩
    have hlower := Generator.lower_of_asks hasks (Generator.claimEntry_symbols hg .statics i)
    obtain ⟨t₁, ht, hgen, -, hfails, -⟩ := request_of_lower hlower (hsink _)
    have hgen : t₁.generator = t.generator := hgen
    obtain ⟨t', h, hgen', hsink'⟩ := @entries_pushes rest { t₁ with commands := t₁.commands + 1 } (hgen ▸ hg)
      (fun n => hfails ▸ hsink n) hrest
    refine ⟨t', ?_, hgen'.trans hgen, hsink'⟩
    simp only [entries, hd, command, requestFor?, ht]
    exact h

theorem file_pushes {t : Translator MemorySink} (name : Text) {n : Nat} (hn : n ≤ Segment.staticSize)
    (hg : t.generator.staticSymbols = true) (hname : Generator.keptName name ≠ [])
    (hsink : ∀ n, t.sink.fails n = false) :
    ∃ t', t.file name (.ok (Listing.written (pushes n))) = (t', none) ∧ t'.generator = t.generator.setFile name ∧
      ∀ n, t'.sink.fails n = false := by
  obtain ⟨list, hread, hdecoded⟩ := read?_pushes hn
  have hlist : ∀ e ∈ list, ∃ i : Nat, i < Segment.staticSize ∧
      Command.decode e.text = .ok (.push Segment.statics.name i) := by
    intro e he
    have hmem : Command.decode e.text ∈ (pushes n).map .ok := by
      rw [← hdecoded]
      exact List.mem_map_of_mem (List.mem_map_of_mem he)
    obtain ⟨c, hc, hd⟩ := List.mem_map.mp hmem
    obtain ⟨i, hi, rfl⟩ := List.mem_map.mp hc
    exact ⟨i, Nat.lt_of_lt_of_le (List.mem_range.mp hi) hn, hd.symm⟩
  unfold file
  simp only [hread, listing]
  generalize ht₀ : report { t with generator := t.generator.setFile name } _ = t₀
  have hgen₀ : t₀.generator = t.generator.setFile name := by rw [← ht₀]; rfl
  have hsink₀ : ∀ n, t₀.sink.fails n = false := by rw [← ht₀]; exact hsink
  have hsymbols : t₀.generator.usesSymbols = true := by
    rw [hgen₀]
    exact Generator.usesSymbols_setFile hg hname
  obtain ⟨t₁, h, hgen, hsink₁⟩ := entries_pushes hsymbols hsink₀ hlist
  rw [h]
  exact ⟨_, rfl, hgen.trans hgen₀, hsink₁⟩

theorem mem_staticSymbols {annotate symbols : Bool} {fails : Nat → Bool} {files : List (Text × Text)}
    {t : Translator MemorySink}
    (ht : (new annotate symbols ({ fails := fails } : MemorySink)).sources files = (t, none)) (path : Text)
    {n i : Nat} (hfile : (path, Listing.written (pushes n)) ∈ files) (hn : n ≤ Segment.staticSize)
    (hname : Generator.keptName path ≠ []) (hi : i < n) :
    staticSymbol (Text.compact (Generator.keptName path)) i ∈
      staticSymbols ((new annotate symbols ({ fails := fails } : MemorySink)).sourcesOutputs files) := by
  have hcommand : Command.push Segment.statics.name i ∈ sourceCommands (Listing.written (pushes n)) := by
    rw [sourceCommands_pushes hn]
    exact List.mem_map_of_mem (List.mem_range.mpr hi)
  obtain ⟨o, ho, hpath, hrequest⟩ := output_of_command [] 0 ht _ hfile _ hcommand _ rfl
  rw [staticSymbols, List.mem_dedup, List.mem_filterMap]
  refine ⟨o, ho, Output.symbol?_eq_some.mpr ⟨by rw [hpath]; exact hname, i, ?_, by rw [hpath]; rfl⟩⟩
  exact Output.staticIndex?_eq_some.mpr ⟨.push, hrequest⟩

/-- Without comparisons there are no labels, so what is translated with legal names is accepted. -/
theorem assemble_sources {annotate symbols : Bool} {fails : Nat → Bool} {files : List (Text × Text)}
    {t : Translator MemorySink} (hlegal : ∀ file ∈ files, LegalName symbols file.1)
    (ht : (new annotate symbols ({ fails := fails } : MemorySink)).sources files = (t, none))
    (hn : t.generator.comparisons = 0) : ∃ p, assemble t.sink.text = .ok p := by
  have hagrees := agrees_sources files (new annotate symbols ({ fails := fails } : MemorySink))
  rw [ht] at hagrees
  have hlegal' : ∀ path ∈ [] :: filePaths ((new annotate symbols ({ fails := fails } : MemorySink)).sourcesCalls files),
      LegalName symbols path := by
    rw [List.forall_mem_cons]
    refine ⟨fun _ hne => absurd rfl hne, fun path hpath => ?_⟩
    obtain ⟨file, hfile, rfl⟩ := List.mem_map.mp ((sourcesCalls_initial files _).1.subset hpath)
    exact hlegal file hfile
  obtain ⟨ls, htext, h⟩ := @composed_calls symbols _ (new annotate symbols ({ fails := fails } : MemorySink)) [] 0 _ []
    ⟨rfl, rfl⟩ hlegal' rfl Composed.start
  rw [hagrees.2] at htext
  rw [hagrees.1, hn] at h
  rw [htext]
  obtain ⟨p, hp, -⟩ | ⟨before, name, hbeyond, -⟩ := h.assemble_cases
  · exact ⟨p, hp⟩
  · obtain ⟨pre, post, hls, -⟩ := h.beyond_iff.mp hbeyond
    have hmem : .label name ∈ ls := by rw [hls]; simp
    cases h.label_mem_iff.mp hmem

def fullFiles : List (Text × Text) :=
  [(ascii "A.vm", Listing.written (pushes Segment.staticSize)), (ascii "B.vm", Listing.written (pushes 1))]

theorem sources_fullFiles : ∃ t, (new false true ({} : MemorySink)).sources fullFiles = (t, none) ∧
    t.generator.comparisons = 0 := by
  obtain ⟨t₁, h₁, hgen₁, hsink₁⟩ := file_pushes (t := new false true ({} : MemorySink)) (ascii "A.vm")
    (Nat.le_refl Segment.staticSize) rfl (by decide) fun _ => rfl
  obtain ⟨t₂, h₂, hgen₂, -⟩ := file_pushes (t := t₁) (ascii "B.vm") (n := 1) (by decide)
    (by rw [hgen₁, Generator.setFile_staticSymbols]; rfl) (by decide) hsink₁
  refine ⟨t₂, ?_, ?_⟩
  · simp only [fullFiles, sources, h₁, h₂]
  · rw [hgen₂, hgen₁, Generator.setFile_comparisons, Generator.setFile_comparisons]
    rfl

theorem length_fullFiles {t : Translator MemorySink}
    (ht : (new false true ({} : MemorySink)).sources fullFiles = (t, none)) :
    Segment.staticSize < (staticSymbols ((new false true ({} : MemorySink)).sourcesOutputs fullFiles)).length := by
  have hsubset : staticSymbol (ascii "B") 0 :: (List.range Segment.staticSize).map (staticSymbol (ascii "A")) ⊆
      staticSymbols ((new false true ({} : MemorySink)).sourcesOutputs fullFiles) := by
    refine List.cons_subset.mpr ⟨?_, ?_⟩
    · exact mem_staticSymbols ht (ascii "B.vm") (n := 1) (by simp [fullFiles]) (by decide) (by decide) Nat.one_pos
    · intro symbol hsymbol
      obtain ⟨i, hi, rfl⟩ := List.mem_map.mp hsymbol
      exact mem_staticSymbols ht (ascii "A.vm") (n := Segment.staticSize) (by simp [fullFiles]) (Nat.le_refl _)
        (by decide) (List.mem_range.mp hi)
  have hnodup : (staticSymbol (ascii "B") 0 ::
      (List.range Segment.staticSize).map (staticSymbol (ascii "A"))).Nodup := by
    refine List.nodup_cons.mpr ⟨fun hmem => ?_, ?_⟩
    · obtain ⟨i, -, heq⟩ := List.mem_map.mp hmem
      exact absurd (staticSymbol_injective heq).1 (by decide)
    · exact List.nodup_range.map fun i j heq => (staticSymbol_injective heq).2
  have hle := (List.subperm_of_subset hnodup hsubset).length_le
  rw [List.length_cons, List.length_map, List.length_range] at hle
  exact hle

/-- The two files are translated and accepted, and a word of theirs is not in the area of static cells. -/
theorem static_words_beyond_area :
    (∀ file ∈ fullFiles, Text.lineFeed ∉ Generator.keptName file.1) ∧
    ∃ t p, (new false true ({} : MemorySink)).sources fullFiles = (t, none) ∧ assemble t.sink.text = .ok p ∧
      ¬ InArea ((new false true ({} : MemorySink)).sourcesOutputs fullFiles) p := by
  have hnames : ∀ file ∈ fullFiles, isSymbol (Generator.keptName file.1) = true ∧
      Text.lineFeed ∉ Generator.keptName file.1 := by
    unfold fullFiles
    simp only [List.forall_mem_cons]
    exact ⟨by decide, by decide, by simp⟩
  have hfeed : ∀ file ∈ fullFiles, Text.lineFeed ∉ Generator.keptName file.1 := fun file hfile => (hnames file hfile).2
  obtain ⟨t, ht, hn⟩ := sources_fullFiles
  obtain ⟨p, hp⟩ := assemble_sources (fun file hfile _ _ => isSymbol_staticSymbol (hnames file hfile).1) ht hn
  refine ⟨hfeed, t, p, ht, hp, fun harea => ?_⟩
  obtain ⟨f, hf, hfeed', htext⟩ := written_sources hfeed ht
  rw [htext] at hp
  exact absurd ((inArea_iff hf hfeed' hp).mp harea) (Nat.not_le.mpr (length_fullFiles ht))

end Translator

end HackStack
