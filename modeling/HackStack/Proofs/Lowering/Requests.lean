import HackStack.Proofs.Lowering.Commands

/-!
# Requests that are lowered

A request is lowered in one of two ways: an operator by its template, or a segment entry that exists by the code
for a push or a pop. Only a static entry changes the generator, which then has a slot for it. What is written for
a request implements its command.
-/

namespace HackStack

open Asm Template

theorem Segment.name_injective {segment segment' : Segment} (h : segment.name = segment'.name) : segment = segment' := by
  have hname := Segment.ofName?_name segment
  rw [h, Segment.ofName?_name, Option.some.injEq] at hname
  exact hname.symm

namespace Generator

/-! ## The two ways -/

def entryCode (g : Generator) (pops : Bool) (segment : Segment) (index : Nat) : List Line :=
  if pops then g.loadAddress segment index ++ popToAddress else g.loadValue segment index ++ pushData

structure Asks (r : Request) (pops : Bool) (segment : Segment) (index : Nat) : Prop where
  request : r = .access (if pops then .pop else .push) segment.name index
  inRange : index < segment.size
  writable : pops = true → segment ≠ .constant

theorem Asks.static {r : Request} {pops : Bool} {segment : Segment} {index : Nat} (h : Asks r pops segment index)
    {kind : Kind} {i : Int} (hr : r = .access kind Segment.statics.name i) : segment = .statics ∧ i = index := by
  have hrequest := h.request
  rw [hr, Request.access.injEq] at hrequest
  exact ⟨Segment.name_injective hrequest.2.1.symm, hrequest.2.2⟩

theorem findEntry_ok {pops : Bool} {name : Text} {i : Int} {segment : Segment} {index : Nat}
    (h : findEntry pops name i = .ok (segment, index)) :
    name = segment.name ∧ i = index ∧ index < segment.size ∧ (pops = true → segment ≠ .constant) := by
  unfold findEntry at h
  cases hn : Segment.ofName? name with
  | none => rw [hn] at h; cases h
  | some s =>
    rw [hn] at h
    simp only at h
    split at h
    · cases h
    · rename_i hro
      split at h
      · cases h
      · rename_i hrange
        simp only [Except.ok.injEq, Prod.mk.injEq] at h
        obtain ⟨rfl, rfl⟩ := h
        refine ⟨(Segment.name_of_ofName? hn).symm, by omega, by omega, ?_⟩
        rintro rfl rfl
        exact hro rfl

theorem findEntry_of_inRange {pops : Bool} {segment : Segment} {index : Nat} (hrange : index < segment.size)
    (hc : pops = true → segment ≠ .constant) : findEntry pops segment.name index = .ok (segment, index) := by
  have hread : (pops && segment.isReadOnly) = false := by
    cases pops with
    | false => rfl
    | true =>
      cases segment with
      | constant => exact absurd rfl (hc rfl)
      | _ => rfl
  have hin : ¬ ((index : Int) < 0 ∨ segment.size ≤ index) := by omega
  simp only [findEntry, Segment.ofName?_name, hread, Bool.false_eq_true, if_false, Int.toNat_natCast, if_neg hin]

section
variable {g g' : Generator} {r : Request} {plan : Plan}

theorem lowerAccess_ok {pops : Bool} {name : Text} {i : Int} (h : g.lowerAccess pops name i = .ok (plan, g')) :
    ∃ segment index, Asks (.access (if pops then .pop else .push) name i) pops segment index ∧
      g.claimEntry segment index = .ok g' ∧ plan = ⟨g'.entryCode pops segment index, false⟩ := by
  unfold lowerAccess at h
  cases hf : findEntry pops name i with
  | error e => rw [hf] at h; cases h
  | ok entry =>
    obtain ⟨segment, index⟩ := entry
    rw [hf] at h
    simp only [bind, Except.bind] at h
    obtain ⟨rfl, rfl, hrange, hc⟩ := findEntry_ok hf
    cases hg : g.claimEntry segment index with
    | error e => rw [hg] at h; cases h
    | ok g₁ =>
      rw [hg] at h
      simp only [pure, Except.pure] at h
      cases pops with
      | true =>
        simp only [if_true, Except.ok.injEq, Prod.mk.injEq] at h
        obtain ⟨rfl, rfl⟩ := h
        exact ⟨segment, index, ⟨rfl, hrange, hc⟩, hg, rfl⟩
      | false =>
        simp only [Bool.false_eq_true, if_false, Except.ok.injEq, Prod.mk.injEq] at h
        obtain ⟨rfl, rfl⟩ := h
        exact ⟨segment, index, ⟨rfl, hrange, hc⟩, hg, rfl⟩

theorem lower_cases (h : g.lower r = .ok (plan, g')) :
    (∃ op : Operator, r = .operator op.name ∧ plan = ⟨op.code g.comparisons, op.isComparison⟩ ∧ g' = g) ∨
      ∃ pops segment index, Asks r pops segment index ∧ g.claimEntry segment index = .ok g' ∧
        plan = ⟨g'.entryCode pops segment index, false⟩ := by
  cases r with
  | operator word =>
    simp only [lower] at h
    cases hop : Operator.ofName? word with
    | none => rw [hop] at h; cases h
    | some op =>
      rw [hop] at h
      simp only [Except.ok.injEq, Prod.mk.injEq] at h
      obtain ⟨rfl, rfl⟩ := h
      exact .inl ⟨op, by rw [Operator.name_of_ofName? hop], rfl, rfl⟩
  | access kind name i =>
    refine .inr ?_
    cases kind with
    | push => exact ⟨false, lowerAccess_ok h⟩
    | pop => exact ⟨true, lowerAccess_ok h⟩
    | _ => cases h

theorem lower_of_asks {pops : Bool} {segment : Segment} {index : Nat} (h : Asks r pops segment index)
    (hclaim : g.claimEntry segment index = .ok g') :
    g.lower r = .ok (⟨g'.entryCode pops segment index, false⟩, g') := by
  obtain ⟨rfl, hrange, hc⟩ := h
  have hentry := findEntry_of_inRange hrange hc
  cases pops <;>
    simp [lower, lowerAccess, hentry, bind, Except.bind, hclaim, pure, Except.pure, entryCode]

/-! ## Slots -/

theorem claimEntry_cases {segment : Segment} {index : Nat} (h : g.claimEntry segment index = .ok g') :
    (segment = .statics → g.usesSymbols = true) ∧ g' = g ∨
      segment = .statics ∧ g.usesSymbols = false ∧ g.staticFirst + index < Segment.staticSize ∧
        g' = { g with staticUsed := max g.staticUsed (index + 1) } := by
  cases segment with
  | statics =>
    simp only [claimEntry, claim] at h
    cases hu : g.usesSymbols with
    | true =>
      rw [hu, if_pos rfl, Except.ok.injEq] at h
      exact .inl ⟨fun _ => rfl, h.symm⟩
    | false =>
      rw [hu, if_neg Bool.false_ne_true] at h
      split at h
      · cases h
      · simp only [Except.ok.injEq] at h
        exact .inr ⟨rfl, rfl, by omega, h.symm⟩
  | _ =>
    simp only [claimEntry, Except.ok.injEq] at h
    exact .inl ⟨by simp, h.symm⟩

theorem claimEntry_fields {segment : Segment} {index : Nat} (h : g.claimEntry segment index = .ok g') :
    g' = { g with staticUsed := g'.staticUsed } := by
  obtain ⟨-, rfl⟩ | ⟨-, -, -, rfl⟩ := claimEntry_cases h <;> rfl

theorem lower_fields (h : g.lower r = .ok (plan, g')) : g' = { g with staticUsed := g'.staticUsed } := by
  obtain ⟨_, _, _, rfl⟩ | ⟨_, _, _, _, hclaim, _⟩ := lower_cases h
  · rfl
  · exact claimEntry_fields hclaim

section
variable (hg : g.staticSymbols = false)
include hg

theorem usesSymbols_eq_false : g.usesSymbols = false := by simp [usesSymbols, hg]

theorem claimEntry_ok {segment : Segment} {index : Nat} (h : g.claimEntry segment index = .ok g') :
    segment ≠ .statics ∧ g' = g ∨
      segment = .statics ∧ g.staticFirst + index < Segment.staticSize ∧
        g' = { g with staticUsed := max g.staticUsed (index + 1) } := by
  obtain ⟨hsymbols, rfl⟩ | ⟨hs, -, hslot, hg'⟩ := claimEntry_cases h
  · refine .inl ⟨fun hs => ?_, rfl⟩
    rw [usesSymbols_eq_false hg] at hsymbols
    exact Bool.false_ne_true (hsymbols hs)
  · exact .inr ⟨hs, hslot, hg'⟩

theorem staticSymbols_lower (h : g.lower r = .ok (plan, g')) : g'.staticSymbols = false := by
  rw [lower_fields h]
  exact hg

end

end

end Generator

/-! ## Written requests -/

def Request.toCommand : Request → Command
  | operator word => .arithmetic word
  | access kind segment index => .ofParts kind segment index

theorem lineFeed_not_mem_signed (n : Nat) : Text.lineFeed ∉ Text.signed n := Text.not_mem_decimal (by decide) n

namespace Generator

section
variable {g g' : Generator} {r : Request} {plan : Plan}

theorem lineFeed_not_mem_toText (h : g.lower r = .ok (plan, g')) : Text.lineFeed ∉ r.toText := by
  obtain ⟨op, rfl, -, -⟩ | ⟨pops, segment, index, ⟨rfl, -, -⟩, -, -⟩ := lower_cases h
  · cases op <;> decide
  · have hindex := lineFeed_not_mem_signed index
    have hsegment : Text.lineFeed ∉ segment.name := by cases segment <;> decide
    have hpush : Text.lineFeed ∉ Kind.push.name := by decide
    have hpop : Text.lineFeed ∉ Kind.pop.name := by decide
    have hblank : Text.lineFeed ≠ 32 := by decide
    cases pops <;>
      simp [Request.toText, Command.ofParts, Command.toText, Command.kind, hindex, hsegment, hpush, hpop, hblank]

theorem valid_of_lower (h : g.lower r = .ok (plan, g')) : Reference.Valid r.toCommand := by
  obtain ⟨op, rfl, -, -⟩ | ⟨pops, segment, index, ⟨rfl, hrange, hc⟩, -, -⟩ := lower_cases h
  · exact ⟨op, rfl⟩
  · cases pops with
    | true => exact ⟨segment, index, rfl, rfl, hrange, hc rfl⟩
    | false => exact ⟨segment, index, rfl, rfl, hrange⟩

theorem implements_emission (hg : g.staticSymbols = false) (h : g.lower r = .ok (plan, g')) :
    Implements (g'.emission r plan) [(g.staticFirst, r.toCommand)] := by
  have hremark := lineFeed_not_mem_toText h
  have hg' := usesSymbols_eq_false (staticSymbols_lower hg h)
  have hfields := lower_fields h
  have hplan : Implements plan.lines [(g.staticFirst, r.toCommand)] := by
    obtain ⟨op, rfl, rfl, rfl⟩ | ⟨pops, segment, index, ⟨rfl, hrange, hc⟩, hclaim, rfl⟩ := lower_cases h
    · exact op.implements _ _
    · have hslot : segment = .statics → g.staticFirst + index < Segment.staticSize := by
        intro hs
        obtain ⟨hne, -⟩ | ⟨-, hslot, -⟩ := claimEntry_ok hg hclaim
        · exact absurd hs hne
        · exact hslot
      have hfirst : g'.staticFirst = g.staticFirst := by rw [hfields]
      rw [← hfirst] at hslot ⊢
      cases pops with
      | true => exact implements_pop hg' hrange hslot (hc rfl)
      | false => exact implements_push hg' hrange hslot
  unfold emission
  split
  · exact hplan.remark hremark
  · exact hplan

end

end Generator

end HackStack
