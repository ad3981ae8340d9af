import HackStack.Proofs.Translation.Driver

/-!
# Requests that fail

A request that is rejected leaves everything as it was. One that fails to be written leaves the text and the label
pairs as they were, but it has already claimed its static slot: `NeedsSlot` says which requests do. All others
leave no trace, so a run goes on as if they had not been made.
-/

namespace HackStack

open Asm

namespace Generator

/-- Whether a request asks for a static entry whose slot exists and is not claimed yet. -/
def NeedsSlot (g : Generator) (r : Request) (index : Nat) : Prop :=
  (∃ pops : Bool, r = .access (if pops then .pop else .push) Segment.statics.name index) ∧
    g.usesSymbols = false ∧ g.staticUsed ≤ index ∧ g.staticFirst + index < Segment.staticSize

section
variable {g : Generator} {r : Request}

theorem lower_needsSlot {index : Nat} (h : g.NeedsSlot r index) :
    ∃ plan, g.lower r = .ok (plan, { g with staticUsed := index + 1 }) := by
  obtain ⟨⟨pops, hr⟩, hsymbols, hused, hslot⟩ := h
  have hclaim : g.claimEntry .statics index = .ok { g with staticUsed := index + 1 } := by
    simp only [claimEntry, claim, hsymbols, Bool.false_eq_true, if_false, if_neg (Nat.not_le.mpr hslot),
      Nat.max_eq_right (Nat.le_succ_of_le hused)]
  have hrange : index < Segment.statics.size := Nat.lt_of_le_of_lt (Nat.le_add_left index g.staticFirst) hslot
  exact ⟨_, lower_of_asks ⟨hr, hrange, by simp⟩ hclaim⟩

theorem lower_unneeded {g' : Generator} {plan : Plan} (h : g.lower r = .ok (plan, g'))
    (hn : ∀ index, ¬ g.NeedsSlot r index) : g' = g := by
  obtain ⟨_, _, _, rfl⟩ | ⟨pops, segment, index, ⟨hr, _, _⟩, hclaim, _⟩ := lower_cases h
  · rfl
  · obtain ⟨-, rfl⟩ | ⟨rfl, hsymbols, hslot, rfl⟩ := claimEntry_cases hclaim
    · rfl
    · have hused : index < g.staticUsed := by
        by_contra hle
        exact hn index ⟨⟨pops, hr⟩, hsymbols, Nat.le_of_not_lt hle, hslot⟩
      rw [Nat.max_eq_left hused]

end

end Generator

namespace Translator

section
variable {t t' : Translator MemorySink} {r : Request} {e : Error} (h : t.request r = (t', some e))
include h

theorem request_some : t' = t ∧ (∀ result, t.generator.lower r ≠ .ok result) ∨
    ∃ plan, t.generator.lower r = .ok (plan, t'.generator) := by
  unfold request at h
  cases hl : t.generator.lower r with
  | error rejection =>
    rw [hl] at h
    exact .inl ⟨(Prod.mk.inj h).1.symm, by simp⟩
  | ok result =>
    obtain ⟨plan, g⟩ := result
    rw [hl] at h
    simp only at h
    split at h
    · cases h
      exact .inr ⟨plan, rfl⟩
    · cases h

theorem text_failed : t'.sink.text = t.sink.text := by
  obtain ⟨e', he⟩ | ⟨plan, g, -, ⟨t₁, e', he, -, htext⟩ | ⟨t₁, he, -⟩⟩ := request_cases t r
  · cases h.symm.trans he
    rfl
  · cases h.symm.trans he
    exact htext
  · cases h.symm.trans he

theorem generator_failed {index : Nat} (hn : t.generator.NeedsSlot r index) :
    t'.generator = { t.generator with staticUsed := index + 1 } := by
  obtain ⟨plan, hlower⟩ := Generator.lower_needsSlot hn
  obtain ⟨-, hrejected⟩ | ⟨plan', hlower'⟩ := request_some h
  · exact absurd hlower (hrejected _)
  · rw [hlower, Except.ok.injEq, Prod.mk.injEq] at hlower'
    exact hlower'.2.symm

theorem generator_kept (hn : ∀ index, ¬ t.generator.NeedsSlot r index) : t'.generator = t.generator := by
  obtain ⟨rfl, -⟩ | ⟨plan, hlower⟩ := request_some h
  · rfl
  · exact Generator.lower_unneeded hlower hn

end

/-- A request that returns an error, in any state and with any writes failing. It adds nothing to the text. It leaves
the generator as it was unless it needed a slot, and then only this slot is claimed. If it needed none, all later calls
go on as if it had not been made, with the sink as the failed write has left it. -/
theorem failed_request_keeps {t t' : Translator MemorySink} {r : Request} {e : Error}
    (h : t.request r = (t', some e)) :
    t'.sink.text = t.sink.text ∧
    (t'.generator = t.generator ↔ ∀ index, ¬ t.generator.NeedsSlot r index) ∧
    (∀ index, t.generator.NeedsSlot r index → t'.generator = { t.generator with staticUsed := index + 1 }) ∧
    ((∀ index, ¬ t.generator.NeedsSlot r index) →
      ∀ cs, Agrees (t'.calls cs) ({ t with sink := t'.sink }.calls cs)) := by
  refine ⟨text_failed h, ⟨fun hsame index hn => ?_, generator_kept h⟩, fun index => generator_failed h,
    fun hn cs => ?_⟩
  · have hused := congrArg Generator.staticUsed ((generator_failed h hn).symm.trans hsame)
    have hle : t.generator.staticUsed ≤ index := hn.2.2.1
    simp only at hused
    omega
  · have hkept : t'.generator = t.generator := generator_kept h hn
    exact agrees_calls cs ⟨hkept, rfl⟩

def failingTranslator : Translator MemorySink :=
  (new false false ({ fails := fun n => n == 1 } : MemorySink)).calls [.file (ascii "A.vm")]

theorem failed_request_keeps_sample :
    ∃ t' e, failingTranslator.request (.operator (ascii "gt")) = (t', some e) ∧
      t'.generator = failingTranslator.generator := by
  have herror : ∃ t' e, failingTranslator.request (.operator (ascii "gt")) = (t', some e) := ⟨_, _, rfl⟩
  obtain ⟨t', e, h⟩ := herror
  refine ⟨t', e, h, (failed_request_keeps h).2.1.mpr ?_⟩
  rintro index ⟨⟨pops, hr⟩, -⟩
  cases hr

/-- A push of a static entry that fails to be written shifts the static cells of the next file. -/
theorem failed_write_claims_slot :
    ∃ t' e, failingTranslator.request (.access .push (ascii "static") 3) = (t', some e) ∧
      t'.generator ≠ failingTranslator.generator ∧
      (t'.calls [.file (ascii "B.vm"), .request (.access .push (ascii "static") 0)]).sink.text ≠
        ({ failingTranslator with sink := t'.sink }.calls
          [.file (ascii "B.vm"), .request (.access .push (ascii "static") 0)]).sink.text :=
  ⟨_, _, rfl, by decide, by decide⟩

end Translator

end HackStack
