import HackStack.Proofs.Lowering.Requests
import HackStack.Translation

/-!
# Calls to a translator

A translator is driven by calls: it goes on to a file, or it lowers a request. A request is rejected, or fails to be
written, or is written; `request_cases` says what each of the three leaves behind. `outputs` lists what the calls
of a run have written.
-/

namespace HackStack

open Asm

inductive Call where
  | file (path : Text)
  | request (r : Request)
  deriving DecidableEq, Repr

/-- What a request has written. The file gone on to last is at `path`, and the name that the generator keeps had
changed `changes` times. -/
structure Output where
  path : Text
  changes : Nat
  request : Request
  text : Text
  deriving DecidableEq, Repr

namespace Generator

@[simp] theorem setFile_staticSymbols (g : Generator) (path : Text) :
    (g.setFile path).staticSymbols = g.staticSymbols := by
  unfold setFile
  split <;> rfl

@[simp] theorem setFile_comparisons (g : Generator) (path : Text) : (g.setFile path).comparisons = g.comparisons := by
  unfold setFile
  split <;> rfl

@[simp] theorem setFile_fileName (g : Generator) (path : Text) : (g.setFile path).fileName = keptName path := by
  unfold setFile
  split
  · rename_i h; exact h.symm
  · rfl

theorem written_fields (g : Generator) (plan : Plan) :
    g.written plan = { g with comparisons := (g.written plan).comparisons } := by
  unfold written
  split <;> rfl

theorem staticSymbols_written (g : Generator) (plan : Plan) : (g.written plan).staticSymbols = g.staticSymbols := by
  rw [written_fields]

end Generator

namespace Translator

section
variable {σ : Type} [Sink σ]

def call (t : Translator σ) : Call → Translator σ × Option Error
  | .file path => ({ t with generator := t.generator.setFile path }, none)
  | .request r => t.request r

def calls (t : Translator σ) : List Call → Translator σ
  | [] => t
  | c :: rest => calls (t.call c).1 rest

theorem calls_append (t : Translator σ) : ∀ (xs ys : List Call), t.calls (xs ++ ys) = (t.calls xs).calls ys
  | [], _ => rfl
  | c :: xs, ys => calls_append (t.call c).1 xs ys

end

/-- What calls write, from a translator that has gone on to `path` last and has changed its name `changes` times. -/
def outputs (path : Text) (changes : Nat) (t : Translator MemorySink) : List Call → List Output
  | [] => []
  | .file path' :: rest =>
    outputs path' (if Generator.keptName path' = t.generator.fileName then changes else changes + 1)
      { t with generator := t.generator.setFile path' } rest
  | .request r :: rest =>
    match t.request r with
    | (t', some _) => outputs path changes t' rest
    | (t', none) =>
      ⟨path, changes, r, t'.sink.text.drop t.sink.text.length⟩ :: outputs path changes t' rest

theorem text_cons (s : MemorySink) (text : Text) (calls : Nat) :
    { s with calls := calls, taken := text :: s.taken }.text = s.text ++ text := by
  simp [MemorySink.text]

section
variable (t : Translator MemorySink) (r : Request)

theorem request_memory : t.request r =
    match t.generator.lower r with
    | .error rejection => (t, some { cause := .rejected rejection })
    | .ok (plan, g) =>
      if t.sink.fails (t.sink.calls + 1) then
        ({ t with generator := g, sink := { t.sink with calls := t.sink.calls + 1 } },
          some ⟨[.writing r.toText], .sinkFailed⟩)
      else
        ({ t with
            generator := g.written plan
            sink := { t.sink with calls := t.sink.calls + 1, taken := render (g.emission r plan) :: t.sink.taken } }.report
          (emitted g r), none) := by
  unfold request
  cases t.generator.lower r with
  | error rejection => rfl
  | ok result =>
    simp only [Sink.write, MemorySink.write]
    by_cases hf : t.sink.fails (t.sink.calls + 1) = true <;> simp [hf, Error.within]

/-- A request is rejected and nothing happens; or it is lowered but not written, and only slots are claimed; or its
code is written. -/
theorem request_cases :
    (∃ e, t.request r = (t, some e)) ∨
      ∃ plan g, t.generator.lower r = .ok (plan, g) ∧
        ((∃ t' e, t.request r = (t', some e) ∧ t'.generator = g ∧ t'.sink.text = t.sink.text) ∨
          ∃ t', t.request r = (t', none) ∧ t'.generator = g.written plan ∧
            t'.sink.text = t.sink.text ++ render (g.emission r plan)) := by
  rw [request_memory]
  cases hl : t.generator.lower r with
  | error e => exact .inl ⟨_, rfl⟩
  | ok result =>
    obtain ⟨plan, g⟩ := result
    refine .inr ⟨plan, g, rfl, ?_⟩
    dsimp only
    by_cases hf : t.sink.fails (t.sink.calls + 1) = true
    · rw [if_pos hf]
      exact .inl ⟨_, _, rfl, rfl, rfl⟩
    · rw [if_neg hf]
      exact .inr ⟨_, rfl, rfl, text_cons t.sink _ _⟩

variable {t r}

theorem request_none {t' : Translator MemorySink} (h : t.request r = (t', none)) :
    ∃ plan g, t.generator.lower r = .ok (plan, g) ∧ t'.generator = g.written plan ∧
      t'.sink.text = t.sink.text ++ render (g.emission r plan) := by
  obtain ⟨e, he⟩ | ⟨plan, g, hl, ⟨t₁, e, he, -⟩ | ⟨t₁, he, hgen, htext⟩⟩ := request_cases t r
  · cases h.symm.trans he
  · cases h.symm.trans he
  · cases h.symm.trans he
    exact ⟨plan, g, hl, hgen, htext⟩

end

theorem text_calls : ∀ (cs : List Call) (path : Text) (changes : Nat) (t : Translator MemorySink),
    (t.calls cs).sink.text = t.sink.text ++ (t.outputs path changes cs).flatMap Output.text
  | [], _, _, t => by simp [calls, outputs]
  | .file path' :: rest, _, _, t => text_calls rest path' _ { t with generator := t.generator.setFile path' }
  | .request r :: rest, path, changes, t => by
    rw [calls, call, outputs]
    obtain ⟨e, he⟩ | ⟨plan, g, -, ⟨t', e, he, -, htext⟩ | ⟨t', he, -, htext⟩⟩ := request_cases t r
    · rw [he]
      exact text_calls rest path changes t
    · rw [he, ← htext]
      exact text_calls rest path changes t'
    · rw [he]
      simp only [List.flatMap_cons]
      rw [text_calls rest path changes t', htext, List.drop_left, List.append_assoc]

end Translator

end HackStack
