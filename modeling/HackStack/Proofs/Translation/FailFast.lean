import HackStack.Proofs.Listing
import HackStack.Proofs.Translation.Emissions

/-!
# Files up to the first failure

A file is translated command by command, until one fails. The commands before it have been written, each by one write,
with the label pairs and the static slots that the generator had left at the start of the file. The others have not been
looked at, and the error has the line of the command that failed.
-/

namespace HackStack

open Asm

/-! ## Texts of requests -/

namespace Generator

/-- The generator once a request is written. -/
def past (g : Generator) (r : Request) : Generator :=
  { g.claiming r with comparisons := if r.compares then g.comparisons + 1 else g.comparisons }

/-- The text of a request, or why it has none. -/
def translation (g : Generator) (r : Request) : Except Rejection Text :=
  (g.lower r).map fun result => render (result.2.emission r result.1)

/-- The texts of requests that are written one after the other. -/
def translations (g : Generator) : List Request → Except Rejection (List Text)
  | [] => .ok []
  | r :: rs => do
    let text ← g.translation r
    let texts ← (g.past r).translations rs
    return text :: texts

theorem comparison_of_lower {g g' : Generator} {r : Request} {plan : Plan} (h : g.lower r = .ok (plan, g')) :
    plan.comparison = r.compares := by
  rcases lower_cases h with ⟨op, rfl, rfl, -⟩ | ⟨pops, segment, index, hasks, -, rfl⟩
  · exact (compares_operator op).symm
  · rw [hasks.request]
    rfl

theorem written_claiming {g : Generator} {r : Request} {plan : Plan} (h : plan.comparison = r.compares) :
    (g.claiming r).written plan = g.past r := by
  unfold written past
  rw [h]
  cases r.compares <;> rfl

theorem foldl_past_comparisons : ∀ (rs : List Request) (g : Generator),
    (rs.foldl past g).comparisons = g.comparisons + rs.countP Request.compares
  | [], _ => rfl
  | r :: rs, g => by
    rw [List.foldl_cons, foldl_past_comparisons rs, List.countP_cons, past]
    cases r.compares
    · simp
    · simp only [if_true]
      omega

end Generator

/-! ## Requests one after the other -/

namespace Translator

section
variable (t : Translator MemorySink) (r : Request)

theorem request_eq : t.request r =
    match t.generator.translation r with
    | .error rejection => (t, some { cause := .rejected rejection })
    | .ok text =>
      if t.sink.fails (t.sink.calls + 1) then
        ({ t with generator := t.generator.claiming r, sink := { t.sink with calls := t.sink.calls + 1 } },
          some ⟨[.writing r.toText], .sinkFailed⟩)
      else
        ({ t with
            generator := t.generator.past r
            sink := { t.sink with calls := t.sink.calls + 1, taken := text :: t.sink.taken } }.report
          (emitted (t.generator.claiming r) r), none) := by
  rw [request_memory, Generator.translation]
  cases hl : t.generator.lower r with
  | error rejection => rfl
  | ok result =>
    obtain ⟨plan, g⟩ := result
    dsimp only [Except.map]
    rw [Generator.lower_claiming hl, Generator.written_claiming (Generator.comparison_of_lower hl)]

end

/-- Whether a translator has written requests one after the other, records and commands passed over aside. -/
structure Wrote (t : Translator MemorySink) (rs : List Request) (texts : List Text) (t' : Translator MemorySink) :
    Prop where
  translations : t.generator.translations rs = .ok texts
  generator : t'.generator = rs.foldl Generator.past t.generator
  sink : t'.sink = { t.sink with calls := t.sink.calls + rs.length, taken := texts.reverse ++ t.sink.taken }
  accepted : ∀ n < rs.length, t.sink.fails (t.sink.calls + n + 1) = false
  commands : t'.commands = t.commands + rs.length

/-- How a translator ends behind the entries that it has translated: there are no more, or the next one cannot be
decoded, is rejected or cannot be written. -/
inductive Ends (t : Translator MemorySink) : List Entry → Translator MemorySink → Option Error → Prop where
  | finished : Ends t [] t none
  | undecodable {entry rest e} (h : Command.decode entry.text = .error e) :
    Ends t (entry :: rest) t (some ⟨[.line entry.line], .undecodable e⟩)
  | rejected {entry rest c r rejection} (hc : Command.decode entry.text = .ok c) (hr : requestFor? c = some r)
      (h : t.generator.translation r = .error rejection) :
    Ends t (entry :: rest) t (some ⟨[.line entry.line], .rejected rejection⟩)
  | unwritten {entry rest c r text} (hc : Command.decode entry.text = .ok c) (hr : requestFor? c = some r)
      (h : t.generator.translation r = .ok text) (hfails : t.sink.fails (t.sink.calls + 1) = true) :
    Ends t (entry :: rest)
      { t with generator := t.generator.claiming r, sink := { t.sink with calls := t.sink.calls + 1 } }
      (some ⟨[.line entry.line, .writing r.toText], .sinkFailed⟩)

namespace Wrote

variable {t t₁ t' : Translator MemorySink} {rs : List Request} {texts : List Text}

theorem of_agrees (h : Wrote t₁ rs texts t') (hagrees : Agrees t t₁) (hcommands : t₁.commands = t.commands) :
    Wrote t rs texts t' := by
  rcases hagrees with ⟨hgenerator, hsink⟩
  constructor
  · rw [hgenerator]; exact h.translations
  · rw [hgenerator]; exact h.generator
  · rw [hsink]; exact h.sink
  · rw [hsink]; exact h.accepted
  · rw [← hcommands]; exact h.commands

theorem nil (t : Translator MemorySink) : Wrote t [] [] t := by
  constructor <;> simp [Generator.translations]

theorem cons {r : Request} {text : Text} (htext : t.generator.translation r = .ok text)
    (hgenerator : t₁.generator = t.generator.past r)
    (hsink : t₁.sink = { t.sink with calls := t.sink.calls + 1, taken := text :: t.sink.taken })
    (haccepted : t.sink.fails (t.sink.calls + 1) = false) (hcommands : t₁.commands = t.commands + 1)
    (h : Wrote t₁ rs texts t') : Wrote t (r :: rs) (text :: texts) t' := by
  constructor
  · have htexts := h.translations
    rw [hgenerator] at htexts
    simp only [Generator.translations, htext, htexts, bind, Except.bind, pure, Except.pure]
  · rw [h.generator, hgenerator, List.foldl_cons]
  · rw [h.sink, hsink]
    simp [Nat.add_assoc, Nat.add_comm 1]
  · intro n hn
    cases n with
    | zero => exact haccepted
    | succ n =>
      have hlater := h.accepted n (Nat.lt_of_succ_lt_succ hn)
      rw [hsink] at hlater
      rw [← hlater]
      dsimp only
      congr 1
      omega
  · rw [h.commands, hcommands, List.length_cons]
    omega

theorem text (h : Wrote t rs texts t') : t'.sink.text = t.sink.text ++ texts.flatten := by
  simp [h.sink, MemorySink.text]

end Wrote

theorem entries_ends : ∀ (list : List Entry) (t : Translator MemorySink),
    ∃ (done rest : List Entry) (cs : List Command) (texts : List Text) (t' : Translator MemorySink),
    list = done ++ rest ∧ done.map (fun entry => Command.decode entry.text) = cs.map .ok ∧
      Wrote t (cs.filterMap requestFor?) texts t' ∧ Ends t' rest (t.entries list).1 (t.entries list).2
  | [], t => ⟨[], [], [], [], t, rfl, rfl, .nil t, .finished⟩
  | entry :: list, t => by
    -- A command that is done leaves a translator from which the other entries go on; any other ends here.
    rw [entries]
    cases hd : Command.decode entry.text with
    | error e => exact ⟨[], entry :: list, [], [], t, rfl, rfl, .nil t, .undecodable hd⟩
    | ok c =>
      simp only [command]
      cases hr : requestFor? c with
      | none =>
        rcases entries_ends list ({ t with skipped := t.skipped + 1 }.report _) with
          ⟨done, rest, cs, texts, t', rfl, hcs, hwrote, hends⟩
        refine ⟨entry :: done, rest, c :: cs, texts, t', rfl, ?_, ?_, hends⟩
        · rw [List.map_cons, List.map_cons, hd, hcs]
        · rw [List.filterMap_cons_none hr]
          exact hwrote.of_agrees ⟨rfl, rfl⟩ rfl
      | some r =>
        dsimp only
        rw [request_eq]
        cases ht : t.generator.translation r with
        | error rejection => exact ⟨[], entry :: list, [], [], t, rfl, rfl, .nil t, .rejected hd hr ht⟩
        | ok text =>
          by_cases hf : t.sink.fails (t.sink.calls + 1) = true
          · simp only [hf, if_true]
            exact ⟨[], entry :: list, [], [], t, rfl, rfl, .nil t, .unwritten hd hr ht hf⟩
          · rw [Bool.not_eq_true] at hf
            simp only [hf, Bool.false_eq_true, if_false]
            rcases entries_ends list _ with ⟨done, rest, cs, texts, t', rfl, hcs, hwrote, hends⟩
            refine ⟨entry :: done, rest, c :: cs, text :: texts, t', rfl, ?_, ?_, hends⟩
            · rw [List.map_cons, List.map_cons, hd, hcs]
            · rw [List.filterMap_cons_some hr]
              exact .cons ht rfl rfl hf rfl hwrote

section
variable {t t' : Translator MemorySink} {rest : List Entry}

theorem Ends.kept {e : Option Error} (h : Ends t rest t' e) : t'.sink.text = t.sink.text ∧ t'.commands = t.commands ∧
    t'.generator = { t.generator with staticUsed := t'.generator.staticUsed } := by
  cases h <;> exact ⟨rfl, rfl, rfl⟩

theorem Ends.line {e : Error} (h : Ends t rest t' (some e)) : ∃ entry rest' context,
    rest = entry :: rest' ∧ e.context = .line entry.line :: context := by
  cases h <;> exact ⟨_, _, _, rfl, rfl⟩

theorem message_within_file {e : Error} {n : Nat} {context : List Context} (h : e.context = .line n :: context)
    (name : Text) : ∃ reason, (e.within (.file name)).message =
      name ++ ascii ": line " ++ Text.decimal n ++ ascii ": " ++ reason := by
  refine ⟨({ e with context := context } : Error).message, ?_⟩
  simp [Error.message, Error.within, h, Context.toText, ascii]

end

section
variable (t : Translator MemorySink) (name : Text)

theorem file_unreadable (e : FileError) : t.file name (.error e) =
    (t, some ⟨[.file name, .task (ascii "read vm source")], .file e⟩) := rfl

theorem file_of_read?_none {source : Text} (h : Listing.read? source = none) : t.file name (.ok source) =
    (t, some ⟨[.file name, .task (ascii "read vm source")], .lineTooLong⟩) := by
  simp only [file, h]
  rfl

/-- A file ends as its entries do. The error also names the file. -/
theorem file_ends {source : Text} {list : List Entry} (h : Listing.read? source = some list) :
    ∃ (done rest : List Entry) (cs : List Command) (texts : List Text) (t₁ t₂ : Translator MemorySink)
      (e : Option Error), list = done ++ rest ∧ done.map (fun entry => Command.decode entry.text) = cs.map .ok ∧
      Wrote { t with generator := t.generator.setFile name } (cs.filterMap requestFor?) texts t₁ ∧
      Ends t₁ rest t₂ e ∧
      ∃ log, t.file name (.ok source) = ({ t₂ with log := log }, e.map (Error.within (.file name))) := by
  simp only [file, h, listing]
  generalize ht₀ : report { t with generator := t.generator.setFile name } _ = t₀
  have hagrees : Agrees { t with generator := t.generator.setFile name } t₀ ∧ t₀.commands = t.commands := by
    rw [← ht₀]
    exact ⟨⟨rfl, rfl⟩, rfl⟩
  rcases entries_ends list t₀ with ⟨done, rest, cs, texts, t₁, hlist, hcs, hwrote, hends⟩
  refine ⟨done, rest, cs, texts, t₁, (t₀.entries list).1, (t₀.entries list).2, hlist, hcs, ?_, hends, ?_⟩
  · exact hwrote.of_agrees hagrees.1 hagrees.2
  · cases t₀.entries list with
    | mk t₂ e => cases e <;> exact ⟨_, rfl⟩

end

/-- A file is translated up to the first command that cannot be decoded, is rejected or cannot be written. The operators,
pushes and pops before it have been written, one write for each, and nothing else has. The error names the file and the
line of the command that failed. A file that cannot be read changes nothing. -/
theorem file_stops_at_first_failure (t : Translator MemorySink) (name : Text) :
    (∀ e, t.file name (.error e) = (t, some ⟨[.file name, .task (ascii "read vm source")], .file e⟩)) ∧
    (∀ source, Listing.read? source = none → t.file name (.ok source) =
      (t, some ⟨[.file name, .task (ascii "read vm source")], .lineTooLong⟩)) ∧
    ∀ source list, Listing.read? source = some list →
      list = ((Text.lines source).zipIdx 1).filterMap Listing.entry? ∧
      ∃ (done rest : List Entry) (cs : List Command) (texts : List Text) (t₁ t₂ : Translator MemorySink)
        (e : Option Error), list = done ++ rest ∧ done.map (fun entry => Command.decode entry.text) = cs.map .ok ∧
        Wrote { t with generator := t.generator.setFile name } (cs.filterMap requestFor?) texts t₁ ∧
        Ends t₁ rest t₂ e ∧
        (∃ log, t.file name (.ok source) = ({ t₂ with log := log }, e.map (Error.within (.file name)))) ∧
        t₂.sink.text = t.sink.text ++ texts.flatten ∧
        t₂.commands = t.commands + (cs.filterMap requestFor?).length ∧
        t₂.generator.comparisons = t.generator.comparisons + (cs.filterMap requestFor?).countP Request.compares ∧
        ∀ error, e = some error → ∃ entry rest' reason, rest = entry :: rest' ∧
          (error.within (.file name)).message =
            name ++ ascii ": line " ++ Text.decimal entry.line ++ ascii ": " ++ reason := by
  refine ⟨file_unreadable t name, fun _ => file_of_read?_none t name, fun source list hread => ?_⟩
  refine ⟨Listing.entries_of_read? hread, ?_⟩
  rcases file_ends t name hread with ⟨done, rest, cs, texts, t₁, t₂, e, hlist, hcs, hwrote, hends, hfile⟩
  rcases hends.kept with ⟨htext, hcommands, hgenerator⟩
  refine ⟨done, rest, cs, texts, t₁, t₂, e, hlist, hcs, hwrote, hends, hfile, ?_, ?_, ?_, ?_⟩
  · rw [htext]
    exact hwrote.text
  · rw [hcommands]
    exact hwrote.commands
  · have hcounted := Generator.foldl_past_comparisons (cs.filterMap requestFor?) (t.generator.setFile name)
    rw [hgenerator, hwrote.generator]
    rwa [Generator.setFile_comparisons] at hcounted
  · rintro error rfl
    rcases hends.line with ⟨entry, rest', context, hrest, hcontext⟩
    rcases message_within_file hcontext name with ⟨reason, hreason⟩
    exact ⟨entry, rest', reason, hrest, hreason⟩

def halfway : Translator MemorySink :=
  { generator := { fileName := ascii "A", staticUsed := 3, comparisons := 1 }
    sink := { fails := fun n => n == 7, calls := 5 }
    commands := 4 }

theorem file_stops_at_first_failure_sample :
    let result := halfway.file (ascii "d/B.vm") (.ok (ascii "// B\n\neq\nlabel X\n gt // again\nadd\n"))
    result.2 = some ⟨[.file (ascii "d/B.vm"), .line 5, .writing (ascii "gt")], .sinkFailed⟩ ∧
    ∃ (cs : List Command) (texts : List Text),
      (halfway.generator.setFile (ascii "d/B.vm")).translations (cs.filterMap requestFor?) = .ok texts ∧
      result.1.sink.text = texts.flatten ∧ result.1.commands = 4 + (cs.filterMap requestFor?).length := by
  intro result
  have hread : Listing.read? (ascii "// B\n\neq\nlabel X\n gt // again\nadd\n") =
      some [⟨3, ascii "eq"⟩, ⟨4, ascii "label X"⟩, ⟨5, ascii "gt"⟩, ⟨6, ascii "add"⟩] := by decide +kernel
  rcases (file_stops_at_first_failure halfway (ascii "d/B.vm")).2.2 _ _ hread with
    ⟨-, done, rest, cs, texts, t₁, t₂, e, -, -, hwrote, -, ⟨log, hfile⟩, htext, hcommands, -⟩
  have hresult : result = ({ t₂ with log := log }, e.map (Error.within (.file (ascii "d/B.vm")))) := hfile
  refine ⟨by decide +kernel, cs, texts, ?_, ?_, ?_⟩
  · exact hwrote.translations
  · rw [hresult]
    exact htext
  · rw [hresult]
    exact hcommands

end Translator

end HackStack
