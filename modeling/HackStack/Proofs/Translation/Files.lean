import HackStack.Proofs.Translation.Calls

/-!
# Translated files

A translation that succeeds has written the code of every command of every file, one after the other, and each
file has the static slots after those of the files before. So what it writes implements the commands of all files,
and the assembled program does on the machine what they do on the reference machine.
-/

namespace HackStack

open Asm Reference

/-! ## Commands of several files -/

def decoded (list : List Entry) : List Command := list.filterMap fun e => (Command.decode e.text).toOption

def sourceCommands (source : Text) : List Command := decoded ((Listing.read? source).getD [])

namespace Reference

/-- How many static slots of its file a command asks for: those up to the one that it uses. -/
def claims : Command → Nat
  | .push name index | .pop name index => if name = Segment.statics.name then index.toNat + 1 else 0
  | _ => 0

def claimed : List Command → Nat
  | [] => 0
  | c :: rest => max (claims c) (claimed rest)

/-- The commands of files, each with the first static slot of its file. `name` is the name of the file before,
which has `used` slots from `first` on; a file of the same name goes on with them, any other starts behind. -/
def located (name : Text) (first used : Nat) : List (Text × List Command) → List Located
  | [] => []
  | (path, commands) :: rest =>
    if Generator.keptName path = name then
      commands.map (first, ·) ++ located name first (max used (claimed commands)) rest
    else
      commands.map (first + used, ·) ++ located (Generator.keptName path) (first + used) (claimed commands) rest

theorem claimed_append : ∀ (cs ds : List Command), claimed (cs ++ ds) = max (claimed cs) (claimed ds)
  | [], ds => by simp [claimed]
  | c :: cs, ds => by rw [List.cons_append, claimed, claimed_append, claimed, max_assoc]

/-- The commands of files that are translated from scratch. -/
def program (files : List (Text × Text)) : List Located :=
  located [] 0 0 (files.map fun file => (file.1, sourceCommands file.2))

end Reference

/-! ## Slots of requests -/

namespace Generator

def slots (g : Generator) (r : Request) : Nat := if g.usesSymbols then 0 else claims r.toCommand

def claiming (g : Generator) (r : Request) : Generator := { g with staticUsed := max g.staticUsed (g.slots r) }

theorem lower_claiming {g g' : Generator} {r : Request} {plan : Plan} (h : g.lower r = .ok (plan, g')) :
    g' = g.claiming r := by
  obtain ⟨op, rfl, -, rfl⟩ | ⟨pops, segment, index, ⟨rfl, -, -⟩, hclaim, -⟩ := lower_cases h
  · have hclaims : claims (Request.toCommand (.operator op.name)) = 0 := rfl
    simp [claiming, slots, hclaims]
  · have hclaims : claims (Request.toCommand (.access (if pops then .pop else .push) segment.name index)) =
        if segment = .statics then index + 1 else 0 := by
      have hname : segment.name = Segment.statics.name ↔ segment = .statics :=
        ⟨Segment.name_injective, congrArg Segment.name⟩
      cases pops <;> simp [Request.toCommand, Command.ofParts, claims, hname]
    obtain ⟨hsymbols, rfl⟩ | ⟨rfl, hsymbols, -, rfl⟩ := claimEntry_cases hclaim
    · by_cases hs : segment = .statics
      · simp [claiming, slots, hsymbols hs]
      · simp [claiming, slots, hclaims, hs]
    · simp [claiming, slots, hclaims, hsymbols]

end Generator

namespace Translator

def sources {σ : Type} [Sink σ] (t : Translator σ) : List (Text × Text) → Translator σ × Option Error
  | [] => (t, none)
  | (name, source) :: rest =>
    match t.file name (.ok source) with
    | (t, some e) => (t, some e)
    | (t, none) => sources t rest

/-! ## Requests and commands -/

theorem toCommand_of_requestFor? {c : Command} {r : Request} (h : requestFor? c = some r) : r.toCommand = c := by
  cases c with
  | arithmetic | push | pop =>
    simp only [requestFor?, Option.some.injEq] at h
    rw [← h]
    rfl
  | _ => cases h

section
variable {t t' : Translator MemorySink} {r : Request}

theorem written_lower {g g' : Generator} {plan : Generator.Plan} (hg : g.staticSymbols = false)
    (h : g.lower r = .ok (plan, g')) :
    g'.written plan =
      { g with
        staticUsed := max g.staticUsed (claims r.toCommand)
        comparisons := (g'.written plan).comparisons } := by
  have hwritten := g'.written_fields plan
  have hslots : g.slots r = claims r.toCommand := by simp [Generator.slots, Generator.usesSymbols_eq_false hg]
  rw [hwritten, Generator.lower_claiming h, Generator.claiming, hslots]

/-- Whether a translator has gone on by some commands: they are valid, it has written code that implements them, and
it has claimed the slots that they ask for. -/
structure Advances (t t' : Translator MemorySink) (cs : List Command) : Prop where
  valid : ∀ c ∈ cs, Valid c
  generator : t'.generator =
    { t.generator with
      staticUsed := max t.generator.staticUsed (claimed cs)
      comparisons := t'.generator.comparisons }
  code : ∃ ls, t'.sink.text = t.sink.text ++ render ls ∧ Implements ls (cs.map (t.generator.staticFirst, ·))

theorem Advances.nil (hg : t'.generator = t.generator) (hs : t'.sink = t.sink) : Advances t t' [] where
  valid := by simp
  generator := by rw [hg, claimed, Nat.max_zero]
  code := ⟨[], by simp [hs, render], .nil⟩

theorem Advances.trans {t₁ t₂ t₃ : Translator MemorySink} {cs ds : List Command} (h : Advances t₁ t₂ cs)
    (h' : Advances t₂ t₃ ds) : Advances t₁ t₃ (cs ++ ds) := by
  obtain ⟨hvalid, hg, xs, hx, hcode⟩ := h
  obtain ⟨hvalid', hg', ys, hy, hcode'⟩ := h'
  have hfirst : t₂.generator.staticFirst = t₁.generator.staticFirst := by rw [hg]
  constructor
  · exact List.forall_mem_append.mpr ⟨hvalid, hvalid'⟩
  · rw [hg', hg, claimed_append, max_assoc]
  · refine ⟨xs ++ ys, ?_, ?_⟩
    · rw [hy, hx, render_append, List.append_assoc]
    · rw [List.map_append]
      exact hcode.append (hfirst ▸ hcode')

section
variable (hg : t.generator.staticSymbols = false)
include hg

theorem advances_request (h : t.request r = (t', none)) : Advances t t' [r.toCommand] := by
  obtain ⟨plan, g, hl, hgen, htext⟩ := request_none h
  refine ⟨List.forall_mem_singleton.mpr (Generator.valid_of_lower hl), ?_, _, htext,
    Generator.implements_emission hg hl⟩
  rw [hgen, claimed, claimed, Nat.max_zero]
  exact written_lower hg hl

theorem advances_command {c : Command} (h : t.command c = (t', none)) : Advances t t' [c] := by
  unfold command at h
  cases hr : requestFor? c with
  | none =>
    rw [hr] at h
    simp only [Prod.mk.injEq, and_true] at h
    subst h
    have hskip : Valid c ∧ claims c = 0 ∧ (∀ first ram, step first ram c = ram) ∧
        ∀ first ram, Inside first ram c := by
      cases c <;> simp [requestFor?] at hr <;> simp [Valid, claims, step, Inside, stackCells, segmentCell?]
    obtain ⟨hvalid, hclaims, hstep, hinside⟩ := hskip
    refine ⟨List.forall_mem_singleton.mpr hvalid, ?_, [], ?_, .nothing (hstep _) (hinside _)⟩
    · rw [claimed, claimed, hclaims, Nat.max_zero, Nat.max_zero]
      rfl
    · simp [report, render]
  | some r =>
    rw [hr] at h
    have hc : r.toCommand = c := toCommand_of_requestFor? hr
    cases hreq : t.request r with
    | mk t₁ result =>
      cases result with
      | some e => simp [hreq] at h
      | none =>
        simp only [hreq, Prod.mk.injEq, and_true] at h
        subst h
        obtain ⟨hvalid, hgen, hcode⟩ := advances_request hg hreq
        exact hc ▸ ⟨hvalid, hgen, hcode⟩

end

theorem Advances.staticSymbols {cs : List Command} (h : Advances t t' cs) :
    t'.generator.staticSymbols = t.generator.staticSymbols := by
  rw [h.generator]

end

/-! ## Files -/

theorem advances_entries : ∀ {list : List Entry} {t t' : Translator MemorySink},
    t.generator.staticSymbols = false → t.entries list = (t', none) → Advances t t' (decoded list)
  | [], t, t', _, h => by
    simp only [entries, Prod.mk.injEq, and_true] at h
    exact .nil (by rw [h]) (by rw [h])
  | entry :: rest, t, t', hg, h => by
    rw [entries] at h
    cases hd : Command.decode entry.text with
    | error e => simp [hd] at h
    | ok c =>
      rw [hd] at h
      cases hc : t.command c with
      | mk t₁ result =>
        cases result with
        | some e => simp [hc] at h
        | none =>
          simp only [hc] at h
          have hfirst := advances_command hg hc
          have hrest := advances_entries (hfirst.staticSymbols.trans hg) h
          have hdecoded : decoded (entry :: rest) = [c] ++ decoded rest := by
            simp [decoded, hd, Except.toOption]
          exact hdecoded ▸ hfirst.trans hrest

theorem advances_file {t t' : Translator MemorySink} {name source : Text}
    (hg : t.generator.staticSymbols = false) (h : t.file name (.ok source) = (t', none)) :
    Advances { t with generator := t.generator.setFile name } t' (sourceCommands source) := by
  unfold file at h
  cases hr : Listing.read? source with
  | none => simp [hr] at h
  | some list =>
    simp only [hr, listing] at h
    generalize ht : report { t with generator := t.generator.setFile name } _ = t₀ at h
    have hgen : t₀.generator = t.generator.setFile name := by rw [← ht]; rfl
    have hsink : t₀.sink = t.sink := by rw [← ht]; rfl
    cases he : t₀.entries list with
    | mk t₁ result =>
      cases result with
      | some e => simp [he] at h
      | none =>
        simp only [he, Prod.mk.injEq, and_true] at h
        subst h
        have hs₀ : t₀.generator.staticSymbols = false := by rw [hgen, Generator.setFile_staticSymbols, hg]
        obtain ⟨hvalid, hgen₁, hcode⟩ := advances_entries hs₀ he
        rw [hgen] at hgen₁ hcode
        rw [hsink] at hcode
        have hcommands : sourceCommands source = decoded list := by simp [sourceCommands, hr]
        exact hcommands ▸ ⟨hvalid, hgen₁, hcode⟩

def locatedBy (g : Generator) (files : List (Text × Text)) : List Located :=
  located g.fileName g.staticFirst g.staticUsed (files.map fun file => (file.1, sourceCommands file.2))

theorem locatedBy_cons (g : Generator) (name source : Text) (rest : List (Text × Text)) :
    locatedBy g ((name, source) :: rest) =
      (sourceCommands source).map ((g.setFile name).staticFirst, ·) ++
        locatedBy { g.setFile name with
          staticUsed := max (g.setFile name).staticUsed (claimed (sourceCommands source)) } rest := by
  unfold locatedBy
  rw [List.map_cons, located]
  by_cases hname : Generator.keptName name = g.fileName
  · simp only [Generator.setFile, if_pos hname]
  · simp only [Generator.setFile, if_neg hname, Nat.zero_max]

theorem implements_sources : ∀ {files : List (Text × Text)} {t t' : Translator MemorySink},
    t.generator.staticSymbols = false → t.sources files = (t', none) →
    ∃ ls, t'.sink.text = t.sink.text ++ render ls ∧ Implements ls (locatedBy t.generator files)
  | [], t, t', _, h => by
    simp only [sources, Prod.mk.injEq, and_true] at h
    subst h
    exact ⟨[], by simp [render], .nil⟩
  | (name, source) :: rest, t, t', hg, h => by
    rw [sources] at h
    cases hf : t.file name (.ok source) with
    | mk t₁ result =>
      cases result with
      | some e => simp [hf] at h
      | none =>
        simp only [hf] at h
        have hfile := advances_file hg hf
        have hg₁ : t₁.generator.staticSymbols = false := by
          rw [hfile.staticSymbols, Generator.setFile_staticSymbols, hg]
        obtain ⟨ys, hy, hrest⟩ := implements_sources hg₁ h
        obtain ⟨-, hgen, xs, hx, hcode⟩ := hfile
        refine ⟨xs ++ ys, ?_, ?_⟩
        · rw [hy, hx, render_append, List.append_assoc]
        · rw [locatedBy_cons]
          rw [hgen] at hrest
          exact hcode.append hrest

theorem implements_fresh {annotate : Bool} {fails : Nat → Bool} {files : List (Text × Text)}
    {t : Translator MemorySink} (h : (new annotate false ({ fails := fails } : MemorySink)).sources files = (t, none)) :
    ∃ ls, t.sink.text = render ls ∧ Implements ls (program files) := by
  obtain ⟨ls, htext, himpl⟩ := implements_sources rfl h
  exact ⟨ls, htext, himpl⟩

/-- The assembled translation of files, on any machine with the registers and with steps for every word: if all
commands find their cells, it halts with the memory of the reference machine. If a command misses a cell, it
traps. -/
theorem translated_files_run {annotate : Bool} {fails : Nat → Bool} {files : List (Text × Text)}
    {t : Translator MemorySink} (ht : (new annotate false ({ fails := fails } : MemorySink)).sources files = (t, none))
    {p : Program} (hp : assemble t.sink.text = .ok p) (hwords : p.words.size ≤ 65535)
    {m : Machine} (hram : 16 ≤ m.ram.size) {limit : Option Nat} (hlimit : ∀ n, limit = some n → p.words.size ≤ n) :
    (Fits (program files) m.ram →
      ∃ m', (m.load p).run limit = (m', .halted) ∧ m'.ram = Reference.run (program files) m.ram ∧
        m'.pc.toNat = p.words.size ∧ m'.steps ≤ p.words.size) ∧
    (Strays (program files) m.ram → ∃ m' trap, (m.load p).run limit = (m', .trapped trap)) := by
  obtain ⟨ls, htext, himpl⟩ := implements_fresh ht
  rw [htext] at hp
  exact ⟨himpl.run_halted hp hwords hram hlimit, himpl.run_trapped hp hwords hram hlimit⟩

def sampleFiles : List (Text × Text) :=
  [(ascii "A.vm", ascii "push constant 7\npop static 0\npush constant 9\npush static 0\ngt\n"),
    (ascii "B.vm", ascii "push static 1 // still zero\npop static 0\nlabel END\n")]

def sampleMemory : Memory := Memory.write (Array.replicate 24 0) 0 20

def sampleTranslation : Translator MemorySink × Option Error :=
  (new true false ({} : MemorySink)).sources sampleFiles

theorem translated_files_run_sample :
    ∃ t p m', (new true false ({} : MemorySink)).sources sampleFiles = (t, none) ∧
      assemble t.sink.text = .ok p ∧ (Machine.load { ram := sampleMemory } p).run none = (m', .halted) ∧
      m'.ram = Reference.run (program sampleFiles) sampleMemory := by
  have ht : sampleTranslation = (sampleTranslation.1, none) := Prod.ext rfl (by decide +kernel)
  obtain ⟨p, hp, hwords⟩ : ∃ p, assemble sampleTranslation.1.sink.text = .ok p ∧ p.words.size ≤ 65535 :=
    ok_of_any (by decide +kernel)
  have hlimit : ∀ n, (none : Option Nat) = some n → p.words.size ≤ n := nofun
  obtain ⟨m', hrun, hram, -, -⟩ := (translated_files_run (m := { ram := sampleMemory }) ht hp hwords (by decide)
    hlimit).1 (by decide +kernel)
  exact ⟨_, p, m', ht, hp, hrun, hram⟩

end Translator

end HackStack
