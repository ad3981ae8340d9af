import HackStack.Asm.Program

/-!
# Checking assembly

The linter looks at assembly text line by line: labels are well formed and declared once, constants fit an
address instruction, every other line can be assembled, and the jump targets that the generator makes up are
declared somewhere.
-/

namespace HackStack

inductive IssueKind where
  | label
  | reference
  | literal
  | malformed
  deriving DecidableEq, Repr

def IssueKind.name : IssueKind → Text
  | label => ascii "LABEL"
  | reference => ascii "REFERENCE"
  | literal => ascii "LITERAL"
  | malformed => ascii "SYNTAX"

inductive Finding where
  | malformedLabel (text : Text)
  | repeatedLabel (name : Text) (first : Nat)
  | largeConstant (operand : Text)
  | badOperand (operand : Text)
  | unassemblable (text : Text) (e : Asm.SourceError)
  | undeclared (name : Text)
  deriving DecidableEq, Repr

namespace Finding

def kind : Finding → IssueKind
  | repeatedLabel _ _ => .label
  | largeConstant _ => .literal
  | undeclared _ => .reference
  | malformedLabel _ | badOperand _ | unassemblable _ _ => .malformed

def message : Finding → Text
  | malformedLabel text => ascii "Malformed label declaration " ++ Text.quote text
  | repeatedLabel name first =>
    ascii "Label " ++ name ++ ascii " already declared at line " ++ Text.decimal first
  | largeConstant operand => ascii "Constant " ++ operand ++ ascii " does not fit in 15 bits"
  | badOperand operand => ascii "Invalid address operand " ++ Text.quote operand
  | unassemblable text e => ascii "Assembler rejects " ++ Text.quote text ++ ascii ": " ++ e.message
  | undeclared name => ascii "Jump target " ++ name ++ ascii " is never declared"

end Finding

structure Issue where
  line : Nat
  finding : Finding
  deriving DecidableEq, Repr

def issueLine (kind : Text) (line : Int) (message : Text) : Text :=
  ascii "[" ++ kind ++ ascii "] " ++
    (if line < 0 then [] else ascii "line " ++ Text.signed line ++ ascii ": ") ++ message

def Issue.toText (i : Issue) : Text := issueLine i.finding.kind.name i.line i.finding.message

def issuesText (issues : List Issue) : Text := Text.join [Text.lineFeed] (issues.map Issue.toText)

namespace Lint

/-- Whether a symbol is a jump target of the kind that the generator makes up. -/
def isGenerated (name : Text) : Bool :=
  [ascii "FALSE", ascii "CONTINUE"].any fun stem =>
    Text.startsWith stem name && (Text.readNat? (name.drop stem.length)).isSome

/-- What the linter knows so far: where labels were declared and generated targets first used, and the issues,
the last one first. -/
structure State where
  declared : Std.TreeMap Text Nat := ∅
  referenced : Std.TreeMap Text Nat := ∅
  issues : List Issue := []

namespace State

def flag (s : State) (line : Nat) (finding : Finding) : State := { s with issues := ⟨line, finding⟩ :: s.issues }

def label (s : State) (line : Nat) (text : Text) : State :=
  let name := Text.dropEnding [41] (text.drop 1)
  if !Text.endsWith [41] text || !Asm.isSymbol name then s.flag line (.malformedLabel text)
  else match s.declared[name]? with
    | some first => s.flag line (.repeatedLabel name first)
    | none => { s with declared := s.declared.insert name line }

def address (s : State) (line : Nat) (operand : Text) : State :=
  if operand.head?.any Text.isDigit then
    match Text.readNat? operand with
    | some n => if n ≤ Asm.maxConstant then s else s.flag line (.largeConstant operand)
    | none => s.flag line (.largeConstant operand)
  else if !Asm.isSymbol operand then s.flag line (.badOperand operand)
  else if isGenerated operand && !s.referenced.contains operand then
    { s with referenced := s.referenced.insert operand line }
  else s

def other (s : State) (line : Nat) (text : Text) : State :=
  match Asm.assemble text with
  | .ok _ => s
  | .error e => s.flag line (.unassemblable text e)

def entry (s : State) (e : Entry) : State :=
  match e.text with
  | 40 :: _ => s.label e.line e.text
  | 64 :: operand => s.address e.line operand
  | _ => s.other e.line e.text

def undeclared (s : State) : List Issue :=
  (s.referenced.toList.filter fun (name, _) => !s.declared.contains name).map fun (name, line) =>
    ⟨line, .undeclared name⟩

end State

def content (line : Text) : Text := Text.trim (Text.stripRemark line)

end Lint

/-- The issues of an assembly text: those of its lines in order, then the undeclared targets. -/
def lint (source : Text) : List Issue :=
  let s := (Listing.numbered Lint.content source).foldl Lint.State.entry {}
  s.issues.reverse ++ s.undeclared

end HackStack
