import HackStack.Path

/-!
# File trees

A file tree maps locations to files, directories, symbolic links and a device that refuses every write. A
location is the list of names that leads to it from the root. Paths are resolved as an operating system does:
link by link, with two dots for the directory above.
-/

namespace HackStack

/-- The list of names that leads from the root to a place. -/
abbrev Location := List Text

inductive FileEntry where
  | file (content : Text)
  | directory
  | link (target : Text)
  | fullDevice
  deriving DecidableEq, Repr

inductive FileProblem where
  | missing
  | notDirectory
  | isDirectory
  | noSpace
  | tooManyLinks
  | nameTooLong
  | invalid
  deriving DecidableEq, Repr

def FileProblem.describe : FileProblem → Text
  | missing => ascii "no such file or directory"
  | notDirectory => ascii "not a directory"
  | isDirectory => ascii "is a directory"
  | noSpace => ascii "no space left on device"
  | tooManyLinks => ascii "too many levels of symbolic links"
  | nameTooLong => ascii "file name too long"
  | invalid => ascii "invalid argument"

structure FileError where
  operation : Text
  path : Text
  problem : FileProblem
  deriving DecidableEq, Repr

def FileError.message (e : FileError) : Text :=
  e.operation ++ ascii " " ++ e.path ++ ascii ": " ++ e.problem.describe

/-- A file tree with a current directory. Of two entries for one location the first counts. -/
structure FileTree where
  entries : List (Location × FileEntry)
  current : Location := []
  deriving DecidableEq, Repr

namespace FileTree

def get? (t : FileTree) (l : Location) : Option FileEntry :=
  if l.isEmpty then some .directory else t.entries.lookup l

def set (t : FileTree) (l : Location) (e : FileEntry) : FileTree :=
  { t with entries := (l, e) :: t.entries.filter fun x => x.1 != l }

def makeParents (t : FileTree) (l : Location) : FileTree :=
  (List.range l.length).foldl (fun t n =>
    if (t.get? (l.take n)).isSome then t else t.set (l.take n) .directory) t

def linkLimit : Nat := 40

def nameLimit : Nat := 255

/-- Follows the names `todo` from the directory `at_`. The result is where they lead and what stands there;
only the last name may be missing. An empty name or a dot asks for a directory, and links are followed. -/
def follow (t : FileTree) (fuel links : Nat) (at_ : Location) (todo : List Text) :
    Except FileProblem (Location × Option FileEntry) :=
  match fuel, todo with
  | _, [] => .ok (at_, t.get? at_)
  | 0, _ => .error .tooManyLinks
  | fuel + 1, name :: rest =>
    match t.get? at_ with
    | some .directory =>
      if name.isEmpty || name == Path.here then follow t fuel links at_ rest
      else if name == Path.above then follow t fuel links at_.dropLast rest
      else if nameLimit < name.length then .error .nameTooLong
      else
        match t.get? (at_ ++ [name]) with
        | none => if rest.isEmpty then .ok (at_ ++ [name], none) else .error .missing
        | some (.link target) =>
          if links = 0 then .error .tooManyLinks
          else follow t fuel (links - 1) (if Path.isAbsolute target then [] else at_) (Path.parts target ++ rest)
        | some _ => follow t fuel links (at_ ++ [name]) rest
    | _ => .error .notDirectory

def resolveFuel (t : FileTree) (names : List Text) : Nat :=
  names.length + 1 + linkLimit * (t.entries.foldl (fun n e =>
    match e.2 with
    | .link target => max n (target.length + 2)
    | _ => n) 0)

def resolve (t : FileTree) (path : Text) : Except FileProblem (Location × Option FileEntry) :=
  if path.isEmpty then .error .missing
  else if path.contains 0 then .error .invalid
  else
    follow t (t.resolveFuel (Path.parts path)) linkLimit (if Path.isAbsolute path then [] else t.current)
      (Path.parts path)

def entryAt (t : FileTree) (path : Text) : Except FileProblem (Location × FileEntry) :=
  match t.resolve path with
  | .error p => .error p
  | .ok (_, none) => .error .missing
  | .ok (l, some e) => .ok (l, e)

def isDirectory (t : FileTree) (path : Text) : Except FileError Bool :=
  match t.entryAt path with
  | .error p => .error ⟨ascii "stat", path, p⟩
  | .ok (_, e) => .ok (e == .directory)

def exists? (t : FileTree) (path : Text) : Bool :=
  match t.resolve path with
  | .ok (_, some _) => true
  | _ =>
    match t.resolve (Path.splitLast path).1 with
    | .ok (l, some .directory) => (t.get? (l ++ [(Path.splitLast path).2])).isSome
    | _ => (Path.splitLast path).1.isEmpty && (t.get? (t.current ++ [path])).isSome

def contentOf (path : Text) : FileEntry → Except FileError Text
  | .file content => .ok content
  | .directory => .error ⟨ascii "read", path, .isDirectory⟩
  | .link _ | .fullDevice => .ok []

def openAt (t : FileTree) (path : Text) : Except FileError FileEntry :=
  match t.entryAt path with
  | .error p => .error ⟨ascii "open", path, p⟩
  | .ok (_, e) => .ok e

def readFile (t : FileTree) (path : Text) : Except FileError Text := do
  contentOf path (← t.openAt path)

def textLE (a b : Text) : Bool := (compare a b).isLE

def namesIn (t : FileTree) (l : Location) : List (Text × FileEntry) :=
  (t.entries.filterMap fun (m, e) =>
    match m.getLast? with
    | some name => if m.dropLast == l then some (name, e) else none
    | none => none).mergeSort fun x y => textLE x.1 y.1

/-- Whether a path ends in a slash and names nothing, so that only a directory could be made there. -/
def wantsDirectory (t : FileTree) (path : Text) : Bool :=
  path.getLast? == some Path.separator &&
    match t.resolve (path.reverse.dropWhile (· == Path.separator)).reverse with
    | .ok (_, none) => true
    | _ => false

/-- Makes an empty file at a path, or empties the file that is there. The result says where it is. -/
def create (t : FileTree) (path : Text) : Except FileError (Location × FileTree) :=
  if t.wantsDirectory path then .error ⟨ascii "open", path, .isDirectory⟩
  else
    match t.resolve path with
    | .error p => .error ⟨ascii "open", path, p⟩
    | .ok (_, some .directory) => .error ⟨ascii "open", path, .isDirectory⟩
    | .ok (l, some .fullDevice) => .ok (l, t)
    | .ok (l, _) => .ok (l, t.set l (.file []))

/-- Adds bytes at the end of a file. The full device refuses them. -/
def append (t : FileTree) (l : Location) (path bytes : Text) : Except FileError FileTree :=
  match t.get? l with
  | some (.file content) => .ok (t.set l (.file (content ++ bytes)))
  | _ => .error ⟨ascii "write", path, .noSpace⟩

end FileTree

end HackStack
