import HackStack.Error

/-!
# Source files and output paths

The input of a translation is one `.vm` file, or a directory with such files. The output goes next to the file,
or into the directory under the directory's own name.
-/

namespace HackStack.FileTree

def sourceExtension : Text := ascii ".vm"

def outputExtension : Text := ascii ".asm"

def inputIsDirectory (t : FileTree) (path : Text) : Except Error Bool :=
  match t.isDirectory path with
  | .ok b => .ok b
  | .error e => .error (e.toError.during "stat input")

/-- The source files directly in a directory, by name. Directories are left out, links are not. -/
def sourcesIn (t : FileTree) (path : Text) : List Text :=
  match t.entryAt path with
  | .ok (l, .directory) =>
    (((t.namesIn l).filter fun (name, e) => e != .directory && Path.extension name == sourceExtension).map
      fun (name, _) => Path.join path name).mergeSort textLE
  | _ => []

def sourceFiles (t : FileTree) (path : Text) : Except Error (List Text) := do
  if ← t.inputIsDirectory path then
    match t.sourcesIn path with
    | [] => throw { context := [.task (ascii "no .vm files in " ++ path)], cause := .notSource }
    | files => return files
  else if Path.extension path == sourceExtension then return [path]
  else throw { context := [.file path], cause := .notSource }

def currentPath (t : FileTree) : Text := Path.separator :: Text.join [Path.separator] t.current

def outputPath (t : FileTree) (path : Text) : Except Error Text := do
  if ← t.inputIsDirectory path then
    let dir := Path.clean path
    let absolute := if Path.isAbsolute dir then dir else Path.join t.currentPath dir
    return Path.join dir (Path.base absolute ++ outputExtension)
  else if Path.extension path == sourceExtension then
    return Text.dropEnding sourceExtension path ++ outputExtension
  else throw { context := [.file path], cause := .notSource }

end HackStack.FileTree
