import HackStack.CommandLine

/-!
# The program

Reads the files that the arguments name, carries out the command line on them, writes the files that it
changed and prints the rest.
-/

namespace HackStack.Main

def textOf (s : String) : Text := s.toUTF8.toList

def bytesOf (t : Text) : ByteArray := ⟨t.toArray⟩

def stringOf (t : Text) : String := (String.fromUTF8? (bytesOf t)).getD ""

def locationOf (path : Text) : Location := (Path.parts path).filter fun p => !p.isEmpty

def pathOf (l : Location) : Text := Path.separator :: Text.join [Path.separator] l

def fullDevice : Location := [ascii "dev", ascii "full"]

def addEntry (t : FileTree) (l : Location) (entry : IO.FS.DirEntry) : IO FileTree := do
  if l == fullDevice then return t.set l .fullDevice
  try
    if ← entry.path.isDir then return t.set l .directory
    if ← entry.path.pathExists then return t.set l (.file (← IO.FS.readBinFile entry.path).toList)
    return t
  catch _ => return t

def entryOf (l : Location) : IO.FS.DirEntry := ⟨stringOf (pathOf l.dropLast), stringOf (l.getLastD [])⟩

def addPath (t : FileTree) (l : Location) : IO FileTree :=
  (List.range (l.length + 1)).foldlM (fun t n =>
    if (t.get? (l.take n)).isSome then return t else addEntry t (l.take n) (entryOf (l.take n))) t

def addChildren (t : FileTree) (l : Location) : IO FileTree := do
  if t.get? l == some .directory then
    (← (entryOf l).path.readDir).foldlM (fun t child => addEntry t (l ++ [textOf child.fileName]) child) t
  else return t

/-- The paths that an argument may name: the whole argument, or what follows an equals sign or a letter. -/
def pathsIn (arg : Text) : List Text :=
  [some arg, (Text.cut? CommandLine.equalsSign arg).map Prod.snd, some (arg.drop 2)].reduceOption.filter
    fun p => !p.isEmpty

def treeFor (args : List Text) : IO FileTree := do
  let here := textOf (← IO.currentDir).toString
  let start ← addPath { entries := [], current := locationOf here } (locationOf here)
  (args.flatMap pathsIn).foldlM (fun t path => do
    let location := locationOf (if Path.isAbsolute path then Path.clean path else Path.join here path)
    addChildren (← addPath t location) location) start

def writeChanges (before after : FileTree) : IO Unit := do
  for (l, entry) in after.entries do
    match entry with
    | .file content =>
      if before.get? l != some entry then IO.FS.writeBinFile (stringOf (pathOf l)) (bytesOf content)
    | _ => pure ()

def runProgram (args : List Text) : IO UInt32 := do
  let before ← treeFor args
  let outcome := CommandLine.execute before args
  writeChanges before outcome.tree
  (← IO.getStdout).write (bytesOf outcome.output)
  (← IO.getStderr).write (bytesOf (outcome.logLines ++ outcome.complaint))
  return outcome.exitCode

end HackStack.Main

def main (args : List String) : IO UInt32 := HackStack.Main.runProgram (args.map HackStack.Main.textOf)
