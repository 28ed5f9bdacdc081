import Scriptlet.CommandLine

/-!
# The program

Reads the file and standard input, and prints the answer.  The trace goes to `debug.txt`.
-/

namespace Scriptlet.CommandLine

/-- The number by which the system says that a folder cannot be read as a file. -/
def folderCode : UInt32 := 21

/-- What the path in the arguments leads to. -/
def lookUp (args : List String) : IO Access := do
  match Options.ofArgs args with
  | .error _ => return .absent
  | .ok o =>
    try return .file (← IO.FS.readFile (Path.ofString o.file).render)
    catch
      | .inappropriateType _ code _ => return if code = folderCode then .folder else .absent
      | .invalidArgument .. => return .tooLong
      | _ => return .absent

/-- Everything on a stream. -/
partial def readAll (stream : IO.FS.Stream) (acc : String) : IO String := do
  let line ← stream.getLine
  if line.isEmpty then return acc else readAll stream (acc ++ line)

/-- Prints an answer and gives the exit status. -/
def put (a : Answer) : IO UInt32 := do
  (← IO.getStdout).putStr a.stdout
  (← IO.getStderr).putStr a.stderr
  match a.trace with
  | some text => IO.FS.writeFile "debug.txt" text
  | none => pure ()
  match a.ending with
  | .exit status => return status.toUInt32
  | .crash _ => return 1

end Scriptlet.CommandLine

/-- Prints the answer to the arguments and gives the exit status. -/
def main (args : List String) : IO UInt32 := do
  let access ← Scriptlet.CommandLine.lookUp args
  let input ← match access with
    | .file _ => Scriptlet.CommandLine.readAll (← IO.getStdin) ""
    | _ => pure ""
  Scriptlet.CommandLine.put (Scriptlet.CommandLine.answer args .standard (fun _ => access) input)
