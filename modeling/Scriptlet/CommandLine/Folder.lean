import Scriptlet.CommandLine.Path

/-!
# Folders

What a path leads to.  A path is walked name by name, from the working folder or from the root.
The files in and below the working folder are known; the folders around it are there, but nothing
else in them is.
-/

namespace Scriptlet.CommandLine

/-- What a path leads to. -/
inductive Access
  /-- A file with this text. -/
  | file (text : String)
  /-- A folder. -/
  | folder
  /-- Nothing. -/
  | absent
  /-- A path, or a name in it, that is longer than any can be. -/
  | tooLong
deriving DecidableEq

/-- The files in and below the working folder. -/
structure Folder where
  /-- The names that lead to each file, and its text. -/
  files : List (List String × String)

/-- Where a walk has come to. -/
inductive Place
  /-- The working folder, or the folder below it that these names lead to. -/
  | inside (names : List String)
  /-- A folder around the working folder. -/
  | around
  /-- A file with this text. -/
  | file (text : String)
deriving DecidableEq

namespace Folder

/-- Bytes that a name may have. -/
def maxName : Nat := 255

/-- Bytes that a path may have. -/
def maxPath : Nat := 4095

/-- The folder with the given files. -/
def ofFiles (files : List (String × String)) : Folder where
  files := files.map fun (path, text) => ((Path.ofString path).names, text)

/-- What stands below the working folder at the end of these names. -/
def find? (f : Folder) (names : List String) : Option Place :=
  match f.files.lookup names with
  | some text => some (.file text)
  | none => if f.files.any fun file => names.isPrefixOf file.1 then some (.inside names) else none

/-- The folder around a folder. -/
def parent (names : List String) : Place :=
  if names = [] then .around else .inside names.dropLast

/-- One step of a walk. -/
def step (f : Folder) (place : Place) (name : String) : Except Access Place :=
  match place with
  -- Nothing lies behind a file, not even the folder it is in.
  | .file _ => .error .absent
  | .around =>
    if name = ".." then .ok .around
    else .error (if maxName < name.utf8ByteSize then .tooLong else .absent)
  | .inside names =>
    if name = ".." then .ok (parent names)
    else if maxName < name.utf8ByteSize then .error .tooLong
    else match f.find? (names ++ [name]) with
      | some next => .ok next
      | none => .error .absent

/-- Where a walk along a path starts. -/
def start (p : Path) : Place := if p.root = "" then .inside [] else .around

/-- What the end of a walk is. -/
def arrive : Except Access Place → Access
  | .error a => a
  | .ok (.file text) => .file text
  | .ok _ => .folder

/-- What a path leads to.  No path holds the character of code zero. -/
def access (f : Folder) (p : Path) : Access :=
  if p.render.toList.contains '\x00' then .absent
  else if maxPath < p.render.utf8ByteSize then .tooLong
  else arrive (p.names.foldlM f.step (start p))

end Folder

end Scriptlet.CommandLine
