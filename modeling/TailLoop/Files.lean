/-!
# Reading files

A tree of files as a command sees it, and what becomes of reading a path in it. The result is a
text or the problem that stands in the way; the steps of a path are taken from left to right, and
the first that cannot be taken is the problem.
-/

namespace TailLoop

/-- Why something cannot be read. -/
inductive ReadProblem where
  /-- There is nothing of that name. -/
  | missing
  /-- A directory stands where a file is wanted. -/
  | directory
  /-- A file stands where a directory is wanted. -/
  | notDirectory
  | nameTooLong
  | denied
  /-- What was read is not a text. -/
  | notText
  | other (text : String)

/-- The wording of a problem with reading. -/
def ReadProblem.message : ReadProblem → String
  | .missing => "No such file or directory (os error 2)"
  | .directory => "Is a directory (os error 21)"
  | .notDirectory => "Not a directory (os error 20)"
  | .nameTooLong => "File name too long (os error 36)"
  | .denied => "Permission denied (os error 13)"
  | .notText => "stream did not contain valid UTF-8"
  | .other text => text

/-! ## Trees -/

/-- A place in a tree: the names on the way to it from the root. -/
abbrev Place := List String

/-- A tree of files and a place in it. -/
structure Files where
  /-- The places of the files, and what they hold. -/
  contents : List (Place × String)
  /-- Directories, which may be empty. The directories on the way to a file need no mention. -/
  directories : List Place
  /-- The directory from which paths start. -/
  current : Place

/-- What is found in a place. -/
inductive Finding where
  | nothing
  | file (text : String)
  | directory

namespace Files

/-- What is found in a place. A directory is there if anything lies in it or it is listed. -/
def find (fs : Files) (place : Place) : Finding :=
  match fs.contents.lookup place with
  | some text => .file text
  | none =>
    if (fs.directories ++ fs.contents.map Prod.fst).any (place.isPrefixOf ·) then .directory
    else if place = [] then .directory
    else .nothing

/-! ## Paths -/

/-- The greatest size of a name in bytes. -/
def nameLimit : Nat := 255

/-- The greatest size of a path in bytes. -/
def pathLimit : Nat := 4095

/-- Goes from a place to the one that a name in a path leads to. Nothing leads on from a file, not
even an empty name, which leads back to the place itself. -/
def step (fs : Files) (place : Place) (name : String) : Except ReadProblem Place :=
  match fs.find place with
  | .nothing => .error .missing
  | .file _ => .error .notDirectory
  | .directory =>
    if name = "" ∨ name = "." then .ok place
    else if name = ".." then .ok place.dropLast
    else if nameLimit < name.utf8ByteSize then .error .nameTooLong
    else
      let next := place ++ [name]
      match fs.find next with
      | .nothing => .error .missing
      | _ => .ok next

/-- Goes from a place along the names of a path. -/
def walk (fs : Files) : Place → List String → Except ReadProblem Place
  | place, [] => .ok place
  | place, name :: rest => do
    let next ← fs.step place name
    fs.walk next rest

/-- Reads what a path leads to. -/
def read (fs : Files) (path : String) : Except ReadProblem String := do
  if path = "" then throw .missing
  if pathLimit < path.utf8ByteSize then throw .nameTooLong
  let start := if path.startsWith "/" then [] else fs.current
  let place ← fs.walk start (path.splitOn "/")
  match fs.find place with
  | .nothing => throw .missing
  | .file text => return text
  | .directory => throw .directory

end Files

end TailLoop
