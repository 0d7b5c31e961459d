import ObjectMachine.Text.Numeral

namespace ObjectMachine

/-!
# Files

The files a program can see, by their paths. A directory exists if it is known to, or if a file
is in it.

* `Files` — the type; `Files.locate` — the path that a text denotes;
* `Files.read`, `Files.write` — the content of a file;
* `FileFault` — why a file cannot be used.
-/

/-- A path as the names it goes through. -/
abbrev Path := List String

namespace Path

/-- The name that paths from the root start with. -/
def root : String := "/"

/-- Goes on along a path. A single dot goes nowhere, and two dots go back. -/
def enter (path : Path) (name : String) : Path :=
  if name = "" || name = "." then path
  else if name = ".." then
    match path.getLast? with
    | none | some ".." => path ++ [name]
    | some last => if last = root then path else path.dropLast
  else path ++ [name]

/-- Where the path that a text denotes starts. -/
def start (text : String) : Path :=
  if text.startsWith "/" then [root] else []

/-- The path that a text denotes, if all names on it lead to directories. -/
def ofString (text : String) : Path :=
  (text.splitOn "/").foldl enter (start text)

end Path

/-- Why a file cannot be used. -/
inductive FileFault where
  | missing (name : String)
  /-- A directory is read like a file. -/
  | readsDirectory (name : String)
  /-- A directory is written like a file. -/
  | writesDirectory (name : String)
  /-- The path goes through a file. -/
  | notDirectory (name : String)
deriving DecidableEq, Repr

/-- The wording of a fault. -/
def FileFault.message : FileFault → String
  | missing name => "open " ++ name ++ ": no such file or directory"
  | readsDirectory name => "read " ++ name ++ ": is a directory"
  | writesDirectory name => "open " ++ name ++ ": is a directory"
  | notDirectory name => "open " ++ name ++ ": not a directory"

/-- The content of a file. -/
abbrev Content := List UInt8

/-- The files a program can see. -/
structure Files where
  entries : List (Path × Content)
  /-- Directories that exist even if no file is in them. -/
  directories : List Path

namespace Files

/-- No files. -/
def empty : Files := ⟨[], []⟩

/-- The content of the file at a path. -/
def get? (fs : Files) (path : Path) : Option Content :=
  (fs.entries.find? fun e => e.1 = path).map Prod.snd

/-- Puts a file at a path. -/
def set (fs : Files) (path : Path) (content : Content) : Files :=
  { fs with entries := (path, content) :: fs.entries.filter fun e => e.1 ≠ path }

/-- Puts a directory at a path. -/
def addDirectory (fs : Files) (path : Path) : Files :=
  { fs with directories := path :: fs.directories }

/-- Whether there is a directory at a path. The one that paths start from exists, and so do those
that it is in. -/
def hasDirectory (fs : Files) (path : Path) : Bool :=
  path = [Path.root] || path.all (fun name => name = "..") ||
    fs.directories.any path.isPrefixOf ||
    fs.entries.any fun e => path.isPrefixOf e.1 && e.1 ≠ path

/-- Goes from a directory along names, each of which has to lead to another one; `name` is the
whole path as it is written. -/
def walk (fs : Files) (name : String) (path : Path) : List String → Except FileFault Path
  | [] => .ok path
  | next :: rest =>
    let path := path.enter next
    if fs.hasDirectory path then fs.walk name path rest
    else if (fs.get? path).isSome then .error (.notDirectory name)
    else .error (.missing name)

/-- The path that a text denotes. The directory it is in has to exist. -/
def locate (fs : Files) (name : String) : Except FileFault Path :=
  let names := (name.splitOn "/").filter (· ≠ "")
  match names.getLast? with
  | none => if name = "" then .error (.missing name) else .ok [Path.root]
  | some last => do
    let path ← fs.walk name (Path.start name) names.dropLast
    return path.enter last

/-- The content of a file. A slash at the end of its name asks for a directory. -/
def read (fs : Files) (name : String) : Except FileFault Content := do
  let path ← fs.locate name
  if fs.hasDirectory path then .error (.readsDirectory name)
  else
    match fs.get? path with
    | none => .error (.missing name)
    | some content => if name.endsWith "/" then .error (.notDirectory name) else .ok content

/-- Writes a file. -/
def write (fs : Files) (name : String) (content : Content) : Except FileFault Files := do
  let path ← fs.locate name
  if name.endsWith "/" || fs.hasDirectory path then .error (.writesDirectory name)
  else .ok (fs.set path content)

end Files

end ObjectMachine
