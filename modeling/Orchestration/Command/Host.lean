import Orchestration.Definition.Error
import Orchestration.Text.FileName

/-!
# Hosts of the command

A host has files and a place to print to. The command is written against any of them: the machine
that it runs on, or a `Desk`, which is a value.
-/

namespace Orchestration.Command

/-- What the command needs from where it runs. -/
structure Host (m : Type → Type) where
  read : String → m (Except ReadFault String)
  /-- Makes a directory and those around it, unless there is something else in its place. -/
  makeDirectory : String → m Bool
  write : (path content : String) → m Bool
  print : String → m Unit
  /-- An id that was not used before. -/
  freshId : m String

/-! ## Desks -/

/-- Files by path and directories, and what was printed. -/
structure Desk where
  files : Entries String
  directories : List String
  printed : String

namespace Desk

def ofFiles (files : Entries String) : Desk := ⟨files, [], ""⟩

def isDirectory (d : Desk) (place : String) : Bool :=
  place.isEmpty || d.directories.contains place ||
    d.files.any fun (file, _) => (place ++ "/").toList.isPrefixOf file.toList

def inside (directory name : String) : String :=
  if directory.isEmpty then name else directory ++ "/" ++ name

def around (place : String) : String := "/".intercalate ((place.splitOn "/").dropLast)

/-- Goes on from a directory by the names of a path. -/
def walk (d : Desk) (directory : String) : List String → Except ReadFault String
  | [] => .ok directory
  | [name] => .ok (if name = ".." then around directory else inside directory name)
  | name :: rest =>
    let next := if name = ".." then around directory else inside directory name
    if d.isDirectory next then walk d next rest
    else if d.files.contains next then .error .notDirectory
    else .error .missing

def place (d : Desk) (path : String) : Except ReadFault String :=
  if path.startsWith "/" then .error .missing
  else d.walk "" ((Text.pathParts path).filter (· != "."))

def read (d : Desk) (path : String) : Except ReadFault String := do
  let place ← d.place path
  match d.files.get? place with
  | some content => if path.endsWith "/" then .error .notDirectory else .ok content
  | none => .error (if d.isDirectory place then .directory else .missing)

/-- The directories from a place on down by names, if nothing is in the way. -/
def directoriesAlong (d : Desk) (directory : String) : List String → Option (List String)
  | [] => some []
  | name :: rest =>
    let next := if name = ".." then around directory else inside directory name
    if d.files.contains next then none else (directoriesAlong d next rest).map (next :: ·)

def makeDirectory (d : Desk) (path : String) : Option Desk :=
  if path.startsWith "/" then none
  else (d.directoriesAlong "" ((Text.pathParts path).filter (· != "."))).map fun made =>
    { d with directories := d.directories ++ made }

/-- Writes a file in a directory that is there. -/
def write (d : Desk) (path content : String) : Option Desk :=
  match d.place path with
  | .ok place =>
    if d.isDirectory place || !d.isDirectory (around place) then none
    else some { d with files := d.files.insert place content }
  | .error _ => none

/-- A desk after a change, if that could be made. -/
def change (f : Desk → Option Desk) : StateM Desk Bool := fun d =>
  match f d with
  | some d => (true, d)
  | none => (false, d)

def host : Host (StateM Desk) where
  read path := do pure ((← get).read path)
  makeDirectory path := change (makeDirectory · path)
  write path content := change (write · path content)
  print text := modify fun d => { d with printed := d.printed ++ text }
  freshId := pure ""

end Desk

end Orchestration.Command
