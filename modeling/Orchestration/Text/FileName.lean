/-!
# Names of files

The name at the end of a path has a stem and, after its last dot, an extension. A dot at the start
of a name begins no extension.
-/

namespace Orchestration.Text

/-- The parts of a path between slashes; parts that stand for the same place are left out. -/
def pathParts (path : String) : List String :=
  match (path.splitOn "/").filter (· != "") with
  | [] => []
  | first :: rest =>
    let rest := rest.filter (· != ".")
    if first = "." && !rest.isEmpty then rest else first :: rest

/-- The name at the end of a path; a path to a place above has none. -/
def fileName? (path : String) : Option String :=
  match (pathParts path).getLast? with
  | some name => if name = "." || name = ".." then none else some name
  | none => none

def splitExtension (name : String) : String × Option String :=
  let reversed := name.toList.reverse
  let after := reversed.takeWhile (· != '.')
  match reversed.drop after.length with
  | [] | ['.'] => (name, none)
  | _ :: stem => (String.ofList stem.reverse, some (String.ofList after.reverse))

/-- The extension of the name at the end of a path. -/
def extension? (path : String) : Option String := do (splitExtension (← fileName? path)).2

/-- The stem of the name at the end of a path. -/
def stem? (path : String) : Option String := do pure (splitExtension (← fileName? path)).1

end Orchestration.Text
