import Orchestration.Json.Basic
import Orchestration.Text.Pieces

/-!
# Dotted paths

A path names a value inside an object by the names on the way to it, with dots between
them. Arrays are not entered.

* `Path.get` reads the value at a path, `Path.set` writes one. All segments but the last have to be
  there for `set`; the last is written in place or added.
* `Path.setInPlace` makes the same write on a payload that is kept, also where the write fails.
* Both go by segments, so that `a.b` is not on the way to `a.bc`; segments may be empty.
-/

namespace Orchestration

/-- Why a path does not lead to a value. -/
inductive PathError where
  | empty
  /-- An object on the way has no such segment. -/
  | notFound (path segment : String)
  /-- The segment is asked of a value that is no object. -/
  | notTraversable (path segment : String)
deriving DecidableEq

def PathError.message : PathError → String
  | .empty => "Empty variable path"
  | .notFound path segment => s!"Path '{path}' not found: missing segment '{segment}'"
  | .notTraversable path segment =>
    s!"Path '{path}' not traversable at segment '{segment}': not an object"

namespace Path

/-- The segments of a path; the empty path has none. -/
def segments (path : String) : Except PathError (List String) :=
  if path.isEmpty then .error .empty else .ok (Text.split '.' path)

/-- Reads along segments. The path is what an error names. -/
def follow (path : String) : List String → Json → Except PathError Json
  | [], v => .ok v
  | s :: rest, .obj fields =>
    match Entries.get? s fields with
    | some v => follow path rest v
    | none => .error (.notFound path s)
  | s :: _, _ => .error (.notTraversable path s)

/-- Writes along segments. The path is what an error names. -/
def put (path : String) (value : Json) : List String → Json → Except PathError Json
  | [], _ => .error .empty
  | [s], .obj fields => .ok (.obj (Entries.insert s value fields))
  | s :: rest, .obj fields =>
    match Entries.get? s fields with
    | some v => do
      let v ← put path value rest v
      pure (.obj (Entries.insert s v fields))
    | none => .error (.notFound path s)
  | s :: _, _ => .error (.notTraversable path s)

/-- Writes along segments in place: the value as it stands then, and how the write ended. An object
on the way has under its segment whatever the rest of the way made of what was there. -/
def putInPlace (path : String) (value : Json) : List String → Json → Json × Except PathError Unit
  | [], v => (v, .error .empty)
  | [s], .obj fields => (.obj (Entries.insert s value fields), .ok ())
  | s :: rest, .obj fields =>
    match Entries.get? s fields with
    | some v =>
      let (v, outcome) := putInPlace path value rest v
      (.obj (Entries.insert s v fields), outcome)
    | none => (.obj fields, .error (.notFound path s))
  | s :: _, v => (v, .error (.notTraversable path s))

def get (payload : Json) (path : String) : Except PathError Json := do
  follow path (← segments path) payload

/-- Writes a value at a path and gives the new payload. -/
def set (payload value : Json) (path : String) : Except PathError Json := do
  put path value (← segments path) payload

/-- Writes a value at a path of a payload in place: the payload as it stands then,
and how the write ended. -/
def setInPlace (payload value : Json) (path : String) : Json × Except PathError Unit :=
  match segments path with
  | .ok segs => putInPlace path value segs payload
  | .error e => (payload, .error e)

end Path

end Orchestration
