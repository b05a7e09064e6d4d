import Orchestration.Activity.Registry
import Orchestration.Json.Path

/-!
# Scripted activities

Activities whose answers follow a short script, for trying out workflows without the services
that they call. A script sees how many calls the activity had before, so its answers may
change from call to call.
-/

namespace Orchestration

/-- An arithmetic step on whole numbers. -/
inductive Arithmetic where
  | add
  | mul
deriving DecidableEq

/-- What an activity answers. -/
inductive Script where
  | echo
  | const (value : Json)
  | fail (reason : String)
  | failIf (equals : Json) (reason : String)
  /-- Fails from this call on. -/
  | failAfter (calls : Nat) (reason : String)
  /-- Adds to or multiplies the payload, or one field of it. -/
  | arith (step : Arithmetic) (n : Int) (field : Option String)
  | wrap (key : String)
  | pick (path : String)
  | concat (suffix : String)
  | push (value : Json)
  /-- Answers from a list, call by call; the last one again when the list is over. -/
  | sequence (values : List Json)
  | reveal

namespace Script

/-- A whole number brought into the range of a signed word of 64 bits. -/
def wrapSigned (n : Int) : Int := (n - Json.minInt) % (Json.maxInt + 1) + Json.minInt

/-- A value as a signed word; what is none counts as zero. -/
def signedOf : Json → Int
  | .int n => if Json.FitsSigned n then n else 0
  | _ => 0

def stepped (step : Arithmetic) (n : Int) (v : Json) : Json :=
  match step with
  | .add => .int (wrapSigned (signedOf v + n))
  | .mul => .int (wrapSigned (signedOf v * n))

/-- The item at a position, or the last one. -/
def itemOrLast {α : Type} (items : List α) (i : Nat) : Option α :=
  match items[i]? with
  | some x => some x
  | none => items.getLast?

/-- What the activity answers to a call, after so many calls before. -/
def execute (s : Script) (calls : Nat) (r : Request) : Except String Json :=
  let p := r.payload
  match s with
  | .echo => .ok p
  | .const value => .ok value
  | .fail reason => .error reason
  | .failIf equals reason => if p.same equals then .error reason else .ok p
  | .failAfter n reason => if n ≤ calls then .error reason else .ok p
  | .arith step n none => .ok (stepped step n p)
  | .arith step n (some field) =>
    let fields := p.fields?.getD []
    .ok (.obj (fields.insert field (stepped step n ((fields.get? field).getD .null))))
  | .wrap key => .ok (.single key p)
  | .pick path =>
    match Path.get p path with
    | .ok v => .ok v
    | .error e => .error e.message
  | .concat suffix => .ok (.str (p.text?.getD "" ++ suffix))
  | .push value => .ok (.arr (p.items?.getD [] ++ [value]))
  | .sequence values => .ok ((itemOrLast values calls).getD .null)
  | .reveal =>
    .ok (.obj [("activity", .str r.activity), ("payload", p), ("request_id", .str r.requestId)])

/-- The script as an activity that takes so many milliseconds, call by call. -/
def handler (s : Script) (delays : List Nat) : Handler :=
  ⟨s.execute, fun calls => (itemOrLast delays calls).getD 0⟩

end Script

end Orchestration
