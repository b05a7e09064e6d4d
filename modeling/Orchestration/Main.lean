import Orchestration.Command.Perform

/-!
# The command on this machine

Files are those of the machine. No network is at hand, so calls go unanswered unless they are
echoed.
-/

namespace Orchestration.Command

/-- Why a file could not be read. -/
def readFaultOf : IO.Error → ReadFault
  | .inappropriateType _ code _ => if code = 20 then .notDirectory else .directory
  | _ => .missing

def readFile (path : String) : IO (Except ReadFault String) := do
  try
    let bytes ← IO.FS.readBinFile path
    match String.fromUTF8? bytes with
    | some text => pure (.ok text)
    | none => pure (.error .notText)
  catch e => pure (.error (readFaultOf e))

/-- Whether an action on this machine could be done. -/
def succeeds (action : IO Unit) : IO Bool := do
  try
    action
    pure true
  catch _ => pure false

def randomId : IO String := do
  let bytes ← IO.getRandomBytes 16
  let digits :=
    bytes.toList.flatMap fun b => [Nat.digitChar (b.toNat / 16), Nat.digitChar (b.toNat % 16)]
  pure (String.ofList digits)

def machineHost : Host IO where
  read := readFile
  makeDirectory path := succeeds (IO.FS.createDirAll path)
  write path content := succeeds (IO.FS.writeFile path content)
  print := IO.print
  freshId := randomId

def runFuel : Nat := 1000000000000

end Orchestration.Command

open Orchestration.Command

def main (args : List String) : IO UInt32 := do
  let r ← report machineHost .silent runFuel args
  match r.message with
  | some message => IO.eprintln ("Error: " ++ message)
  | none => if r.exitCode ≠ 0 then IO.eprintln "usage: run|generate|validate FILE [OPTIONS]"
  pure (UInt32.ofNat r.exitCode)
