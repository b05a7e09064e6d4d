import Orchestration.Activity.Basic
import Orchestration.Activity.Resolver
import Orchestration.Json.Draft
import Orchestration.Json.Printer
import Orchestration.Text.Url

/-!
# Activities behind HTTP triggers

A call posts the payload and the request id to the address of the activity. An answer with a status
from 200 to 299 has the result as its body; any other status is a failure.

What is at the other end is a `Network`.
-/

namespace Orchestration

/-- A request as it is sent. -/
structure HttpRequest where
  method : String
  target : String
  body : String
deriving DecidableEq

/-- A reply as it is received. -/
structure HttpReply where
  status : Nat
  body : String
deriving DecidableEq

/-- Answers requests to an address, or does not. -/
abbrev Network := Text.Url → HttpRequest → Option HttpReply

namespace Network

/-- Nobody answers. -/
def silent : Network := fun _ _ => none

/-- One server, which always gives the same reply. -/
def server (authority : String) (reply : HttpReply) : Network := fun url _ =>
  if url.authority = authority then some reply else none

end Network

namespace Http

def request (url : Text.Url) (r : Request) : HttpRequest :=
  ⟨"POST", url.target,
    (Json.obj [("payload", r.payload), ("request_id", .str r.requestId)]).compact⟩

/-- Whether a status says that there is no body. -/
def isBodiless (status : Nat) : Bool := status == 204 || status == 304

def answer (address : String) (reply : HttpReply) : Except String Json :=
  let body := if isBodiless reply.status then "" else reply.body
  if 200 ≤ reply.status ∧ reply.status < 300 then
    match Json.ofText? body with
    | some v => .ok v
    | none => .error "error decoding response body"
  else .error s!"HTTP {reply.status} from {address}: {body}"

/-- What a call sends, if it comes to that, and what comes back. -/
def invoke (resolver : Resolver) (network : Network) (r : Request) :
    Option HttpRequest × Except ActivityError Json :=
  match resolver.resolve r.activity with
  | none => (none, .error (.unregistered r.activity))
  | some address =>
    match Text.Url.parse? address with
    | none => (none, .error (.failed r.activity "builder error"))
    | some url =>
      let sent := request url r
      match network url sent with
      | none =>
        (none, .error (.failed r.activity s!"error sending request for url ({url.text})"))
      | some reply =>
        let result := match answer address reply with
          | .ok v => .ok v
          | .error reason => .error (.failed r.activity reason)
        (some sent, result)

end Http

/-- Answers calls by what is at the addresses of their activities. -/
def Caller.http (resolver : Resolver) (network : Network) : Caller := fun _ r =>
  ⟨(Http.invoke resolver network r).2, 0⟩

end Orchestration
