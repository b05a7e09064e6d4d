import Orchestration.Json.Numeral

/-!
# Addresses on the web

`Url.parse?` takes an address apart as far as a client has to: where to send a request, and which
target to ask for. Blanks around the address, tabs and line breaks are dropped, the path is freed of
`.` and `..`, and characters that may not stand in a target are written as escaped octets.
-/

namespace Orchestration.Text

/-- An address: whom to ask, and for what. -/
structure Url where
  secure : Bool
  /-- The host and, if it is not the usual one, the number of its service. -/
  authority : String
  /-- The path and the query. -/
  target : String
  /-- The part that is not sent. -/
  fragment : Option String
deriving DecidableEq

namespace Url

/-! ## Escaped octets -/

def escapeOctet (b : UInt8) : List Char :=
  ['%', (Nat.digitChar (b.toNat / 16)).toUpper, (Nat.digitChar (b.toNat % 16)).toUpper]

/-- A character, as escaped octets where it is beyond ASCII, a control character or
one of the given ones. -/
def escapeChar (unsafeChars : List Char) (c : Char) : List Char :=
  if c.toNat < 32 || 126 < c.toNat || unsafeChars.contains c then
    c.toString.toUTF8.toList.flatMap escapeOctet
  else [c]

/-- Characters that do not stand in a path as they are. -/
def pathUnsafe : List Char := " \"<>`#?\x7b\x7d".toList

/-- Characters that do not stand in a query as they are. -/
def queryUnsafe : List Char := " \"#<>'".toList

/-- Characters that do not stand in a fragment as they are. -/
def fragmentUnsafe : List Char := " \"<>`".toList

/-! ## Paths -/

/-- Whether a part of a path stands for the place itself. -/
def isHere (part : List Char) : Bool := [".", "%2e"].contains ((String.ofList part).toLower)

/-- Whether a part of a path stands for the place above. -/
def isAbove (part : List Char) : Bool :=
  ["..", ".%2e", "%2e.", "%2e%2e"].contains ((String.ofList part).toLower)

/-- The parts of a path between slashes of either kind. -/
def pathParts : List Char → List (List Char)
  | [] => [[]]
  | c :: rest =>
    if c = '/' || c = '\\' then [] :: pathParts rest
    else
      match pathParts rest with
      | [] => [[c]]
      | part :: parts => (c :: part) :: parts

/-- Adds parts to those of a path so far, the last one first. -/
def normalize (acc : List (List Char)) : List (List Char) → List (List Char)
  | [] => acc
  | [part] =>
    if isAbove part then [] :: acc.drop 1
    else if isHere part then [] :: acc
    else part :: acc
  | part :: rest =>
    if isAbove part then normalize (acc.drop 1) rest
    else if isHere part then normalize acc rest
    else normalize (part :: acc) rest

/-- A path from its text after the first slash. -/
def pathText (cs : List Char) : List Char :=
  let parts := (pathParts cs).map fun part => part.flatMap (escapeChar pathUnsafe)
  (normalize [] parts).reverse.flatMap fun part => '/' :: part

/-- Whether a character ends the host and the path. -/
def endsPath (c : Char) : Bool := c = '?' || c = '#'

/-- The path and the query of an address from what follows its host. -/
def targetText (cs : List Char) : List Char :=
  let path := cs.takeWhile (!endsPath ·)
  let path := match path with
    | c :: rest => if c = '/' || c = '\\' then rest else path
    | [] => []
  let query := match cs.dropWhile (!endsPath ·) with
    | '?' :: rest => '?' :: (rest.takeWhile (· != '#')).flatMap (escapeChar queryUnsafe)
    | _ => []
  pathText path ++ query

def fragmentText (cs : List Char) : Option (List Char) :=
  match cs.dropWhile (· != '#') with
  | _ :: rest => some (rest.flatMap (escapeChar fragmentUnsafe))
  | [] => none

/-! ## Hosts -/

def isHostChar (c : Char) : Bool := c.isAlphanum || "-._~!$&'()*+,;=\"`\x7b\x7d".toList.contains c

/-- A host of letters and the like, in lower case. -/
def host? (cs : List Char) : Option (List Char) :=
  if cs.isEmpty || !cs.all isHostChar then none else some (cs.map Char.toLower)

/-- The number of a service as it is written after its host; the usual one is left out. -/
def service? (usual : Nat) (cs : List Char) : Option (List Char) :=
  if !cs.all Char.isDigit then none
  else
    let n := Json.Numeral.digitsValue cs
    if 65535 < n then none
    else if cs.isEmpty || n = usual then some []
    else some (':' :: Nat.toDigits 10 n)

/-- The host and the service without what names a user. -/
def authority? (usual : Nat) (cs : List Char) : Option (List Char) := do
  let place := (cs.reverse.takeWhile (· != '@')).reverse
  let host ← host? (place.takeWhile (· != ':'))
  let service ← service? usual ((place.dropWhile (· != ':')).drop 1)
  pure (host ++ service)

/-! ## Addresses -/

/-- Whether a character at either end of an address is dropped. -/
def isTrimmed (c : Char) : Bool := c.toNat ≤ 32

/-- An address without what is dropped from it. -/
def cleaned (s : String) : List Char :=
  let cs := (s.toList.dropWhile isTrimmed).reverse
  (cs.dropWhile isTrimmed).reverse.filter fun c => !(c = '\t' || c = '\n' || c = '\r')

def parse? (s : String) : Option Url := do
  let cs := cleaned s
  let scheme := String.ofList ((cs.takeWhile (· != ':')).map Char.toLower)
  let secure ← if scheme = "http" then some false else if scheme = "https" then some true else none
  let rest ← match cs.dropWhile (· != ':') with
    | _ :: rest => some (rest.dropWhile fun c => c = '/' || c = '\\')
    | [] => none
  let inAuthority (c : Char) : Bool := !(c = '/' || c = '\\' || endsPath c)
  let authority ← authority? (if secure then 443 else 80) (rest.takeWhile inAuthority)
  let rest := rest.dropWhile inAuthority
  pure ⟨secure, String.ofList authority, String.ofList (targetText rest),
    (fragmentText rest).map String.ofList⟩

def text (u : Url) : String :=
  (if u.secure then "https://" else "http://") ++ u.authority ++ u.target ++
    match u.fragment with
    | some f => "#" ++ f
    | none => ""

end Url

end Orchestration.Text
