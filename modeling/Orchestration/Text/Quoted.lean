import Orchestration.Text.Unprintable

/-!
# Quoted texts in messages

`Text.quoted` writes a text between quotation marks on one line. The quotation mark, the backslash
and the line controls have escapes of two characters; any other character that has no visible form
of its own is written by its number.
-/

namespace Orchestration.Text

def hex (n : Nat) : List Char := Nat.toDigits 16 n

def quotedChar (c : Char) : List Char :=
  if c = '"' then ['\\', '"']
  else if c = '\\' then ['\\', '\\']
  else if c = '\n' then ['\\', 'n']
  else if c = '\r' then ['\\', 'r']
  else if c = '\t' then ['\\', 't']
  else if c.toNat = 0 then ['\\', '0']
  else if isUnprintable c then ['\\', 'u', '\x7b'] ++ hex c.toNat ++ ['\x7d']
  else [c]

def quoted (s : String) : String :=
  String.ofList ('"' :: (s.toList.flatMap quotedChar ++ ['"']))

end Orchestration.Text
