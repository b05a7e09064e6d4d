/-!
# Cutting and filling texts

Texts are worked on as lists of characters.

* `Text.pieces` cuts at every occurrence of one character; joining the pieces gives the text back.
* `Text.fill` writes a value for every occurrence of a marker.
-/

namespace Orchestration.Text

/-- Cuts a text at every `sep`. There is always one more piece than separators. -/
def pieces (sep : Char) : List Char → List (List Char)
  | [] => [[]]
  | c :: cs =>
    if c = sep then [] :: pieces sep cs
    else match pieces sep cs with
      | [] => [[c]]
      | p :: ps => (c :: p) :: ps

/-- Cuts a string at every `sep`. -/
def split (sep : Char) (s : String) : List String := (pieces sep s.toList).map String.ofList

/-- Puts `sep` between the texts. -/
def join (sep : List Char) : List (List Char) → List Char
  | [] => []
  | [p] => p
  | p :: q :: ps => p ++ sep ++ join sep (q :: ps)

/-- Writes `value` for every occurrence of `marker`, from the left; an occurrence that
overlaps an earlier one is no occurrence. The counter is the number of characters of an
occurrence still to be skipped. -/
def fillFrom (marker value : List Char) : Nat → List Char → List Char
  | _, [] => []
  | skip + 1, _ :: cs => fillFrom marker value skip cs
  | 0, c :: cs =>
    if marker.isPrefixOf (c :: cs) then value ++ fillFrom marker value (marker.length - 1) cs
    else c :: fillFrom marker value 0 cs

/-- Writes `value` for every occurrence of the non-empty text `marker`. -/
def fill (marker value text : String) : String :=
  String.ofList (fillFrom marker.toList value.toList 0 text.toList)

theorem pieces_ne_nil (sep : Char) (cs : List Char) : pieces sep cs ≠ [] := by
  cases cs with
  | nil => simp [pieces]
  | cons c cs =>
    unfold pieces
    split
    · simp
    · split <;> simp

theorem join_pieces (sep : Char) (cs : List Char) : join [sep] (pieces sep cs) = cs := by
  induction cs with
  | nil => simp [pieces, join]
  | cons c cs ih =>
    unfold pieces
    split
    · rename_i h
      cases hp : pieces sep cs with
      | nil => exact absurd hp (pieces_ne_nil sep cs)
      | cons p ps => simp [join, ← hp, ih, h]
    · cases hp : pieces sep cs with
      | nil => exact absurd hp (pieces_ne_nil sep cs)
      | cons p ps =>
        rw [hp] at ih
        cases ps with
        | nil => simpa [join] using ih
        | cons q qs => simpa [join] using ih

end Orchestration.Text
