import Mathlib.Data.Nat.Digits.Defs
import Orchestration.Json.Draft
import Orchestration.Json.Printer

/-!
# Reading back what was written

The indented text of a value is read back as the draft of this value, whatever follows it in the
text, if no double is in it and its whole numbers are in range (`Draft.readValue_prettyText`). A
number ends only where the text goes on with something that is no part of a number, so the rest of
the text is looked at too.
-/

namespace Orchestration.Json

/-! ## Values without doubles -/

mutual

/-- No double stands in a value, at any level. -/
def FloatFree : Json → Prop
  | .null | .bool _ | .int _ | .str _ => True
  | .float _ => False
  | .arr items => FloatFreeItems items
  | .obj fields => FloatFreeFields fields

/-- `FloatFree` for every item of a list. -/
def FloatFreeItems : List Json → Prop
  | [] => True
  | v :: rest => v.FloatFree ∧ FloatFreeItems rest

/-- `FloatFree` for every value of a list of fields. -/
def FloatFreeFields : List (String × Json) → Prop
  | [] => True
  | (_, v) :: rest => v.FloatFree ∧ FloatFreeFields rest

end

mutual

/-- Whether a value is well-formed can be computed. -/
def decideWellFormed : (v : Json) → Decidable v.WellFormed
  | .null | .bool _ | .float _ | .str _ => .isTrue trivial
  | .int n => inferInstanceAs (Decidable (minInt ≤ n ∧ n ≤ maxInt))
  | .arr items => decideWellFormedItems items
  | .obj fields =>
    have := decideWellFormedFields fields
    inferInstanceAs (Decidable ((Entries.keys fields).Nodup ∧ WellFormedFields fields))

def decideWellFormedItems : (items : List Json) → Decidable (WellFormedItems items)
  | [] => .isTrue trivial
  | v :: rest =>
    have := decideWellFormed v
    have := decideWellFormedItems rest
    inferInstanceAs (Decidable (v.WellFormed ∧ WellFormedItems rest))

def decideWellFormedFields : (fields : List (String × Json)) → Decidable (WellFormedFields fields)
  | [] => .isTrue trivial
  | (_, v) :: rest =>
    have := decideWellFormed v
    have := decideWellFormedFields rest
    inferInstanceAs (Decidable (v.WellFormed ∧ WellFormedFields rest))

end

instance (v : Json) : Decidable v.WellFormed := v.decideWellFormed

mutual

def decideFloatFree : (v : Json) → Decidable v.FloatFree
  | .null | .bool _ | .int _ | .str _ => .isTrue trivial
  | .float _ => .isFalse id
  | .arr items => decideFloatFreeItems items
  | .obj fields => decideFloatFreeFields fields

def decideFloatFreeItems : (items : List Json) → Decidable (FloatFreeItems items)
  | [] => .isTrue trivial
  | v :: rest =>
    have := decideFloatFree v
    have := decideFloatFreeItems rest
    inferInstanceAs (Decidable (v.FloatFree ∧ FloatFreeItems rest))

def decideFloatFreeFields : (fields : List (String × Json)) → Decidable (FloatFreeFields fields)
  | [] => .isTrue trivial
  | (_, v) :: rest =>
    have := decideFloatFree v
    have := decideFloatFreeFields rest
    inferInstanceAs (Decidable (v.FloatFree ∧ FloatFreeFields rest))

end

instance (v : Json) : Decidable v.FloatFree := v.decideFloatFree

namespace Draft

/-! ## Strings -/

/-- How a character is read back: one without a short escape is written as its unit. -/
def pieceOf (c : Char) : Piece :=
  if c.toNat < 32 ∧ c.toNat ∉ [8, 9, 10, 12, 13] then .unit c.toNat else .char c

theorem hexUnit?_low {n : Nat} (h : n < 32) :
    hexUnit? '0' '0' (Nat.digitChar (n / 16)) (Nat.digitChar (n % 16)) = some n := by
  revert n
  decide

/-- A piece at the head of a string that goes on after it. -/
def consPiece (p : Piece) (r : List Piece × List Char) : List Piece × List Char := (p :: r.1, r.2)

theorem lexString_short {e c : Char} (h : shortEscape? e = some c) (rest : List Char) :
    lexString ('\\' :: e :: rest) = (lexString rest).map (consPiece (.char c)) := by
  have hNoUnit : e ≠ 'u' := by
    rintro rfl
    cases h
  cases hRest : lexString rest <;> simp [lexString, hNoUnit, h, hRest, consPiece]

theorem lexString_unit {a b c d : Char} {n : Nat} (h : hexUnit? a b c d = some n)
    (rest : List Char) :
    lexString ('\\' :: 'u' :: a :: b :: c :: d :: rest) =
      (lexString rest).map (consPiece (.unit n)) := by
  cases hRest : lexString rest <;> simp [lexString, h, hRest, consPiece]

theorem lexString_plain {c : Char} (hQuote : c ≠ '"') (hMark : c ≠ '\\') (hHigh : 32 ≤ c.toNat)
    (rest : List Char) : lexString (c :: rest) = (lexString rest).map (consPiece (.char c)) := by
  have hLow : ¬ c.toNat < 32 := by omega
  cases hRest : lexString rest <;> simp [lexString, hMark, hLow, hRest, consPiece]

/-- What is written for a character is read as one piece. -/
theorem lexString_escapeChar (c : Char) (rest : List Char) :
    lexString (escapeChar c ++ rest) = (lexString rest).map (consPiece (pieceOf c)) := by
  have hShort {n : Nat} {e : Char} (hCode : c.toNat = n) (hn : n ∈ [8, 9, 10, 12, 13])
      (hEscape : shortEscape? e = some (Char.ofNat n)) :
      lexString ('\\' :: e :: rest) = (lexString rest).map (consPiece (pieceOf c)) := by
    have hPiece : pieceOf c = .char c := if_neg (by rw [hCode]; exact fun h => h.2 hn)
    rw [lexString_short hEscape, hPiece, ← hCode, Char.ofNat_toNat]
  unfold escapeChar
  split_ifs with hQuote hMark h8 h9 h10 h12 h13 hLow
  · rw [hQuote]
    exact lexString_short rfl rest
  · rw [hMark]
    exact lexString_short rfl rest
  · exact hShort h8 (by decide) rfl
  · exact hShort h9 (by decide) rfl
  · exact hShort h10 (by decide) rfl
  · exact hShort h12 (by decide) rfl
  · exact hShort h13 (by decide) rfl
  · have hPiece : pieceOf c = .unit c.toNat := if_pos ⟨hLow, by simp [h8, h9, h10, h12, h13]⟩
    rw [hPiece]
    exact lexString_unit (hexUnit?_low hLow) rest
  · have hPiece : pieceOf c = .char c := if_neg fun h => hLow h.1
    rw [hPiece]
    exact lexString_plain hQuote hMark (by omega) rest

theorem lexString_escape (cs rest : List Char) :
    lexString (escape cs ++ '"' :: rest) = some (cs.map pieceOf, rest) := by
  induction cs with
  | nil => rfl
  | cons c cs ih =>
    have hSplit : escape (c :: cs) ++ '"' :: rest = escapeChar c ++ (escape cs ++ '"' :: rest) := by
      simp [escape]
    rw [hSplit, lexString_escapeChar, ih]
    rfl

/-- A unit that is no half of a pair is a character by itself. -/
theorem joinPieces_unit {n : Nat} (h : n < 0xD800) (ps : List Piece) :
    joinPieces (.unit n :: ps) = (joinPieces ps).map (Char.ofNat n :: ·) := by
  have hHigh : isHighUnit n = false := by
    simp [isHighUnit]
    omega
  have hLowUnit : isLowUnit n = false := by
    simp [isLowUnit]
    omega
  cases ps with
  | nil => simp [joinPieces, hHigh, hLowUnit]
  | cons p ps =>
    cases p with
    | char c => cases hRest : joinPieces ps <;> simp [joinPieces, hHigh, hLowUnit, hRest]
    | unit m =>
      cases hRest : joinPieces (.unit m :: ps) <;> simp [joinPieces, hHigh, hLowUnit, hRest]

theorem joinPieces_map_pieceOf (cs : List Char) : joinPieces (cs.map pieceOf) = some cs := by
  induction cs with
  | nil => rfl
  | cons c cs ih =>
    rw [List.map_cons, pieceOf]
    split
    · rename_i hLow
      rw [joinPieces_unit (by omega), ih, Option.map_some, Char.ofNat_toNat]
    · rw [joinPieces, ih]
      rfl

theorem readString_escape (s : String) (rest : List Char) :
    readString (escape s.toList ++ '"' :: rest) = (.str s, rest) := by
  rw [readString, lexString_escape]
  simp only [joinPieces_map_pieceOf, String.ofList_toList]

/-! ## Numbers -/

/-- A number does not go on in this text. -/
def EndsNumber (rest : List Char) : Prop :=
  ∀ c ∈ rest.head?, c.isDigit = false ∧ c ≠ '.' ∧ c ≠ 'e' ∧ c ≠ 'E'

theorem span_append {ds rest : List Char} (hDigits : ∀ c ∈ ds, c.isDigit = true)
    (hRest : EndsNumber rest) :
    Numeral.span (ds ++ rest) = (ds, rest) := by
  induction ds with
  | nil =>
    cases rest with
    | nil => rfl
    | cons c rest =>
      have hOther := (hRest c rfl).1
      simp [Numeral.span, hOther]
  | cons c ds ih =>
    have hFirst := hDigits c List.mem_cons_self
    have hOthers := ih fun d hd => hDigits d (List.mem_cons_of_mem _ hd)
    rw [Numeral.span, Prod.mk.injEq] at hOthers
    simp [Numeral.span, hFirst, hOthers]

theorem digitChar_eq_zero {n : Nat} (h : n < 10) : Nat.digitChar n = '0' → n = 0 := by
  revert n
  decide

/-- Only zero is written with a zero in front. -/
theorem toDigits_eq_cons (n : Nat) :
    ∃ d ds, Nat.toDigits 10 n = d :: ds ∧ (d = '0' → n = 0) := by
  induction n using Nat.strongRecOn with
  | ind n ih =>
    by_cases hSmall : n < 10
    · exact ⟨_, [], Nat.toDigits_of_lt_base hSmall, digitChar_eq_zero hSmall⟩
    · have hLess : n / 10 < n := by omega
      obtain ⟨d, ds, hDigits, hZero⟩ := ih (n / 10) hLess
      refine ⟨d, ds ++ [Nat.digitChar (n % 10)], ?_, ?_⟩
      · rw [Nat.toDigits_of_base_le (by omega) (by omega), hDigits]
        rfl
      · intro hd
        have hNone := hZero hd
        omega

theorem lexWhole_toDigits (n : Nat) {rest : List Char} (hRest : EndsNumber rest) :
    Numeral.lexWhole (Nat.toDigits 10 n ++ rest) = some (Nat.toDigits 10 n, rest) := by
  have hDigits : ∀ c ∈ Nat.toDigits 10 n, c.isDigit = true := fun c hc =>
    Nat.isDigit_of_mem_toDigits (by decide) (by decide) hc
  rw [Numeral.lexWhole, span_append hDigits hRest]
  obtain ⟨d, ds, hCons, hZero⟩ := toDigits_eq_cons n
  rw [hCons]
  by_cases hd : d = '0'
  · obtain rfl := hZero hd
    cases hCons
    rfl
  · cases ds <;> simp [hd]

theorem lexPart_of_endsNumber {rest : List Char} (h : EndsNumber rest) :
    Numeral.lexPart rest = some (none, rest) := by
  cases rest with
  | nil => rfl
  | cons c rest =>
    have hPoint := (h c rfl).2.1
    unfold Numeral.lexPart
    split
    · rename_i hHead
      cases hHead
      exact absurd rfl hPoint
    · rfl

theorem lexExponent_of_endsNumber {rest : List Char} (h : EndsNumber rest) :
    Numeral.lexExponent rest = some (none, rest) := by
  cases rest with
  | nil => rfl
  | cons c rest =>
    obtain ⟨-, -, hSmall, hBig⟩ := h c rfl
    simp [Numeral.lexExponent, hSmall, hBig]

/-- A whole number as it is written: a sign if it is negative, and its digits. -/
def intNumeral (n : Int) : Numeral := ⟨decide (n < 0), Nat.toDigits 10 n.natAbs, none, none⟩

theorem lex_intText (n : Int) {rest : List Char} (h : EndsNumber rest) :
    Numeral.lex (intText n ++ rest) = some (intNumeral n, rest) := by
  have hWhole := lexWhole_toDigits n.natAbs h
  unfold intText intNumeral
  by_cases hSign : n < 0
  · rw [if_pos hSign, List.cons_append, Numeral.lex]
    simp [hWhole, lexPart_of_endsNumber h, lexExponent_of_endsNumber h, hSign]
  · rw [if_neg hSign]
    obtain ⟨d, ds, hCons, -⟩ := toDigits_eq_cons n.natAbs
    have hDigit : d.isDigit = true :=
      Nat.isDigit_of_mem_toDigits (b := 10) (by decide) (by decide) (hCons ▸ List.mem_cons_self)
    have hNoSign : d ≠ '-' := by
      rintro rfl
      cases hDigit
    rw [hCons, List.cons_append] at hWhole ⊢
    simp [Numeral.lex, hNoSign, hWhole, lexPart_of_endsNumber h, lexExponent_of_endsNumber h, hSign]

theorem value?_intNumeral {n : Int} (h : minInt ≤ n ∧ n ≤ maxInt) :
    (intNumeral n).value? = some (.int n) := by
  have hDigits : Numeral.digitsValue (Nat.toDigits 10 n.natAbs) = n.natAbs :=
    Nat.ofDigitChars_toDigits (by decide) (by decide)
  have hValue : (if decide (n < 0) = true then -(n.natAbs : Int) else n.natAbs) = n := by
    by_cases hSign : n < 0
    · rw [if_pos (by simpa using hSign)]
      omega
    · rw [if_neg (by simpa using hSign)]
      omega
  have hNoZero : (decide (n < 0) && n == 0) = false := by
    by_cases hSign : n < 0
    · simp [hSign]
      omega
    · simp [hSign]
  simp only [Numeral.value?, intNumeral, hDigits, hValue, hNoZero]
  rw [if_neg (by decide), if_pos h]

theorem intText_eq_cons (n : Int) :
    ∃ c cs, intText n = c :: cs ∧ (c.isDigit = true ∨ c = '-') := by
  unfold intText
  by_cases hSign : n < 0
  · exact ⟨_, _, if_pos hSign, .inr rfl⟩
  · obtain ⟨d, ds, hCons, -⟩ := toDigits_eq_cons n.natAbs
    have hDigit : d.isDigit = true :=
      Nat.isDigit_of_mem_toDigits (b := 10) (by decide) (by decide) (hCons ▸ List.mem_cons_self)
    exact ⟨d, ds, by rw [if_neg hSign, hCons], .inl hDigit⟩

theorem readPlain_intText {n : Int} (h : minInt ≤ n ∧ n ≤ maxInt) {rest : List Char}
    (hRest : EndsNumber rest) : readPlain (intText n ++ rest) = (.int n, rest) := by
  have hLex := lex_intText n hRest
  obtain ⟨c, cs, hCons, hHead⟩ := intText_eq_cons n
  rw [hCons, List.cons_append] at hLex ⊢
  generalize cs ++ rest = tail at hLex ⊢
  unfold readPlain
  split
  · rename_i hWord
    cases hWord
    exact absurd hHead (by decide)
  · rename_i hWord
    cases hWord
    exact absurd hHead (by decide)
  · rename_i hWord
    cases hWord
    exact absurd hHead (by decide)
  · rw [hLex]
    simp only [ofNumeral, value?_intNumeral h]

/-! ## White space -/

def spaces : List Char := [' ', '\n', '\t', '\r']

theorem skip_cons {c : Char} (h : c ∉ spaces) (cs : List Char) : skip (c :: cs) = c :: cs := by
  have hNoSpace : isSpace c = false := by
    simp only [spaces, List.mem_cons, List.not_mem_nil, or_false, not_or] at h
    simp [isSpace, h]
  rw [skip, List.dropWhile_cons, hNoSpace]
  rfl

theorem skip_newline (level : Nat) (cs : List Char) : skip (newline level ++ cs) = skip cs := by
  have hBlanks (n : Nat) : skip (List.replicate n ' ' ++ cs) = skip cs := by
    induction n with
    | zero => rfl
    | succ n ih => exact ih
  exact hBlanks (2 * level)

/-- The text of a value begins with a character of its own, which does not close an array. -/
theorem prettyText_eq_cons {v : Json} (h : v.FloatFree) (level : Nat) :
    ∃ c cs, prettyText level v = c :: cs ∧ c ∉ spaces ∧ c ≠ ']' := by
  cases v with
  | null => exact ⟨_, _, rfl, by decide, by decide⟩
  | bool b => cases b <;> exact ⟨_, _, rfl, by decide, by decide⟩
  | int n =>
    obtain ⟨c, cs, hCons, hHead⟩ := intText_eq_cons n
    refine ⟨c, cs, hCons, ?_, ?_⟩
    · intro hMem
      simp only [spaces, List.mem_cons, List.not_mem_nil, or_false] at hMem
      rcases hMem with rfl | rfl | rfl | rfl <;> exact absurd hHead (by decide)
    · rintro rfl
      exact absurd hHead (by decide)
  | float x => exact h.elim
  | str s => exact ⟨_, _, rfl, by decide, by decide⟩
  | arr items => cases items <;> exact ⟨_, _, rfl, by decide, by decide⟩
  | obj fields => cases fields <;> exact ⟨_, _, rfl, by decide, by decide⟩

theorem skip_prettyText {v : Json} (h : v.FloatFree) (level : Nat) (rest : List Char) :
    skip (prettyText level v ++ rest) = prettyText level v ++ rest := by
  obtain ⟨c, cs, hCons, hSpace, -⟩ := prettyText_eq_cons h level
  rw [hCons]
  exact skip_cons hSpace _

/-! ## Values -/

theorem isWhole_ofValue (v : Json) : (ofValue v).isWhole = true := by
  cases v <;> rfl

theorem readValue_plain {cs tail : List Char} {c : Char} (hText : skip cs = c :: tail)
    (hOpen : c ∉ ['"', '[', '\x7b']) (fuel : Nat) :
    readValue (fuel + 1) cs = readPlain (c :: tail) := by
  simp only [List.mem_cons, List.not_mem_nil, or_false, not_or] at hOpen
  rw [readValue, hText]
  simp [hOpen]

theorem quoted_append (s : String) (rest : List Char) :
    quoted s ++ rest = '"' :: (escape s.toList ++ '"' :: rest) := by
  simp [quoted]

theorem readValue_quoted {cs rest : List Char} {s : String} (hText : skip cs = quoted s ++ rest)
    (fuel : Nat) : readValue (fuel + 1) cs = (.str s, rest) := by
  rw [readValue, hText, quoted_append]
  exact readString_escape s rest

theorem readValue_int {n : Int} {level : Nat} {cs rest : List Char}
    (hWell : (Json.int n).WellFormed) (hRest : EndsNumber rest)
    (hText : skip cs = prettyText level (.int n) ++ rest) (fuel : Nat) :
    readValue (fuel + 1) cs = (.int n, rest) := by
  rw [prettyText] at hText
  have hPlain := readPlain_intText hWell hRest
  obtain ⟨c, digits, hCons, hHead⟩ := intText_eq_cons n
  rw [hCons, List.cons_append] at hText hPlain
  rw [readValue_plain hText ?_ fuel, hPlain]
  intro hMem
  simp only [List.mem_cons, List.not_mem_nil, or_false] at hMem
  rcases hMem with rfl | rfl | rfl <;> exact absurd hHead (by decide)

theorem readValue_array {fuel : Nat} {cs inner tail rest : List Char} {c : Char}
    {items : List Draft} (hText : skip cs = '[' :: inner) (hInner : skip inner = c :: tail)
    (hOpen : c ≠ ']') (hItems : readItems fuel (c :: tail) = (items, true, rest)) :
    readValue (fuel + 1) cs = (.arr items true, rest) := by
  rw [readValue, hText]
  simp [hInner, hOpen, hItems]

theorem readValue_object {fuel : Nat} {cs inner tail rest : List Char}
    {fields : List (String × Draft)} (hText : skip cs = '\x7b' :: inner)
    (hInner : skip inner = '"' :: tail)
    (hFields : readFields fuel ('"' :: tail) = (fields, true, rest)) :
    readValue (fuel + 1) cs = (.obj fields true, rest) := by
  rw [readValue, hText]
  simp [hInner, hFields]

theorem readItems_last {fuel level : Nat} {cs rest : List Char} {d : Draft}
    (hWhole : d.isWhole = true) (hValue : readValue fuel cs = (d, newline level ++ ']' :: rest)) :
    readItems (fuel + 1) cs = ([d], true, rest) := by
  simp [readItems, hValue, hWhole, skip_newline, skip_cons (show ']' ∉ spaces by decide)]

theorem readItems_cons {fuel : Nat} {cs rest rest' : List Char} {d : Draft} {items : List Draft}
    (hWhole : d.isWhole = true) (hValue : readValue fuel cs = (d, ',' :: rest))
    (hItems : readItems fuel rest = (items, true, rest')) :
    readItems (fuel + 1) cs = (d :: items, true, rest') := by
  simp [readItems, hValue, hWhole, hItems, skip_cons (show ',' ∉ spaces by decide)]

theorem readFields_last {fuel level : Nat} {k : String} {cs inner rest : List Char} {d : Draft}
    (hText : skip cs = quoted k ++ ':' :: inner) (hWhole : d.isWhole = true)
    (hValue : readValue fuel inner = (d, newline level ++ '\x7d' :: rest)) :
    readFields (fuel + 1) cs = ([(k, d)], true, rest) := by
  rw [quoted_append] at hText
  simp [readFields, hText, readString_escape, skip_cons (show ':' ∉ spaces by decide),
    hValue, hWhole, skip_newline, skip_cons (show '\x7d' ∉ spaces by decide)]

theorem readFields_cons {fuel : Nat} {k : String} {cs inner rest rest' : List Char} {d : Draft}
    {fields : List (String × Draft)} (hText : skip cs = quoted k ++ ':' :: inner)
    (hWhole : d.isWhole = true) (hValue : readValue fuel inner = (d, ',' :: rest))
    (hFields : readFields fuel rest = (fields, true, rest')) :
    readFields (fuel + 1) cs = ((k, d) :: fields, true, rest') := by
  rw [quoted_append] at hText
  simp [readFields, hText, readString_escape, skip_cons (show ':' ∉ spaces by decide),
    hValue, hWhole, hFields, skip_cons (show ',' ∉ spaces by decide)]

/-- After an item the text goes on with a comma or a line break, which end a number. -/
theorem endsNumber_prettyItems (level : Nat) (items : List Json) (rest : List Char) :
    EndsNumber (prettyItems level items ++ rest) := by
  cases items <;> (rintro c ⟨⟩; decide)

theorem endsNumber_prettyFields (level : Nat) (fields : List (String × Json)) (rest : List Char) :
    EndsNumber (prettyFields level fields ++ rest) := by
  cases fields <;> (rintro c ⟨⟩; decide)

theorem length_prettyItems_pos (level : Nat) (items : List Json) :
    0 < (prettyItems level items).length := by
  cases items <;> exact Nat.succ_pos _

theorem length_prettyFields_pos (level : Nat) (fields : List (String × Json)) :
    0 < (prettyFields level fields).length := by
  cases fields <;> exact Nat.succ_pos _

mutual

/-- The text of a value is read back as its draft. More steps than the text
has characters suffice. -/
theorem readValue_prettyText (v : Json) {level fuel : Nat} {cs rest : List Char}
    (hFloat : v.FloatFree) (hWell : v.WellFormed) (hFuel : (prettyText level v).length < fuel)
    (hRest : EndsNumber rest) (hText : skip cs = prettyText level v ++ rest) :
    readValue fuel cs = (ofValue v, rest) := by
  obtain ⟨fuel, rfl⟩ : ∃ n, fuel = n + 1 := Nat.exists_eq_succ_of_ne_zero (by omega)
  cases v with
  | null => exact readValue_plain hText (by decide) fuel
  | bool b => cases b <;> exact readValue_plain hText (by decide) fuel
  | int n => exact readValue_int hWell hRest hText fuel
  | float x => exact hFloat.elim
  | str s => exact readValue_quoted hText fuel
  | arr items =>
    cases items with
    | nil =>
      rw [readValue, hText]
      rfl
    | cons item items =>
      rw [prettyText, List.length_cons, List.length_append] at hFuel
      rw [prettyText, List.cons_append, List.append_assoc, List.append_assoc] at hText
      obtain ⟨c, tail, hCons, hSpace, hOpen⟩ := prettyText_eq_cons hFloat.1 (level + 1)
      have hInner : skip (newline (level + 1) ++ (prettyText (level + 1) item ++
          (prettyItems level items ++ rest))) =
            c :: (tail ++ (prettyItems level items ++ rest)) := by
        rw [skip_newline, skip_prettyText hFloat.1, hCons]
        rfl
      refine readValue_array hText hInner hOpen ?_
      apply readItems_prettyItems level item items hFloat hWell (by omega)
      rw [hCons]
      exact skip_cons hSpace _
  | obj fields =>
    cases fields with
    | nil =>
      rw [readValue, hText]
      rfl
    | cons f fields =>
      obtain ⟨k, v⟩ := f
      rw [prettyText, List.length_cons, List.length_append, List.length_append, List.length_cons,
        List.length_cons] at hFuel
      rw [prettyText, List.cons_append, List.append_assoc, List.append_assoc, List.cons_append,
        List.cons_append, List.append_assoc, quoted_append] at hText
      refine readValue_object hText (skip_newline _ _) ?_
      apply readFields_prettyFields level k v fields hFloat hWell.2 (by omega)
      rw [quoted_append]
      rfl
termination_by fuel

/-- The items of an array, the first of which may follow white space. -/
theorem readItems_prettyItems (level : Nat) (v : Json) (items : List Json) {fuel : Nat}
    {cs rest : List Char} (hFloat : FloatFreeItems (v :: items))
    (hWell : WellFormedItems (v :: items))
    (hFuel : (prettyText (level + 1) v ++ prettyItems level items).length < fuel)
    (hText : skip cs = prettyText (level + 1) v ++ (prettyItems level items ++ rest)) :
    readItems fuel cs = (ofItems (v :: items), true, rest) := by
  obtain ⟨fuel, rfl⟩ : ∃ n, fuel = n + 1 := Nat.exists_eq_succ_of_ne_zero (by omega)
  rw [List.length_append] at hFuel
  have hMore := length_prettyItems_pos level items
  have hLess : (prettyText (level + 1) v).length < fuel := by omega
  have hValue := readValue_prettyText v hFloat.1 hWell.1 hLess
    (endsNumber_prettyItems level items rest) hText
  cases items with
  | nil =>
    rw [prettyItems, List.append_assoc] at hValue
    exact readItems_last (isWhole_ofValue v) hValue
  | cons w items =>
    rw [prettyItems, List.length_cons, List.length_append] at hFuel
    rw [prettyItems, List.cons_append, List.append_assoc, List.append_assoc] at hValue
    apply readItems_cons (isWhole_ofValue v) hValue
    apply readItems_prettyItems level w items hFloat.2 hWell.2 (by omega)
    rw [skip_newline, skip_prettyText hFloat.2.1]
termination_by fuel

/-- The fields of an object, the first of which may follow white space. -/
theorem readFields_prettyFields (level : Nat) (k : String) (v : Json)
    (fields : List (String × Json)) {fuel : Nat} {cs rest : List Char}
    (hFloat : FloatFreeFields ((k, v) :: fields)) (hWell : WellFormedFields ((k, v) :: fields))
    (hFuel : (prettyText (level + 1) v ++ prettyFields level fields).length < fuel)
    (hText : skip cs = quoted k ++ ':' :: ' ' ::
      (prettyText (level + 1) v ++ (prettyFields level fields ++ rest))) :
    readFields fuel cs = (ofFields ((k, v) :: fields), true, rest) := by
  obtain ⟨fuel, rfl⟩ : ∃ n, fuel = n + 1 := Nat.exists_eq_succ_of_ne_zero (by omega)
  rw [List.length_append] at hFuel
  have hMore := length_prettyFields_pos level fields
  have hLess : (prettyText (level + 1) v).length < fuel := by omega
  have hBlank : skip (' ' :: (prettyText (level + 1) v ++ (prettyFields level fields ++ rest))) =
      prettyText (level + 1) v ++ (prettyFields level fields ++ rest) :=
    skip_prettyText hFloat.1 (level + 1) _
  have hValue := readValue_prettyText v hFloat.1 hWell.1 hLess
    (endsNumber_prettyFields level fields rest) hBlank
  cases fields with
  | nil =>
    rw [prettyFields, List.append_assoc] at hText hValue
    exact readFields_last hText (isWhole_ofValue v) hValue
  | cons f fields =>
    obtain ⟨k', w⟩ := f
    rw [prettyFields, List.length_cons, List.length_append, List.length_append, List.length_cons,
      List.length_cons] at hFuel
    simp only [prettyFields, List.cons_append, List.append_assoc] at hText hValue
    apply readFields_cons hText (isWhole_ofValue v) hValue
    apply readFields_prettyFields level k' w fields hFloat.2 hWell.2 (by omega)
    rw [skip_newline, quoted_append]
    rfl
termination_by fuel

end

/-- The indented text of a value is read as its draft, to the end. -/
theorem read_pretty {v : Json} (hFloat : v.FloatFree) (hWell : v.WellFormed) :
    read v.pretty = (ofValue v, []) := by
  have hText : v.pretty.toList = prettyText 0 v := String.toList_ofList
  have hSkip : skip (prettyText 0 v) = prettyText 0 v ++ [] := by
    have hAll := skip_prettyText hFloat 0 []
    rwa [List.append_nil] at hAll ⊢
  rw [read, hText]
  exact readValue_prettyText v hFloat hWell (Nat.lt_succ_self _) (by rintro c ⟨⟩) hSkip

end Draft

end Orchestration.Json
