import ScriptBlocks.Number.Binary64
import ScriptBlocks.Text.Class

/-!
# Texts that denote numbers

Two notions of a numeric text. `readNumber?` reads a numeral with an optional sign, a fraction, an
exponent, or one of the words for infinity and not-a-number, and gives the nearest number.
`isDecimal` says which texts count as numbers when a value's type is inferred: a plain decimal in
digits of any script, between blanks.
-/
namespace ScriptBlocks

/-- The value of a run of ASCII digits. -/
def digitsValue (digits : List Char) : Nat :=
  digits.foldl (fun value c => 10 * value + (c.toNat - '0'.toNat)) 0

/-- An optional sign at the head: whether it is a minus, and what follows. -/
def splitSign : List Char → Bool × List Char
  | '-' :: rest => (true, rest)
  | '+' :: rest => (false, rest)
  | rest => (false, rest)

/-- The exponent part of a numeral: absent, or `e` with an optional sign and digits up to the end.
The result is `none` when the part is malformed. -/
def readExponent? : List Char → Option Int
  | [] => some 0
  | c :: rest =>
    if c = 'e' ∨ c = 'E' then
      let (negative, digits) := splitSign rest
      if digits ≠ [] ∧ digits.all Char.isDigit then
        let value := digitsValue digits
        some (if negative then -(value : Int) else value)
      else none
    else none

/-- The digits and the exponent of an unsigned numeral that fills the whole text. -/
def readUnsigned? (cs : List Char) : Option (Nat × Int) :=
  let whole := cs.takeWhile Char.isDigit
  let afterWhole := cs.dropWhile Char.isDigit
  let pointed := afterWhole.head? == some '.'
  let afterPoint := if pointed then afterWhole.tail else afterWhole
  let fraction := if pointed then afterPoint.takeWhile Char.isDigit else []
  let tail := if pointed then afterPoint.dropWhile Char.isDigit else afterWhole
  if whole ++ fraction = [] then none
  else (readExponent? tail).map fun exponent =>
    (digitsValue (whole ++ fraction), exponent - fraction.length)

/-- The number denoted by a word, in either case of its letters. -/
def readWord? (negative : Bool) (cs : List Char) : Option Binary64 :=
  let word := String.ofList (cs.map Char.toLower)
  if word = "inf" ∨ word = "infinity" then some (Binary64.infinity negative)
  else if word = "nan" then some (Binary64.nan negative)
  else none

/-- The number nearest to what the whole text denotes, if it denotes a number. -/
def readNumber? (text : String) : Option Binary64 :=
  let (negative, cs) := splitSign text.toList
  match readUnsigned? cs with
  | some (digits, exponent) => some (Binary64.ofDecimal negative digits exponent)
  | none => readWord? negative cs

/-- A plain decimal without sign: digits with an optional point among or after them, or a point
and digits. -/
def isUnsignedDecimal (cs : List Char) : Bool :=
  let whole := cs.takeWhile Text.isDecimalDigit
  match cs.dropWhile Text.isDecimalDigit with
  | [] => whole ≠ []
  | '.' :: fraction => (whole ≠ [] || fraction ≠ []) && fraction.all Text.isDecimalDigit
  | _ => false

/-- A text that counts as a number: a plain decimal with an optional sign, between blanks. -/
def isDecimal (text : String) : Bool :=
  isUnsignedDecimal (splitSign (Text.trim text.toList)).2

end ScriptBlocks
