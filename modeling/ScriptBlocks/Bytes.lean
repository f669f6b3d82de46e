/-!
# Numbers and texts as bytes

Numbers have a fixed width, the least significant byte first. Texts are in UTF-8, or in archives also
in the code page of the first machines that wrote them.
-/
namespace ScriptBlocks

/-- The lowest bytes of a number, the least significant first. -/
def littleEndian : Nat → Nat → List UInt8
  | 0, _ => []
  | width + 1, n => UInt8.ofNat n :: littleEndian width (n / 256)

/-- The number that bytes stand for. -/
def numberOf : List UInt8 → Nat
  | [] => 0
  | byte :: bytes => byte.toNat + 256 * numberOf bytes

/-! ### Archives as arrays of bytes -/

namespace Archive

/-- The bytes of an archive that is read. -/
abbrev Data := Array UInt8

namespace Data

def slice? (data : Data) (offset length : Nat) : Option (List UInt8) :=
  if offset + length ≤ data.size then some (data.extract offset (offset + length)).toList
  else none

/-- The number in a field of a fixed width. -/
def number? (data : Data) (offset width : Nat) : Option Nat :=
  (data.slice? offset width).map numberOf

/-- Whether a record starts with its mark. -/
def marked (data : Data) (offset mark : Nat) : Bool :=
  data.number? offset 4 = some mark

end Data

end Archive

/-! ### UTF-8

Reading does not fail: where the bytes are not the start of a character, or a character breaks off,
the replacement character stands for what has been read of it. -/

namespace Text.Utf8

def replacement : Char := Char.ofNat 0xFFFD

/-- A character that is not complete: its value so far, the number of bytes that follow, and the
range of the next one. -/
structure Pending where
  value : Nat
  missing : Nat
  least : Nat
  greatest : Nat
  deriving DecidableEq, Repr

/-- What the first byte of a character gives. The range of the second byte leaves out values that
have a shorter form, surrogates, and values beyond the last character. -/
def start (byte : Nat) : List Char × Option Pending :=
  if byte < 0x80 then ([Char.ofNat byte], none)
  else if byte < 0xC2 then ([replacement], none)
  else if byte < 0xE0 then ([], some ⟨byte - 0xC0, 1, 0x80, 0xBF⟩)
  else if byte < 0xF0 then
    ([], some ⟨byte - 0xE0, 2, if byte = 0xE0 then 0xA0 else 0x80,
      if byte = 0xED then 0x9F else 0xBF⟩)
  else if byte < 0xF5 then
    ([], some ⟨byte - 0xF0, 3, if byte = 0xF0 then 0x90 else 0x80,
      if byte = 0xF4 then 0x8F else 0xBF⟩)
  else ([replacement], none)

/-- The characters of bytes that follow an incomplete character, if there is one. -/
def decodeFrom : Option Pending → List UInt8 → List Char
  | none, [] => []
  | some _, [] => [replacement]
  | none, byte :: bytes =>
    let (cs, next) := start byte.toNat
    cs ++ decodeFrom next bytes
  | some p, byte :: bytes =>
    let n := byte.toNat
    if p.least ≤ n ∧ n ≤ p.greatest then
      let value := 64 * p.value + (n - 0x80)
      if p.missing ≤ 1 then Char.ofNat value :: decodeFrom none bytes
      else decodeFrom (some ⟨value, p.missing - 1, 0x80, 0xBF⟩) bytes
    else
      let (cs, next) := start n
      replacement :: (cs ++ decodeFrom next bytes)

/-- The text of any bytes. -/
def decode (bytes : List UInt8) : String :=
  String.ofList (decodeFrom none bytes)

end Text.Utf8

/-! ### Names and comments in archives

They are in UTF-8 if the directory says so, and otherwise in the code page number 437, whose lower half
is ASCII. -/

namespace Archive

/-- The characters of the bytes from 128 on. -/
def codePage : List Char :=
  ("ÇüéâäàåçêëèïîìÄÅÉæÆôöòûùÿÖÜ¢£¥₧ƒ" ++
    "áíóúñÑªº¿⌐¬½¼¡«»░▒▓│┤╡╢╖╕╣║╗╝╜╛┐" ++
    "└┴┬├─┼╞╟╚╔╩╦╠═╬╧╨╤╥╙╘╒╓╫╪┘┌█▄▌▐▀" ++
    "αßΓπΣσµτΦΘΩδ∞φε∩≡±≥≤⌠⌡÷≈°∙·√ⁿ²■\u00a0").toList

def codePageChar (byte : UInt8) : Char :=
  if byte < 128 then Char.ofNat byte.toNat
  else codePage.getD (byte.toNat - 128) Text.Utf8.replacement

/-- The text that is written with these bytes. -/
def textOf (inUtf8 : Bool) (bytes : List UInt8) : String :=
  if inUtf8 then Text.Utf8.decode bytes else String.ofList (bytes.map codePageChar)

end Archive
end ScriptBlocks
