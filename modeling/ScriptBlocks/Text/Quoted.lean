import ScriptBlocks.Text.Printable

/-!
# Texts shown inside messages

A message shows source text between quotes. Control characters that have a short escape are
written with it, quotes and backslashes take a backslash, and a character that cannot be shown on
its own is written by its code point, as in `\u{200d}`.
-/
namespace ScriptBlocks.Text

/-- A character written by its code point in lower-case hexadecimal. -/
def codePoint (c : Char) : List Char :=
  '\\' :: 'u' :: '\x7b' :: (Nat.toDigits 16 c.toNat ++ ['\x7d'])

/-- The escape of a character that has one of its own, quotes apart. -/
def shortEscape? (c : Char) : Option (List Char) :=
  if c = Char.ofNat 0 then some ['\\', '0']
  else if c = '\t' then some ['\\', 't']
  else if c = '\r' then some ['\\', 'r']
  else if c = '\n' then some ['\\', 'n']
  else if c = '\\' then some ['\\', '\\']
  else none

/-- A character as it is shown in a message. An extending character is escaped when `alone`, since
nothing before it could carry it, and the characters of `quotes` take a backslash. -/
def shown (quotes : List Char) (alone : Bool) (c : Char) : List Char :=
  match shortEscape? c with
  | some escape => escape
  | none =>
    if quotes.contains c then ['\\', c]
    else if alone && isExtending c then codePoint c
    else if isPrintable c then [c]
    else codePoint c

/-- One character between single quotes. -/
def quotedChar (c : Char) : String :=
  String.ofList ('\'' :: (shown ['\''] true c ++ ['\'']))

/-- The characters of a text as shown in a message, without surrounding quotes. Only the first
one has nothing before it. -/
def shownText : List Char → List Char
  | [] => []
  | c :: cs => shown ['\'', '"'] true c ++ cs.flatMap (shown ['\'', '"'] false)

end ScriptBlocks.Text
