import ScriptBlocks.Diagnostic

/-!
# Diagnostics beside their source

A diagnostic is shown with the source line it is about: the range is underlined, and the message
hangs from the middle of the underline. A range over several lines is shown by its first and its last
line, and the message hangs from a bracket that joins them. Lines are numbered in a margin as wide as
the largest number shown. On a terminal the heading, the margin and the marks are coloured.
-/
namespace ScriptBlocks.Report

/-- How the parts of a report are written that can be coloured: what leads to the message, and the
lines that frame the source. -/
structure Paint where
  accent : String → String
  frame : String → String

/-- A text between the sequences that switch a colour on and all colours off. -/
def inColour (colour text : String) : String :=
  "\x1b[" ++ colour ++ "m" ++ text ++ "\x1b[0m"

namespace Paint

def plain : Paint := ⟨id, id⟩

/-- Errors in red and warnings in yellow, with a grey frame. -/
def coloured (severity : Severity) : Paint :=
  let accent := match severity with
    | .error => "31"
    | .warning => "33"
  ⟨inColour accent, inColour "38;5;246"⟩

end Paint

/-- The characters that end a line. A carriage return and a newline end it together. -/
def endsLine (c : Char) : Bool :=
  [0x0A, 0x0B, 0x0C, 0x0D, 0x85, 0x2028, 0x2029].contains c.toNat

/-- The lines of a text, each with what ends it. -/
def splitLines : List Char → List (List Char)
  | [] => []
  | '\r' :: '\n' :: rest => ['\r', '\n'] :: splitLines rest
  | c :: rest =>
    if endsLine c then [c] :: splitLines rest
    else
      match splitLines rest with
      | [] => [[c]]
      | line :: lines => (c :: line) :: lines

/-- A line of the source: its number, the offset of its start and its characters. -/
structure Line where
  number : Nat
  start : Nat
  text : List Char
  deriving DecidableEq, Repr

/-- The line that holds an offset. The end of the text belongs to the last line, and an empty text
has no line. -/
def lineAt? (offset : Nat) (number start : Nat) : List (List Char) → Option Line
  | [] => none
  | [text] => some ⟨number, start, text⟩
  | text :: lines =>
    if offset < start + text.length then some ⟨number, start, text⟩
    else lineAt? offset (number + 1) (start + text.length) lines

def spaces (n : Nat) : String :=
  "".pushn ' ' n

/-- The line of an underline: the middle of the range has a mark from which the message hangs. -/
def underline (paint : Paint) (column length : Nat) : String :=
  let mark := if length = 0 then "│" else "┬"
  let right := length - (length / 2 + 1)
  let blank := length + 2 - (length / 2 + 1 + right)
  spaces column ++ paint.accent ("".pushn '─' (length / 2) ++ mark ++ "".pushn '─' right)
    ++ spaces blank

/-- The message below an underline. -/
def hanging (paint : Paint) (column length : Nat) (message : String) : String :=
  spaces (column + length / 2)
    ++ paint.accent ("╰" ++ "".pushn '─' (length - length / 2 + 1)) ++ " " ++ message

def withoutTrailingBlanks (text : List Char) : String :=
  String.ofList ((text.reverse.dropWhile Text.isBlank).reverse)

/-- The margin of a line, with its number if it is shown. -/
def margin (paint : Paint) (width : Nat) (number : Option Nat) : String :=
  let digits := (number.map toString).getD ""
  paint.frame (spaces (width - 1 - digits.length) ++ digits ++ " │")

/-- The source line with its underline and message. A range that goes beyond its line is not
shown. -/
def underlined (paint : Paint) (width : Nat) (line : Line) (span : Span) (message : String) :
    List String :=
  let column := span.offset - line.start
  let beside := margin paint width none ++ " "
  if span.stop ≤ line.start + line.text.length then
    [margin paint width line.number ++ " " ++ withoutTrailingBlanks line.text,
     beside ++ underline paint column span.length,
     beside ++ hanging paint column span.length message]
  else [beside]

/-- The first and the last line of a range with the bracket that joins them and the message. The
message is left out when the range goes beyond the source. -/
def bracketed (paint : Paint) (width : Nat) (first last : Line) (span : Span) (message : String) :
    List String :=
  let numbered (line : Line) (mark : String) : String :=
    margin paint width line.number ++ " " ++ paint.accent mark ++ " "
      ++ withoutTrailingBlanks line.text
  let beside := margin paint width none ++ " "
  let gap :=
    if first.number + 1 < last.number then
      [paint.frame (spaces width ++ "┆") ++ " " ++ paint.accent "┆" ++ "   "]
    else []
  let hung :=
    if span.stop ≤ last.start + last.text.length then
      [beside ++ paint.accent "│" ++ " ", beside ++ paint.accent "╰────" ++ " " ++ message]
    else []
  [numbered first "╭─▶"] ++ gap ++ [numbered last "├─▶"] ++ hung

/-- The first line. A code is written at least two characters wide. -/
def heading (paint : Paint) (d : Diagnostic) : String :=
  let kind := match d.severity with
    | .error => "Error"
    | .warning => "Warning"
  paint.accent (s!"[{d.code}" ++ spaces (2 - d.code.length) ++ s!"] {kind}:") ++ " " ++ d.message

/-- Where the range is, above the source. -/
def location (paint : Paint) (width : Nat) (filename : String) (line column : Nat) : String :=
  spaces width ++ paint.frame "╭─[" ++ s!"{filename}:{line}:{column}" ++ paint.frame "]"

/-- Everything below the heading of a diagnostic about a range that starts in one line and ends in
another or the same. -/
def details (paint : Paint) (d : Diagnostic) (span : Span) (filename : String)
    (first last : Line) : List String :=
  let width := (Nat.toDigits 10 last.number).length + 2
  let side := margin paint width none
  let shown :=
    if first.number = last.number then underlined paint width first span d.message
    else bracketed paint width first last span d.message
  let notes := match d.note with
    | some note => [side ++ " ", side ++ " Note: " ++ note]
    | none => []
  [location paint width filename first.number (span.offset - first.start + 1), side] ++ shown
    ++ [side ++ " ",
        side ++ " Help: for more information, try `scratchscript explain " ++ d.code ++ "`"]
    ++ notes ++ [paint.frame ("".pushn '─' width ++ "╯")]

end ScriptBlocks.Report

namespace ScriptBlocks

/-- The lines that show a diagnostic. Without a range inside the source there is only a heading. -/
def Diagnostic.reportLines (paint : Report.Paint) (d : Diagnostic) (filename source : String) :
    List String :=
  let text := source.toList
  let lines := Report.splitLines text
  let shown : Option (List String) := do
    let span ← d.span
    guard (span.offset ≤ text.length ∧ span.stop ≤ text.length + 1)
    let first ← Report.lineAt? span.offset 1 0 lines
    let last ← Report.lineAt? (max span.offset (span.stop - 1)) 1 0 lines
    pure (Report.details paint d span filename first last)
  Report.heading paint d :: shown.getD []

/-- A diagnostic as text, shown beside its source. -/
def Diagnostic.report (d : Diagnostic) (filename source : String) : String :=
  String.join ((d.reportLines .plain filename source).map (· ++ "\n"))

end ScriptBlocks
