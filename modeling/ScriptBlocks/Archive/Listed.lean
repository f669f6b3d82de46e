import ScriptBlocks.Archive

/-!
# Files as a directory lists them

A line of the directory describes a file and tells where its header is. Extra fields may follow the
name: each has a kind, a length and contents, and some kinds replace what the line says.
-/
namespace ScriptBlocks.Archive

/-- A file as the directory describes it. A file is `locked` when it takes a key to read it. -/
structure Listed where
  nameBytes : List UInt8
  name : String
  comment : String
  locked : Bool
  method : Nat
  checksum : Nat
  stored : Nat
  size : Nat
  header : Nat
  deriving DecidableEq, Repr

namespace Extra

/-- Why the extra fields are not read to their end. When they are cut short, what has been read of
them counts; an invalid field makes the whole line invalid. -/
inductive Fault where
  | cutShort
  | invalid
  deriving DecidableEq, Repr

/-- The file as far as it is known, and the bytes that have not been read. -/
structure State where
  entry : Listed
  rest : List UInt8

abbrev Reading := ExceptT Fault (StateM State)

def bytes (length : Nat) : Reading (List UInt8) := do
  let s ← get
  if s.rest.length < length then throw .cutShort
  set { s with rest := s.rest.drop length }
  pure (s.rest.take length)

def number (width : Nat) : Reading Nat :=
  numberOf <$> bytes width

def change (f : Listed → Listed) : Reading Unit :=
  modify fun s => { s with entry := f s.entry }

def require (condition : Bool) : Reading Unit :=
  if condition then pure () else throw .invalid

/-- The value of a narrow field that stands for a number too large for it. -/
def full : Nat := 0xFFFFFFFF

/-- Reads one of the numbers that were too large, if it is there. The result is how many bytes it
took. -/
def wideNumber (present : Bool) (f : Nat → Listed → Listed) : Reading Nat := do
  if present then
    change (f (← number 8))
    pure 8
  else pure 0

/-- The numbers that were too large for the line. A field that is long enough has all three. -/
def wideNumbers (length : Nat) : Reading Unit := do
  let all : Bool := 24 ≤ length
  let e := (← get).entry
  let first ← wideNumber (all || e.size = full) fun n e => { e with size := n }
  let second ← wideNumber (all || e.stored = full) fun n e => { e with stored := n }
  let third ← wideNumber (all || e.header = full) fun n e => { e with header := n }
  let used := first + second + third
  require (used ≤ length)
  let _ ← bytes (length - used)

/-- Three times of one file system, which are not kept. -/
def fileTimes (length : Nat) : Reading Unit := do
  require (length = 32)
  let _ ← bytes 4
  let tag ← number 2
  require (tag = 1)
  let size ← number 2
  require (size = 24)
  let _ ← bytes 24

/-- Times of which a byte of flags tells how many there are. The times are not kept. A field of five
bytes has one time, whatever the flags are. -/
def flaggedTimes (length : Nat) : Reading Unit := do
  let flags ← number 1
  let count := ((List.range 8).filter flags.testBit).length
  require (length = 5 || length = 1 + 4 * count)
  if flags.testBit 0 || length = 5 then let _ ← bytes 4
  if flags.testBit 1 && 5 < length then let _ ← bytes 4
  if flags.testBit 2 && 5 < length then let _ ← bytes 4

/-- A lock of one maker in two versions and three strengths. -/
def lock (length : Nat) : Reading Unit := do
  require (length = 7)
  let version ← number 2
  let maker ← number 2
  let strength ← number 1
  let method ← number 2
  require (maker = 0x4541)
  require (version = 1 || version = 2)
  require (strength = 1 || strength = 2 || strength = 3)
  change fun e => { e with locked := true, method }

/-- A text in UTF-8 that replaces another, whose check value it gives. -/
def replacing (length : Nat) (old : List UInt8) : Reading (List UInt8 × String) := do
  let _ ← bytes 1
  let check ← number 4
  require (5 ≤ length)
  let new ← bytes (length - 5)
  require ((checksum old).toNat = check)
  match String.fromUTF8? ⟨new.toArray⟩ with
  | some text => pure (new, text)
  | none => throw .invalid

def field : Reading Unit := do
  let kind ← number 2
  let length ← number 2
  let e := (← get).entry
  match kind with
  | 0x0001 => wideNumbers length
  | 0x000a => fileTimes length
  | 0x5455 => flaggedTimes length
  | 0x9901 => lock length
  | 0x6375 =>
    let (_, comment) ← replacing length e.comment.toUTF8.toList
    change fun e => { e with comment }
  | 0x7075 =>
    let (nameBytes, name) ← replacing length e.nameBytes
    change fun e => { e with nameBytes, name }
  | _ => let _ ← bytes length

/-- Reads fields while bytes are left. Every field takes a byte, so their number bounds the number of
`rounds`. -/
def fields : Nat → Reading Unit
  | 0 => pure ()
  | rounds + 1 => do
    if (← get).rest.isEmpty then pure ()
    else
      field
      fields rounds

end Extra

namespace Listed

/-- What the extra fields make of a file. -/
def withExtra? (e : Listed) (extra : List UInt8) : Option Listed :=
  match (Extra.fields extra.length).run.run ⟨e, extra⟩ with
  | (.error .invalid, _) => none
  | (_, s) => some s.entry

/-- The line of the directory at an offset, and where the next line starts. The compression method
99 stands for a lock, which an extra field describes. -/
def read? (data : Data) (offset : Nat) : Option (Listed × Nat) := do
  guard (data.marked offset 0x02014b50)
  let flags ← data.number? (offset + 8) 2
  let nameLength ← data.number? (offset + 28) 2
  let extraLength ← data.number? (offset + 30) 2
  let commentLength ← data.number? (offset + 32) 2
  let nameEnd := offset + 46 + nameLength
  let nameBytes ← data.slice? (offset + 46) nameLength
  let extra ← data.slice? nameEnd extraLength
  let comment ← data.slice? (nameEnd + extraLength) commentLength
  let line : Listed :=
    { nameBytes
      name := textOf (flags.testBit 11) nameBytes
      comment := textOf (flags.testBit 11) comment
      locked := false
      method := ← data.number? (offset + 10) 2
      checksum := ← data.number? (offset + 16) 4
      stored := ← data.number? (offset + 20) 4
      size := ← data.number? (offset + 24) 4
      header := ← data.number? (offset + 42) 4 }
  let e ← line.withExtra? extra
  guard (e.method ≠ 99 ∨ e.locked)
  pure ({ e with locked := e.locked || flags.testBit 0 },
    nameEnd + extraLength + commentLength)

end Listed

end ScriptBlocks.Archive
