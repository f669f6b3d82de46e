import ScriptBlocks.Bytes

/-!
# Where the directory of an archive is

The last record tells where the directory is and how many files it lists. Its fields are too narrow
for large archives. In those a locator stands before the last record, which leads to a record with
wide fields. Other data may stand before the archive, which moves all offsets by the same amount.
-/
namespace ScriptBlocks.Archive

/-- Where the directory starts, how many files it lists, and how far all offsets are moved. -/
structure Directory where
  start : Nat
  count : Nat
  shift : Nat
  deriving DecidableEq, Repr

/-- The last record. -/
structure Summary where
  position : Nat
  disk : Nat
  directoryDisk : Nat
  listed : Nat
  total : Nat
  directory : Nat
  deriving DecidableEq, Repr

namespace Summary

/-- The last record, if it is at an offset. A comment that follows it ends within the data. -/
def read? (data : Data) (position : Nat) : Option Summary := do
  guard (data.marked position 0x06054b50)
  let comment ← data.number? (position + 20) 2
  guard (position + 22 + comment ≤ data.size)
  pure
    { position
      disk := ← data.number? (position + 4) 2
      directoryDisk := ← data.number? (position + 6) 2
      listed := ← data.number? (position + 8) 2
      total := ← data.number? (position + 10) 2
      directory := ← data.number? (position + 16) 4 }

/-- Whether a field has the value that stands for a number too large for it. -/
def isFull (s : Summary) : Bool :=
  s.total = 0xFFFF || s.directory = 0xFFFFFFFF

/-- The directory by the narrow fields. It starts with the first mark of a line at its offset or
after it. -/
def place? (s : Summary) (data : Data) : Option Directory := do
  let shift ←
    if s.total = 0 then some (s.position - s.directory)
    else
      (List.range (s.position - s.directory)).find? fun shift =>
        data.marked (s.directory + shift) 0x02014b50
  guard (s.disk = s.directoryDisk)
  pure ⟨s.directory + shift, s.listed, shift⟩

end Summary

/-- The record that leads to the wide record: its own position, the disk of the directory, the offset
of the wide record and the number of disks. -/
structure Locator where
  position : Nat
  directoryDisk : Nat
  record : Nat
  disks : Nat
  deriving DecidableEq, Repr

/-- The locator that stands before the last record. -/
def Locator.read? (data : Data) (summary : Summary) : Option Locator := do
  guard (20 ≤ summary.position)
  let position := summary.position - 20
  guard (data.marked position 0x07064b50)
  pure
    { position
      directoryDisk := ← data.number? (position + 4) 4
      record := ← data.number? (position + 8) 8
      disks := ← data.number? (position + 16) 4 }

/-- The record with wide fields. -/
structure WideSummary where
  position : Nat
  size : Nat
  madeBy : Nat
  needed : Nat
  disk : Nat
  directoryDisk : Nat
  listed : Nat
  total : Nat
  directory : Nat
  deriving DecidableEq, Repr

namespace WideSummary

def read? (data : Data) (position : Nat) : Option WideSummary := do
  guard (data.marked position 0x06064b50)
  pure
    { position
      size := ← data.number? (position + 4) 8
      madeBy := ← data.number? (position + 12) 2
      needed := ← data.number? (position + 14) 2
      disk := ← data.number? (position + 16) 4
      directoryDisk := ← data.number? (position + 20) 4
      listed := ← data.number? (position + 24) 8
      total := ← data.number? (position + 32) 8
      directory := ← data.number? (position + 48) 8 }

/-- Whether the record ends where its locator starts, agrees with it on the disk, and leaves room for
the directory before it. The size of a record does not count its first twelve bytes, and a line of
the directory takes at least 46. -/
def fits (s : WideSummary) (locator : Locator) : Bool :=
  44 ≤ s.size && s.position + s.size + 12 = locator.position
    && s.directoryDisk = locator.directoryDisk && s.directory + 46 * s.total ≤ s.position

/-- The directory by the wide fields. -/
def place? (s : WideSummary) (locator : Locator) : Option Directory := do
  guard (s.listed ≤ s.total ∧ s.needed ≤ s.madeBy ∧ s.disk = s.directoryDisk)
  let shift := s.position - locator.record
  pure ⟨s.directory + shift, s.listed, shift⟩

end WideSummary

/-- The first wide record that fits its locator, at the offset that the locator gives or after
it. -/
def Locator.summary? (locator : Locator) (data : Data) : Option WideSummary := do
  guard (locator.disks ≤ 1)
  (List.range (locator.position - locator.record)).findSome? fun shift => do
    let summary ← WideSummary.read? data (locator.record + shift)
    guard (summary.fits locator)
    pure summary

/-- The directory of an archive whose last record is at an offset. -/
def Directory.locate? (data : Data) (position : Nat) : Option Directory := do
  let summary ← Summary.read? data position
  match if summary.isFull then Locator.read? data summary else none with
  | none => summary.place? data
  | some locator => (← locator.summary? data).place? locator

end ScriptBlocks.Archive
