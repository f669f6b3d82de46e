import ScriptBlocks.Archive.Directory
import ScriptBlocks.Archive.Inflate
import ScriptBlocks.Archive.Listed
import ScriptBlocks.Table

/-!
# Reading archives

An archive is read from its end: the last record leads to the directory, a line of the directory to
the header of its file, and the contents follow the header.
-/
namespace ScriptBlocks.Archive

/-- Where the contents of a file start that has its header at an offset. -/
def contentsStart? (data : Data) (header : Nat) : Option Nat := do
  guard (data.marked header 0x04034b50)
  let nameLength ← data.number? (header + 26) 2
  let extraLength ← data.number? (header + 28) 2
  pure (header + 30 + nameLength + extraLength)

/-- The files that the directory lists from an offset on, each with its name and with the offset of
its contents. All files are in front of the directory. -/
def readLines (data : Data) (directory : Directory) :
    Nat → Nat → Option (List (String × Listed × Nat))
  | 0, _ => some []
  | count + 1, offset => do
    let (e, next) ← Listed.read? data offset
    let header := e.header + directory.shift
    let start ← contentsStart? data header
    guard (header < directory.start ∧ start ≤ directory.start)
    let rest ← readLines data directory count next
    pure ((e.name, e, start) :: rest)

/-- The files of an archive whose last record is at an offset. Of two files with one name the later
takes the place of the earlier. -/
def listing? (data : Data) (position : Nat) : Option (Table (Listed × Nat)) := do
  let directory ← Directory.locate? data position
  let lines ← readLines data directory directory.count directory.start
  pure (.ofEntries lines)

/-- The contents of a file. They are stored or compressed, are not locked, and agree with their check
value. -/
def Listed.contents? (e : Listed) (data : Data) (start : Nat) : Option (List UInt8) := do
  guard (!e.locked)
  let stored := (data.extract start (start + e.stored)).toList
  let contents ← match e.method with
    | 0 => some stored
    | 8 => inflate? stored
    | _ => none
  guard ((Archive.checksum contents).toNat = e.checksum)
  pure contents

/-- The named texts of an archive, in the order of its directory. The last record is the last one
that leads to a directory. -/
def read? (bytes : List UInt8) : Option (List (String × String)) := do
  let data := bytes.toArray
  let files ← (List.range (data.size - 21)).reverse.findSome? (listing? data)
  files.entries.mapM fun (name, e, start) => do
    let contents ← e.contents? data start
    let text ← String.fromUTF8? ⟨contents.toArray⟩
    pure (name, text)

end ScriptBlocks.Archive
