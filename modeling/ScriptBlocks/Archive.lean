import ScriptBlocks.Bytes

/-!
# Archives

An archive holds named texts. It is written in the ZIP format without compression: each file is a
header followed by its contents, a directory at the end lists the files with the offsets of their
headers, and the last record says where the directory is.
-/
namespace ScriptBlocks.Archive

/-- One bit of the cyclic redundancy check, with the reversed polynomial `0xEDB88320`. -/
def checksumBit (state : UInt32) : UInt32 :=
  if state &&& 1 = 1 then (state >>> 1) ^^^ 0xEDB88320 else state >>> 1

def checksumByte (state : UInt32) (byte : UInt8) : UInt32 :=
  Nat.repeat checksumBit 8 (state ^^^ byte.toUInt32)

/-- The check value that goes with the contents of a file. -/
def checksum (bytes : List UInt8) : UInt32 :=
  bytes.foldl checksumByte 0xFFFFFFFF ^^^ 0xFFFFFFFF

/-- The bytes of numbers that are given with their widths. -/
def fields (values : List (Nat × Nat)) : List UInt8 :=
  values.flatMap fun value => littleEndian value.1 value.2

/-- A file as it is stored. -/
structure Entry where
  name : List UInt8
  contents : List UInt8
  deriving DecidableEq, Repr

namespace Entry

def ofText (file : String × String) : Entry :=
  ⟨file.1.toUTF8.toList, file.2.toUTF8.toList⟩

/-- What a file's two headers have in common: the format version, UTF-8 names, no compression, the
first day that a date can name, the check value, the two sizes, the length of the name, and nothing
else. -/
def description (e : Entry) : List (Nat × Nat) :=
  [(2, 20), (2, 0x0800), (2, 0), (2, 0), (2, 0x0021), (4, (checksum e.contents).toNat),
   (4, e.contents.length), (4, e.contents.length), (2, e.name.length), (2, 0)]

def stored (e : Entry) : List UInt8 :=
  fields ((4, 0x04034b50) :: e.description) ++ e.name ++ e.contents

/-- The line of the directory for a file whose header is at an offset. -/
def listed (e : Entry) (offset : Nat) : List UInt8 :=
  fields ((4, 0x02014b50) :: (2, 20) :: e.description
    ++ [(2, 0), (2, 0), (2, 0), (4, 0), (4, offset)]) ++ e.name

end Entry

/-- The directory of files of which the first is stored at an offset. -/
def directory (offset : Nat) : List Entry → List UInt8
  | [] => []
  | e :: entries => e.listed offset ++ directory (offset + e.stored.length) entries

/-- The bytes of an archive. -/
def bytes (files : List (String × String)) : List UInt8 :=
  let entries := files.map Entry.ofText
  let body := entries.flatMap Entry.stored
  let listing := directory 0 entries
  body ++ listing ++ fields [(4, 0x06054b50), (2, 0), (2, 0), (2, entries.length),
    (2, entries.length), (4, listing.length), (4, body.length), (2, 0)]

end ScriptBlocks.Archive
