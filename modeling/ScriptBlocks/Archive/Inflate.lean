/-!
# Compressed contents

The DEFLATE format. The data is a list of blocks, each of which is stored as it is or written with
two codes: one for bytes and for the lengths of repetitions, one for how far back a repetition
starts. The codes are canonical: the lengths of their words determine the words.
-/
namespace ScriptBlocks.Archive.Inflate

/-- What has not been read. -/
abbrev Bits := List Bool

/-- The bits of bytes, the least significant of each byte first. -/
def bitsOf (bytes : List UInt8) : Bits :=
  bytes.flatMap fun byte => (List.range 8).map byte.toNat.testBit

/-- Reads a number of a fixed width, the least significant bit first. -/
def readNumber : Nat → Bits → Option (Nat × Bits)
  | 0, bits => some (0, bits)
  | _ + 1, [] => none
  | width + 1, bit :: bits =>
    (readNumber width bits).map fun (n, rest) => (2 * n + bit.toNat, rest)

/-- Code words have at most this many bits. -/
def longestWord : Nat := 15

/-- A canonical code: how many words there are of each length, from one bit on, and the symbols in
the order of their words. -/
structure Code where
  counts : List Nat
  symbols : Array Nat
  deriving DecidableEq, Repr

namespace Code

/-- The code in which symbol `i` has a word of the `i`-th length. Symbols of length zero have no
word. -/
def ofLengths (lengths : List Nat) : Code :=
  let sizes := (List.range longestWord).map (· + 1)
  { counts := sizes.map lengths.count
    symbols := (sizes.flatMap fun size =>
      (lengths.zipIdx.filter (·.1 = size)).map (·.2)).toArray }

/-- How many words of the longest length the words stand for: a word that is a bit shorter stands for
twice as many. -/
def weight (code : Code) : Nat :=
  code.counts.foldl (fun sum count => 2 * sum + count) 0

/-- Every list of bits starts with exactly one word. -/
def isComplete (code : Code) : Bool :=
  code.weight = Nat.pow 2 longestWord

/-- A code that can be used: it is complete, or it has at most one word. -/
def isUsable (code : Code) : Bool :=
  code.isComplete || code.symbols.size ≤ 1

/-- Reads a word bit by bit. `word` is what has been read of it, `first` the first word of the
present length, and `index` the number of shorter words. -/
def readFrom (symbols : Array Nat) (word first index : Nat) :
    List Nat → Bits → Option (Nat × Bits)
  | count :: counts, bit :: bits =>
    let word := 2 * word + bit.toNat
    let first := 2 * first
    if word < first + count then (symbols[index + (word - first)]?).map (·, bits)
    else readFrom symbols word (first + count) (index + count) counts bits
  | _, _ => none

/-- Reads the symbol of the next word. -/
def read (code : Code) (bits : Bits) : Option (Nat × Bits) :=
  readFrom code.symbols 0 0 0 code.counts bits

end Code

/-- The least length of a repetition and the number of bits that add to it, from symbol 257 on. -/
def lengthSteps : List (Nat × Nat) :=
  [(3, 0), (4, 0), (5, 0), (6, 0), (7, 0), (8, 0), (9, 0), (10, 0), (11, 1), (13, 1), (15, 1),
   (17, 1), (19, 2), (23, 2), (27, 2), (31, 2), (35, 3), (43, 3), (51, 3), (59, 3), (67, 4),
   (83, 4), (99, 4), (115, 4), (131, 5), (163, 5), (195, 5), (227, 5), (258, 0)]

/-- The least distance of a repetition and the number of bits that add to it. -/
def distanceSteps : List (Nat × Nat) :=
  [(1, 0), (2, 0), (3, 0), (4, 0), (5, 1), (7, 1), (9, 2), (13, 2), (17, 3), (25, 3), (33, 4),
   (49, 4), (65, 5), (97, 5), (129, 6), (193, 6), (257, 7), (385, 7), (513, 8), (769, 8),
   (1025, 9), (1537, 9), (2049, 10), (3073, 10), (4097, 11), (6145, 11), (8193, 12), (12289, 12),
   (16385, 13), (24577, 13)]

/-- Reads the rest of a number that starts with a symbol. -/
def readStep (steps : List (Nat × Nat)) (symbol : Nat) (bits : Bits) : Option (Nat × Bits) := do
  let (least, width) ← steps[symbol]?
  let (more, bits) ← readNumber width bits
  pure (least + more, bits)

/-- Repeats bytes from a distance back, one after the other, so that a repetition can overlap
itself. What is before the first byte counts as zeros. -/
def repeatBack (out : Array UInt8) (distance : Nat) : Nat → Array UInt8
  | 0 => out
  | length + 1 =>
    let byte := if distance ≤ out.size then out[out.size - distance]?.getD 0 else 0
    repeatBack (out.push byte) distance length

/-- Reads the symbols of a block up to its end. Every symbol takes a bit, so the number of bits
bounds the number of `rounds`. -/
def readSymbols (literals distances : Code) :
    Nat → Bits → Array UInt8 → Option (Array UInt8 × Bits)
  | 0, _, _ => none
  | rounds + 1, bits, out => do
    let (symbol, bits) ← literals.read bits
    if symbol < 256 then readSymbols literals distances rounds bits (out.push (.ofNat symbol))
    else if symbol = 256 then pure (out, bits)
    else
      let (length, bits) ← readStep lengthSteps (symbol - 257) bits
      let (symbol, bits) ← distances.read bits
      let (distance, bits) ← readStep distanceSteps symbol bits
      readSymbols literals distances rounds bits (repeatBack out distance length)

/-- Reads whole bytes. -/
def readBytes : Nat → Bits → Array UInt8 → Option (Array UInt8 × Bits)
  | 0, bits, out => some (out, bits)
  | size + 1, bits, out => do
    let (byte, bits) ← readNumber 8 bits
    readBytes size bits (out.push (.ofNat byte))

/-- Reads a block that is stored as it is: its size twice, the second time inverted, and the bytes,
all from the next whole byte on. -/
def readStored (bits : Bits) (out : Array UInt8) : Option (Array UInt8 × Bits) := do
  let bits := bits.drop (bits.length % 8)
  let (size, bits) ← readNumber 16 bits
  let (inverted, bits) ← readNumber 16 bits
  guard (size + inverted = 0xFFFF)
  readBytes size bits out

/-- The codes of a block that names none. -/
def fixedLiterals : Code :=
  .ofLengths (List.replicate 144 8 ++ List.replicate 112 9 ++ List.replicate 24 7
    ++ List.replicate 8 8)

def fixedDistances : Code :=
  .ofLengths (List.replicate 30 5)

/-- Reads word lengths until there are `total`. Three symbols stand for repetitions: of the length
before, and of zero in two sizes. `rounds` bounds the symbols. -/
def readLengths (code : Code) (total : Nat) :
    Nat → Bits → Array Nat → Option (Array Nat × Bits)
  | 0, _, _ => none
  | rounds + 1, bits, lengths =>
    if total ≤ lengths.size then if lengths.size = total then some (lengths, bits) else none
    else do
      let (symbol, bits) ← code.read bits
      if symbol < 16 then readLengths code total rounds bits (lengths.push symbol)
      else
        let (least, width) :=
          if symbol = 16 then (3, 2) else if symbol = 17 then (3, 3) else (11, 7)
        let length ← if symbol = 16 then lengths.back? else some 0
        let (more, bits) ← readNumber width bits
        readLengths code total rounds bits (lengths ++ Array.replicate (least + more) length)

/-- The order in which the word lengths of the code for word lengths are given. -/
def lengthOrder : List Nat :=
  [16, 17, 18, 0, 8, 7, 9, 6, 10, 5, 11, 4, 12, 3, 13, 2, 14, 1, 15]

/-- Reads numbers of a fixed width. -/
def readNumbers (width : Nat) : Nat → Bits → Option (List Nat × Bits)
  | 0, bits => some ([], bits)
  | count + 1, bits => do
    let (n, bits) ← readNumber width bits
    let (rest, bits) ← readNumbers width count bits
    pure (n :: rest, bits)

/-- Reads the two codes of a block that gives its own. There are at most 286 literals and 30
distances, and the code for word lengths is complete. -/
def readCodes (bits : Bits) : Option ((Code × Code) × Bits) := do
  let (literals, bits) ← readNumber 5 bits
  let (distances, bits) ← readNumber 5 bits
  let (count, bits) ← readNumber 4 bits
  guard (literals + 257 ≤ 286 ∧ distances + 1 ≤ 30)
  let (given, bits) ← readNumbers 3 (count + 4) bits
  let code := Code.ofLengths ((List.range 19).map fun symbol =>
    ((lengthOrder.zip given).lookup symbol).getD 0)
  guard code.isComplete
  let total := literals + 257 + (distances + 1)
  let (lengths, bits) ← readLengths code total (total + 1) bits #[]
  let literalCode := Code.ofLengths (lengths.toList.take (literals + 257))
  let distanceCode := Code.ofLengths (lengths.toList.drop (literals + 257))
  guard (literalCode.isUsable ∧ distanceCode.isUsable)
  pure ((literalCode, distanceCode), bits)

/-- Reads blocks up to the last one. Every block takes a bit, so the number of bits bounds the
number of `rounds`. -/
def readBlocks : Nat → Bits → Array UInt8 → Option (Array UInt8)
  | 0, _, _ => none
  | rounds + 1, bits, out => do
    let (last, bits) ← readNumber 1 bits
    let (kind, bits) ← readNumber 2 bits
    let (out, bits) ← match kind with
      | 0 => readStored bits out
      | 1 => readSymbols fixedLiterals fixedDistances bits.length bits out
      | 2 => do
        let ((literals, distances), bits) ← readCodes bits
        readSymbols literals distances bits.length bits out
      | _ => none
    if last = 1 then pure out else readBlocks rounds bits out

end Inflate

/-- The bytes that were compressed. -/
def inflate? (bytes : List UInt8) : Option (List UInt8) :=
  let bits := Inflate.bitsOf bytes
  (Inflate.readBlocks bits.length bits #[]).map Array.toList

end ScriptBlocks.Archive
