import ScriptBlocks.Bytes

/-!
# MD5 digests

The name of an asset is the MD5 digest of its contents, in lower-case hexadecimal digits.
-/
namespace ScriptBlocks.Digest

/-- The four words of a digest under way. -/
structure Words where
  a : UInt32
  b : UInt32
  c : UInt32
  d : UInt32
  deriving DecidableEq, Repr

def initial : Words :=
  ⟨0x67452301, 0xefcdab89, 0x98badcfe, 0x10325476⟩

/-- The additive constants of the 64 rounds. -/
def constants : List UInt32 :=
  [0xd76aa478, 0xe8c7b756, 0x242070db, 0xc1bdceee, 0xf57c0faf, 0x4787c62a, 0xa8304613, 0xfd469501,
   0x698098d8, 0x8b44f7af, 0xffff5bb1, 0x895cd7be, 0x6b901122, 0xfd987193, 0xa679438e, 0x49b40821,
   0xf61e2562, 0xc040b340, 0x265e5a51, 0xe9b6c7aa, 0xd62f105d, 0x02441453, 0xd8a1e681, 0xe7d3fbc8,
   0x21e1cde6, 0xc33707d6, 0xf4d50d87, 0x455a14ed, 0xa9e3e905, 0xfcefa3f8, 0x676f02d9, 0x8d2a4c8a,
   0xfffa3942, 0x8771f681, 0x6d9d6122, 0xfde5380c, 0xa4beea44, 0x4bdecfa9, 0xf6bb4b60, 0xbebfbc70,
   0x289b7ec6, 0xeaa127fa, 0xd4ef3085, 0x04881d05, 0xd9d4d039, 0xe6db99e5, 0x1fa27cf8, 0xc4ac5665,
   0xf4292244, 0x432aff97, 0xab9423a7, 0xfc93a039, 0x655b59c3, 0x8f0ccc92, 0xffeff47d, 0x85845dd1,
   0x6fa87e4f, 0xfe2ce6e0, 0xa3014314, 0x4e0811a1, 0xf7537e82, 0xbd3af235, 0x2ad7d2bb, 0xeb86d391]

/-- How far each round rotates. -/
def rotations : List UInt32 :=
  [[7, 12, 17, 22], [5, 9, 14, 20], [4, 11, 16, 23], [6, 10, 15, 21]].flatMap fun four =>
    (List.replicate 4 four).flatten

def rotateLeft (x count : UInt32) : UInt32 :=
  (x <<< count) ||| (x >>> (32 - count))

/-- The mixed word of a round, and which word of the chunk it takes. -/
def mix (w : Words) (round : Nat) : UInt32 × Nat :=
  if round < 16 then ((w.b &&& w.c) ||| (~~~w.b &&& w.d), round)
  else if round < 32 then ((w.d &&& w.b) ||| (~~~w.d &&& w.c), (5 * round + 1) % 16)
  else if round < 48 then (w.b ^^^ w.c ^^^ w.d, (3 * round + 5) % 16)
  else (w.c ^^^ (w.b ||| ~~~w.d), 7 * round % 16)

def roundStep (chunk : List UInt32) (w : Words) (round : Nat × UInt32 × UInt32) : Words :=
  let (f, index) := mix w round.1
  let sum := w.a + f + round.2.1 + chunk.getD index 0
  ⟨w.d, w.b + rotateLeft sum round.2.2, w.b, w.c⟩

def addChunk (w : Words) (chunk : List UInt32) : Words :=
  let rounds := (List.range 64).zip (constants.zip rotations)
  let r := rounds.foldl (roundStep chunk) w
  ⟨w.a + r.a, w.b + r.b, w.c + r.c, w.d + r.d⟩

/-- The message, a one bit, zeros up to eight bytes before a multiple of 64, and its length. -/
def padded (message : List UInt8) : List UInt8 :=
  let zeros := (119 - message.length % 64) % 64
  message ++ 0x80 :: List.replicate zeros 0 ++ littleEndian 8 (8 * message.length)

/-- The words of four bytes each. -/
def words : List UInt8 → List UInt32
  | b0 :: b1 :: b2 :: b3 :: rest =>
    (b0.toUInt32 ||| (b1.toUInt32 <<< 8) ||| (b2.toUInt32 <<< 16) ||| (b3.toUInt32 <<< 24))
      :: words rest
  | _ => []

/-- The parts of this many words. -/
def chunks (size : Nat) (xs : List UInt32) : List (List UInt32) :=
  (List.range (xs.length / size)).map fun i => (xs.drop (i * size)).take size

def hexByte (b : UInt8) : List Char :=
  [Nat.digitChar (b.toNat / 16), Nat.digitChar (b.toNat % 16)]

def md5 (message : List UInt8) : String :=
  let w := (chunks 16 (words (padded message))).foldl addChunk initial
  let bytes := [w.a, w.b, w.c, w.d].flatMap fun x => littleEndian 4 x.toNat
  String.ofList (bytes.flatMap hexByte)

end ScriptBlocks.Digest
