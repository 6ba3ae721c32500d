import ClassListing.Text

/-!
# MD5

The 128-bit digest that identifies an input in its listing.
-/

namespace ClassListing.Md5

structure State where
  a : UInt32
  b : UInt32
  c : UInt32
  d : UInt32
deriving DecidableEq

def State.start : State := ⟨0x67452301, 0xEFCDAB89, 0x98BADCFE, 0x10325476⟩

/-- The rotations of each round, which repeat every four steps. -/
def rotations : Array UInt32 :=
  #[7, 12, 17, 22, 5, 9, 14, 20, 4, 11, 16, 23, 6, 10, 15, 21]

/-- The sines of 1 to 64 without their signs, scaled by `2 ^ 32` and cut to integers. -/
def sines : Array UInt32 :=
  #[0xd76aa478, 0xe8c7b756, 0x242070db, 0xc1bdceee, 0xf57c0faf, 0x4787c62a, 0xa8304613,
    0xfd469501, 0x698098d8, 0x8b44f7af, 0xffff5bb1, 0x895cd7be, 0x6b901122, 0xfd987193,
    0xa679438e, 0x49b40821, 0xf61e2562, 0xc040b340, 0x265e5a51, 0xe9b6c7aa, 0xd62f105d,
    0x02441453, 0xd8a1e681, 0xe7d3fbc8, 0x21e1cde6, 0xc33707d6, 0xf4d50d87, 0x455a14ed,
    0xa9e3e905, 0xfcefa3f8, 0x676f02d9, 0x8d2a4c8a, 0xfffa3942, 0x8771f681, 0x6d9d6122,
    0xfde5380c, 0xa4beea44, 0x4bdecfa9, 0xf6bb4b60, 0xbebfbc70, 0x289b7ec6, 0xeaa127fa,
    0xd4ef3085, 0x04881d05, 0xd9d4d039, 0xe6db99e5, 0x1fa27cf8, 0xc4ac5665, 0xf4292244,
    0x432aff97, 0xab9423a7, 0xfc93a039, 0x655b59c3, 0x8f0ccc92, 0xffeff47d, 0x85845dd1,
    0x6fa87e4f, 0xfe2ce6e0, 0xa3014314, 0x4e0811a1, 0xf7537e82, 0xbd3af235, 0x2ad7d2bb,
    0xeb86d391]

def rotateLeft (word count : UInt32) : UInt32 :=
  (word <<< count) ||| (word >>> (32 - count))

/-- The mixing function of a step, and the block word that the step uses. -/
def mixing (step : Nat) (state : State) : UInt32 × Nat :=
  let ⟨_, b, c, d⟩ := state
  if step < 16 then ((b &&& c) ||| (~~~b &&& d), step)
  else if step < 32 then ((d &&& b) ||| (~~~d &&& c), (5 * step + 1) % 16)
  else if step < 48 then (b ^^^ c ^^^ d, (3 * step + 5) % 16)
  else (c ^^^ (b ||| ~~~d), (7 * step) % 16)

def step (block : Array UInt32) (state : State) (number : Nat) : State :=
  let (mixed, word) := mixing number state
  let sum := state.a + mixed + sines.getD number 0 + block.getD word 0
  let turn := rotations.getD (number / 16 * 4 + number % 4) 0
  ⟨state.d, state.b + rotateLeft sum turn, state.b, state.c⟩

def littleEndian (bytes : Bytes) : UInt32 :=
  .ofNat (Bytes.toNat bytes.reverse)

/-- The lowest `width` bytes of a number, least first. -/
def littleEndianBytes : (width : Nat) → Nat → Bytes
  | 0, _ => []
  | width + 1, n => UInt8.ofNat n :: littleEndianBytes width (n / 256)

def absorb (state : State) (block : Bytes) : State :=
  let words := ((Bytes.pieces 4 block).map littleEndian).toArray
  let last := (List.range 64).foldl (step words) state
  ⟨state.a + last.a, state.b + last.b, state.c + last.c, state.d + last.d⟩

/-- A one bit, zeros up to the last eight bytes of a block, and the length in bits. -/
def padded (bytes : Bytes) : Bytes :=
  let zeros := (119 - bytes.length % 64) % 64
  bytes ++ 0x80 :: List.replicate zeros 0 ++ littleEndianBytes 8 (8 * bytes.length)

def digest (bytes : Bytes) : Bytes :=
  let ⟨a, b, c, d⟩ := (Bytes.pieces 64 (padded bytes)).foldl absorb .start
  [a, b, c, d].flatMap fun word => littleEndianBytes 4 word.toNat

def hexDigest (bytes : Bytes) : String := Text.hexBytes (digest bytes)

end ClassListing.Md5
