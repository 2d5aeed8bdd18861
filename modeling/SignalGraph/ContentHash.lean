/-!
# SignalGraph.ContentHash

The 128-bit XXH3 hash with seed zero, which stands for the content of a text wherever comparing
or storing the text itself would be too long.

1. words are read little-endian from the bytes and from a fixed secret of 192 bytes;
2. inputs of up to 16, up to 128, up to 240 and more bytes are mixed by four different schemes;
3. the result is shown as 32 hexadecimal digits, the bytes of the low word first.
-/

namespace SignalGraph

/-- A 128-bit hash value. -/
structure ContentHash where
  low : UInt64
  high : UInt64
deriving DecidableEq, Repr

namespace ContentHash

/-! ## Words -/

/-- The byte at a position; positions past the end read as zero. -/
def byteAt (b : ByteArray) (i : Nat) : UInt8 := if h : i < b.size then b[i] else 0

/-- The little-endian number in the `n` bytes from position `i`. -/
def numberAt (b : ByteArray) (i : Nat) : Nat → Nat
  | 0 => 0
  | n + 1 => (byteAt b i).toNat + 256 * numberAt b (i + 1) n

def word64 (b : ByteArray) (i : Nat) : UInt64 := (numberAt b i 8).toUInt64

def word32 (b : ByteArray) (i : Nat) : UInt64 := (numberAt b i 4).toUInt64

/-- The words of the fixed secret. -/
def secretWords : List Nat :=
  [0xbe4ba423396cfeb8, 0x1cad21f72c81017c, 0xdb979083e96dd4de, 0x1f67b3b7a4a44072,
   0x78e5c0cc4ee679cb, 0x2172ffcc7dd05a82, 0x8e2443f7744608b8, 0x4c263a81e69035e0,
   0xcb00c391bb52283c, 0xa32e531b8b65d088, 0x4ef90da297486471, 0xd8acdea946ef1938,
   0x3f349ce33f76faa8, 0x1d4f0bc7c7bbdcf9, 0x3159b4cd4be0518a, 0x647378d9c97e9fc8,
   0xc3ebd33483acc5ea, 0xeb6313faffa081c5, 0x49daf0b751dd0d17, 0x9e68d429265516d3,
   0xfca1477d58be162b, 0xce31d07ad1b8f88f, 0x280416958f3acb45, 0x7e404bbbcafbd7af]

/-- The fixed secret of 192 bytes. -/
def secret : ByteArray :=
  ⟨(secretWords.flatMap fun w => (List.range 8).map fun i => (w >>> (8 * i)).toUInt8).toArray⟩

def prime32a : UInt64 := 0x9E3779B1
def prime32b : UInt64 := 0x85EBCA77
def prime32c : UInt64 := 0xC2B2AE3D
def prime64a : UInt64 := 0x9E3779B185EBCA87
def prime64b : UInt64 := 0xC2B2AE3D27D4EB4F
def prime64c : UInt64 := 0x165667B19E3779F9
def prime64d : UInt64 := 0x85EBCA77C2B2AE63
def prime64e : UInt64 := 0x27D4EB2F165667C5
def mixerA : UInt64 := 0x165667919E3779F9
def mixerB : UInt64 := 0x9FB21C651E98DF25

/-- The full product of two words: low word, high word. -/
def product (a b : UInt64) : UInt64 × UInt64 :=
  let p := a.toNat * b.toNat
  (p.toUInt64, (p >>> 64).toUInt64)

/-- The two halves of the full product, combined. -/
def foldProduct (a b : UInt64) : UInt64 :=
  let (lo, hi) := product a b
  lo ^^^ hi

/-- The lower 32 bits. -/
def lowHalf (x : UInt64) : UInt64 := x &&& 0xFFFFFFFF

def shiftXor (x n : UInt64) : UInt64 := x ^^^ (x >>> n)

/-- Spreads every bit of a word that has not been mixed yet. -/
def spread (x : UInt64) : UInt64 :=
  shiftXor (shiftXor (shiftXor x 33 * prime64b) 29 * prime64c) 32

/-- The last step for a word that has been mixed. -/
def finish (x : UInt64) : UInt64 := shiftXor (shiftXor x 37 * mixerA) 32

/-- The bytes of a number of `n` bytes in reverse order. -/
def swapBytes : Nat → Nat → Nat
  | 0, _ => 0
  | n + 1, x => (x % 256) <<< (8 * n) + swapBytes n (x / 256)

/-! ## Short inputs -/

def hashEmpty : ContentHash :=
  ⟨spread (word64 secret 64 ^^^ word64 secret 72), spread (word64 secret 80 ^^^ word64 secret 88)⟩

/-- One to three bytes: first, middle and last byte and the length fill one 32-bit word. -/
def hashTo3 (b : ByteArray) : ContentHash :=
  let n := b.size
  let low := (byteAt b 0).toNat <<< 16 + (byteAt b (n / 2)).toNat <<< 24 +
    (byteAt b (n - 1)).toNat + n <<< 8
  let swapped := swapBytes 4 low
  let high := swapped <<< 13 % UInt32.size + swapped >>> 19
  ⟨spread (low.toUInt64 ^^^ (word32 secret 0 ^^^ word32 secret 4)),
    spread (high.toUInt64 ^^^ (word32 secret 8 ^^^ word32 secret 12))⟩

def hashTo8 (b : ByteArray) : ContentHash :=
  let n := b.size
  let input := word32 b 0 + (word32 b (n - 4) <<< 32)
  let keyed := input ^^^ (word64 secret 16 ^^^ word64 secret 24)
  let (lo, hi) := product keyed (prime64a + (n.toUInt64 <<< 2))
  let hi := hi + (lo <<< 1)
  let lo := lo ^^^ (hi >>> 3)
  ⟨shiftXor (shiftXor lo 35 * mixerB) 28, finish hi⟩

def hashTo16 (b : ByteArray) : ContentHash :=
  let n := b.size
  let keyLow := word64 secret 32 ^^^ word64 secret 40
  let keyHigh := word64 secret 48 ^^^ word64 secret 56
  let inLow := word64 b 0
  let inHigh := word64 b (n - 8)
  let (lo, hi) := product (inLow ^^^ inHigh ^^^ keyLow) prime64a
  let lo := lo + ((n - 1).toUInt64 <<< 54)
  let inHigh := inHigh ^^^ keyHigh
  let hi := hi + inHigh + lowHalf inHigh * (prime32b - 1)
  let lo := lo ^^^ (swapBytes 8 hi.toNat).toUInt64
  let (resLow, resHigh) := product lo prime64b
  ⟨finish resLow, finish (resHigh + hi * prime64b)⟩

/-! ## Inputs of up to 240 bytes -/

def mix16 (b : ByteArray) (i s : Nat) : UInt64 :=
  foldProduct (word64 b i ^^^ word64 secret s) (word64 b (i + 8) ^^^ word64 secret (s + 8))

/-- Mixes the 16 bytes at `i` into the low and the 16 bytes at `j` into the high word. -/
def mix32 (b : ByteArray) (acc : ContentHash) (i j s : Nat) : ContentHash :=
  ⟨(acc.low + mix16 b i s) ^^^ (word64 b j + word64 b (j + 8)),
    (acc.high + mix16 b j (s + 16)) ^^^ (word64 b i + word64 b (i + 8))⟩

def finishMixed (n : Nat) (acc : ContentHash) : ContentHash :=
  ⟨finish (acc.low + acc.high),
    0 - finish (acc.low * prime64a + acc.high * prime64d + n.toUInt64 * prime64b)⟩

/-- 17 to 128 bytes: pairs of blocks from both ends, the innermost pair first. -/
def hashTo128 (b : ByteArray) : ContentHash :=
  let n := b.size
  let pairs := (List.range ((n - 1) / 32 + 1)).reverse
  finishMixed n <| pairs.foldl (fun acc k => mix32 b acc (16 * k) (n - 16 * (k + 1)) (32 * k))
    ⟨n.toUInt64 * prime64a, 0⟩

def hashTo240 (b : ByteArray) : ContentHash :=
  let n := b.size
  let first := (List.range 4).foldl (fun acc k => mix32 b acc (32 * k) (32 * k + 16) (32 * k))
    ⟨n.toUInt64 * prime64a, 0⟩
  let rest := (List.range (n / 32 - 4)).foldl
    (fun acc k => mix32 b acc (128 + 32 * k) (144 + 32 * k) (3 + 32 * k))
    ⟨finish first.low, finish first.high⟩
  finishMixed n (mix32 b rest (n - 16) (n - 32) 103)

/-! ## Long inputs -/

/-- Adds the 64 bytes at `i` to the eight lanes. -/
def addStripe (b : ByteArray) (lanes : List UInt64) (i s : Nat) : List UInt64 :=
  lanes.zipIdx.map fun (lane, k) =>
    let neighbour := word64 b (i + 8 * (if k % 2 = 0 then k + 1 else k - 1))
    let key := word64 b (i + 8 * k) ^^^ word64 secret (s + 8 * k)
    lane + neighbour + lowHalf key * (key >>> 32)

/-- Mixes the lanes after a full block. -/
def scramble (lanes : List UInt64) : List UInt64 :=
  lanes.zipIdx.map fun (lane, k) => (shiftXor lane 47 ^^^ word64 secret (128 + 8 * k)) * prime32a

/-- Adds `count` stripes from position `i` on. -/
def addStripes (b : ByteArray) (lanes : List UInt64) (i count : Nat) : List UInt64 :=
  (List.range count).foldl (fun lanes k => addStripe b lanes (i + 64 * k) (8 * k)) lanes

/-- Folds the lanes into one word. -/
def mergeLanes (s : Nat) (start : UInt64) (lanes : List UInt64) : UInt64 :=
  let rec go (s : Nat) : List UInt64 → UInt64
    | x :: y :: rest =>
      foldProduct (x ^^^ word64 secret s) (y ^^^ word64 secret (s + 8)) + go (s + 16) rest
    | _ => 0
  finish (start + go s lanes)

def hashLong (b : ByteArray) : ContentHash :=
  let n := b.size
  let blocks := (n - 1) / 1024
  let lanes := [prime32c, prime64a, prime64b, prime64c, prime64d, prime32b, prime64e, prime32a]
  let lanes := (List.range blocks).foldl
    (fun lanes k => scramble (addStripes b lanes (1024 * k) 16)) lanes
  let lanes := addStripes b lanes (1024 * blocks) ((n - 1 - 1024 * blocks) / 64)
  let lanes := addStripe b lanes (n - 64) 121
  ⟨mergeLanes 11 (n.toUInt64 * prime64a) lanes,
    mergeLanes 117 (0xFFFFFFFFFFFFFFFF ^^^ (n.toUInt64 * prime64b)) lanes⟩

/-! ## The hash of a text -/

def ofBytes (b : ByteArray) : ContentHash :=
  if b.size = 0 then hashEmpty
  else if b.size ≤ 3 then hashTo3 b
  else if b.size ≤ 8 then hashTo8 b
  else if b.size ≤ 16 then hashTo16 b
  else if b.size ≤ 128 then hashTo128 b
  else if b.size ≤ 240 then hashTo240 b
  else hashLong b

/-- The hash of the UTF-8 form of a text. -/
def ofText (s : String) : ContentHash := ofBytes s.toUTF8

/-- The hexadecimal digits of the low `n` bytes of a number, least significant byte first. -/
def hexBytes : Nat → Nat → List Char
  | 0, _ => []
  | n + 1, x => Nat.digitChar (x / 16 % 16) :: Nat.digitChar (x % 16) :: hexBytes n (x / 256)

/-- The 32 digits by which a hash is shown. -/
def text (h : ContentHash) : String :=
  String.ofList (hexBytes 8 h.low.toNat ++ hexBytes 8 h.high.toNat)

end ContentHash

end SignalGraph
