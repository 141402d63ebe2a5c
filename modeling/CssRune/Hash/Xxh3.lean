/-
**The 64-bit XXH3 hash.**

XXH3 without a seed, over the bytes of a text.  The method depends on the length: up to 16
bytes are mixed directly, up to 240 bytes in pairs of words, and longer inputs in stripes of 64
bytes over eight accumulators.
-/

set_option autoImplicit false

namespace CssRune

namespace Hash

namespace Xxh3

/-! ### Constants -/

def prime32A : UInt64 := 0x9e3779b1
def prime32B : UInt64 := 0x85ebca77
def prime32C : UInt64 := 0xc2b2ae3d
def prime64A : UInt64 := 0x9e3779b185ebca87
def prime64B : UInt64 := 0xc2b2ae3d27d4eb4f
def prime64C : UInt64 := 0x165667b19e3779f9
def prime64D : UInt64 := 0x85ebca77c2b2ae63
def prime64E : UInt64 := 0x27d4eb2f165667c5
def primeMixA : UInt64 := 0x165667919e3779f9
def primeMixB : UInt64 := 0x9fb21c651e98df25

/-- The default key material: 192 bytes. -/
def secret : Array UInt8 := #[
  0xb8, 0xfe, 0x6c, 0x39, 0x23, 0xa4, 0x4b, 0xbe, 0x7c, 0x01, 0x81, 0x2c, 0xf7, 0x21, 0xad, 0x1c,
  0xde, 0xd4, 0x6d, 0xe9, 0x83, 0x90, 0x97, 0xdb, 0x72, 0x40, 0xa4, 0xa4, 0xb7, 0xb3, 0x67, 0x1f,
  0xcb, 0x79, 0xe6, 0x4e, 0xcc, 0xc0, 0xe5, 0x78, 0x82, 0x5a, 0xd0, 0x7d, 0xcc, 0xff, 0x72, 0x21,
  0xb8, 0x08, 0x46, 0x74, 0xf7, 0x43, 0x24, 0x8e, 0xe0, 0x35, 0x90, 0xe6, 0x81, 0x3a, 0x26, 0x4c,
  0x3c, 0x28, 0x52, 0xbb, 0x91, 0xc3, 0x00, 0xcb, 0x88, 0xd0, 0x65, 0x8b, 0x1b, 0x53, 0x2e, 0xa3,
  0x71, 0x64, 0x48, 0x97, 0xa2, 0x0d, 0xf9, 0x4e, 0x38, 0x19, 0xef, 0x46, 0xa9, 0xde, 0xac, 0xd8,
  0xa8, 0xfa, 0x76, 0x3f, 0xe3, 0x9c, 0x34, 0x3f, 0xf9, 0xdc, 0xbb, 0xc7, 0xc7, 0x0b, 0x4f, 0x1d,
  0x8a, 0x51, 0xe0, 0x4b, 0xcd, 0xb4, 0x59, 0x31, 0xc8, 0x9f, 0x7e, 0xc9, 0xd9, 0x78, 0x73, 0x64,
  0xea, 0xc5, 0xac, 0x83, 0x34, 0xd3, 0xeb, 0xc3, 0xc5, 0x81, 0xa0, 0xff, 0xfa, 0x13, 0x63, 0xeb,
  0x17, 0x0d, 0xdd, 0x51, 0xb7, 0xf0, 0xda, 0x49, 0xd3, 0x16, 0x55, 0x26, 0x29, 0xd4, 0x68, 0x9e,
  0x2b, 0x16, 0xbe, 0x58, 0x7d, 0x47, 0xa1, 0xfc, 0x8f, 0xf8, 0xb8, 0xd1, 0x7a, 0xd0, 0x31, 0xce,
  0x45, 0xcb, 0x3a, 0x8f, 0x95, 0x16, 0x04, 0x28, 0xaf, 0xd7, 0xfb, 0xca, 0xbb, 0x4b, 0x40, 0x7e]

/-! ### Words -/

/-- The byte at an offset; offsets outside the input are never read. -/
def byteAt (bytes : Array UInt8) (i : Nat) : UInt64 := (bytes[i]?.getD 0).toUInt64

/-- The little-endian word of `n` bytes at an offset. -/
def wordAt (bytes : Array UInt8) (i : Nat) : Nat → UInt64
  | 0 => 0
  | n + 1 => byteAt bytes i ||| (wordAt bytes (i + 1) n <<< 8)

def read32 (bytes : Array UInt8) (i : Nat) : UInt64 := wordAt bytes i 4

def read64 (bytes : Array UInt8) (i : Nat) : UInt64 := wordAt bytes i 8

/-- The eight bytes of a word in the opposite order. -/
def swapBytes (x : UInt64) : UInt64 :=
  (List.range 8).foldl (fun acc i => (acc <<< 8) ||| ((x >>> (8 * i).toUInt64) &&& 0xff)) 0

def rotateLeft (x : UInt64) (n : UInt64) : UInt64 := (x <<< n) ||| (x >>> (64 - n))

/-- The two halves of the 128-bit product, exclusive-ored. -/
def foldProduct (a b : UInt64) : UInt64 :=
  let p := a.toNat * b.toNat
  p.toUInt64 ^^^ (p / 0x10000000000000000).toUInt64

/-! ### Final mixing -/

def avalanche64 (h : UInt64) : UInt64 :=
  let h := (h ^^^ (h >>> 33)) * prime64B
  let h := (h ^^^ (h >>> 29)) * prime64C
  h ^^^ (h >>> 32)

def avalanche (h : UInt64) : UInt64 :=
  let h := (h ^^^ (h >>> 37)) * primeMixA
  h ^^^ (h >>> 32)

def mixShort (h size : UInt64) : UInt64 :=
  let h := (h ^^^ rotateLeft h 49 ^^^ rotateLeft h 24) * primeMixB
  let h := (h ^^^ ((h >>> 35) + size)) * primeMixB
  h ^^^ (h >>> 28)

/-! ### Lengths up to 16 -/

def hashUpTo3 (bytes : Array UInt8) : UInt64 :=
  let n := bytes.size
  let combined := (byteAt bytes 0 <<< 16) ||| (byteAt bytes (n / 2) <<< 24)
    ||| byteAt bytes (n - 1) ||| (n.toUInt64 <<< 8)
  avalanche64 (combined ^^^ (read32 secret 0 ^^^ read32 secret 4))

def hashUpTo8 (bytes : Array UInt8) : UInt64 :=
  let n := bytes.size
  let word := read32 bytes (n - 4) + (read32 bytes 0 <<< 32)
  mixShort (word ^^^ (read64 secret 8 ^^^ read64 secret 16)) n.toUInt64

def hashUpTo16 (bytes : Array UInt8) : UInt64 :=
  let n := bytes.size
  let lo := read64 bytes 0 ^^^ (read64 secret 24 ^^^ read64 secret 32)
  let hi := read64 bytes (n - 8) ^^^ (read64 secret 40 ^^^ read64 secret 48)
  avalanche (n.toUInt64 + swapBytes lo + hi + foldProduct lo hi)

/-! ### Lengths up to 240 -/

/-- Sixteen bytes of the input mixed with sixteen bytes of the key material. -/
def mix16 (bytes : Array UInt8) (i key : Nat) : UInt64 :=
  foldProduct (read64 bytes i ^^^ read64 secret key)
    (read64 bytes (i + 8) ^^^ read64 secret (key + 8))

/-- The pair of 16-byte pieces at distance `16 * k` from either end. -/
def mixEnds (bytes : Array UInt8) (k : Nat) : UInt64 :=
  mix16 bytes (16 * k) (32 * k) + mix16 bytes (bytes.size - 16 * (k + 1)) (32 * k + 16)

def hashUpTo128 (bytes : Array UInt8) : UInt64 :=
  let n := bytes.size
  let pairs := (List.range 4).filter fun k => 32 * k < n
  avalanche (pairs.foldl (fun acc k => acc + mixEnds bytes k) (n.toUInt64 * prime64A))

def hashUpTo240 (bytes : Array UInt8) : UInt64 :=
  let n := bytes.size
  let head := (List.range 8).foldl (fun acc i => acc + mix16 bytes (16 * i) (16 * i))
    (n.toUInt64 * prime64A)
  let tail := (List.range (n / 16 - 8)).foldl
    (fun acc i => acc + mix16 bytes (16 * (i + 8)) (16 * i + 3)) (mix16 bytes (n - 16) 119)
  avalanche (avalanche head + tail)

/-! ### Longer inputs -/

/-- The eight accumulators. -/
abbrev Lanes := Vector UInt64 8

def startLanes : Lanes :=
  #v[prime32C, prime64A, prime64B, prime64C, prime64D, prime32B, prime64E, prime32A]

/-- One stripe of 64 bytes: each lane takes the product of the halves of its keyed word and the
plain word of its neighbour. -/
def addStripe (bytes : Array UInt8) (i key : Nat) (lanes : Lanes) : Lanes :=
  Vector.ofFn fun j =>
    let keyed : UInt64 := read64 bytes (i + 8 * j) ^^^ read64 secret (key + 8 * j)
    let neighbour := if j.val % 2 = 0 then j.val + 1 else j.val - 1
    lanes[j] + (keyed &&& (0xffffffff : UInt64)) * (keyed >>> 32)
      + read64 bytes (i + 8 * neighbour)

/-- The mixing between blocks of sixteen stripes. -/
def scramble (lanes : Lanes) : Lanes :=
  Vector.ofFn fun j =>
    let x := lanes[j]
    (x ^^^ (x >>> 47) ^^^ read64 secret (128 + 8 * j)) * prime32A

/-- The first `count` stripes from an offset. -/
def addStripes (bytes : Array UInt8) (from_ count : Nat) (lanes : Lanes) : Lanes :=
  (List.range count).foldl (fun acc i => addStripe bytes (from_ + 64 * i) (8 * i) acc) lanes

def hashLong (bytes : Array UInt8) : UInt64 :=
  let n := bytes.size
  let blocks := (n - 1) / 1024
  let lanes := (List.range blocks).foldl
    (fun acc b => scramble (addStripes bytes (1024 * b) 16 acc)) startLanes
  let lanes := addStripes bytes (1024 * blocks) ((n - 1 - 1024 * blocks) / 64) lanes
  let lanes := addStripe bytes (n - 64) 121 lanes
  let pair (k : Fin 4) : UInt64 :=
    foldProduct (lanes[2 * k.val] ^^^ read64 secret (11 + 16 * k))
      (lanes[2 * k.val + 1] ^^^ read64 secret (19 + 16 * k))
  avalanche (n.toUInt64 * prime64A + pair 0 + pair 1 + pair 2 + pair 3)

/-- The hash of a sequence of bytes. -/
def hash (bytes : Array UInt8) : UInt64 :=
  let n := bytes.size
  if n = 0 then avalanche64 (read64 secret 56 ^^^ read64 secret 64)
  else if n ≤ 3 then hashUpTo3 bytes
  else if n ≤ 8 then hashUpTo8 bytes
  else if n ≤ 16 then hashUpTo16 bytes
  else if n ≤ 128 then hashUpTo128 bytes
  else if n ≤ 240 then hashUpTo240 bytes
  else hashLong bytes

end Xxh3

end Hash

end CssRune
