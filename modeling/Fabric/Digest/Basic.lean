import Fabric.Digest.Mixing
import Fabric.Text.Hex

/-!
Content digests of 128 bits. Inputs of different lengths take different paths; long ones run
through eight accumulators in stripes of 64 bytes. A digest over several parts covers the length of
each part before its bytes.
-/

namespace Fabric

structure Digest where
  low : UInt64
  high : UInt64
deriving DecidableEq, Repr

namespace Digest

def ofEmpty : Digest :=
  ⟨scatter (read64 key 64 ^^^ read64 key 72), scatter (read64 key 80 ^^^ read64 key 88)⟩

def ofTiny (data : Array UInt8) : Digest :=
  let n := data.size
  let low := byteAt data 0 <<< 16 ||| byteAt data (n / 2) <<< 24 ||| byteAt data (n - 1)
    ||| UInt64.ofNat n <<< 8
  let high := rotateLeft32 (swap32 low) 13
  ⟨scatter (low ^^^ (read32 key 0 ^^^ read32 key 4)),
    scatter (high ^^^ (read32 key 8 ^^^ read32 key 12))⟩

def ofSmall (data : Array UInt8) : Digest :=
  let n := data.size
  let word := read32 data 0 + read32 data (n - 4) <<< 32
  let keyed := word ^^^ (read64 key 16 ^^^ read64 key 24)
  let (low, high) := multiply keyed (prime64a + UInt64.ofNat n <<< 2)
  let high := high + low <<< 1
  let low := low ^^^ high >>> 3
  let low := (low ^^^ low >>> 35) * 0x9FB21C651E98DF25
  ⟨low ^^^ low >>> 28, avalanche high⟩

def ofMedium (data : Array UInt8) : Digest :=
  let n := data.size
  let flipLow := read64 key 32 ^^^ read64 key 40
  let flipHigh := read64 key 48 ^^^ read64 key 56
  let first := read64 data 0
  let last := read64 data (n - 8)
  let (low, high) := multiply (first ^^^ last ^^^ flipLow) prime64a
  let low := low + UInt64.ofNat (n - 1) <<< 54
  let last := last ^^^ flipHigh
  let high := high + (last + low32 last * (prime32b - 1))
  let low := low ^^^ swap64 high
  let (low', high') := multiply low prime64b
  ⟨avalanche low', avalanche (high' + high * prime64b)⟩

/-- The digest of the accumulated pair of words of an input of the given length. -/
def ofPair (acc : UInt64 × UInt64) (n : Nat) : Digest :=
  ⟨avalanche (acc.1 + acc.2),
    0 - avalanche (acc.1 * prime64a + acc.2 * prime64d + UInt64.ofNat n * prime64b)⟩

/-- Seventeen to 128 bytes: blocks from both ends inwards, the innermost first. -/
def ofBlocks (data : Array UInt8) : Digest :=
  let n := data.size
  let start : UInt64 × UInt64 := (UInt64.ofNat n * prime64a, 0)
  let rounds := (n - 1) / 32 + 1
  let acc := (List.range rounds).reverse.foldl
    (fun acc r => mix32 data acc (16 * r) (n - 16 * (r + 1)) (32 * r)) start
  ofPair acc n

def ofManyBlocks (data : Array UInt8) : Digest :=
  let n := data.size
  let start : UInt64 × UInt64 := (UInt64.ofNat n * prime64a, 0)
  let acc := (List.range 4).foldl
    (fun acc r => mix32 data acc (32 * r) (32 * r + 16) (32 * r)) start
  let acc := (avalanche acc.1, avalanche acc.2)
  let acc := (List.range (n / 32 - 4)).foldl
    (fun acc r => mix32 data acc (32 * (r + 4)) (32 * (r + 4) + 16) (3 + 32 * r)) acc
  ofPair (mix32 data acc (n - 16) (n - 32) 103) n

abbrev Lanes := List UInt64

def Lanes.initial : Lanes :=
  [prime32c, prime64a, prime64b, prime64c, prime64d, prime32b, prime64e, prime32a]

/-- Every lane takes the product of the halves of its keyed word; the plain word goes to the other
lane of its pair. -/
def Lanes.accumulate (data : Array UInt8) (i k : Nat) : Nat → Lanes → Lanes
  | lane, a :: b :: rest =>
    let x := read64 data (i + 8 * lane)
    let y := read64 data (i + 8 * lane + 8)
    let xKeyed := x ^^^ read64 key (k + 8 * lane)
    let yKeyed := y ^^^ read64 key (k + 8 * lane + 8)
    (a + y + low32 xKeyed * (xKeyed >>> 32)) :: (b + x + low32 yKeyed * (yKeyed >>> 32))
      :: Lanes.accumulate data i k (lane + 2) rest
  | _, rest => rest

def Lanes.scramble (k : Nat) : Nat → Lanes → Lanes
  | lane, a :: rest =>
    ((a ^^^ a >>> 47 ^^^ read64 key (k + 8 * lane)) * prime32a)
      :: Lanes.scramble k (lane + 1) rest
  | _, [] => []

/-- `count` stripes from a position on, each with its own part of the key. -/
def Lanes.stripes (data : Array UInt8) (start count : Nat) (lanes : Lanes) : Lanes :=
  (List.range count).foldl
    (fun lanes s => Lanes.accumulate data (start + 64 * s) (8 * s) 0 lanes) lanes

def Lanes.merge (k : Nat) : Lanes → UInt64 → UInt64
  | a :: b :: rest, acc =>
    Lanes.merge (k + 16) rest
      (acc + foldProduct (a ^^^ read64 key k) (b ^^^ read64 key (k + 8)))
  | _, acc => avalanche acc

/-- More than 240 bytes: blocks of sixteen stripes, scrambled after each full block but the last,
and the last 64 bytes once more. -/
def ofLong (data : Array UInt8) : Digest :=
  let n := data.size
  let blocks := (n - 1) / 1024
  let lanes := (List.range blocks).foldl
    (fun lanes b => Lanes.scramble 128 0 (Lanes.stripes data (1024 * b) 16 lanes)) Lanes.initial
  let lanes := Lanes.stripes data (1024 * blocks) ((n - 1 - 1024 * blocks) / 64) lanes
  let lanes := Lanes.accumulate data (n - 64) 121 0 lanes
  ⟨Lanes.merge 11 lanes (UInt64.ofNat n * prime64a),
    Lanes.merge 117 lanes (~~~(UInt64.ofNat n * prime64b))⟩

def ofBytes (bytes : List UInt8) : Digest :=
  let data := bytes.toArray
  let n := data.size
  if n = 0 then ofEmpty
  else if n ≤ 3 then ofTiny data
  else if n ≤ 8 then ofSmall data
  else if n ≤ 16 then ofMedium data
  else if n ≤ 128 then ofBlocks data
  else if n ≤ 240 then ofManyBlocks data
  else ofLong data

def wordBytes (x : UInt64) : List UInt8 :=
  (List.range 8).map fun i => (x >>> UInt64.ofNat (8 * i)).toUInt8

/-- What a digest over several parts covers: each part after its length. -/
def framed (parts : List (List UInt8)) : List UInt8 :=
  parts.flatMap fun part => wordBytes (UInt64.ofNat part.length) ++ part

def ofParts (parts : List (List UInt8)) : Digest :=
  ofBytes (framed parts)

def bytes (d : Digest) : List UInt8 :=
  wordBytes d.low ++ wordBytes d.high

def hex (d : Digest) : String :=
  Text.hexOfBytes d.bytes

/-- The first two bytes, enough to recognise a digest in a message. -/
def brief (d : Digest) : String :=
  Text.hexOfBytes (d.bytes.take 2)

end Digest

end Fabric
