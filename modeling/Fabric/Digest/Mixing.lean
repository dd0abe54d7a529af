import Fabric.Power

/-!
The mixing steps of the content digest on words of 64 bits: reading words from bytes, folding
products of 128 bits, avalanches, and the key bytes that every step draws on.
-/

namespace Fabric.Digest

def prime32a : UInt64 := 0x9E3779B1

def prime32b : UInt64 := 0x85EBCA77

def prime32c : UInt64 := 0xC2B2AE3D

def prime64a : UInt64 := 0x9E3779B185EBCA87

def prime64b : UInt64 := 0xC2B2AE3D27D4EB4F

def prime64c : UInt64 := 0x165667B19E3779F9

def prime64d : UInt64 := 0x85EBCA77C2B2AE63

def prime64e : UInt64 := 0x27D4EB2F165667C5

def key : Array UInt8 :=
  #[
    0xb8, 0xfe, 0x6c, 0x39, 0x23, 0xa4, 0x4b, 0xbe, 0x7c, 0x01, 0x81, 0x2c, 0xf7, 0x21, 0xad, 0x1c,
    0xde, 0xd4, 0x6d, 0xe9, 0x83, 0x90, 0x97, 0xdb, 0x72, 0x40, 0xa4, 0xa4, 0xb7, 0xb3, 0x67, 0x1f,
    0xcb, 0x79, 0xe6, 0x4e, 0xcc, 0xc0, 0xe5, 0x78, 0x82, 0x5a, 0xd0, 0x7d, 0xcc, 0xff, 0x72, 0x21,
    0xb8, 0x08, 0x46, 0x74, 0xf7, 0x43, 0x24, 0x8e, 0xe0, 0x35, 0x90, 0xe6, 0x81, 0x3a, 0x26, 0x4c,
    0x3c, 0x28, 0x52, 0xbb, 0x91, 0xc3, 0x00, 0xcb, 0x88, 0xd0, 0x65, 0x8b, 0x1b, 0x53, 0x2e, 0xa3,
    0x71, 0x64, 0x48, 0x97, 0xa2, 0x0d, 0xf9, 0x4e, 0x38, 0x19, 0xef, 0x46, 0xa9, 0xde, 0xac, 0xd8,
    0xa8, 0xfa, 0x76, 0x3f, 0xe3, 0x9c, 0x34, 0x3f, 0xf9, 0xdc, 0xbb, 0xc7, 0xc7, 0x0b, 0x4f, 0x1d,
    0x8a, 0x51, 0xe0, 0x4b, 0xcd, 0xb4, 0x59, 0x31, 0xc8, 0x9f, 0x7e, 0xc9, 0xd9, 0x78, 0x73, 0x64,
    0xea, 0xc5, 0xac, 0x83, 0x34, 0xd3, 0xeb, 0xc3, 0xc5, 0x81, 0xa0, 0xff, 0xfa, 0x13, 0x63, 0xeb,
    0x17, 0x0d, 0xdd, 0x51, 0xb7, 0xf0, 0xda, 0x49, 0xd3, 0x16, 0x55, 0x26, 0x29, 0xd4, 0x68, 0x9e,
    0x2b, 0x16, 0xbe, 0x58, 0x7d, 0x47, 0xa1, 0xfc, 0x8f, 0xf8, 0xb8, 0xd1, 0x7a, 0xd0, 0x31, 0xce,
    0x45, 0xcb, 0x3a, 0x8f, 0x95, 0x16, 0x04, 0x28, 0xaf, 0xd7, 0xfb, 0xca, 0xbb, 0x4b, 0x40, 0x7e]

def byteAt (data : Array UInt8) (i : Nat) : UInt64 :=
  (data.getD i 0).toUInt64

def read32 (data : Array UInt8) (i : Nat) : UInt64 :=
  byteAt data i ||| byteAt data (i + 1) <<< 8 ||| byteAt data (i + 2) <<< 16
    ||| byteAt data (i + 3) <<< 24

def read64 (data : Array UInt8) (i : Nat) : UInt64 :=
  read32 data i ||| read32 data (i + 4) <<< 32

def multiply (a b : UInt64) : UInt64 × UInt64 :=
  let product := a.toNat * b.toNat
  (UInt64.ofNat product, UInt64.ofNat (product / twoPow 64))

/-- The exclusive disjunction of the two words of a product. -/
def foldProduct (a b : UInt64) : UInt64 :=
  let (low, high) := multiply a b
  low ^^^ high

def low32 (x : UInt64) : UInt64 :=
  x &&& 0xFFFFFFFF

def swap32 (x : UInt64) : UInt64 :=
  (x &&& 0xFF) <<< 24 ||| (x >>> 8 &&& 0xFF) <<< 16 ||| (x >>> 16 &&& 0xFF) <<< 8
    ||| (x >>> 24 &&& 0xFF)

def swap64 (x : UInt64) : UInt64 :=
  swap32 (low32 x) <<< 32 ||| swap32 (x >>> 32)

def rotateLeft32 (x : UInt64) (n : UInt64) : UInt64 :=
  low32 (x <<< n) ||| x >>> (32 - n)

def scatter (h : UInt64) : UInt64 :=
  let h := (h ^^^ h >>> 33) * prime64b
  let h := (h ^^^ h >>> 29) * prime64c
  h ^^^ h >>> 32

def avalanche (h : UInt64) : UInt64 :=
  let h := (h ^^^ h >>> 37) * 0x165667919E3779F9
  h ^^^ h >>> 32

/-- Sixteen bytes of data mixed with sixteen bytes of the key. -/
def mix16 (data : Array UInt8) (i k : Nat) : UInt64 :=
  foldProduct (read64 data i ^^^ read64 key k) (read64 data (i + 8) ^^^ read64 key (k + 8))

/-- A pair of words that two blocks of sixteen bytes are mixed into. -/
def mix32 (data : Array UInt8) (acc : UInt64 × UInt64) (i j k : Nat) : UInt64 × UInt64 :=
  ((acc.1 + mix16 data i k) ^^^ (read64 data j + read64 data (j + 8)),
    (acc.2 + mix16 data j (k + 16)) ^^^ (read64 data i + read64 data (i + 8)))

end Fabric.Digest
