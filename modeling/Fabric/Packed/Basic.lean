import Fabric.Binary64.Basic
import Fabric.Power
import Fabric.Text.Hex

/-!
The packed form of values as bytes: fields one after another without names. A number below 251 is
one byte; a larger one is a mark and two, four or eight bytes, the lowest first. Lists and texts are
preceded by their lengths, variants by their positions.

Unpacking gives the value and the bytes that follow it.
-/

namespace Fabric.Packed

/-- The bytes that a value unpacks from, and those after it. -/
abbrev Unpack (α : Type) := List UInt8 → Option (α × List UInt8)

/-- The lowest `count` bytes of a number, the lowest first. -/
def littleEndian : Nat → Nat → List UInt8
  | 0, _ => []
  | count + 1, n => UInt8.ofNat n :: littleEndian count (n / 256)

def ofLittleEndian : List UInt8 → Nat
  | [] => 0
  | b :: bs => b.toNat + 256 * ofLittleEndian bs

def takeBytes (count : Nat) : Unpack (List UInt8) := fun bytes =>
  if bytes.length < count then none else some (bytes.take count, bytes.drop count)

def packNat (n : Nat) : List UInt8 :=
  if n < 251 then [UInt8.ofNat n]
  else if n < twoPow 16 then 251 :: littleEndian 2 n
  else if n < twoPow 32 then 252 :: littleEndian 4 n
  else 253 :: littleEndian 8 n

/-- A number of at most `size` bytes. The marks of longer numbers are refused. -/
def unpackNat (size : Nat) : Unpack Nat
  | [] => none
  | b :: bytes =>
    let more (count : Nat) : Option (Nat × List UInt8) :=
      if size < count then none
      else (takeBytes count bytes).map fun (bs, rest) => (ofLittleEndian bs, rest)
    if b.toNat < 251 then some (b.toNat, bytes)
    else if b = 251 then more 2
    else if b = 252 then more 4
    else if b = 253 then more 8
    else none

def packUInt16 (n : UInt16) : List UInt8 := packNat n.toNat

def unpackUInt16 : Unpack UInt16 := fun bytes =>
  (unpackNat 2 bytes).map fun (n, rest) => (UInt16.ofNat n, rest)

def packUInt32 (n : UInt32) : List UInt8 := packNat n.toNat

def unpackUInt32 : Unpack UInt32 := fun bytes =>
  (unpackNat 4 bytes).map fun (n, rest) => (UInt32.ofNat n, rest)

def packUInt64 (n : UInt64) : List UInt8 := packNat n.toNat

def unpackUInt64 : Unpack UInt64 := fun bytes =>
  (unpackNat 8 bytes).map fun (n, rest) => (UInt64.ofNat n, rest)

/-- Signed numbers are counted from zero outwards: 0, -1, 1, -2, … -/
def zigzag (n : Int) : Nat :=
  if 0 ≤ n then 2 * n.toNat else 2 * (-n).toNat - 1

def ofZigzag (n : Nat) : Int :=
  if n % 2 = 0 then (n / 2 : Nat) else -((n / 2 : Nat) : Int) - 1

def packInt64 (n : Int64) : List UInt8 := packNat (zigzag n.toInt)

def unpackInt64 : Unpack Int64 := fun bytes =>
  (unpackNat 8 bytes).map fun (n, rest) => (Int64.ofInt (ofZigzag n), rest)

def packBool (b : Bool) : List UInt8 := [if b then 1 else 0]

def unpackBool : Unpack Bool
  | 0 :: rest => some (false, rest)
  | 1 :: rest => some (true, rest)
  | _ => none

def packBinary64 (x : Binary64) : List UInt8 := littleEndian 8 x.bits.toNat

def unpackBinary64 : Unpack Binary64 := fun bytes =>
  (takeBytes 8 bytes).map fun (bs, rest) => (⟨UInt64.ofNat (ofLittleEndian bs)⟩, rest)

/-- A text as the length and the bytes of its UTF-8 form. -/
def packText (s : String) : List UInt8 :=
  let bytes := Text.utf8 s
  packNat bytes.length ++ bytes

def unpackText : Unpack String := fun bytes => do
  let (count, rest) ← unpackNat 8 bytes
  let (bs, rest) ← takeBytes count rest
  let s ← String.fromUTF8? (ByteArray.mk bs.toArray)
  return (s, rest)

variable {α : Type}

def packOption (pack : α → List UInt8) : Option α → List UInt8
  | none => [0]
  | some a => 1 :: pack a

def unpackOption (unpack : Unpack α) : Unpack (Option α)
  | 0 :: rest => some (none, rest)
  | 1 :: rest => (unpack rest).map fun (a, rest) => (some a, rest)
  | _ => none

def packList (pack : α → List UInt8) (as : List α) : List UInt8 :=
  packNat as.length ++ as.flatMap pack

def unpackTimes (unpack : Unpack α) : Nat → Unpack (List α)
  | 0, bytes => some ([], bytes)
  | count + 1, bytes =>
    match unpack bytes with
    | none => none
    | some (a, rest) => (unpackTimes unpack count rest).map fun (as, rest) => (a :: as, rest)

def unpackList (unpack : Unpack α) : Unpack (List α) := fun bytes => do
  let (count, rest) ← unpackNat 8 bytes
  unpackTimes unpack count rest

def packVariant (position : Nat) (content : List UInt8) : List UInt8 :=
  packNat position ++ content

def unpackChoice (choices : List α) : Unpack α := fun bytes => do
  let (position, rest) ← unpackNat 4 bytes
  let a ← choices[position]?
  return (a, rest)

end Fabric.Packed
