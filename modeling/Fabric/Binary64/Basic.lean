import Fabric.Power

/-!
Numbers in the IEEE format of 64 bits, given by their bits: a sign, eleven bits of exponent and 52
bits of fraction. Numbers are the same if their bits are; they compare as equal by their values, so
the two zeros do, and a NaN compares with nothing.
-/

namespace Fabric

structure Binary64 where
  bits : UInt64
deriving Repr, Inhabited

namespace Binary64

def isNegative (x : Binary64) : Bool :=
  twoPow 63 ≤ x.bits.toNat

/-- The bits without the sign. Of numbers that are no NaNs they order the absolute values. -/
def magnitude (x : Binary64) : Nat :=
  x.bits.toNat % twoPow 63

/-- The magnitude of the infinities; NaNs are beyond it. -/
def infinite : Nat := 2047 * twoPow 52

def isNaN (x : Binary64) : Bool :=
  infinite < x.magnitude

def isInfinite (x : Binary64) : Bool :=
  x.magnitude = infinite

def isFinite (x : Binary64) : Bool :=
  x.magnitude < infinite

def isZero (x : Binary64) : Bool :=
  x.magnitude = 0

def ofParts (negative : Bool) (magnitude : Nat) : Binary64 :=
  ⟨UInt64.ofNat (magnitude + if negative then twoPow 63 else 0)⟩

def infinity : Binary64 := ofParts false infinite

/-- The NaN that stands for a number that was read as none. -/
def nan : Binary64 := ofParts false (infinite + twoPow 51)

def invalid : Binary64 := ofParts true (infinite + twoPow 51)

/-- The NaN that an operation gives for an operand that is a NaN: its first bit of fraction is
set. -/
def quiet (x : Binary64) : Binary64 :=
  ⟨x.bits ||| UInt64.ofNat (twoPow 51)⟩

def neg (x : Binary64) : Binary64 :=
  ofParts (!x.isNegative) x.magnitude

instance : Neg Binary64 := ⟨neg⟩

/-- Counts the values from zero outwards, so that it orders them. -/
def rank (x : Binary64) : Int :=
  if x.isNegative then -(x.magnitude : Int) else x.magnitude

def Comparable (x y : Binary64) : Prop :=
  ¬ x.isNaN ∧ ¬ y.isNaN

instance (x y : Binary64) : Decidable (Comparable x y) :=
  inferInstanceAs (Decidable (_ ∧ _))

instance : LT Binary64 := ⟨fun x y => Comparable x y ∧ x.rank < y.rank⟩

instance : LE Binary64 := ⟨fun x y => Comparable x y ∧ x.rank ≤ y.rank⟩

instance (x y : Binary64) : Decidable (x < y) :=
  inferInstanceAs (Decidable (_ ∧ _))

instance (x y : Binary64) : Decidable (x ≤ y) :=
  inferInstanceAs (Decidable (_ ∧ _))

instance : BEq Binary64 := ⟨fun x y => decide (Comparable x y ∧ x.rank = y.rank)⟩

instance : Max Binary64 := ⟨fun x y => if x ≤ y then y else x⟩

end Binary64

end Fabric
