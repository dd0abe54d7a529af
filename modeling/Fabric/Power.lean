/-!
Powers of two and of ten, with which the bounds of words and the places of digits are written.
-/

namespace Fabric

def twoPow (n : Nat) : Nat := Nat.pow 2 n

def tenPow (n : Nat) : Nat := Nat.pow 10 n

theorem twoPow_pos (n : Nat) : 0 < twoPow n :=
  Nat.pow_pos (by decide)

end Fabric
