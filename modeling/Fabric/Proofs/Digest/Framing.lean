import Fabric.Digest.Basic
import Fabric.Proofs.Packed.Basic
import Fabric.Proofs.Text.Separation

namespace Fabric

open Packed

theorem Packed.littleEndian_eq_map (count n : Nat) :
    littleEndian count n = (List.range count).map fun i ↦ UInt8.ofNat (n / 256 ^ i) := by
  induction count generalizing n with
  | zero => rfl
  | succ count ih =>
    have hdiv (i : Nat) : n / 256 / 256 ^ i = n / 256 ^ (i + 1) := by
      rw [Nat.div_div_eq_div_mul, ← Nat.pow_succ']
    rw [littleEndian, ih, List.range_succ_eq_map, List.map_cons, List.map_map]
    simp only [hdiv, Nat.pow_zero, Nat.div_one]
    rfl

namespace Digest

theorem wordBytes_eq_littleEndian (x : UInt64) : wordBytes x = littleEndian 8 x.toNat := by
  rw [littleEndian_eq_map, wordBytes]
  refine List.map_congr_left fun i hi ↦ ?_
  have hi := List.mem_range.1 hi
  have hshift : (UInt64.ofNat (8 * i)).toNat % 64 = 8 * i := by
    rw [UInt64.toNat_ofNat']
    omega
  rw [← UInt8.toNat_inj, UInt64.toNat_toUInt8, UInt64.toNat_shiftRight, hshift, UInt8.toNat_ofNat',
    Nat.shiftRight_eq_div_pow, Nat.pow_mul]

theorem length_wordBytes (x : UInt64) : (wordBytes x).length = 8 := rfl

theorem length_bytes (d : Digest) : d.bytes.length = 16 := rfl

theorem wordBytes_injective {x y : UInt64} (h : wordBytes x = wordBytes y) : x = y := by
  have hnumber := congrArg ofLittleEndian h
  rw [wordBytes_eq_littleEndian, wordBytes_eq_littleEndian, ofLittleEndian_littleEndian x.toNat_lt,
    ofLittleEndian_littleEndian y.toNat_lt] at hnumber
  exact UInt64.toNat_inj.1 hnumber

/-- A part ends where its length says. -/
theorem separated_part : Separated (fun part : List UInt8 ↦ part.length < 2 ^ 64)
    fun part ↦ wordBytes (UInt64.ofNat part.length) ++ part := by
  intro a b ha hb r s h
  rw [List.append_assoc, List.append_assoc] at h
  obtain ⟨hword, hparts⟩ := List.append_inj h rfl
  have hlength := congrArg UInt64.toNat (wordBytes_injective hword)
  rw [UInt64.toNat_ofNat_of_lt' ha, UInt64.toNat_ofNat_of_lt' hb] at hlength
  exact List.append_inj hparts hlength

theorem framed_injective {parts parts' : List (List UInt8)}
    (hparts : ∀ part ∈ parts, part.length < 2 ^ 64)
    (hparts' : ∀ part ∈ parts', part.length < 2 ^ 64) (h : framed parts = framed parts') :
    parts = parts' := by
  refine separated_part.flatMap_inj (fun part hnil ↦ ?_) hparts hparts' h
  have hword := (List.append_eq_nil_iff.1 hnil).1
  exact absurd (congrArg List.length hword) (by rw [length_wordBytes]; decide)

end Digest

end Fabric
