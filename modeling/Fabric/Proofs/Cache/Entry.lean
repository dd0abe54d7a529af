import Fabric.Cache.Store
import Fabric.Proofs.Digest.Framing
import Fabric.Proofs.Packed.Description
import Fabric.Synthesis.Program

namespace Fabric

open Packed

theorem Packed.length_packNat_le {n : Nat} (h : n < twoPow 32) : (packNat n).length ≤ 5 := by
  simp only [packNat, if_pos h]
  split
  · exact Nat.le_of_ble_eq_true rfl
  split
  · exact Nat.le_of_ble_eq_true rfl
  · exact Nat.le_refl 5

namespace EntryHeader

theorem restores_unpack {bound : Nat} {h : EntryHeader} (hmark : h.mark.length = 4)
    (hchecksum : h.checksum.length = 16) : Restores bound pack unpack h := by
  intro rest hbytes
  simp only [pack, List.append_assoc] at hbytes ⊢
  unfold unpack
  rw [takeBytes_append hmark]
  refine (restores_uint32 h.format).bind hbytes.of_append fun hbytes ↦ ?_
  refine (restores_text h.version).bind hbytes fun hbytes ↦ ?_
  dsimp only
  rw [takeBytes_append hchecksum]
  rfl

theorem length_pack_ofContent_le {version : String} (content : List UInt8)
    (h : version.utf8ByteSize < twoPow 32) :
    (ofContent version content).pack.length ≤ version.utf8ByteSize + 26 := by
  have hsize := length_packNat_le h
  have hpack : (ofContent version content).pack.length =
      4 + 1 + ((packNat version.utf8ByteSize).length + version.utf8ByteSize) + 16 := by
    simp only [pack, packText, List.length_append, Text.length_utf8]
    rfl
  omega

end EntryHeader

namespace Description

theorem ofEntry_toEntry_eq_ite {version : String} {d : Description} (version' : String)
    (hversion : version.utf8ByteSize + 26 < 2 ^ 32) (hcontent : d.pack.length < 2 ^ 64) :
    ofEntry? version' (d.toEntry version) =
      if EntryHeader.ofContent version d.pack = EntryHeader.ofContent version' d.pack then some d
      else none := by
  have hfit := EntryHeader.length_pack_ofContent_le d.pack (Nat.lt_of_add_right_lt hversion)
  have hsize : (EntryHeader.ofContent version d.pack).pack.length < 256 ^ 4 :=
    Nat.lt_of_le_of_lt hfit hversion
  have hheader : EntryHeader.unpack (EntryHeader.ofContent version d.pack).pack =
      some (EntryHeader.ofContent version d.pack, []) :=
    (EntryHeader.restores_unpack rfl (Digest.length_bytes _)).unpack_pack
      ⟨hsize, Nat.lt_trans hsize (by decide)⟩
  have hdescription : Description.unpack d.pack = some (d, []) :=
    (restores_description d).unpack_pack ⟨hcontent, hcontent⟩
  unfold ofEntry? toEntry
  dsimp only
  rw [List.append_assoc, takeBytes_append (length_littleEndian 4 _)]
  dsimp only [Option.bind_eq_bind, Option.bind_some]
  rw [ofLittleEndian_littleEndian hsize, takeBytes_append rfl]
  dsimp only [Option.bind_some]
  rw [hheader]
  dsimp only [Option.bind_some]
  rw [hdescription]
  rfl

/-- What a version has stored it reads back in full, and every other version reads nothing from it.
The length of the header is stored in four bytes. -/
theorem ofEntry_toEntry {version : String} {d : Description}
    (hversion : version.utf8ByteSize + 26 < 2 ^ 32) (hcontent : d.pack.length < 2 ^ 64) :
    ofEntry? version (d.toEntry version) = some d ∧
      ∀ version', version' ≠ version → ofEntry? version' (d.toEntry version) = none := by
  refine ⟨?_, fun version' hne ↦ ?_⟩
  · rw [ofEntry_toEntry_eq_ite version hversion hcontent, if_pos rfl]
  · rw [ofEntry_toEntry_eq_ite version' hversion hcontent, if_neg]
    intro heq
    exact hne (congrArg EntryHeader.version heq).symm

def accumulator : Description :=
  let row : HwType := .array (.array (.unsigned 16) 300) 2
  let item : HwExpr := .index (.variable "row") (.int (-1) (.signed 8))
  let sum : HwExpr := .binary .add (.variable "sum") item (.signed 64)
  { identity := "a3", source := "-- Σ\n"
    device := ⟨"Zynq-7020", ⟨100000000⟩, ["AXI", "Serial"], 536870912⟩
    manifest :=
      { components :=
          [{ name := "Sum.Add", parameters := [⟨"row", row⟩], returnType := some (.signed 64)
             declarations := [⟨"sum", .signed 64, some "running sum"⟩, ⟨"done", .boolean, none⟩]
             states :=
               [⟨0, "idle", [], 0, .waitFor (.signal (.own .started)) 1⟩,
                ⟨1, "", [.branch (.unary .not (.variable "done"))
                    [.comment "add", .assign (.variable "sum") sum] []], 70000,
                  .branch (.signal (.invocation "Sum.Add" 3 .finished)) 0 1⟩]
             invocations := [⟨"Sum.Add", 3⟩], instanceCount := 4, worstCaseCycles := none }]
        proxies := [⟨"Sum.Add", .dispatcher, 4, [⟨"External", 0, 0⟩], [⟨"row", row⟩], none⟩]
        memberIds := ⟨[⟨0, "Sum.Add"⟩]⟩
        entryPoints := [⟨0, "Sum.Add", [⟨"row", "u16[][]"⟩], "i64", true, false⟩] } }

theorem ofEntry_toEntry_accumulator :
    (version.utf8ByteSize + 26 < 2 ^ 32 ∧ accumulator.pack.length < 2 ^ 64) ∧
      ofEntry? version (accumulator.toEntry version) = some accumulator ∧
      ∀ version', version' ≠ version → ofEntry? version' (accumulator.toEntry version) = none := by
  have hversion : version.utf8ByteSize + 26 < 2 ^ 32 := by decide +kernel
  have hcontent : accumulator.pack.length < 2 ^ 64 := by decide +kernel
  exact ⟨⟨hversion, hcontent⟩, ofEntry_toEntry hversion hcontent⟩

end Description

end Fabric
