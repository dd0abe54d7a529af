import Fabric.Proofs.Calls.Demand
import Fabric.Proofs.Digest.Framing
import Fabric.Proofs.Packed.Tree
import Fabric.Synthesis.Program

namespace Fabric

namespace SyntaxTree

/-- The bytes of a tree and the frame of a list of parts tell what they are made of, and so do
together the bytes that are hashed for a request. Lengths are stored as numbers of 64 bits. -/
theorem eq_of_hashed_eq :
    (∀ t t' : SyntaxTree, t.pack.length < 2 ^ 64 → t.pack = t'.pack → t = t') ∧
    (∀ parts parts' : List (List UInt8), (∀ part ∈ parts, part.length < 2 ^ 64) →
      (∀ part ∈ parts', part.length < 2 ^ 64) →
      Digest.framed parts = Digest.framed parts' → parts = parts') ∧
    ∀ (version version' : String) (t t' : SyntaxTree) (c c' : Config),
      t.pack.length < 2 ^ 64 → (∀ part ∈ identityParts version t c, part.length < 2 ^ 64) →
      (∀ part ∈ identityParts version' t' c', part.length < 2 ^ 64) → t.pack = t'.pack →
      Digest.framed (identityParts version t c) = Digest.framed (identityParts version' t' c') →
      version = version' ∧ t = t' ∧ c.canonicalText = c'.canonicalText := by
  refine ⟨fun _ _ ↦ pack_injective, fun _ _ ↦ Digest.framed_injective, ?_⟩
  intro version version' t t' c c' hlength hparts hparts' hpack hframed
  have hequal := Digest.framed_injective hparts hparts' hframed
  simp only [identityParts, List.cons.injEq, and_true] at hequal
  obtain ⟨hversion, -, htext⟩ := hequal
  exact ⟨Text.utf8_injective hversion, pack_injective hlength hpack, Text.utf8_injective htext⟩

/-- A tree and the same tree numbered anew, under configurations with their entries in different
orders. -/
theorem eq_of_hashed_eq_sharedCalls :
    let t := SyntaxTree.ofTypes sharedCalls
    let t' := SyntaxTree.ofTypes t.types
    let c : Config := { device := "Zynq-7020", entryPointStarts := ["Work.", "Job"] }
    let c' : Config := { device := "Zynq-7020", entryPointStarts := ["Job", "Work.", "Job"] }
    (t.pack.length < 2 ^ 64 ∧ t.pack = t'.pack ∧
      (∀ part ∈ identityParts version t c, part.length < 2 ^ 64) ∧
      (∀ part ∈ identityParts version t' c', part.length < 2 ^ 64) ∧
      Digest.framed (identityParts version t c) = Digest.framed (identityParts version t' c')) ∧
    t = t' ∧ c.canonicalText = c'.canonicalText := by
  intro t t' c c'
  have hlength : t.pack.length < 2 ^ 64 := by decide +kernel
  have hpack : t.pack = t'.pack := by decide +kernel
  have hsizes : version.utf8ByteSize < 2 ^ 64 ∧ c.canonicalText.utf8ByteSize < 2 ^ 64 ∧
      c'.canonicalText.utf8ByteSize < 2 ^ 64 := by decide +kernel
  have htext : c.canonicalText = c'.canonicalText := by decide +kernel
  have hparts {t : SyntaxTree} {c : Config} (h : c.canonicalText.utf8ByteSize < 2 ^ 64) :
      ∀ part ∈ identityParts version t c, part.length < 2 ^ 64 := by
    simp only [identityParts, List.forall_mem_cons, Text.length_utf8, Digest.length_bytes]
    exact ⟨hsizes.1, by decide, h, nofun⟩
  have hframed :
      Digest.framed (identityParts version t c) = Digest.framed (identityParts version t' c') := by
    rw [identityParts, identityParts, digest, digest, hpack, htext]
  have hequal := eq_of_hashed_eq.2.2 version version t t' c c' hlength (hparts hsizes.2.1)
    (hparts hsizes.2.2) hpack hframed
  exact ⟨⟨hlength, hpack, hparts hsizes.2.1, hparts hsizes.2.2, hframed⟩, hequal.2⟩

end SyntaxTree

end Fabric
