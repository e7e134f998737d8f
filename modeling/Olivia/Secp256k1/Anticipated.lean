import Mathlib.Algebra.Module.Torsion.Field
import Olivia.Secp256k1.Sample

/-! # Anticipated points and the scalars that open them

A client adds the nonce once for every index and so holds the points of all indexes before
one of them is revealed. A point has one discrete logarithm, which is the scalar that the
oracle reveals, and no other scalar verifies.
-/
namespace Olivia.Secp256k1
variable {F P : Type} [Field F] [AddCommGroup P] [Module F P] (E : Library F P)

/-- A scalar verifies where its multiple of the generator is the point of the index. -/
theorem verifyAttestScalar_eq_true [DecidableEq P] {publicKey publicNonce : E.XOnly} {index : UInt32} {s : F} :
    verifyAttestScalar E publicKey publicNonce index s = true ↔
      s • E.G = ((index.toNat : F)+1) • E.toPoint publicNonce+E.toPoint publicKey := decide_eq_true_iff

/-- What a client anticipated is what it checks a revealed scalar against. -/
theorem verifyAttestScalar_iff_anticipated [DecidableEq P] {publicKey publicNonce : E.XOnly}
    {nOutcomes index : UInt32} {s : F} (h : index < nOutcomes) :
    verifyAttestScalar E publicKey publicNonce index s = true ↔
      (anticipateAttestations E publicKey publicNonce nOutcomes)[index.toNat]? = some (s • E.G) := by
  rw [verifyAttestScalar_eq_true,getElem?_anticipateAttestations E _ _ h,Option.some_inj,eq_comm]

/-- Over a generator, which is not zero, every index has one scalar that verifies, for all
indexes of 32 bits: the index is counted up in the scalars and does not wrap around. -/
theorem verifyAttestScalar_iff [DecidableEq P] (hG : E.G ≠ 0) {signingKey nonceKey : KeyPair E}
    {index : UInt32} {s : F} : verifyAttestScalar E signingKey.xonly nonceKey.xonly index s = true ↔
      s = revealAttestScalar E signingKey nonceKey index := by
  rw [verifyAttestScalar_eq_true,← revealAttestScalar_smul,smul_left_inj hG]

/-- The anticipated points are those of the scalars that are revealed, and only these verify. -/
theorem attestation_algebra [DecidableEq P] (hG : E.G ≠ 0) (signingKey nonceKey : KeyPair E) :
    (∀ nOutcomes, (anticipateAttestations E signingKey.xonly nonceKey.xonly nOutcomes).length = nOutcomes.toNat ∧
      ∀ index < nOutcomes, (anticipateAttestations E signingKey.xonly nonceKey.xonly nOutcomes)[index.toNat]? =
        some (revealAttestScalar E signingKey nonceKey index • E.G)) ∧
    ∀ index s, verifyAttestScalar E signingKey.xonly nonceKey.xonly index s = true ↔
      s = revealAttestScalar E signingKey nonceKey index := by
  refine ⟨?_,fun index s => verifyAttestScalar_iff E hG⟩
  intro nOutcomes
  exact ⟨length_anticipateAttestations E _ _ nOutcomes,fun index h => anticipated_eq_revealed E _ _ h⟩

/-- The last of all indexes, where adding one to it as a machine integer would wrap around. -/
theorem attestation_algebra_at_last_index : verifyAttestScalar (Sample.library 10007)
    (Sample.pairOf 10007 6578).xonly (Sample.pairOf 10007 84).xonly 4294967295
    (revealAttestScalar (Sample.library 10007) (Sample.pairOf 10007 6578) (Sample.pairOf 10007 84) 4294967295) = true := by
  have hG : (Sample.library 10007).G ≠ 0 := (by decide : (1 : ZMod 10007) ≠ 0)
  exact ((attestation_algebra (Sample.library 10007) hG _ _).2 4294967295 _).mpr rfl

end Olivia.Secp256k1
