import Mathlib.Algebra.Field.Defs
import Mathlib.Data.List.Iterate
import Mathlib.Algebra.Module.NatInt
import Olivia.Core.Group

/-! # The secp256k1 group

Attestations are Schnorr-like: index `i` of a nonce `R` is revealed as the discrete
logarithm of `X + (i+1) • R`, so a client can add up the points of all indexes before any
of them is revealed. Scalars are a field, points a module over it, and an x-only key pair
holds the scalar that its point is a multiple of.
-/
namespace Olivia
namespace Secp256k1

/-- A point known by its x coordinate and the scalar it is made from. -/
structure XOnlyPair {F P XOnly : Type} [SMul F P] (G : P) (toPoint : XOnly → P) where
  scalar : F
  xonly : XOnly
  toPoint_xonly : toPoint xonly = scalar • G
  deriving DecidableEq

/-- What is used of `secp256kfun`, `schnorr_fun`, `ecdsa_fun` and `sha2`. -/
structure Library (F P : Type) [Field F] [AddCommGroup P] [Module F P] where
  G : P
  XOnly : Type
  toPoint : XOnly → P
  /-- The scalar is negated where its point would have an odd y coordinate. -/
  fromScalarMul : F → XOnlyPair (F := F) G toPoint
  fromSliceModOrder : List UInt8 → Option F
  SchnorrSignature : Type
  schnorrSign : XOnlyPair (F := F) G toPoint → Str → List UInt8 → SchnorrSignature
  schnorrVerify : P → Str → List UInt8 → SchnorrSignature → Bool
  sha256 : List UInt8 → List UInt8
  EcdsaSignature : Type
  ecdsaSign : F → List UInt8 → EcdsaSignature
  ecdsaVerify : P → List UInt8 → EcdsaSignature → Bool

variable {F P : Type} [Field F] [AddCommGroup P] [Module F P] (E : Library F P)

abbrev KeyPair := XOnlyPair (F := F) E.G E.toPoint

def revealAttestScalar (signingKey nonceKey : KeyPair E) (index : UInt32) : F :=
  ((index.toNat : F)+1)*nonceKey.scalar+signingKey.scalar

def verifyAttestScalar [DecidableEq P] (publicKey publicNonce : E.XOnly) (index : UInt32) (attestScalar : F) : Bool :=
  attestScalar • E.G = ((index.toNat : F)+1) • E.toPoint publicNonce+E.toPoint publicKey

/-- `scan` with a state that is emitted after every step. -/
def scan {α : Type} (step : α → α) : ℕ → α → List α
  | 0, _ => []
  | n+1, a => step a :: scan step n (step a)

def anticipateAttestations (publicKey publicNonce : E.XOnly) (nOutcomes : UInt32) : List P :=
  scan (fun C => C+E.toPoint publicNonce) nOutcomes.toNat (E.toPoint publicKey)

def keypairFromSecretBytes [DecidableEq F] (bytes : List UInt8) : MayPanic (KeyPair E) := do
  let scalar ← MayPanic.expect "will be 32 bytes long" (E.fromSliceModOrder bytes)
  let scalar ← MayPanic.expect "will not be zero" (if scalar = 0 then none else some scalar)
  return E.fromScalarMul scalar

def nonceKeypairFromSecretBytes [DecidableEq F] (bytes : List UInt8) : MayPanic (KeyPair E) := do
  let scalar ← MayPanic.expect "hash output is 32-bytes long" (E.fromSliceModOrder bytes)
  let scalar ← MayPanic.expect "will not be zero" (if scalar = 0 then none else some scalar)
  return E.fromScalarMul scalar

def announcementTag : Str := "DLC/announcement".toList

end Secp256k1

open Secp256k1 in
def secp256k1 {F P : Type} [Field F] [AddCommGroup P] [Module F P] [DecidableEq F] [DecidableEq P]
    (E : Library F P) : Group where
  AttestScalar := F
  PublicKey := E.XOnly
  PublicNonce := E.XOnly
  Signature := E.SchnorrSignature
  AnticipatedAttestation := P
  NonceKeyPair := KeyPair E
  KeyPair := KeyPair E
  EcdsaSignature := E.EcdsaSignature
  publicKey := XOnlyPair.xonly
  publicNonce := XOnlyPair.xonly
  keyMaterialLen := 32
  name := "secp256k1".toList
  revealAttestScalar := revealAttestScalar E
  verifyAttestScalar := verifyAttestScalar E
  verifyAnnouncementSignature publicKey message sig :=
    E.schnorrVerify (E.toPoint publicKey) announcementTag message sig
  anticipateAttestations := anticipateAttestations E
  signAnnouncement keypair announcement := E.schnorrSign keypair announcementTag announcement
  keypairFromSecretBytes := keypairFromSecretBytes E
  nonceKeypairFromSecretBytes := nonceKeypairFromSecretBytes E
  ecdsaSign keypair message := E.ecdsaSign keypair.scalar (E.sha256 message)
  ecdsaVerify publicKey message sig := E.ecdsaVerify (E.toPoint publicKey) (E.sha256 message) sig

namespace Secp256k1
variable {F P : Type} [Field F] [AddCommGroup P] [Module F P] (E : Library F P)

theorem revealAttestScalar_smul (signingKey nonceKey : KeyPair E) (index : UInt32) :
    revealAttestScalar E signingKey nonceKey index • E.G =
      ((index.toNat : F)+1) • E.toPoint nonceKey.xonly+E.toPoint signingKey.xonly := by
  rw [revealAttestScalar,add_smul,mul_smul,nonceKey.toPoint_xonly,signingKey.toPoint_xonly]

/-- The group law that the oracle relies on. -/
theorem revealsVerify [DecidableEq F] [DecidableEq P] : (secp256k1 E).RevealsVerify := by
  intro signingKey nonceKey index
  exact decide_eq_true (revealAttestScalar_smul E signingKey nonceKey index)

theorem scan_eq_iterate {α : Type} (step : α → α) (n : ℕ) (a : α) :
    scan step n a = List.iterate step (step a) n := by
  induction n generalizing a with
  | zero => rfl
  | succ n ih => rw [scan,ih,List.iterate]

theorem length_anticipateAttestations (publicKey publicNonce : E.XOnly) (nOutcomes : UInt32) :
    (anticipateAttestations E publicKey publicNonce nOutcomes).length = nOutcomes.toNat := by
  rw [anticipateAttestations,scan_eq_iterate,List.length_iterate]

/-- Position `index` of the scan has the nonce added `index+1` times. -/
theorem getElem?_anticipateAttestations (publicKey publicNonce : E.XOnly) {nOutcomes index : UInt32}
    (h : index < nOutcomes) : (anticipateAttestations E publicKey publicNonce nOutcomes)[index.toNat]? =
      some (((index.toNat : F)+1) • E.toPoint publicNonce+E.toPoint publicKey) := by
  have hlt : index.toNat < nOutcomes.toNat := UInt32.lt_iff_toNat_lt.mp h
  have hcast : ((index.toNat : F)+1) = ((index.toNat+1 : ℕ) : F) := by rw [Nat.cast_add_one]
  rw [anticipateAttestations,scan_eq_iterate,List.getElem?_iterate _ _ _ _ hlt,
    ← Function.iterate_succ_apply,add_right_iterate,hcast,Nat.cast_smul_eq_nsmul,add_comm]

/-- The anticipated point of an index is the revealed scalar times the generator. -/
theorem anticipated_eq_revealed (signingKey nonceKey : KeyPair E) {nOutcomes index : UInt32}
    (h : index < nOutcomes) :
    (anticipateAttestations E signingKey.xonly nonceKey.xonly nOutcomes)[index.toNat]? =
      some (revealAttestScalar E signingKey nonceKey index • E.G) := by
  rw [getElem?_anticipateAttestations E _ _ h,revealAttestScalar_smul]

end Secp256k1
end Olivia
