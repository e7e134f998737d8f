import Olivia.Core.Primitives

/-! # The group an oracle works in

The trait the oracle is generic over is a dictionary of types and operations. What the
source relies on about them is stated apart from it, one law for each scheme.
-/
namespace Olivia

/-- `Into` conversions of key pairs are `publicKey` and `publicNonce`. -/
structure Group where
  AttestScalar : Type
  PublicKey : Type
  PublicNonce : Type
  Signature : Type
  AnticipatedAttestation : Type
  NonceKeyPair : Type
  KeyPair : Type
  EcdsaSignature : Type
  publicKey : KeyPair → PublicKey
  publicNonce : NonceKeyPair → PublicNonce
  keyMaterialLen : Nat
  name : Str
  revealAttestScalar : KeyPair → NonceKeyPair → UInt32 → AttestScalar
  verifyAttestScalar : PublicKey → PublicNonce → UInt32 → AttestScalar → Bool
  verifyAnnouncementSignature : PublicKey → List UInt8 → Signature → Bool
  anticipateAttestations : PublicKey → PublicNonce → UInt32 → List AnticipatedAttestation
  signAnnouncement : KeyPair → List UInt8 → Signature
  keypairFromSecretBytes : List UInt8 → MayPanic KeyPair
  nonceKeypairFromSecretBytes : List UInt8 → MayPanic NonceKeyPair
  ecdsaSign : KeyPair → List UInt8 → EcdsaSignature
  ecdsaVerify : PublicKey → List UInt8 → EcdsaSignature → Bool

namespace Group
variable (C : Group)

/-- A revealed scalar verifies under its own key, nonce and index. -/
def RevealsVerify : Prop := ∀ kp nonce index,
  C.verifyAttestScalar (C.publicKey kp) (C.publicNonce nonce) index
    (C.revealAttestScalar kp nonce index) = true

def AnnouncementsVerify : Prop := ∀ kp message,
  C.verifyAnnouncementSignature (C.publicKey kp) message (C.signAnnouncement kp message) = true

/-- An ECDSA signature verifies under the public key of its signer and under no other. -/
def EcdsaVerifiesSigner : Prop := ∀ kp kp' message,
  C.ecdsaVerify (C.publicKey kp) message (C.ecdsaSign kp' message) = true ↔
    C.publicKey kp' = C.publicKey kp

end Group

structure OracleKeys (C : Group) where
  oliviaV1 : Option C.PublicKey
  ecdsaV1 : Option C.PublicKey
  announcement : C.PublicKey

end Olivia
