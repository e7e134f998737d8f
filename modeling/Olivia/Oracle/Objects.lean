import Olivia.Core.GroupObject
import Olivia.Core.Json
import Olivia.Oracle.KeyChain
import Olivia.Secp256k1.Group

/-! # The objects of the oracle

The seed of the configuration, and the objects of the group. Announcement documents hold the
nonces in hexadecimal, so documents of this group are read back as they were printed.
-/
namespace Olivia

/-- A configuration is asked for a seed in hexadecimal; nothing prints one. -/
def Seed.object : GroupObject Seed where
  name := "oracle seed".toList
  len := 64
  toBytes := Seed.bytes
  fromBytes bytes := some ⟨bytes⟩

theorem Seed.object_canonical : Seed.object.Canonical where
  fromBytes_toBytes _ := rfl
  toBytes_of_fromBytes h := by
    obtain rfl := Option.some.inj h
    rfl

/-- Any 64 bytes are a seed. -/
theorem Seed.fromStr_eq (text : Str) : Seed.object.fromStr text ≠ .ok (.error .invalidEncoding) := by
  obtain ⟨r,hr,_,hencoding,_⟩ := GroupObject.fromStr_spec Seed.object_canonical text
  rw [hr]
  intro he
  obtain ⟨_,_,hnone⟩ := hencoding.mp (Except.ok.inj he)
  cases hnone

namespace Secp256k1
variable {F P : Type} [Field F] [AddCommGroup P] [Module F P] [DecidableEq F] [DecidableEq P]

/-- What is used of the encodings of `secp256kfun`, `schnorr_fun` and `ecdsa_fun`. -/
structure Encodings (E : Library F P) where
  xonlyAsBytes : E.XOnly → Vector UInt8 32
  xonlyFromBytes : Vector UInt8 32 → Option E.XOnly
  scalarToBytes : F → Vector UInt8 32
  scalarFromBytes : Vector UInt8 32 → Option F
  schnorrToBytes : E.SchnorrSignature → Vector UInt8 64
  schnorrFromBytes : Vector UInt8 64 → Option E.SchnorrSignature
  ecdsaToBytes : E.EcdsaSignature → Vector UInt8 64
  ecdsaFromBytes : Vector UInt8 64 → Option E.EcdsaSignature

variable {E : Library F P} (encodings : Encodings E)

def publicKeyObject : GroupObject (secp256k1 E).PublicKey :=
  ⟨"secp256k1 xonly public key".toList,32,encodings.xonlyAsBytes,encodings.xonlyFromBytes⟩

def publicNonceObject : GroupObject (secp256k1 E).PublicNonce :=
  ⟨"secp256k1 xonly public nonce".toList,32,encodings.xonlyAsBytes,encodings.xonlyFromBytes⟩

def attestScalarObject : GroupObject (secp256k1 E).AttestScalar :=
  ⟨"secp256k1 scalar".toList,32,encodings.scalarToBytes,encodings.scalarFromBytes⟩

def signatureObject : GroupObject (secp256k1 E).Signature :=
  ⟨"bip340 schnorr signature".toList,64,encodings.schnorrToBytes,encodings.schnorrFromBytes⟩

def ecdsaSignatureObject : GroupObject (secp256k1 E).EcdsaSignature :=
  ⟨"ecdsa signature".toList,64,encodings.ecdsaToBytes,encodings.ecdsaFromBytes⟩

/-- The texts of a document with the nonces in hexadecimal. -/
def nonceTexts (h : (publicNonceObject encodings).Canonical) (time : NaiveDateTime → Str)
    (timeOf : Str → Option NaiveDateTime) (htime : ∀ t, timeOf (time t) = some t) : Json.Texts (secp256k1 E) where
  nonce := (publicNonceObject encodings).display
  nonceOf text := ((publicNonceObject encodings).fromStr text).toOption.bind Except.toOption
  nonceOf_nonce nonce := by
    obtain ⟨r,hr,hok,_⟩ := GroupObject.fromStr_spec h ((publicNonceObject encodings).display nonce)
    rw [hr,(hok nonce).mpr (GroupObject.lower_display ..)]
    rfl
  time := time
  timeOf := timeOf
  timeOf_time := htime

/-- An announcement document with its nonces in hexadecimal decodes to the event that was encoded. -/
theorem decode_encodeJson_nonceTexts (h : (publicNonceObject encodings).Canonical) {time : NaiveDateTime → Str}
    {timeOf : Str → Option NaiveDateTime} (htime : ∀ t, timeOf (time t) = some t) (oracleEvent : OracleEvent (secp256k1 E))
    (hid : oracleEvent.event.id.Accepted) (hn : oracleEvent.schemes.EnoughNonces oracleEvent.event.id) :
    ∃ raw, oracleEvent.encodeJson (Json.serdeJson (nonceTexts encodings h time timeOf htime)) = .ok raw ∧
      raw.decode (Json.serdeJson (nonceTexts encodings h time timeOf htime)) = .ok (some oracleEvent) :=
  RawOracleEvent.decode_encodeJson oracleEvent (Json.serdeJson_roundTrips _) hid hn

end Secp256k1
end Olivia
