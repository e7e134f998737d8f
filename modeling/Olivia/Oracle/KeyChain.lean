import Olivia.Core.Attestation

/-! # The key chain

Everything secret is derived from one seed: the three key pairs, and for every event id the
nonces of its digits. Announcing and attesting derive the nonces separately, so that they
agree is a fact about both.
-/
namespace Olivia

/-- The keyed hashes of the `blake2` crate. -/
structure Blake2b where
  mac : Vector UInt8 64 → List UInt8 → Vector UInt8 64
  varMac : Vector UInt8 64 → ℕ → List UInt8 → List UInt8

structure Seed where
  bytes : Vector UInt8 64
  deriving DecidableEq

/-- The libraries that the oracle calls. -/
structure Libraries (C : Group) where
  blake2b : Blake2b
  serdeJson : SerdeJson C

variable {C : Group} (lib : Libraries C)

def Seed.toBlake2bVar (seed : Seed) (len : ℕ) (message : List UInt8) : List UInt8 :=
  lib.blake2b.varMac seed.bytes len message

def Seed.child (seed : Seed) (tag : List UInt8) : Seed := ⟨lib.blake2b.mac seed.bytes tag⟩

@[simp] theorem Seed.child_bytes (seed : Seed) (tag : List UInt8) :
    (seed.child lib tag).bytes = lib.blake2b.mac seed.bytes tag := rfl

structure KeyChain (C : Group) where
  announcementKeypair : C.KeyPair
  oliviaV1Keypair : C.KeyPair
  ecdsaV1Keypair : C.KeyPair
  eventSeed : Seed

namespace KeyChain

def new (seed : Seed) : MayPanic (KeyChain C) := do
  let seed := seed.child lib (asBytes C.name)
  let keypair := fun (tag : String) => C.keypairFromSecretBytes
    ((seed.child lib (asBytes tag.toList)).toBlake2bVar lib C.keyMaterialLen [])
  let announcementKeypair ← keypair "announcement-key"
  let oliviaV1Keypair ← keypair "olivia-v1-key"
  let ecdsaV1Keypair ← keypair "ecdsa-v1-key"
  return ⟨announcementKeypair,oliviaV1Keypair,ecdsaV1Keypair,
    seed.child lib (asBytes "oracle-events".toList)⟩

def oraclePublicKeys (keychain : KeyChain C) : OracleKeys C where
  oliviaV1 := some (C.publicKey keychain.oliviaV1Keypair)
  ecdsaV1 := some (C.publicKey keychain.ecdsaV1Keypair)
  announcement := C.publicKey keychain.announcementKeypair

def noncesForEvent (keychain : KeyChain C) (eventId : EventId) : MayPanic (List C.NonceKeyPair) := do
  let eventSeed := keychain.eventSeed.child lib eventId.asBytes
  let n := (← eventId.eventKind).nNonces
  (List.range n.toNat).mapM (fun i =>
    C.nonceKeypairFromSecretBytes (eventSeed.toBlake2bVar lib C.keyMaterialLen [UInt8.ofNat i]))

def oliviaV1ScalarsForEventOutcome (keychain : KeyChain C) (stamped : StampedOutcome) :
    MayPanic (List C.AttestScalar) := do
  let eventSeed := keychain.eventSeed.child lib stamped.outcome.id.asBytes
  let attestKeypair := keychain.oliviaV1Keypair
  let indexes ← stamped.outcome.attestationIndexes
  indexes.zipIdx.mapM (fun (index,i) => do
    let nonceKeypair ←
      C.nonceKeypairFromSecretBytes (eventSeed.toBlake2bVar lib C.keyMaterialLen [UInt8.ofNat i])
    let scalar := C.revealAttestScalar attestKeypair nonceKeypair index
    -- an attestation is verified before it is published
    if C.verifyAttestScalar (C.publicKey attestKeypair) (C.publicNonce nonceKeypair) index scalar
      then return scalar else .error .assertion)

def createAnnouncement (keychain : KeyChain C) (event : Event) : MayPanic (RawAnnouncement C) := do
  let nonces := (← keychain.noncesForEvent lib event.id).map C.publicNonce
  let schemes : AnnouncementSchemes C :=
    { oliviaV1 := if nonces.isEmpty then none else some ⟨nonces⟩, ecdsaV1 := some ⟨⟩ }
  RawAnnouncement.create lib.serdeJson event keychain.announcementKeypair schemes

def ecdsaSignOutcome (keychain : KeyChain C) (outcome : Outcome) : C.EcdsaSignature :=
  C.ecdsaSign keychain.announcementKeypair outcome.attestationString

/-- The bytes that the nonce of a digit is made of. -/
def nonceBytes (keychain : KeyChain C) (eventId : EventId) (i : ℕ) : List UInt8 :=
  (keychain.eventSeed.child lib eventId.asBytes).toBlake2bVar lib C.keyMaterialLen [UInt8.ofNat i]

/-- The id is hashed under the event seed, and the digit's byte under the hash of the id. -/
theorem nonceBytes_eq (keychain : KeyChain C) (eventId : EventId) (i : ℕ) :
    keychain.nonceBytes lib eventId i = lib.blake2b.varMac
      (lib.blake2b.mac keychain.eventSeed.bytes eventId.asBytes) C.keyMaterialLen [UInt8.ofNat i] := by
  rw [nonceBytes,Seed.toBlake2bVar,Seed.child_bytes]

/-- The schemes that are announced with the nonces of an event. -/
def announcedSchemes (nonces : List C.NonceKeyPair) : AnnouncementSchemes C where
  oliviaV1 := if nonces = [] then none else some ⟨nonces.map C.publicNonce⟩
  ecdsaV1 := some ⟨⟩

variable {lib} {keychain : KeyChain C} {id : EventId} {p : Path} {k : EventKind}

theorem noncesForEvent_eq_ok (hr : id.Reads p k) {nonces : List C.NonceKeyPair}
    (h : keychain.noncesForEvent lib id = .ok nonces) : nonces.length = k.nNonces.toNat ∧
      ∀ (i : ℕ) nonce, nonces[i]? = some nonce →
        C.nonceKeypairFromSecretBytes (keychain.nonceBytes lib id i) = .ok nonce := by
  simp only [noncesForEvent,hr.eventKind,MayPanic.ok_bind] at h
  obtain ⟨hlength,hall⟩ := MayPanic.mapM_eq_ok h
  rw [List.length_range] at hlength
  refine ⟨hlength,?_⟩
  intro i nonce hi
  have hlt : i < k.nNonces.toNat := hlength ▸ (List.getElem?_eq_some_iff.mp hi).1
  obtain ⟨nonce',hi',hnonce⟩ := hall i i (by simp [hlt])
  rw [hi] at hi'
  exact Option.some.inj hi' ▸ hnonce

/-- Every scalar reveals the index at its position with the nonce of that digit. -/
theorem oliviaV1Scalars_eq_ok {stamped : StampedOutcome} {scalars : List C.AttestScalar}
    (h : keychain.oliviaV1ScalarsForEventOutcome lib stamped = .ok scalars) {indexes : List UInt32}
    (hi : stamped.outcome.attestationIndexes = .ok indexes) :
    scalars.length = indexes.length ∧ ∀ (j : ℕ) index, indexes[j]? = some index → ∃ nonce,
      C.nonceKeypairFromSecretBytes (keychain.nonceBytes lib stamped.outcome.id j) = .ok nonce ∧
        scalars[j]? = some (C.revealAttestScalar keychain.oliviaV1Keypair nonce index) := by
  simp only [oliviaV1ScalarsForEventOutcome,hi,MayPanic.ok_bind] at h
  obtain ⟨hlength,hall⟩ := MayPanic.mapM_eq_ok h
  rw [List.length_zipIdx] at hlength
  refine ⟨hlength,?_⟩
  intro j index hj
  obtain ⟨scalar,hs,hscalar⟩ := hall j (index,j) (by simp [hj])
  obtain ⟨nonce,hnonce,hscalar⟩ := MayPanic.bind_eq_ok.mp hscalar
  refine ⟨nonce,hnonce,?_⟩
  split at hscalar
  next => rw [hs,← Except.ok.inj hscalar]
  next => simp at hscalar

/-- The scalar at a digit reveals its index with the nonce that is announced for the digit. -/
theorem scalars_of_nonces (hr : id.Reads p k) {nonces : List C.NonceKeyPair}
    (hnonces : keychain.noncesForEvent lib id = .ok nonces) {value : UInt64} (hv : k.Admits value)
    {time : NaiveDateTime} {scalars : List C.AttestScalar}
    (hscalars : keychain.oliviaV1ScalarsForEventOutcome lib ⟨⟨id,value⟩,time⟩ = .ok scalars) :
    nonces.length = k.nNonces.toNat ∧ scalars.length = k.nNonces.toNat ∧
      ∀ (j : ℕ) index, (k.indexes value)[j]? = some index → ∃ nonce, nonces[j]? = some nonce ∧
        C.nonceKeypairFromSecretBytes (keychain.nonceBytes lib id j) = .ok nonce ∧
        scalars[j]? = some (C.revealAttestScalar keychain.oliviaV1Keypair nonce index) := by
  obtain ⟨hlength,hderive⟩ := noncesForEvent_eq_ok hr hnonces
  obtain ⟨hsl,hreveal⟩ := oliviaV1Scalars_eq_ok hscalars (hr.attestationIndexes hv)
  rw [EventId.Reads.length_indexes] at hsl
  refine ⟨hlength,hsl,?_⟩
  intro j index hj
  obtain ⟨nonce,hnonce,hscalar⟩ := hreveal j index hj
  have hlt : j < nonces.length := by
    rw [hlength,← hsl]
    exact (List.getElem?_eq_some_iff.mp hscalar).1
  have hat := List.getElem?_eq_getElem hlt
  have hsame : nonces[j] = nonce := Except.ok.inj ((hderive j _ hat).symm.trans hnonce)
  exact ⟨nonce,hsame ▸ hat,hnonce,hscalar⟩

/-- Where the nonces were derived, the outcome can be attested. -/
theorem oliviaV1Scalars_isOk (hverify : C.RevealsVerify) (hr : id.Reads p k)
    {nonces : List C.NonceKeyPair} (h : keychain.noncesForEvent lib id = .ok nonces) {value : UInt64}
    (hv : k.Admits value) (time : NaiveDateTime) :
    ∃ scalars, keychain.oliviaV1ScalarsForEventOutcome lib ⟨⟨id,value⟩,time⟩ = .ok scalars := by
  obtain ⟨hlength,hnonce⟩ := noncesForEvent_eq_ok hr h
  simp only [oliviaV1ScalarsForEventOutcome,hr.attestationIndexes hv,MayPanic.ok_bind]
  refine MayPanic.mapM_isOk (fun (index,i) hmem => ?_)
  have hi := List.mem_zipIdx_iff_getElem?.mp hmem
  have hlt : i < nonces.length := by
    rw [hlength,← EventId.Reads.length_indexes k value]
    exact (List.getElem?_eq_some_iff.mp hi).1
  have hderive := hnonce i nonces[i] (List.getElem?_eq_getElem hlt)
  rw [nonceBytes] at hderive
  simp [hderive,hverify keychain.oliviaV1Keypair nonces[i] index]

/-- Deriving nonces only panics where the group refuses the hash. -/
theorem noncesForEvent_eq_error (hr : id.Reads p k) {panic : Panic}
    (h : keychain.noncesForEvent lib id = .error panic) :
    ∃ bytes, C.nonceKeypairFromSecretBytes bytes = .error panic := by
  simp only [noncesForEvent,hr.eventKind,MayPanic.ok_bind] at h
  obtain ⟨i,_,hi⟩ := MayPanic.mapM_eq_error h
  exact ⟨_,hi⟩

theorem announcedSchemes_enoughNonces (hr : id.Reads p k) {nonces : List C.NonceKeyPair}
    (h : keychain.noncesForEvent lib id = .ok nonces) : (announcedSchemes nonces).EnoughNonces id := by
  intro oliviaV1 ho n hn
  obtain rfl : k.nNonces = n := Except.ok.inj (hr.nNonces.symm.trans hn)
  obtain ⟨hlength,_⟩ := noncesForEvent_eq_ok hr h
  simp only [announcedSchemes] at ho
  split at ho
  next => simp at ho
  next =>
    obtain rfl := Option.some.inj ho
    simp [hlength]

/-- What an announcement decodes to, and where making one panics. -/
theorem createAnnouncement_spec (hjson : lib.serdeJson.RoundTrips) (hsig : C.AnnouncementsVerify)
    (keychain : KeyChain C) {event : Event} (h : event.id.Accepted) :
    (∃ nonces announcement, keychain.noncesForEvent lib event.id = .ok nonces ∧
      keychain.createAnnouncement lib event = .ok announcement ∧
      ∀ eventId, announcement.verifyAgainstId lib.serdeJson eventId keychain.oraclePublicKeys.announcement =
        .ok (if event.id = eventId then some ⟨event,announcedSchemes nonces⟩ else none)) ∨
    ∃ panic bytes, keychain.createAnnouncement lib event = .error panic ∧
      C.nonceKeypairFromSecretBytes bytes = .error panic := by
  obtain ⟨p,k,hr⟩ := h.reads
  cases hn : keychain.noncesForEvent lib event.id with
  | error panic =>
    obtain ⟨bytes,hbytes⟩ := noncesForEvent_eq_error hr hn
    exact Or.inr ⟨panic,bytes,by simp [createAnnouncement,hn],hbytes⟩
  | ok nonces =>
    obtain ⟨announcement,hcreate,hverify⟩ := RawAnnouncement.verifyAgainstId_create hjson hsig h
      (announcedSchemes_enoughNonces hr hn) keychain.announcementKeypair
    refine Or.inl ⟨nonces,announcement,rfl,?_,hverify⟩
    rw [← hcreate]
    simp [createAnnouncement,hn,announcedSchemes]

theorem createAnnouncement_decode (hjson : lib.serdeJson.RoundTrips) {event : Event}
    (h : event.id.Accepted) {announcement : RawAnnouncement C}
    (hann : keychain.createAnnouncement lib event = .ok announcement) : ∃ nonces,
      keychain.noncesForEvent lib event.id = .ok nonces ∧
      announcement.oracleEvent.decode lib.serdeJson = .ok (some ⟨event,announcedSchemes nonces⟩) := by
  obtain ⟨p,k,hr⟩ := h.reads
  obtain ⟨nonces,hn,hann⟩ := MayPanic.bind_eq_ok.mp hann
  obtain ⟨raw,hraw,hann⟩ := MayPanic.bind_eq_ok.mp hann
  obtain ⟨raw',hraw',hdecode⟩ := RawOracleEvent.decode_encodeJson
    ⟨event,announcedSchemes nonces⟩ hjson h (announcedSchemes_enoughNonces hr hn)
  have hschemes : raw = raw' := by
    refine Except.ok.inj (hraw.symm.trans ?_)
    rw [← hraw']
    simp [announcedSchemes]
  obtain rfl : _ = announcement := Except.ok.inj hann
  exact ⟨nonces,hn,hschemes ▸ hdecode⟩

end KeyChain
end Olivia
