import Olivia.Core.OutcomeLaws
import Olivia.Core.Group

/-! # Announcements

An announcement is a signed text: the JSON of an event with its descriptor and the nonces
the oracle commits to. The decoder parses the id again and checks the descriptor and the
number of nonces against it. The JSON of the field values is the serializer's own.
-/
namespace Olivia

namespace Announce

structure OliviaV1 (C : Group) where
  nonces : List C.PublicNonce

structure EcdsaV1 where

end Announce

structure AnnouncementSchemes (C : Group) where
  oliviaV1 : Option (Announce.OliviaV1 C)
  ecdsaV1 : Option Announce.EcdsaV1

structure OracleEventWithDescriptor (C : Group) where
  id : EventId
  expectedOutcomeTime : Option NaiveDateTime
  descriptor : Descriptor
  schemes : AnnouncementSchemes C

structure OracleEvent (C : Group) where
  event : Event
  schemes : AnnouncementSchemes C

/-- The fields of the document as serde sees them: the id is still a text. -/
structure OracleEventFields (C : Group) where
  id : Str
  expectedOutcomeTime : Option NaiveDateTime
  descriptor : Descriptor
  schemes : AnnouncementSchemes C

/-- `serde_json` on the document. -/
structure SerdeJson (C : Group) where
  toString : OracleEventFields C → Str
  fromStr : Str → Option (OracleEventFields C)

def SerdeJson.RoundTrips {C : Group} (json : SerdeJson C) : Prop :=
  ∀ fields, json.fromStr (json.toString fields) = some fields

/-- The only encoding is a JSON text. -/
structure RawOracleEvent (C : Group) where
  json : Str

structure RawAnnouncement (C : Group) where
  oracleEvent : RawOracleEvent C
  signature : C.Signature

variable {C : Group}

def OracleEventWithDescriptor.fields (oracleEvent : OracleEventWithDescriptor C) : OracleEventFields C :=
  ⟨oracleEvent.id.asStr,oracleEvent.expectedOutcomeTime,oracleEvent.descriptor,oracleEvent.schemes⟩

namespace OracleEvent

def tryFrom (oracleEvent : OracleEventWithDescriptor C) : MayPanic (Except Str (OracleEvent C)) := do
  let enoughNonces ← match oracleEvent.schemes.oliviaV1 with
    | some oliviaV1 => do pure (decide ((← oracleEvent.id.nNonces).toNat ≤ oliviaV1.nonces.length))
    | none => pure true
  if !enoughNonces then
    return .error "oracle event doesn't have enough nonces for descriptor".toList
  if (← oracleEvent.id.descriptor) = oracleEvent.descriptor then
    return .ok ⟨⟨oracleEvent.id,oracleEvent.expectedOutcomeTime⟩,oracleEvent.schemes⟩
  else
    return .error "descriptor doesn't match event id".toList

def withDescriptor (oracleEvent : OracleEvent C) : MayPanic (OracleEventWithDescriptor C) := do
  let descriptor ← oracleEvent.event.id.descriptor
  return ⟨oracleEvent.event.id,oracleEvent.event.expectedOutcomeTime,descriptor,oracleEvent.schemes⟩

def encodeJson (json : SerdeJson C) (oracleEvent : OracleEvent C) : MayPanic (RawOracleEvent C) := do
  return ⟨json.toString (← oracleEvent.withDescriptor).fields⟩

def anticipateAttestationsOliviaV1 (oracleEvent : OracleEvent C) (publicKey : C.PublicKey)
    (nonceIndex : ℕ) : MayPanic (Option (List C.AnticipatedAttestation)) :=
  match oracleEvent.schemes.oliviaV1 with
  | none => .ok none
  | some oliviaV1 => do
    let nonce ← MayPanic.index oliviaV1.nonces nonceIndex
    let nOutcomes ← oracleEvent.event.id.nOutcomesForNonce nonceIndex
    return some (C.anticipateAttestations publicKey nonce nOutcomes)

end OracleEvent

namespace RawOracleEvent

def asBytes (oracleEvent : RawOracleEvent C) : List UInt8 := Olivia.asBytes oracleEvent.json

def fromJsonBytes (bytes : List UInt8) : MayPanic (RawOracleEvent C) := do
  return ⟨← MayPanic.expect "valid JSON" (fromUtf8 bytes)⟩

def verify (oracleEvent : RawOracleEvent C) (oraclePublicKey : C.PublicKey)
    (announcementSignature : C.Signature) : Bool :=
  C.verifyAnnouncementSignature oraclePublicKey oracleEvent.asBytes announcementSignature

def decode (json : SerdeJson C) (oracleEvent : RawOracleEvent C) : MayPanic (Option (OracleEvent C)) :=
  match json.fromStr oracleEvent.json with
  | none => .ok none
  | some fields => do
    match ← EventId.fromStr fields.id with
    | .error _ => return none
    | .ok id =>
      let oracleEvent ← OracleEvent.tryFrom
        ⟨id,fields.expectedOutcomeTime,fields.descriptor,fields.schemes⟩
      return oracleEvent.toOption

def sign (oracleEvent : RawOracleEvent C) (keypair : C.KeyPair) : C.Signature :=
  C.signAnnouncement keypair oracleEvent.asBytes

end RawOracleEvent

namespace RawAnnouncement

def verifyAgainstId (json : SerdeJson C) (announcement : RawAnnouncement C) (eventId : EventId)
    (oracleAnnouncementKey : C.PublicKey) : MayPanic (Option (OracleEvent C)) :=
  if !announcement.oracleEvent.verify oracleAnnouncementKey announcement.signature then .ok none
  else do
    match ← announcement.oracleEvent.decode json with
    | none => return none
    | some oracleEvent => return if oracleEvent.event.id ≠ eventId then none else some oracleEvent

def create (json : SerdeJson C) (event : Event) (keypair : C.KeyPair) (schemes : AnnouncementSchemes C) :
    MayPanic (RawAnnouncement C) := do
  let encodedOracleEvent ← OracleEvent.encodeJson json ⟨event,schemes⟩
  return ⟨encodedOracleEvent,encodedOracleEvent.sign keypair⟩

theorem verifyAgainstId_eq_some {json : SerdeJson C} {announcement : RawAnnouncement C} {eventId : EventId}
    {key : C.PublicKey} {oracleEvent : OracleEvent C}
    (h : announcement.verifyAgainstId json eventId key = .ok (some oracleEvent)) :
    announcement.oracleEvent.decode json = .ok (some oracleEvent) ∧ oracleEvent.event.id = eventId := by
  unfold verifyAgainstId at h
  split at h
  · cases h
  · obtain ⟨decoded,hd,h⟩ := MayPanic.bind_eq_ok.mp h
    cases decoded with
    | none => cases h
    | some decoded =>
      by_cases hid : decoded.event.id ≠ eventId
      · simp [hid] at h
      · simp only [if_neg hid,MayPanic.pure_eq,Except.ok.injEq,Option.some.injEq] at h
        push Not at hid
        exact ⟨by rw [hd,h],h ▸ hid⟩

end RawAnnouncement

/-- Every nonce of the event is announced, where nonces are announced at all. -/
def AnnouncementSchemes.EnoughNonces (schemes : AnnouncementSchemes C) (id : EventId) : Prop :=
  ∀ oliviaV1, schemes.oliviaV1 = some oliviaV1 →
    ∀ n, id.nNonces = .ok n → n.toNat ≤ oliviaV1.nonces.length

theorem OracleEvent.describes_eq_ok {described : OracleEventWithDescriptor C} {oracleEvent decoded : OracleEvent C}
    {mismatch : Str} (h : (do
      if (← described.id.descriptor) = described.descriptor then return .ok decoded
      else return .error mismatch : MayPanic (Except Str (OracleEvent C))) = .ok (.ok oracleEvent)) :
    decoded = oracleEvent := by
  obtain ⟨descriptor,_,h⟩ := MayPanic.bind_eq_ok.mp h
  split at h
  next => exact Except.ok.inj (Except.ok.inj h)
  next => simp at h

theorem OracleEvent.tryFrom_eq_ok {described : OracleEventWithDescriptor C} {oracleEvent : OracleEvent C}
    (h : OracleEvent.tryFrom described = .ok (.ok oracleEvent)) :
    oracleEvent.event.id = described.id ∧ oracleEvent.schemes.EnoughNonces oracleEvent.event.id := by
  unfold OracleEvent.tryFrom at h
  cases ho : described.schemes.oliviaV1 with
  | none =>
    simp only [ho,MayPanic.pure_eq,MayPanic.ok_bind,Bool.not_true,Bool.false_eq_true,if_false] at h
    obtain rfl := describes_eq_ok h
    refine ⟨rfl,?_⟩
    intro oliviaV1 hsome
    cases ho.symm.trans hsome
  | some announced =>
    simp only [ho] at h
    obtain ⟨n,hn,h⟩ := MayPanic.bind_eq_ok.mp h
    simp only [MayPanic.pure_eq,MayPanic.ok_bind] at h
    split at h
    next => simp at h
    next hpassed =>
      obtain rfl := describes_eq_ok h
      refine ⟨rfl,?_⟩
      intro oliviaV1 hsome m hm
      cases ho.symm.trans hsome
      cases hn.symm.trans hm
      simpa using hpassed

/-- What the decoder returns stands for an accepted id and announces enough nonces. -/
theorem RawOracleEvent.decode_eq_some {json : SerdeJson C} {raw : RawOracleEvent C} {oracleEvent : OracleEvent C}
    (h : raw.decode json = .ok (some oracleEvent)) :
    oracleEvent.event.id.Accepted ∧ oracleEvent.schemes.EnoughNonces oracleEvent.event.id := by
  unfold decode at h
  split at h
  next => simp at h
  next fields _ =>
    obtain ⟨r,hr,h⟩ := MayPanic.bind_eq_ok.mp h
    cases r with
    | error e => simp at h
    | ok id =>
      obtain ⟨r,htry,h⟩ := MayPanic.bind_eq_ok.mp h
      cases r with
      | error e => simp [Except.toOption] at h
      | ok decoded =>
        obtain rfl : decoded = oracleEvent := by simpa [Except.toOption] using h
        obtain ⟨hid,henough⟩ := OracleEvent.tryFrom_eq_ok htry
        rw [hid] at henough ⊢
        exact ⟨(EventId.accepted_of_fromStr hr).1,henough⟩

section RoundTrip
variable {json : SerdeJson C} {oracleEvent : OracleEvent C}

/-- The checks of the decoder pass on what the encoder derives from the id. -/
theorem OracleEvent.tryFrom_withDescriptor (h : oracleEvent.event.id.Accepted)
    (hn : oracleEvent.schemes.EnoughNonces oracleEvent.event.id) :
    ∃ described, oracleEvent.withDescriptor = .ok described ∧ described.id = oracleEvent.event.id ∧
      OracleEvent.tryFrom described = .ok (.ok oracleEvent) := by
  obtain ⟨p,k,hr⟩ := h.reads
  obtain ⟨d,hd⟩ := hr.descriptor
  refine ⟨_,by rw [withDescriptor,hd,MayPanic.ok_bind,MayPanic.pure_eq],rfl,?_⟩
  cases ho : oracleEvent.schemes.oliviaV1 with
  | none => simp [tryFrom,ho,hd]
  | some oliviaV1 =>
    have hle := hn oliviaV1 ho k.nNonces hr.nNonces
    simp [tryFrom,ho,hd,hr.nNonces,hle]

theorem RawOracleEvent.decode_encodeJson (oracleEvent : OracleEvent C) (hjson : json.RoundTrips)
    (h : oracleEvent.event.id.Accepted) (hn : oracleEvent.schemes.EnoughNonces oracleEvent.event.id) :
    ∃ raw, oracleEvent.encodeJson json = .ok raw ∧ raw.decode json = .ok (some oracleEvent) := by
  obtain ⟨described,hdescribed,hid,htry⟩ := OracleEvent.tryFrom_withDescriptor h hn
  have hparse : EventId.fromStr described.fields.id = .ok (.ok described.id) := by
    rw [OracleEventWithDescriptor.fields,hid]
    exact h
  refine ⟨_,by rw [OracleEvent.encodeJson,hdescribed,MayPanic.ok_bind,MayPanic.pure_eq],?_⟩
  have hfields : (⟨described.id,described.fields.expectedOutcomeTime,described.fields.descriptor,
    described.fields.schemes⟩ : OracleEventWithDescriptor C) = described := rfl
  simp [decode,hjson described.fields,hparse,hfields,htry,Except.toOption]

/-- A created announcement verifies against the id of its event and against no other. -/
theorem RawAnnouncement.verifyAgainstId_create (hjson : json.RoundTrips) (hsig : C.AnnouncementsVerify)
    {event : Event} (h : event.id.Accepted) {schemes : AnnouncementSchemes C}
    (hn : schemes.EnoughNonces event.id) (keypair : C.KeyPair) :
    ∃ announcement, create json event keypair schemes = .ok announcement ∧
      ∀ eventId, announcement.verifyAgainstId json eventId (C.publicKey keypair) =
        .ok (if event.id = eventId then some ⟨event,schemes⟩ else none) := by
  obtain ⟨raw,hraw,hdecode⟩ := RawOracleEvent.decode_encodeJson ⟨event,schemes⟩ hjson h hn
  refine ⟨_,by rw [create,hraw,MayPanic.ok_bind,MayPanic.pure_eq],?_⟩
  intro eventId
  have hverify : raw.verify (C.publicKey keypair) (raw.sign keypair) = true := hsig keypair raw.asBytes
  by_cases hid : event.id = eventId
  · simp [verifyAgainstId,hverify,hdecode,hid]
  · simp [verifyAgainstId,hverify,hdecode,hid]

end RoundTrip
end Olivia
