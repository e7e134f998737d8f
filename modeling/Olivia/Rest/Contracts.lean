import Olivia.Oracle.Equivocating
import Olivia.Rest.Serving
import Olivia.Secp256k1.Opening

/-! # Contracts on served events

A client that is served an event before its outcome is known computes a point for every
outcome of every digit. When it asks again and the event is attested, every scalar that it gets
opens the point of the attested digit at its position and no other point of this digit.
-/
namespace Olivia
open Secp256k1
variable {F P : Type} [Field F] [AddCommGroup P] [Module F P] {E : Library F P} [DecidableEq F] [DecidableEq P]

/-- The scalars that an attestation reveals. -/
def Attestation.revealed (attestation : Attestation (secp256k1 E)) : List F :=
  (attestation.schemes.oliviaV1.map Attest.OliviaV1.scalars).getD []

/-- Digit by digit, a scalar opens what was anticipated for the index and nothing else. -/
def Settles (oracleEvent : OracleEvent (secp256k1 E)) (key : E.XOnly) (indexes : List UInt32) (scalars : List F) : Prop :=
  scalars.length = indexes.length ∧ ∀ (j : ℕ) index, indexes[j]? = some index →
    ∃ (s : F) (points : List P), scalars[j]? = some s ∧
      oracleEvent.anticipateAttestationsOliviaV1 key j = .ok (some points) ∧ index.toNat < points.length ∧
      ∀ i, Opens E points s i ↔ i = index.toNat

variable {keychain : KeyChain (secp256k1 E)} {lib : Libraries (secp256k1 E)} {id : EventId} {event : Event}
variable {p : Path} {k : EventKind} {value : UInt64} {nonces : List (secp256k1 E).NonceKeyPair}

/-- What is revealed of a value settles what was announced for its event. -/
theorem settles_of_scalars (hG : E.G ≠ 0) (h2 : (2 : F) ≠ 0)
    (hnegate : ∀ r, (E.fromScalarMul r).scalar = r ∨ (E.fromScalarMul r).scalar = -r) (hr : event.id.Reads p k)
    (hnonces : keychain.noncesForEvent lib event.id = .ok nonces) (hv : k.Admits value) {time : NaiveDateTime}
    {scalars : List F} (hscalars : keychain.oliviaV1ScalarsForEventOutcome lib ⟨⟨event.id,value⟩,time⟩ = .ok scalars) :
    Settles ⟨event,KeyChain.announcedSchemes nonces⟩ keychain.oliviaV1Keypair.xonly (k.indexes value) scalars := by
  obtain ⟨_,hlength,hdigit⟩ := KeyChain.scalars_of_nonces hr hnonces hv hscalars
  refine ⟨hlength.trans (EventId.Reads.length_indexes k value).symm,?_⟩
  intro j index hj
  obtain ⟨nonce,hnonce,hmade,hs⟩ := hdigit j index hj
  obtain ⟨nOutcomes,hout,hlt⟩ := hr.indexes_lt hv j
  have hindex := hlt index (List.mem_of_getElem? hj)
  have hne : nonces ≠ [] := fun he => by simp [he] at hnonce
  refine ⟨_,anticipateAttestations E keychain.oliviaV1Keypair.xonly nonce.xonly nOutcomes,hs,?_,?_,
    opens_iff hG h2 (nonce_scalar_ne hnegate hmade) (EventId.nOutcomesForNonce_le hout) hindex⟩
  · simp [OracleEvent.anticipateAttestationsOliviaV1,KeyChain.announcedSchemes,hne,MayPanic.index,hnonce,hout]
    rfl
  · exact lt_of_lt_of_eq (UInt32.lt_iff_toNat_lt.mp hindex) (length_anticipateAttestations E _ _ _).symm

/-- What an attestation reveals, also of an event without digits. -/
theorem settles_of_attest {oracle : Oracle (secp256k1 E) (InMemory (secp256k1 E))} (hG : E.G ≠ 0) (h2 : (2 : F) ≠ 0)
    (hnegate : ∀ r, (E.fromScalarMul r).scalar = r ∨ (E.fromScalarMul r).scalar = -r) (hr : event.id.Reads p k)
    (hnonces : oracle.keychain.noncesForEvent oracle.lib event.id = .ok nonces) (hv : k.Admits value) {time : NaiveDateTime}
    {text : Str} {attestation : Attestation (secp256k1 E)}
    (h : oracle.attest ⟨⟨event.id,value⟩,time⟩ text ⟨event,KeyChain.announcedSchemes nonces⟩ = .ok attestation) :
    Settles ⟨event,KeyChain.announcedSchemes nonces⟩ oracle.keychain.oliviaV1Keypair.xonly (k.indexes value)
      attestation.revealed := by
  rcases (Oracle.attest_eq_ok h).2.1 with ⟨hnone,hatt⟩ | ⟨_,scalars,_,hscalars,hatt⟩
  · have hempty : nonces = [] := by
      by_contra hne
      simp [KeyChain.announcedSchemes,hne] at hnone
    have hzero : k.indexes value = [] := by
      rw [← List.length_eq_zero_iff,EventId.Reads.length_indexes,← (KeyChain.noncesForEvent_eq_ok hr hnonces).1,hempty]
      rfl
    rw [hzero,Attestation.revealed,hatt]
    refine ⟨rfl,fun j index hj => ?_⟩
    simp at hj
  · rw [Attestation.revealed,hatt]
    exact settles_of_scalars hG h2 hnegate hr hnonces hv hscalars

namespace Rest
open NodeDb
variable {http : PercentEncoding} {walk : Walk (secp256k1 E)} {request rootRequest : Request}
variable {s t : NodeDb (secp256k1 E)} {response response' : EventResponse (secp256k1 E)} {root : RootResponse (secp256k1 E)}

/-- A contract made from what is served before the outcome is settled by what is served after. -/
theorem contract_settles [DecidableEq (secp256k1 E).PublicKey] (hjson : lib.serdeJson.RoundTrips)
    (hsig : (secp256k1 E).AnnouncementsVerify) (hG : E.G ≠ 0) (h2 : (2 : F) ≠ 0)
    (hnegate : ∀ r, (E.fromScalarMul r).scalar = r ∨ (E.fromScalarMul r).scalar = -r)
    {seed : Seed} {oracle : Oracle (secp256k1 E) (InMemory (secp256k1 E))} {db : InMemory (secp256k1 E)}
    {msgs later : List Sent} {attestation : Attestation (secp256k1 E)}
    (hstart : (Oracle.new InMemory.db lib).run seed InMemory.default = (.ok (.ok oracle),db))
    (hs : (⟨oracle.keychain,lib⟩ : Service (secp256k1 E)).serve msgs ⟨db,∅⟩ = .ok s)
    (ht : (⟨oracle.keychain,lib⟩ : Service (secp256k1 E)).serve later s = .ok t)
    (hroot : routes http (readOracle walk) rootRequest s = .ok (some (.ok (.root root))))
    (hget : routes http (readOracle walk) request s = .ok (some (.ok (.event response))))
    (hget' : routes http (readOracle walk) request t = .ok (some (.ok (.event response'))))
    (hatt : response'.attestation = some attestation) :
    ∃ id oracleEvent key indexes, Spells http request id ∧
      response.announcement.verifyAgainstId lib.serdeJson id root.publicKeys.announcement = .ok (some oracleEvent) ∧
      root.publicKeys.oliviaV1 = some key ∧ digits id attestation.outcome = .ok (some indexes) ∧
      Settles oracleEvent key indexes attestation.revealed := by
  obtain ⟨_,rfl⟩ := Oracle.new_inMemory hstart
  have hstarted : InMemory.Keyed (⟨some oracle.keychain.oraclePublicKeys,∅⟩ : InMemory (secp256k1 E)) :=
    fun _ _ h => nomatch h
  rw [Service.serve_eq_run] at hs ht
  have hkeys : root.publicKeys = oracle.keychain.oraclePublicKeys := by
    refine Option.some.inj ((root_publicKeys hroot).symm.trans ?_)
    rw [Service.serve_publicKeys hstarted hs]
  obtain ⟨_,id,hasks,hreply⟩ := asks_of_event hget
  obtain ⟨_,id',hasks',hreply'⟩ := asks_of_event hget'
  obtain rfl : id = id' := by simpa using hasks.symm.trans hasks'
  obtain ⟨hspells,hid⟩ := asks_sound hasks
  obtain ⟨announced,hfound,rfl⟩ := eventReply_eq_ok hreply
  obtain ⟨announced',hfound',rfl⟩ := eventReply_eq_ok hreply'
  have hl : s.inner.lookup id = some announced := Except.ok.inj (Except.ok.inj hfound)
  have hl' : t.inner.lookup id = some announced' := Except.ok.inj (Except.ok.inj hfound')
  -- the announcement is still the one that the contract was made from
  obtain ⟨later',hlater,hsame,_⟩ := Service.lookup_later hjson hsig (Runs.Local.run_keeps hstarted hs)
    (Service.recorded_of_run hjson hsig rfl hs) hid hl ht
  obtain rfl := Option.some.inj (hl'.symm.trans hlater)
  have hall : (⟨oracle.keychain,lib⟩ : Service (secp256k1 E)).machine.run (msgs ++ later)
      ⟨⟨some oracle.keychain.oraclePublicKeys,∅⟩,∅⟩ = .ok t := Runs.Local.run_append hs ht
  obtain ⟨event,completed,rfl,hrecords⟩ := Service.recorded_of_run hjson hsig rfl hall id announced' hid hl'
  cases completed with
  | none => cases (hrecords.unattested rfl).symm.trans hatt
  | some stamped =>
    obtain ⟨hstamped,nonces,text,attestation',hnonces,htext,hattest,hsome⟩ := hrecords.attested stamped rfl
    obtain rfl := Option.some.inj (hatt.symm.trans hsome)
    obtain ⟨⟨_,value⟩,time⟩ := stamped
    obtain rfl := hstamped
    obtain ⟨p,k,hr⟩ := hid.reads
    have hv := hr.admits_of_outcomeString htext
    rcases KeyChain.createAnnouncement_spec hjson hsig oracle.keychain hid with
      ⟨nonces',announcement,hnonces',hcreate,hverify⟩ | ⟨_,_,he,_⟩
    · obtain rfl := Except.ok.inj (hnonces.symm.trans hnonces')
      obtain rfl : announced'.announcement = announcement := Except.ok.inj (hrecords.announcement_eq.symm.trans hcreate)
      have hsettles := settles_of_attest hG h2 hnegate hr hnonces hv hattest
      refine ⟨_,_,_,_,hspells,?_,congrArg OracleKeys.oliviaV1 hkeys,Service.digits_of_attest hr htext hattest,hsettles⟩
      rw [hkeys,← hsame,hverify,if_pos rfl]
    · cases hrecords.announcement_eq.symm.trans he

section Sampled
open Service

/-- A price of two digits, before and after it is attested. -/
theorem contract_settles_price : ∃ (oracleEvent : OracleEvent (Sample.group 10007)) (key : ZMod 10007)
    (indexes : List UInt32) (attestation : Attestation (Sample.group 10007)),
    Settles (E := Sample.library 10007) oracleEvent key indexes attestation.revealed ∧ indexes.length = 2 := by
  have hboth : (sampleService.serve [sampleEvent "/foo" "/bar.price?n=2"] sampleStarted).toOption.any (fun s =>
      (s.inner.lookup ⟨⟨"/foo/bar.price?n=2".toList⟩⟩).isSome &&
        (getNode Walk.entries Path.root s).toOption.any (fun reply => reply.toOption.any Option.isSome) &&
        (sampleService.serve [sampleOutcome "/foo" "/bar.price?n=2" 2] s).toOption.any (fun t =>
          ((t.inner.lookup ⟨⟨"/foo/bar.price?n=2".toList⟩⟩).bind AnnouncedEvent.attestation).any
            (fun attestation => attestation.revealed.length = 2))) = true := by decide +kernel
  obtain ⟨s,hs,hboth⟩ := MayPanic.of_toOption_any hboth
  obtain ⟨hboth,hlater⟩ := (Bool.and_eq_true _ _).mp hboth
  obtain ⟨hfound,hshown⟩ := (Bool.and_eq_true _ _).mp hboth
  obtain ⟨announced,hl⟩ := Option.isSome_iff_exists.mp hfound
  obtain ⟨reply,hnode,hshown⟩ := MayPanic.of_toOption_any hshown
  obtain ⟨node,rfl,hnodeSome⟩ := MayPanic.of_toOption_any hshown
  obtain ⟨node,rfl⟩ := Option.isSome_iff_exists.mp hnodeSome
  obtain ⟨t,ht,hattested⟩ := MayPanic.of_toOption_any hlater
  obtain ⟨attestation,hattestation,hlength⟩ := (Option.any_eq_true _ _).mp hattested
  obtain ⟨announced',hl',hatt⟩ := Option.bind_eq_some_iff.mp hattestation
  have hid : EventId.Accepted ⟨⟨"/foo/bar.price?n=2".toList⟩⟩ := by decide +kernel
  have hstarted : InMemory.Keyed sampleStarted.toInMemory := fun _ _ h => nomatch h
  have hkeys : s.publicKeys = some Sample.keychain.oraclePublicKeys := by
    rw [serve_eq_run] at hs
    exact serve_publicKeys hstarted hs
  have hroot : routes standard (readOracle Walk.entries) (requestFor standard Path.root) s =
      .ok (some (.ok (.root ⟨Sample.keychain.oraclePublicKeys,node⟩))) := by
    simp [routes_root,getRoot,readOracle,hkeys,hnode,ApiReply.map]
  have hG : (Sample.library 10007).G ≠ 0 := (by decide : (1 : ZMod 10007) ≠ 0)
  have hnegate : ∀ r, ((Sample.library 10007).fromScalarMul r).scalar = r ∨
      ((Sample.library 10007).fromScalarMul r).scalar = -r := by
    intro r
    simp only [Sample.library]
    split
    next => exact Or.inl rfl
    next => exact Or.inr rfl
  obtain ⟨_,oracleEvent,key,indexes,_,_,_,_,hsettles⟩ := contract_settles (Sample.roundTrips 10007)
    (Sample.announcementsVerify 10007) hG (by decide : (2 : ZMod 10007) ≠ 0) hnegate start_sample hs ht hroot
    (routes_of_lookup hid hl) (routes_of_lookup hid hl') hatt
  exact ⟨oracleEvent,key,indexes,attestation,hsettles,hsettles.1.symm.trans (of_decide_eq_true hlength)⟩

end Sampled

end Rest

end Olivia
