import Olivia.Secp256k1.Sample

/-! # What an announcement commits to

An announcement decodes to the event and the schemes it was made for, under its own id
only. Over the curve, the points a client computes from it for a digit are the revealed
scalars of that digit, one for each outcome, times the generator.
-/
namespace Olivia
namespace KeyChain

/-- An announcement verifies as what it was made for and under its own id only. -/
theorem createAnnouncement_binds {C : Group} {lib : Libraries C} (hjson : lib.serdeJson.RoundTrips)
    (hsig : C.AnnouncementsVerify) (keychain : KeyChain C) (event : Event) (h : event.id.Accepted) :
    (∀ announcement, keychain.createAnnouncement lib event = .ok announcement → ∃ nonces,
      keychain.noncesForEvent lib event.id = .ok nonces ∧
      announcement.verifyAgainstId lib.serdeJson event.id keychain.oraclePublicKeys.announcement =
        .ok (some ⟨event,announcedSchemes nonces⟩) ∧
      ∀ id, id.Accepted → id ≠ event.id →
        announcement.verifyAgainstId lib.serdeJson id keychain.oraclePublicKeys.announcement = .ok none) ∧
    ∀ panic, keychain.createAnnouncement lib event = .error panic →
      ∃ bytes, C.nonceKeypairFromSecretBytes bytes = .error panic := by
  rcases createAnnouncement_spec hjson hsig keychain h with
    ⟨nonces,announcement,hnonces,hcreate,hverify⟩ | ⟨panic,bytes,hcreate,hbytes⟩
  · refine ⟨fun announcement' hann => ?_,fun panic hpanic => ?_⟩
    · obtain rfl : announcement = announcement' := Except.ok.inj (hcreate.symm.trans hann)
      refine ⟨nonces,hnonces,by rw [hverify,if_pos rfl],?_⟩
      intro id _ hne
      rw [hverify,if_neg (Ne.symm hne)]
    · simp [hcreate] at hpanic
  · refine ⟨fun announcement hann => ?_,fun panic' hpanic => ?_⟩
    · simp [hcreate] at hann
    · obtain rfl : panic = panic' := Except.error.inj (hcreate.symm.trans hpanic)
      exact ⟨bytes,hbytes⟩

theorem createAnnouncement_binds_price :
    ∃ announcement nonces, Sample.keychain.createAnnouncement (Sample.libraries 10007)
        ⟨⟨⟨"/foo/bar.price?n=2".toList⟩⟩,none⟩ = .ok announcement ∧
      announcement.verifyAgainstId (Sample.libraries 10007).serdeJson ⟨⟨"/foo/bar.price?n=2".toList⟩⟩
        Sample.keychain.oraclePublicKeys.announcement =
        .ok (some ⟨⟨⟨⟨"/foo/bar.price?n=2".toList⟩⟩,none⟩,announcedSchemes nonces⟩) ∧
      announcement.verifyAgainstId (Sample.libraries 10007).serdeJson ⟨⟨"/foo/bar.occur".toList⟩⟩
        Sample.keychain.oraclePublicKeys.announcement = .ok none := by
  obtain ⟨announcement,hann⟩ := Sample.price_announced
  obtain ⟨hbinds,_⟩ := createAnnouncement_binds (Sample.roundTrips 10007) (Sample.announcementsVerify 10007)
    Sample.keychain ⟨⟨⟨"/foo/bar.price?n=2".toList⟩⟩,none⟩ Sample.price_accepted
  obtain ⟨nonces,_,hsome,hnone⟩ := hbinds announcement hann
  exact ⟨announcement,nonces,hann,hsome,hnone _ (by decide +kernel) (by decide)⟩

/-- Every digit's anticipated point at the revealed index is the revealed scalar's. -/
theorem anticipated_of_attested {F P : Type} [Field F] [AddCommGroup P] [Module F P] [DecidableEq F]
    [DecidableEq P] (E : Secp256k1.Library F P) {lib : Libraries (secp256k1 E)}
    (hjson : lib.serdeJson.RoundTrips) (keychain : KeyChain (secp256k1 E)) {event : Event}
    (h : event.id.Accepted) {n : UInt8} (hn : event.id.nNonces = .ok n) (hpos : 0 < n) {value : UInt64}
    (hv : Outcome.Valid ⟨event.id,value⟩) (time : NaiveDateTime)
    {announcement : RawAnnouncement (secp256k1 E)}
    (hann : keychain.createAnnouncement lib event = .ok announcement) :
    ∃ (e : OracleEvent (secp256k1 E)) (indexes : List UInt32) (scalars : List F),
      announcement.oracleEvent.decode lib.serdeJson = .ok (some e) ∧
      Outcome.attestationIndexes ⟨event.id,value⟩ = .ok indexes ∧
      keychain.oliviaV1ScalarsForEventOutcome lib ⟨⟨event.id,value⟩,time⟩ = .ok scalars ∧
      indexes.length = n.toNat ∧ scalars.length = n.toNat ∧
      ∀ j < n.toNat, ∃ (index nOutcomes : UInt32) (s : F) (points : List P),
        indexes[j]? = some index ∧ scalars[j]? = some s ∧
        event.id.nOutcomesForNonce j = .ok nOutcomes ∧ index < nOutcomes ∧
        e.anticipateAttestationsOliviaV1 ((secp256k1 E).publicKey keychain.oliviaV1Keypair) j =
          .ok (some points) ∧
        points.length = nOutcomes.toNat ∧ points[index.toNat]? = some (s • E.G) := by
  obtain ⟨p,k,hr⟩ := h.reads
  obtain rfl : k.nNonces = n := Except.ok.inj (hr.nNonces.symm.trans hn)
  have hadmits := hr.valid_iff.mp hv
  have hindexes := hr.attestationIndexes hadmits
  obtain ⟨nonces,hnonces,hdecode⟩ := createAnnouncement_decode hjson h hann
  obtain ⟨scalars,hscalars⟩ := oliviaV1Scalars_isOk (Secp256k1.revealsVerify E) hr hnonces hadmits time
  obtain ⟨hlength,hsl,hdigit⟩ := scalars_of_nonces hr hnonces hadmits hscalars
  refine ⟨_,_,scalars,hdecode,hindexes,hscalars,EventId.Reads.length_indexes k value,hsl,?_⟩
  intro j hj
  have hji : j < (k.indexes value).length := by rwa [EventId.Reads.length_indexes]
  have hindex := List.getElem?_eq_getElem hji
  obtain ⟨nonce,hnonce,_,hs⟩ := hdigit j _ hindex
  obtain ⟨nOutcomes,hout,hlt⟩ := hr.indexes_lt hadmits j
  have hne : nonces ≠ [] := fun he => by simp [he] at hnonce
  refine ⟨_,nOutcomes,_,_,hindex,hs,hout,hlt _ (List.getElem_mem hji),?_,
    Secp256k1.length_anticipateAttestations E _ _ _,
    Secp256k1.anticipated_eq_revealed E keychain.oliviaV1Keypair nonce (hlt _ (List.getElem_mem hji))⟩
  simp [OracleEvent.anticipateAttestationsOliviaV1,announcedSchemes,hne,MayPanic.index,hnonce,hout]
  rfl

theorem anticipated_of_attested_price : ∃ announcement e scalars,
    Sample.keychain.createAnnouncement (Sample.libraries 10007)
      ⟨⟨⟨"/foo/bar.price?n=2".toList⟩⟩,none⟩ = .ok announcement ∧
    announcement.oracleEvent.decode (Sample.libraries 10007).serdeJson = .ok (some e) ∧
    Sample.keychain.oliviaV1ScalarsForEventOutcome (Sample.libraries 10007)
      ⟨⟨⟨⟨"/foo/bar.price?n=2".toList⟩⟩,7⟩,⟨0,0⟩⟩ = .ok scalars ∧
    ∀ j < 2, ∃ (s : ZMod 10007) (points : List (ZMod 10007)), scalars[j]? = some s ∧
      e.anticipateAttestationsOliviaV1 ((Sample.group 10007).publicKey Sample.keychain.oliviaV1Keypair) j =
        .ok (some points) ∧ s • (1 : ZMod 10007) ∈ points := by
  obtain ⟨announcement,hann⟩ := Sample.price_announced
  obtain ⟨e,indexes,scalars,hdecode,_,hscalars,_,_,hall⟩ := anticipated_of_attested
    (Sample.library 10007) (Sample.roundTrips 10007) Sample.keychain
    Sample.price_accepted
    (by decide +kernel : EventId.nNonces ⟨⟨"/foo/bar.price?n=2".toList⟩⟩ = .ok 2) (by decide)
    Sample.price_valid ⟨0,0⟩ hann
  refine ⟨announcement,e,scalars,hann,hdecode,hscalars,?_⟩
  intro j hj
  obtain ⟨_,_,s,points,_,hs,_,_,hpoints,_,hget⟩ := hall j hj
  exact ⟨s,points,hs,hpoints,List.mem_of_getElem? hget⟩

end KeyChain
end Olivia
