import Olivia.Secp256k1.Sample
import Olivia.Db.Store
import Olivia.Oracle.Oracle

/-! # From an announcement to its attestation

What the oracle attests is checked against what it announced, with the keys it publishes.
The nonces of the announcement, the scalars of the attestation and the digits the verifier
reads from the outcome text agree for every kind and value. The ECDSA signature is made
with another key pair than the one that is published for it.
-/
namespace Olivia
namespace Oracle
variable {C : Group} {σ : Type} {oracle : Oracle C σ}

section Verify
variable {event : Event} {p : Path} {k : EventKind} {value : UInt64} {time : NaiveDateTime} {text : Str}
variable {nonces : List C.NonceKeyPair} {attestation : Attestation C}

/-- As many scalars as nonces, or neither. -/
def SameLength (oracleEvent : OracleEvent C) (attestation : Attestation C) : Prop :=
  oracleEvent.schemes.oliviaV1.map (fun oliviaV1 => oliviaV1.nonces.length) =
    attestation.schemes.oliviaV1.map (fun oliviaV1 => oliviaV1.scalars.length)

/-- The scalar at every digit verifies against the nonce announced there. -/
theorem scalars_verify (hreveal : C.RevealsVerify) (hr : event.id.Reads p k) (hv : k.Admits value)
    (hn : oracle.keychain.noncesForEvent oracle.lib event.id = .ok nonces) {scalars : List C.AttestScalar}
    (hs : oracle.keychain.oliviaV1ScalarsForEventOutcome oracle.lib ⟨⟨event.id,value⟩,time⟩ = .ok scalars) :
    nonces.length = scalars.length ∧ verifyScalars (C.publicKey oracle.keychain.oliviaV1Keypair)
      (nonces.map C.publicNonce) scalars 0 (k.indexes value) = .ok (.ok ()) := by
  obtain ⟨hlength,hsl,hdigit⟩ := KeyChain.scalars_of_nonces hr hn hv hs
  refine ⟨hlength.trans hsl.symm,verifyScalars_eq_ok (fun j index hj => ?_)⟩
  obtain ⟨nonce,hnonce,_,hscalar⟩ := hdigit j index hj
  rw [Nat.zero_add]
  refine ⟨C.publicNonce nonce,_,?_,hscalar,hreveal oracle.keychain.oliviaV1Keypair nonce index⟩
  rw [List.getElem?_map,hnonce,Option.map_some]

theorem attest_oliviaV1 (hreveal : C.RevealsVerify) (hr : event.id.Reads p k) (hv : k.Admits value)
    (hn : oracle.keychain.noncesForEvent oracle.lib event.id = .ok nonces)
    (ht : Outcome.outcomeString ⟨event.id,value⟩ = .ok text)
    (ha : oracle.attest ⟨⟨event.id,value⟩,time⟩ text ⟨event,KeyChain.announcedSchemes nonces⟩ =
      .ok attestation) :
    SameLength ⟨event,KeyChain.announcedSchemes nonces⟩ attestation ∧
      attestation.verifyOliviaV1Attestation ⟨event,KeyChain.announcedSchemes nonces⟩
        oracle.keychain.oraclePublicKeys = .ok (.ok ()) := by
  obtain ⟨houtcome,hschemes,_⟩ := attest_eq_ok ha
  obtain ⟨text',ht',hparse⟩ := hr.printed hv
  obtain rfl : text = text' := Except.ok.inj (ht.symm.trans ht')
  rcases hschemes with ⟨hnone,hattnone⟩ | ⟨oliviaV1,scalars,hsome,hscalars,hattsome⟩
  · dsimp only at hnone
    simp [SameLength,hnone,hattnone,Attestation.verifyOliviaV1Attestation,houtcome,hparse,
      KeyChain.oraclePublicKeys]
  · obtain ⟨hlength,hverify⟩ := scalars_verify hreveal hr hv hn hscalars
    have hne : nonces ≠ [] := by
      rintro rfl
      simp [KeyChain.announcedSchemes] at hsome
    have hindexes := hr.attestationIndexes hv
    simp [SameLength,KeyChain.announcedSchemes,hne,hattsome,Attestation.verifyOliviaV1Attestation,houtcome,
      hparse,KeyChain.oraclePublicKeys,hlength,hindexes,hverify]

/-- The ECDSA attestation verifies exactly when the announcement key is the ECDSA key. -/
theorem attest_ecdsaV1 (hecdsa : C.EcdsaVerifiesSigner) (hr : event.id.Reads p k) (hv : k.Admits value)
    (ht : Outcome.outcomeString ⟨event.id,value⟩ = .ok text)
    (ha : oracle.attest ⟨⟨event.id,value⟩,time⟩ text ⟨event,KeyChain.announcedSchemes nonces⟩ =
      .ok attestation) : ∃ r, attestation.verifyEcdsaV1Attestation ⟨event,KeyChain.announcedSchemes nonces⟩
        oracle.keychain.oraclePublicKeys = .ok r ∧
      (r = .ok () ↔ C.publicKey oracle.keychain.announcementKeypair =
        C.publicKey oracle.keychain.ecdsaV1Keypair) ∧
      (r = .error .ecdsaV1 ↔ C.publicKey oracle.keychain.announcementKeypair ≠
        C.publicKey oracle.keychain.ecdsaV1Keypair) := by
  obtain ⟨houtcome,_,hschemes⟩ := attest_eq_ok ha
  obtain ⟨text',ht',hparse⟩ := hr.printed hv
  obtain rfl : text = text' := Except.ok.inj (ht.symm.trans ht')
  have hsign := hecdsa oracle.keychain.ecdsaV1Keypair oracle.keychain.announcementKeypair
    (Outcome.attestationString ⟨event.id,value⟩)
  simp only [Attestation.verifyEcdsaV1Attestation,houtcome,hparse,hschemes,KeyChain.oraclePublicKeys,
    KeyChain.announcedSchemes,KeyChain.ecdsaSignOutcome,MayPanic.ok_bind,Option.map_some]
  cases hv : C.ecdsaVerify (C.publicKey oracle.keychain.ecdsaV1Keypair)
    (Outcome.attestationString ⟨event.id,value⟩)
    (C.ecdsaSign oracle.keychain.announcementKeypair (Outcome.attestationString ⟨event.id,value⟩)) with
  | true => exact ⟨.ok (),rfl,by simpa using hsign.mp hv,by simpa using hsign.mp hv⟩
  | false =>
    have hne := fun he => Bool.false_ne_true (hv.symm.trans (hsign.mpr he))
    exact ⟨.error .ecdsaV1,rfl,by simpa using hne,by simpa using hne⟩

end Verify

/-- Neither the event nor the announcement found under an id changes, whoever calls. -/
theorem announced_persists (hdb : oracle.db.Lawful)
    {s t : Runs.Config σ OracleCall (OracleWrite C) (MayPanic OracleReply)}
    (hrun : oracle.protocol.Reaches s t) {id : EventId} {announced : AnnouncedEvent C}
    (hf : oracle.db.Finds s.store id announced) : ∃ later, oracle.db.Finds t.store id later ∧
      later.event = announced.event ∧ later.announcement = announced.announcement := by
  have hstep : oracle.protocol.Inductive (fun _ _ => True)
      (fun s => ∃ later, oracle.db.Finds s id later ∧ later.event = announced.event ∧
        later.announcement = announced.announcement) (fun _ _ _ => True) (fun _ _ => True) := by
    refine ⟨fun _ _ => trivial,fun _ _ => trivial,?_,fun _ _ _ => trivial,fun _ _ _ _ => trivial⟩
    rintro c w s ⟨later,hf,hevent,hann⟩ _ _
    cases w with
    | insertEvent inserted => exact ⟨later,hdb.insert_keeps (Prod.ext rfl rfl) hf,hevent,hann⟩
    | completeEvent eventId attestation =>
      rcases hdb.complete_keeps (Prod.ext rfl rfl) hf with hk | ⟨_,hk⟩
      · exact ⟨later,hk,hevent,hann⟩
      · exact ⟨_,hk,hevent,hann⟩
  exact (hstep.runs ⟨⟨announced,hf,rfl,rfl⟩,fun _ => trivial,fun _ => trivial⟩ hrun).store

/-- What the database holds of an event after it was added, whatever happened since, and
then completed: the announcement, its nonces and an attestation made for them. -/
theorem completed_spec (hdb : oracle.db.Lawful) (hjson : oracle.lib.serdeJson.RoundTrips)
    {event : Event} (hid : event.id.Accepted) {value : UInt64} {time : NaiveDateTime} {db₀ db₂ : σ}
    {s t : Runs.Config σ OracleCall (OracleWrite C) (MayPanic OracleReply)}
    (hadd : oracle.addEvent event db₀ = (.ok (.addEvent (.ok ())),s.store))
    (hrun : oracle.protocol.Reaches s t)
    (hcomplete : oracle.completeEvent ⟨⟨event.id,value⟩,time⟩ t.store =
      (.ok (.completeEvent (.ok ())),db₂)) :
    ∃ announced nonces text attestation, oracle.db.Finds db₂ event.id announced ∧
      announced.attestation = some attestation ∧
      announced.announcement.oracleEvent.decode oracle.lib.serdeJson =
        .ok (some ⟨event,KeyChain.announcedSchemes nonces⟩) ∧
      oracle.keychain.noncesForEvent oracle.lib event.id = .ok nonces ∧
      Outcome.outcomeString ⟨event.id,value⟩ = .ok text ∧
      oracle.attest ⟨⟨event.id,value⟩,time⟩ text ⟨event,KeyChain.announcedSchemes nonces⟩ =
        .ok attestation := by
  obtain ⟨announcement,hann,hinsert⟩ := addEvent_eq_ok hadd
  obtain ⟨later,hlater,hevent,hannounced⟩ := announced_persists hdb hrun (hdb.insert_finds hid hinsert)
  obtain ⟨found,text,oracleEvent,attestation,hf,_,ht,hverify,hatt,hwrite⟩ := completeEvent_eq_ok hcomplete
  obtain rfl : later = found := by simpa [Db.Finds] using hlater.symm.trans hf
  rw [hevent] at hwrite
  obtain ⟨nonces,hn,hdecode⟩ := KeyChain.createAnnouncement_decode hjson hid hann
  obtain ⟨hdecoded,_⟩ := RawAnnouncement.verifyAgainstId_eq_some hverify
  rw [hannounced] at hdecoded
  obtain rfl := Option.some.inj (Except.ok.inj (hdecode.symm.trans hdecoded))
  exact ⟨_,nonces,text,attestation,hdb.complete_finds hwrite hlater,rfl,by rw [hannounced]; exact hdecode,
    hn,ht,hatt⟩

/-- The oracle on either store. -/
def onStore (keychain : KeyChain C) (lib : Libraries C) : Oracle C (Store C) := ⟨Store.db,keychain,lib⟩

section Stored
variable {keychain : KeyChain C} {lib : Libraries C} {event : Event} {value : UInt64} {time : NaiveDateTime}
variable {db₀ db₂ : Store C} {s t : Runs.Config (Store C) OracleCall (OracleWrite C) (MayPanic OracleReply)}

/-- An olivia-v1 attestation fits its announcement and verifies under the published keys. -/
theorem oliviaV1_verifies (hjson : lib.serdeJson.RoundTrips) (hreveal : C.RevealsVerify)
    (hid : event.id.Accepted) (hv : Outcome.Valid ⟨event.id,value⟩)
    (hadd : (onStore keychain lib).addEvent event db₀ = (.ok (.addEvent (.ok ())),s.store))
    (hrun : (onStore keychain lib).protocol.Reaches s t)
    (hcomplete : (onStore keychain lib).completeEvent ⟨⟨event.id,value⟩,time⟩ t.store =
      (.ok (.completeEvent (.ok ())),db₂)) :
    ∃ announced attestation oracleEvent, Store.db.Finds db₂ event.id announced ∧
      announced.attestation = some attestation ∧
      announced.announcement.oracleEvent.decode lib.serdeJson = .ok (some oracleEvent) ∧
      SameLength oracleEvent attestation ∧
      attestation.verifyOliviaV1Attestation oracleEvent keychain.oraclePublicKeys = .ok (.ok ()) := by
  obtain ⟨p,k,hr⟩ := hid.reads
  obtain ⟨announced,nonces,text,attestation,hf,hatt,hdecode,hn,ht,ha⟩ :=
    completed_spec Store.db_lawful hjson hid hadd hrun hcomplete
  obtain ⟨hlength,hverify⟩ := attest_oliviaV1 hreveal hr (hr.valid_iff.mp hv) hn ht ha
  exact ⟨announced,attestation,_,hf,hatt,hdecode,hlength,hverify⟩

/-- An ECDSA attestation verifies exactly when the announcement key is published for it. -/
theorem ecdsaV1_verifies_iff (hjson : lib.serdeJson.RoundTrips) (hecdsa : C.EcdsaVerifiesSigner)
    (hid : event.id.Accepted) (hv : Outcome.Valid ⟨event.id,value⟩)
    (hadd : (onStore keychain lib).addEvent event db₀ = (.ok (.addEvent (.ok ())),s.store))
    (hrun : (onStore keychain lib).protocol.Reaches s t)
    (hcomplete : (onStore keychain lib).completeEvent ⟨⟨event.id,value⟩,time⟩ t.store =
      (.ok (.completeEvent (.ok ())),db₂)) :
    ∃ announced attestation oracleEvent r, Store.db.Finds db₂ event.id announced ∧
      announced.attestation = some attestation ∧
      announced.announcement.oracleEvent.decode lib.serdeJson = .ok (some oracleEvent) ∧
      attestation.verifyEcdsaV1Attestation oracleEvent keychain.oraclePublicKeys = .ok r ∧
      (r = .ok () ↔ C.publicKey keychain.announcementKeypair = C.publicKey keychain.ecdsaV1Keypair) ∧
      (r = .error .ecdsaV1 ↔ C.publicKey keychain.announcementKeypair ≠ C.publicKey keychain.ecdsaV1Keypair) := by
  obtain ⟨p,k,hr⟩ := hid.reads
  obtain ⟨announced,nonces,text,attestation,hf,hatt,hdecode,hn,ht,ha⟩ :=
    completed_spec Store.db_lawful hjson hid hadd hrun hcomplete
  obtain ⟨r,hverify,hsame,hother⟩ := attest_ecdsaV1 hecdsa hr (hr.valid_iff.mp hv) ht ha
  exact ⟨announced,attestation,_,r,hf,hatt,hdecode,hverify,hsame,hother⟩

/-- No ECDSA attestation verifies, the key published for it not being the one that signs. -/
theorem ecdsaV1_rejected (hjson : lib.serdeJson.RoundTrips) (hecdsa : C.EcdsaVerifiesSigner)
    (hdistinct : C.publicKey keychain.announcementKeypair ≠ C.publicKey keychain.ecdsaV1Keypair)
    (hid : event.id.Accepted) (hv : Outcome.Valid ⟨event.id,value⟩)
    (hadd : (onStore keychain lib).addEvent event db₀ = (.ok (.addEvent (.ok ())),s.store))
    (hrun : (onStore keychain lib).protocol.Reaches s t)
    (hcomplete : (onStore keychain lib).completeEvent ⟨⟨event.id,value⟩,time⟩ t.store =
      (.ok (.completeEvent (.ok ())),db₂)) :
    ∃ announced attestation oracleEvent, Store.db.Finds db₂ event.id announced ∧
      announced.attestation = some attestation ∧
      announced.announcement.oracleEvent.decode lib.serdeJson = .ok (some oracleEvent) ∧
      attestation.verifyEcdsaV1Attestation oracleEvent keychain.oraclePublicKeys = .ok (.error .ecdsaV1) := by
  obtain ⟨announced,attestation,oracleEvent,r,hf,hatt,hdecode,hverify,_,hother⟩ :=
    ecdsaV1_verifies_iff hjson hecdsa hid hv hadd hrun hcomplete
  exact ⟨announced,attestation,oracleEvent,hf,hatt,hdecode,hverify.trans (by rw [hother.mpr hdistinct])⟩

end Stored

section Sampled

/-- An oracle over the residues, on an in-memory or any other store. -/
def sampleOracle : Oracle (Sample.group 10007) (Store (Sample.group 10007)) :=
  onStore Sample.keychain (Sample.libraries 10007)

/-- The replies to an event that is added to an empty in-memory store and then completed. -/
def sampleReplies (event : Event) (value : UInt64) : MayPanic OracleReply × MayPanic OracleReply :=
  let (added,s) := sampleOracle.addEvent event (.inMemory .default)
  (added,(sampleOracle.completeEvent ⟨⟨event.id,value⟩,⟨0,0⟩⟩ s).1)

theorem sampleReplies_eq_ok (event : Event) (value : UInt64) (h : sampleReplies event value =
    (.ok (.addEvent (.ok ())),.ok (.completeEvent (.ok ())))) :
    ∃ db₁ db₂, sampleOracle.addEvent event (.inMemory .default) = (.ok (.addEvent (.ok ())),db₁) ∧
      sampleOracle.completeEvent ⟨⟨event.id,value⟩,⟨0,0⟩⟩ db₁ = (.ok (.completeEvent (.ok ())),db₂) := by
  obtain ⟨hadd,hcomplete⟩ := Prod.mk.inj h
  exact ⟨_,_,Prod.ext hadd rfl,Prod.ext hcomplete rfl⟩

example : sampleReplies ⟨⟨⟨"/foo/bar.occur".toList⟩⟩,none⟩ 2 =
    (.ok (.addEvent (.ok ())),.error (.expect "outcome value should be less than 1")) := by decide +kernel

theorem samplePrice_replies : sampleReplies ⟨⟨⟨"/foo/bar.price?n=2".toList⟩⟩,none⟩ 7 =
    (.ok (.addEvent (.ok ())),.ok (.completeEvent (.ok ()))) := by decide +kernel

/-- A price beyond the digits of its event is attested as the largest price. -/
theorem oliviaV1_verifies_price : ∃ db₁ db₂ announced attestation oracleEvent,
    sampleOracle.addEvent ⟨⟨⟨"/foo/bar.price?n=2".toList⟩⟩,none⟩ (.inMemory .default) =
      (.ok (.addEvent (.ok ())),db₁) ∧
    sampleOracle.completeEvent ⟨⟨⟨⟨"/foo/bar.price?n=2".toList⟩⟩,7⟩,⟨0,0⟩⟩ db₁ =
      (.ok (.completeEvent (.ok ())),db₂) ∧
    Store.db.Finds db₂ ⟨⟨"/foo/bar.price?n=2".toList⟩⟩ announced ∧
    announced.attestation = some attestation ∧
    attestation.verifyOliviaV1Attestation oracleEvent Sample.keychain.oraclePublicKeys = .ok (.ok ()) := by
  obtain ⟨db₁,db₂,hadd,hcomplete⟩ := sampleReplies_eq_ok _ _ samplePrice_replies
  obtain ⟨announced,attestation,oracleEvent,hf,hatt,_,_,hverify⟩ := oliviaV1_verifies
    (s := Runs.Config.start db₁) (Sample.roundTrips 10007) (Secp256k1.revealsVerify (Sample.library 10007))
    Sample.price_accepted Sample.price_valid hadd .refl hcomplete
  exact ⟨db₁,db₂,announced,attestation,oracleEvent,hadd,hcomplete,hf,hatt,hverify⟩

theorem ecdsaV1_rejected_price : ∃ db₁ db₂ announced attestation oracleEvent,
    sampleOracle.addEvent ⟨⟨⟨"/foo/bar.price?n=2".toList⟩⟩,none⟩ (.inMemory .default) =
      (.ok (.addEvent (.ok ())),db₁) ∧
    sampleOracle.completeEvent ⟨⟨⟨⟨"/foo/bar.price?n=2".toList⟩⟩,7⟩,⟨0,0⟩⟩ db₁ =
      (.ok (.completeEvent (.ok ())),db₂) ∧
    Store.db.Finds db₂ ⟨⟨"/foo/bar.price?n=2".toList⟩⟩ announced ∧
    announced.attestation = some attestation ∧ attestation.verifyEcdsaV1Attestation oracleEvent
      Sample.keychain.oraclePublicKeys = .ok (.error .ecdsaV1) := by
  obtain ⟨db₁,db₂,hadd,hcomplete⟩ := sampleReplies_eq_ok _ _ samplePrice_replies
  obtain ⟨announced,attestation,oracleEvent,hf,hatt,_,hverify⟩ := ecdsaV1_rejected
    (s := Runs.Config.start db₁) (Sample.roundTrips 10007) (Sample.ecdsaVerifiesSigner 10007)
    (by decide +kernel) Sample.price_accepted Sample.price_valid hadd .refl hcomplete
  exact ⟨db₁,db₂,announced,attestation,oracleEvent,hadd,hcomplete,hf,hatt,hverify⟩

/-- With three different keys, a true occurrence is signed by the announcement key only. -/
theorem occur_signed_by_announcement_key :
    KeyChain.new (Sample.libraries 10007) Sample.seed = .ok Sample.keychain ∧
    [Sample.keychain.announcementKeypair,Sample.keychain.oliviaV1Keypair,
      Sample.keychain.ecdsaV1Keypair].Nodup ∧
    EventId.Accepted ⟨⟨"/foo/bar/baz.occur".toList⟩⟩ ∧
    Outcome.Valid ⟨⟨⟨"/foo/bar/baz.occur".toList⟩⟩,0⟩ ∧
    ∃ db₁ db₂ announced attestation oracleEvent,
      sampleOracle.addEvent ⟨⟨⟨"/foo/bar/baz.occur".toList⟩⟩,none⟩ (.inMemory .default) =
        (.ok (.addEvent (.ok ())),db₁) ∧
      sampleOracle.completeEvent ⟨⟨⟨⟨"/foo/bar/baz.occur".toList⟩⟩,0⟩,⟨0,0⟩⟩ db₁ =
        (.ok (.completeEvent (.ok ())),db₂) ∧
      Store.db.Finds db₂ ⟨⟨"/foo/bar/baz.occur".toList⟩⟩ announced ∧
      announced.attestation = some attestation ∧
      announced.announcement.oracleEvent.decode (Sample.libraries 10007).serdeJson = .ok (some oracleEvent) ∧
      attestation.verifyEcdsaV1Attestation oracleEvent Sample.keychain.oraclePublicKeys ≠ .ok (.ok ()) := by
  have hvalid : Outcome.Valid ⟨⟨⟨"/foo/bar/baz.occur".toList⟩⟩,0⟩ := ⟨"true".toList,by decide +kernel⟩
  obtain ⟨db₁,db₂,hadd,hcomplete⟩ := sampleReplies_eq_ok
    ⟨⟨⟨"/foo/bar/baz.occur".toList⟩⟩,none⟩ 0 (by decide +kernel)
  obtain ⟨announced,attestation,oracleEvent,r,hf,hatt,hdecode,hverify,hsame,_⟩ := ecdsaV1_verifies_iff
    (s := Runs.Config.start db₁) (Sample.roundTrips 10007) (Sample.ecdsaVerifiesSigner 10007)
    (by decide +kernel) hvalid hadd .refl hcomplete
  refine ⟨Sample.keychain_new,by decide +kernel,by decide +kernel,hvalid,db₁,db₂,announced,attestation,
    oracleEvent,hadd,hcomplete,hf,hatt,hdecode,fun hok => ?_⟩
  have hkeys := hsame.mp (Except.ok.inj (hverify.symm.trans hok))
  exact absurd hkeys (by decide +kernel)

end Sampled

end Oracle
end Olivia
