import Olivia.Oracle.Ledger
import Olivia.Secp256k1.Equivocation

/-! # Attesting twice

The nonces of an event come from the seed and the id alone. One store attests an event once,
but a store that is lost and filled again announces the same nonces again: where the sources
then tell of another outcome, the two attestations together are the signing key.
-/
namespace Olivia
open Secp256k1
variable {F P : Type} [Field F] [AddCommGroup P] [Module F P] {E : Library F P}

/-- The digits that a text is attested with. -/
def digits (id : EventId) (text : Str) : MayPanic (Option (List UInt32)) := do
  match ← Outcome.tryFromIdAndOutcome id text with
  | .ok outcome => return some (← outcome.attestationIndexes)
  | .error _ => return none

variable [DecidableEq F] [DecidableEq P]

/-- The key, from two attestations of one event as they are published. -/
def recoverKey (E : Library F P) (id : EventId) (attestation attestation' : Attestation (secp256k1 E)) :
    MayPanic (Option F) := do
  match ← digits id attestation.outcome,← digits id attestation'.outcome with
  | some indexes,some indexes' =>
    match attestation.schemes.oliviaV1,attestation'.schemes.oliviaV1 with
    | some oliviaV1,some oliviaV1' => return keyOfDigits indexes indexes' oliviaV1.scalars oliviaV1'.scalars
    | _,_ => return none
  | _,_ => return none

variable {id : EventId} {p : Path} {k : EventKind} {signingKey : KeyPair E} {ann : Announce.OliviaV1 (secp256k1 E)}
variable {attestation attestation' : Attestation (secp256k1 E)}

/-- What a verifier knows that accepts an attestation under announced nonces. -/
theorem verified_of_accepted {oracleEvent : OracleEvent (secp256k1 E)} {oracleKeys : OracleKeys (secp256k1 E)}
    (hr : id.Reads p k) (hid : oracleEvent.event.id = id) (hann : oracleEvent.schemes.oliviaV1 = some ann)
    (hkey : oracleKeys.oliviaV1 = some signingKey.xonly)
    (h : attestation.verifyOliviaV1Attestation oracleEvent oracleKeys = .ok (.ok ())) :
    ∃ value att, k.Admits value ∧ digits id attestation.outcome = .ok (some (k.indexes value)) ∧
      attestation.schemes.oliviaV1 = some att ∧ Verified signingKey ann.nonces att.scalars (k.indexes value) := by
  obtain rfl := hid
  obtain ⟨outcome,key,att,indexes,hread,hkey',hatt,_,hindexes,hverify⟩ :=
    Attestation.verifyOliviaV1Attestation_eq_ok hann h
  obtain rfl : signingKey.xonly = key := Option.some.inj (hkey.symm.trans hkey')
  have hread' := hr.attestationIndexes_of_read hread
  obtain rfl := Except.ok.inj (hindexes.symm.trans hread')
  refine ⟨outcome.value,att,(hr.admits hread).2,by simp [digits,hread,hindexes],hatt,?_⟩
  intro j index hj
  obtain ⟨nonce,s,hnonce,hs,hscalar⟩ := verifyScalars_sound hverify j index hj
  rw [Nat.zero_add] at hnonce hs
  exact ⟨nonce,s,hnonce,hs,hscalar⟩

/-- Two attestations that are accepted under the same nonces are for the same digits, or the
signing key is computed from them. -/
theorem recoverKey_eq (hG : E.G ≠ 0) (h2 : (2 : F) ≠ 0) {oracleEvent oracleEvent' : OracleEvent (secp256k1 E)}
    {oracleKeys oracleKeys' : OracleKeys (secp256k1 E)} (haccepted : id.Accepted)
    (hid : oracleEvent.event.id = id) (hid' : oracleEvent'.event.id = id)
    (hann : oracleEvent.schemes.oliviaV1 = some ann) (hann' : oracleEvent'.schemes.oliviaV1 = some ann)
    (hkey : oracleKeys.oliviaV1 = some signingKey.xonly) (hkey' : oracleKeys'.oliviaV1 = some signingKey.xonly)
    (h : attestation.verifyOliviaV1Attestation oracleEvent oracleKeys = .ok (.ok ()))
    (h' : attestation'.verifyOliviaV1Attestation oracleEvent' oracleKeys' = .ok (.ok ())) :
    ∃ indexes indexes', digits id attestation.outcome = .ok (some indexes) ∧
      digits id attestation'.outcome = .ok (some indexes') ∧
      recoverKey E id attestation attestation' =
        .ok (if indexes = indexes' then none else some signingKey.scalar) := by
  obtain ⟨p,k,hr⟩ := haccepted.reads
  obtain ⟨v,att,hv,hdigits,hatt,hverified⟩ := verified_of_accepted hr hid hann hkey h
  obtain ⟨w,att',hw,hdigits',hatt',hverified'⟩ := verified_of_accepted hr hid' hann' hkey' h'
  refine ⟨_,_,hdigits,hdigits',?_⟩
  have hlength : (k.indexes v).length = (k.indexes w).length := by
    rw [EventId.Reads.length_indexes,EventId.Reads.length_indexes]
  simp only [recoverKey,hdigits,hdigits',hatt,hatt',MayPanic.ok_bind,MayPanic.pure_eq]
  rw [keyOfDigits_eq hG h2 hverified hverified' hlength (fun _ => index_lt_three hv) (fun _ => index_lt_three hw)]

namespace Service
variable {service : Service (secp256k1 E)} {msgs msgs' : List Sent} {s t : NodeDb (secp256k1 E)}

/-- How the attestation of a stored event was made. -/
theorem attested_of_serve {C : Group} {service : Service C} {s : NodeDb C} {announced : AnnouncedEvent C}
    {attestation : Attestation C} (hjson : service.lib.serdeJson.RoundTrips) (hsig : C.AnnouncementsVerify)
    (h : service.serve msgs .default = .ok s) (hid : id.Accepted) (hl : s.inner.lookup id = some announced)
    (ha : announced.attestation = some attestation) : ∃ event nonces value text time, event.id = id ∧
      service.keychain.noncesForEvent service.lib id = .ok nonces ∧ Outcome.outcomeString ⟨id,value⟩ = .ok text ∧
      service.oracle.attest ⟨⟨id,value⟩,time⟩ text ⟨event,KeyChain.announcedSchemes nonces⟩ = .ok attestation := by
  rw [serve_eq_run] at h
  obtain ⟨event,completed,hkey,hrecords⟩ := recorded_of_run hjson hsig rfl h id announced hid hl
  cases completed with
  | none => cases (hrecords.unattested rfl).symm.trans ha
  | some stamped =>
    obtain ⟨hstamped,nonces,text,attestation',hnonces,htext,hattest,hsome⟩ := hrecords.attested stamped rfl
    obtain rfl := Option.some.inj (hsome.symm.trans ha)
    obtain ⟨⟨_,value⟩,time⟩ := stamped
    obtain rfl : _ = id := hstamped.trans hkey
    exact ⟨event,nonces,value,text,time,hkey,hkey ▸ hnonces,htext,hattest⟩

/-- The digits of an attestation are those of the value that it was made for. -/
theorem digits_of_attest {C : Group} {oracle : Oracle C (InMemory C)} {attestation : Attestation C}
    {oracleEvent : OracleEvent C} (hr : id.Reads p k) {value : UInt64} {text : Str} {time : NaiveDateTime}
    (htext : Outcome.outcomeString ⟨id,value⟩ = .ok text)
    (hattest : oracle.attest ⟨⟨id,value⟩,time⟩ text oracleEvent = .ok attestation) :
    digits id attestation.outcome = .ok (some (k.indexes value)) := by
  have hv := hr.admits_of_outcomeString htext
  obtain ⟨text',htext',hread⟩ := hr.printed hv
  obtain rfl := Except.ok.inj (htext.symm.trans htext')
  simp [digits,(Oracle.attest_eq_ok hattest).1,hread,hr.attestationIndexes hv]

/-- The scalars of an attestation depend on its digits alone. -/
theorem schemes_of_indexes_eq {C : Group} {oracle : Oracle C (InMemory C)} {attestation attestation' : Attestation C}
    {oracleEvent oracleEvent' : OracleEvent C} (hr : id.Reads p k) {v w : UInt64} {text text' : Str}
    {time time' : NaiveDateTime} (hv : k.Admits v) (hw : k.Admits w)
    (hschemes : oracleEvent.schemes.oliviaV1 = oracleEvent'.schemes.oliviaV1)
    (hattest : oracle.attest ⟨⟨id,v⟩,time⟩ text oracleEvent = .ok attestation)
    (hattest' : oracle.attest ⟨⟨id,w⟩,time'⟩ text' oracleEvent' = .ok attestation')
    (hindexes : k.indexes v = k.indexes w) : attestation.schemes.oliviaV1 = attestation'.schemes.oliviaV1 := by
  have hscalars : oracle.keychain.oliviaV1ScalarsForEventOutcome oracle.lib ⟨⟨id,v⟩,time⟩ =
      oracle.keychain.oliviaV1ScalarsForEventOutcome oracle.lib ⟨⟨id,w⟩,time'⟩ := by
    simp only [KeyChain.oliviaV1ScalarsForEventOutcome,hr.attestationIndexes hv,hr.attestationIndexes hw,hindexes]
  rcases (Oracle.attest_eq_ok hattest).2.1 with ⟨hnone,h⟩ | ⟨_,scalars,hsome,hs,h⟩ <;>
    rcases (Oracle.attest_eq_ok hattest').2.1 with ⟨hnone',h'⟩ | ⟨_,scalars',hsome',hs',h'⟩
  · rw [h,h']
  · cases (hnone.symm.trans hschemes).trans hsome'
  · cases (hsome.symm.trans hschemes).trans hnone'
  · rw [h,h',Except.ok.inj (hs.symm.trans (hscalars.trans hs'))]

/-- A value that is not a price is its only digit. -/
theorem value_eq_of_indexes_eq (hk : ∀ n, k ≠ .price n) {v w : UInt64} (hv : k.Admits v) (hw : k.Admits w)
    (h : k.indexes v = k.indexes w) : v = w := by
  have hsmall : ∀ n : UInt64, n.toNat ≤ 3 → v < n → w < n → [v.toUInt32] = [w.toUInt32] → v = w := by
    intro n hn hv hw h
    have heq := congrArg UInt32.toNat (List.head_eq_of_cons_eq h)
    have hv := UInt64.lt_iff_toNat_lt.mp hv
    have hw := UInt64.lt_iff_toNat_lt.mp hw
    rw [UInt64.toNat_toUInt32,UInt64.toNat_toUInt32] at heq
    exact UInt64.toNat_inj.mp (by omega)
  cases k with
  | vsMatch kind =>
    cases kind with
    | winOrDraw => exact hsmall 3 (by decide) hv hw h
    | win => exact hsmall 2 (by decide) hv hw h
  | singleOccurrence => exact hsmall 1 (by decide) hv hw h
  | predicate inner predicate => exact hsmall 2 (by decide) hv hw h
  | price n => exact absurd rfl (hk n)

/-- Two stores of one seed that attest an event for different digits give the key away, and
where they attest it for the same digits they reveal the same scalars. -/
theorem two_stores (hjson : service.lib.serdeJson.RoundTrips) (hsig : (secp256k1 E).AnnouncementsVerify)
    (hG : E.G ≠ 0) (h2 : (2 : F) ≠ 0) (h : service.serve msgs .default = .ok s)
    (h' : service.serve msgs' .default = .ok t) (hid : id.Accepted) {announced announced' : AnnouncedEvent (secp256k1 E)}
    (hl : s.inner.lookup id = some announced) (hl' : t.inner.lookup id = some announced')
    (ha : announced.attestation = some attestation) (ha' : announced'.attestation = some attestation') :
    ∃ indexes indexes', digits id attestation.outcome = .ok (some indexes) ∧
      digits id attestation'.outcome = .ok (some indexes') ∧
      recoverKey E id attestation attestation' =
        .ok (if indexes = indexes' then none else some service.keychain.oliviaV1Keypair.scalar) ∧
      (indexes = indexes' → attestation.schemes.oliviaV1 = attestation'.schemes.oliviaV1) ∧
      ((∀ n, id.eventKind ≠ .ok (.price n)) → indexes = indexes' → attestation.outcome = attestation'.outcome) := by
  obtain ⟨event,nonces,v,text,time,hevent,hnonces,htext,hattest⟩ := attested_of_serve hjson hsig h hid hl ha
  obtain ⟨event',nonces',w,text',time',hevent',hnonces',htext',hattest'⟩ :=
    attested_of_serve hjson hsig h' hid hl' ha'
  obtain rfl := Except.ok.inj (hnonces.symm.trans hnonces')
  obtain ⟨p,k,hr⟩ := hid.reads
  have hv := hr.admits_of_outcomeString htext
  have hw := hr.admits_of_outcomeString htext'
  have hdigits := digits_of_attest hr htext hattest
  have hdigits' := digits_of_attest hr htext' hattest'
  refine ⟨_,_,hdigits,hdigits',?_,schemes_of_indexes_eq hr hv hw rfl hattest hattest',?_⟩
  · by_cases hempty : nonces = []
    · -- a price without digits reveals nothing
      have hnone : (KeyChain.announcedSchemes nonces).oliviaV1 = none := if_pos hempty
      have hzero : k.nNonces.toNat = 0 := by
        rw [← (KeyChain.noncesForEvent_eq_ok hr hnonces).1,hempty,List.length_nil]
      have hnil : ∀ value, k.indexes value = [] := by
        intro value
        rw [← List.length_eq_zero_iff,EventId.Reads.length_indexes,hzero]
      rcases (Oracle.attest_eq_ok hattest).2.1 with ⟨_,hatt⟩ | ⟨_,_,hsome,_⟩
      · simp [recoverKey,hdigits,hdigits',hatt,hnil]
      · cases hnone.symm.trans hsome
    · have hann : (KeyChain.announcedSchemes nonces).oliviaV1 =
          some ⟨nonces.map (secp256k1 E).publicNonce⟩ := if_neg hempty
      have hverify : attestation.verifyOliviaV1Attestation ⟨event,KeyChain.announcedSchemes nonces⟩
          service.keychain.oraclePublicKeys = .ok (.ok ()) := by
        subst hevent
        exact (Oracle.attest_oliviaV1 (revealsVerify E) hr hv hnonces htext hattest).2
      have hverify' : attestation'.verifyOliviaV1Attestation ⟨event',KeyChain.announcedSchemes nonces⟩
          service.keychain.oraclePublicKeys = .ok (.ok ()) := by
        subst hevent'
        exact (Oracle.attest_oliviaV1 (revealsVerify E) hr hw hnonces htext' hattest').2
      obtain ⟨indexes,indexes',hread,hread',hkey⟩ := recoverKey_eq hG h2 hid hevent hevent' hann hann rfl rfl
        hverify hverify'
      obtain rfl := Option.some.inj (Except.ok.inj (hdigits.symm.trans hread))
      obtain rfl := Option.some.inj (Except.ok.inj (hdigits'.symm.trans hread'))
      exact hkey
  · intro hprice hindexes
    have hk : ∀ n, k ≠ .price n := fun n hk => hprice n (hk ▸ hr.eventKind)
    obtain rfl := value_eq_of_indexes_eq hk hv hw hindexes
    rw [(Oracle.attest_eq_ok hattest).1,(Oracle.attest_eq_ok hattest').1]
    exact Except.ok.inj (htext.symm.trans htext')

section Sampled

/-- A match that a store has seen won by one party. -/
theorem attested_sample (value : UInt64) (text : Str)
    (h : (sampleService.serve [sampleEvent "/foo" "/A_B.vs",sampleOutcome "/foo" "/A_B.vs" value] .default).toOption.any
      (fun s => ((s.inner.lookup ⟨⟨"/foo/A_B.vs".toList⟩⟩).bind AnnouncedEvent.attestation).any
        fun attestation => attestation.outcome = text) = true) :
    ∃ s announced attestation, sampleService.serve [sampleEvent "/foo" "/A_B.vs",
      sampleOutcome "/foo" "/A_B.vs" value] .default = .ok s ∧
      s.inner.lookup ⟨⟨"/foo/A_B.vs".toList⟩⟩ = some announced ∧ announced.attestation = some attestation ∧
      attestation.outcome = text := by
  obtain ⟨s,hs,hsome⟩ := MayPanic.of_toOption_any h
  obtain ⟨attestation,hattestation,htext⟩ := (Option.any_eq_true _ _).mp hsome
  obtain ⟨announced,hl,ha⟩ := Option.bind_eq_some_iff.mp hattestation
  exact ⟨s,announced,attestation,hs,hl,ha,of_decide_eq_true htext⟩

/-- One party wins in a store and the other party in another. -/
theorem two_stores_vs : ∃ s t : NodeDb (Sample.group 10007), ∃ announced announced' attestation attestation',
    s.inner.lookup ⟨⟨"/foo/A_B.vs".toList⟩⟩ = some announced ∧ announced.attestation = some attestation ∧
    t.inner.lookup ⟨⟨"/foo/A_B.vs".toList⟩⟩ = some announced' ∧ announced'.attestation = some attestation' ∧
    recoverKey (Sample.library 10007) ⟨⟨"/foo/A_B.vs".toList⟩⟩ attestation attestation' = .ok (some 6578) := by
  obtain ⟨s,announced,attestation,hs,hl,ha,htext⟩ := attested_sample 0 "A_win".toList
    (by decide +kernel)
  obtain ⟨t,announced',attestation',ht,hl',ha',htext'⟩ := attested_sample 1 "B_win".toList
    (by decide +kernel)
  refine ⟨s,t,announced,announced',attestation,attestation',hl,ha,hl',ha',?_⟩
  have hG : (Sample.library 10007).G ≠ 0 := (by decide : (1 : ZMod 10007) ≠ 0)
  have hid : EventId.Accepted ⟨⟨"/foo/A_B.vs".toList⟩⟩ := by decide +kernel
  have hjson : sampleService.lib.serdeJson.RoundTrips := Sample.roundTrips 10007
  obtain ⟨indexes,indexes',_,_,hkey,_,hsame⟩ := two_stores hjson
    (Sample.announcementsVerify 10007) hG (by decide : (2 : ZMod 10007) ≠ 0) hs ht hid hl hl' ha ha'
  have hkind : EventId.eventKind ⟨⟨"/foo/A_B.vs".toList⟩⟩ = .ok (.vsMatch .winOrDraw) := by decide +kernel
  have hne : indexes ≠ indexes' := by
    intro heq
    have htexts := hsame (fun n hn => nomatch hkind.symm.trans hn) heq
    rw [htext,htext'] at htexts
    exact absurd htexts (by decide)
  rw [hkey,if_neg hne]
  rfl

end Sampled

end Service

end Olivia
