import Olivia.Oracle.Ledger
import Olivia.Oracle.Starting
import Olivia.Rest.Asking

/-! # What clients are served

An oracle starts on an empty store, its loop takes whatever its sources send, and requests are
answered from the store at any time between two messages. Every announcement that is served
verifies under the id in the URL and the served keys, every attestation verifies against it,
and neither is ever replaced by another.
-/
namespace Olivia
namespace Oracle
variable {C : Group} [DecidableEq C.PublicKey] {lib : Libraries C} {seed : Seed} {oracle : Oracle C (InMemory C)}
variable {db : InMemory C}

/-- An oracle that starts on an empty store leaves its keys there. -/
theorem new_inMemory (h : (new InMemory.db lib).run seed InMemory.default = (.ok (.ok oracle),db)) :
    oracle = inMemory oracle.keychain lib ∧ db = ⟨some oracle.keychain.oraclePublicKeys,∅⟩ := by
  simp only [Runs.CheckThenAct.run,new,newRead] at h
  cases hk : KeyChain.new lib seed with
  | error panic => simp [hk] at h
  | ok keychain =>
    simp only [hk,InMemory.db,InMemory.default,newWrite,Prod.map] at h
    obtain ⟨horacle,rfl⟩ := Prod.mk.inj h
    obtain rfl := Except.ok.inj (Except.ok.inj horacle)
    exact ⟨rfl,rfl⟩

end Oracle

namespace Rest
open NodeDb
variable {C : Group} {http : PercentEncoding} {walk : Walk C} {s : NodeDb C} {request : Request}

/-- The keys that are served are the stored ones. -/
theorem root_publicKeys {response : RootResponse C}
    (h : routes http (readOracle walk) request s = .ok (some (.ok (.root response)))) :
    s.publicKeys = some response.publicKeys := by
  by_cases htail : request.tail = []
  · rw [routes_of_root htail] at h
    obtain ⟨reply,hreply,h⟩ := MayPanic.bind_eq_ok.mp h
    cases reply with
    | err e => cases h
    | ok root =>
      obtain rfl : root = response := Response.root.inj (ApiReply.ok.inj (Option.some.inj (Except.ok.inj h)))
      unfold getRoot at hreply
      obtain ⟨keys,hkeys,hreply⟩ := MayPanic.bind_eq_ok.mp hreply
      have hstored : keys = .ok s.publicKeys := (Except.ok.inj hkeys).symm
      rw [hstored] at hreply
      cases hp : s.publicKeys with
      | none => simp [hp] at hreply
      | some publicKeys =>
        simp only [hp] at hreply
        obtain ⟨node,_,hreply⟩ := MayPanic.bind_eq_ok.mp hreply
        rcases node with e | _ | node
        · cases hreply
        · cases hreply
        · exact congrArg some (congrArg RootResponse.publicKeys (ApiReply.ok.inj (Except.ok.inj hreply)))
  · rw [routes_eq htail] at h
    obtain ⟨asked,_,h⟩ := MayPanic.bind_eq_ok.mp h
    cases asked with
    | none =>
      obtain ⟨reply,_,h⟩ := MayPanic.bind_eq_ok.mp h
      cases reply <;> cases h
    | some asked =>
      obtain ⟨reply,_,h⟩ := MayPanic.bind_eq_ok.mp h
      cases reply <;> cases h

/-- A stored event is the reply to the request for its id. -/
theorem routes_of_lookup {id : EventId} {announced : AnnouncedEvent C} (hid : id.Accepted)
    (hl : s.inner.lookup id = some announced) : routes http (readOracle walk) (requestFor http id.raw) s =
      .ok (some (.ok (.event ⟨announced.announcement,announced.attestation⟩))) := by
  have hfound : (readOracle walk).getAnnouncedEvent id s = .ok (.ok (some announced)) := by
    rw [← hl]
    rfl
  rw [routes_of_id hid,eventReply,hfound]
  rfl

/-- A client of the store in memory that asks again gets the same announcement and never another
attestation. The announcement verifies under the id in its URL and the keys that are served, and so does
the olivia-v1 scheme of the attestation. -/
theorem served_verifies [DecidableEq C.PublicKey] {lib : Libraries C} (hjson : lib.serdeJson.RoundTrips)
    (hsig : C.AnnouncementsVerify) (hreveal : C.RevealsVerify) {seed : Seed} {oracle : Oracle C (InMemory C)}
    {db : InMemory C} {msgs later : List Sent} {t : NodeDb C} {response : EventResponse C}
    (hstart : (Oracle.new InMemory.db lib).run seed InMemory.default = (.ok (.ok oracle),db))
    (hs : (⟨oracle.keychain,lib⟩ : Service C).serve msgs ⟨db,∅⟩ = .ok s)
    (ht : (⟨oracle.keychain,lib⟩ : Service C).serve later s = .ok t)
    (hget : routes http (readOracle walk) request s = .ok (some (.ok (.event response)))) :
    ∃ id response', Spells http request id ∧ id.Accepted ∧
      routes http (readOracle walk) request t = .ok (some (.ok (.event response'))) ∧
      response'.announcement = response.announcement ∧
      (∀ attestation, response.attestation = some attestation → response'.attestation = some attestation) ∧
      ∀ rootRequest root, routes http (readOracle walk) rootRequest t = .ok (some (.ok (.root root))) →
        ∃ oracleEvent, response'.announcement.verifyAgainstId lib.serdeJson id root.publicKeys.announcement =
            .ok (some oracleEvent) ∧
          ∀ attestation, response'.attestation = some attestation →
            attestation.verifyOliviaV1Attestation oracleEvent root.publicKeys = .ok (.ok ()) := by
  obtain ⟨_,rfl⟩ := Oracle.new_inMemory hstart
  have hstarted : InMemory.Keyed (⟨some oracle.keychain.oraclePublicKeys,∅⟩ : InMemory C) :=
    fun _ _ h => nomatch h
  rw [Service.serve_eq_run] at hs ht
  have hkeyed := Runs.Local.run_keeps hstarted hs
  have hrecorded := Service.recorded_of_run hjson hsig rfl hs
  obtain ⟨htail,id,hasks,hreply⟩ := asks_of_event hget
  obtain ⟨hspells,hid⟩ := asks_sound hasks
  obtain ⟨announced,hfound,rfl⟩ := eventReply_eq_ok hreply
  have hl : s.inner.lookup id = some announced := Except.ok.inj (Except.ok.inj hfound)
  obtain ⟨announced',hl',hann,hatt⟩ := Service.lookup_later hjson hsig hkeyed hrecorded hid hl ht
  refine ⟨id,⟨announced'.announcement,announced'.attestation⟩,hspells,hid,?_,hann,hatt,?_⟩
  · have hfound' : (readOracle walk).getAnnouncedEvent id t = .ok (.ok (some announced')) := by
      rw [← hl']
      rfl
    rw [routes_of_asks htail hasks,eventReply,hfound']
    rfl
  · intro rootRequest root hroot
    have hall : (⟨oracle.keychain,lib⟩ : Service C).machine.run (msgs ++ later)
        ⟨⟨some oracle.keychain.oraclePublicKeys,∅⟩,∅⟩ = .ok t := Runs.Local.run_append hs ht
    have hkeys : root.publicKeys = oracle.keychain.oraclePublicKeys := by
      refine Option.some.inj ((root_publicKeys hroot).symm.trans ?_)
      rw [Service.serve_publicKeys hkeyed ht,Service.serve_publicKeys hstarted hs]
    obtain ⟨event,completed,rfl,hrecords⟩ := Service.recorded_of_run hjson hsig rfl hall id announced' hid hl'
    obtain ⟨oracleEvent,hverify,_,hattested⟩ := hrecords.verifies hjson hsig hreveal hid
    rw [hkeys]
    exact ⟨oracleEvent,hverify,hattested⟩

section Sampled
open Service

/-- The store of an oracle that has just started. -/
def sampleStarted : NodeDb (Sample.group 10007) := ⟨⟨some Sample.keychain.oraclePublicKeys,∅⟩,∅⟩

theorem start_sample : (Oracle.new InMemory.db (Sample.libraries 10007)).run Sample.seed InMemory.default =
    (.ok (.ok (Oracle.inMemory Sample.keychain (Sample.libraries 10007))),sampleStarted.toInMemory) := by
  simp [Runs.CheckThenAct.run,Oracle.new,Oracle.newRead,Sample.keychain_new,InMemory.db,InMemory.default,
    Oracle.newWrite,sampleStarted,Oracle.inMemory,Except.map,Except.mapError]

/-- A request before the outcome is known, and the same one after it. -/
theorem served_verifies_occur : ∃ s t : NodeDb (Sample.group 10007),
    ∃ response response' : EventResponse (Sample.group 10007),
    sampleService.serve [sampleEvent "/foo" "/a.occur"] sampleStarted = .ok s ∧
    sampleService.serve [sampleOutcome "/foo" "/a.occur" 0] s = .ok t ∧
    routes standard (readOracle Walk.entries) (requestFor standard ⟨"/foo/a.occur".toList⟩) s =
      .ok (some (.ok (.event response))) ∧
    routes standard (readOracle Walk.entries) (requestFor standard ⟨"/foo/a.occur".toList⟩) t =
      .ok (some (.ok (.event response'))) ∧
    response'.announcement = response.announcement := by
  have hboth : (sampleService.serve [sampleEvent "/foo" "/a.occur"] sampleStarted).toOption.any (fun s =>
      (s.inner.lookup ⟨⟨"/foo/a.occur".toList⟩⟩).isSome &&
        (sampleService.serve [sampleOutcome "/foo" "/a.occur" 0] s).toOption.isSome) = true := by decide +kernel
  obtain ⟨s,hserve,hboth⟩ := MayPanic.of_toOption_any hboth
  obtain ⟨hfound,hlater⟩ := (Bool.and_eq_true _ _).mp hboth
  obtain ⟨announced,hl⟩ := Option.isSome_iff_exists.mp hfound
  obtain ⟨t,ht⟩ := MayPanic.isOk_of_toOption hlater
  have hid : EventId.Accepted ⟨⟨"/foo/a.occur".toList⟩⟩ := by decide +kernel
  have hget : routes standard (readOracle Walk.entries) (requestFor standard ⟨"/foo/a.occur".toList⟩) s =
    .ok (some (.ok (.event ⟨announced.announcement,announced.attestation⟩))) := routes_of_lookup hid hl
  obtain ⟨_,response',_,_,hget',hsame,_⟩ := served_verifies (Sample.roundTrips 10007)
    (Sample.announcementsVerify 10007) (Secp256k1.revealsVerify (Sample.library 10007)) start_sample hserve ht hget
  exact ⟨s,t,_,response',hserve,ht,hget,hget',hsame⟩

end Sampled

end Rest
end Olivia
