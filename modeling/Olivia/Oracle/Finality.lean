import Olivia.Secp256k1.Sample
import Olivia.Db.Postgres
import Olivia.Oracle.Oracle

/-! # Finality on a shared database

Oracles of one seed share a Postgres database, and the update that completes an event does
not look at the attestation it replaces. An attestation found once is found ever after as
long as no write arrives at an event that was attested since its read.
-/
namespace Olivia
namespace Oracle
variable {C : Group} {server : Server} {keychain : KeyChain C} {lib : Libraries C}

/-- Any number of oracles with one seed on one database. -/
def postgres (server : Server) (keychain : KeyChain C) (lib : Libraries C) : Oracle C (Postgres C) :=
  ⟨Postgres.db server,keychain,lib⟩

/-- The event that a write completes is still without an attestation when the write arrives. -/
def Unattested (server : Server) : OracleWrite C → Postgres C → Prop
  | .insertEvent _, _ => True
  | .completeEvent eventId _, s =>
    ∀ announced, (Postgres.db server).Finds s eventId announced → announced.attestation = none

/-- A write to the table that its check has read finds the event unattested. -/
theorem unattested_of_read {c : OracleCall} {w : OracleWrite C} {s : Postgres C}
    (h : (postgres server keychain lib).protocol.check c s = .inr w) : Unattested server w s := by
  have h : (postgres server keychain lib).read c s = .inr w := h
  cases c with
  | addEvent newEvent =>
    obtain ⟨_,_,_,rfl⟩ := read_addEvent h
    trivial
  | completeEvent stamped =>
    obtain ⟨announced,_,_,_,hf,hnone,_,_,_,rfl⟩ := read_completeEvent h
    intro found hf'
    rw [Postgres.id_of_finds hf] at hf'
    obtain rfl : announced = found := by simpa [Db.Finds] using hf.symm.trans hf'
    exact hnone

theorem write_keeps_attested {w : OracleWrite C} {s : Postgres C} {id : EventId}
    {announced : AnnouncedEvent C} {attestation : Attestation C}
    (hf : (Postgres.db server).Finds s id announced) (ha : announced.attestation = some attestation)
    (hg : Unattested server w s) :
    (Postgres.db server).Finds ((postgres server keychain lib).write w s).2 id announced := by
  cases w with
  | insertEvent inserted => exact Postgres.db_lawful.insert_keeps (Prod.ext rfl rfl) hf
  | completeEvent eventId attestation' =>
    have hw : (Postgres.db server).completeEvent eventId attestation' s = (_,_) := rfl
    rcases Postgres.db_lawful.complete_keeps hw hf with hk | ⟨rfl,_⟩
    · exact hk
    · cases (hg announced hf).symm.trans ha

/-- The outcome and the scalars that a read publishes of an event. -/
def published (oracle : Oracle C (Postgres C)) (id : EventId) (s : Postgres C) :
    Option (Str × List C.AttestScalar) :=
  match oracle.db.getAnnouncedEvent id s with
  | .ok (.ok (some announced)) => do
    let attestation ← announced.attestation
    let oliviaV1 ← attestation.schemes.oliviaV1
    return (attestation.outcome,oliviaV1.scalars)
  | _ => none

theorem published_eq_some {oracle : Oracle C (Postgres C)} {id : EventId} {s : Postgres C} {text : Str}
    {scalars : List C.AttestScalar} (h : oracle.published id s = some (text,scalars)) :
    ∃ announced attestation, oracle.db.getAnnouncedEvent id s = .ok (.ok (some announced)) ∧
      announced.attestation = some attestation ∧ attestation.outcome = text ∧
      attestation.schemes.oliviaV1 = some ⟨scalars⟩ := by
  unfold published at h
  split at h
  next announced hg =>
    obtain ⟨attestation,ha,h⟩ := Option.bind_eq_some_iff.mp h
    obtain ⟨oliviaV1,ho,h⟩ := Option.bind_eq_some_iff.mp h
    obtain ⟨rfl,rfl⟩ := Prod.mk.inj (Option.some.inj h)
    exact ⟨announced,attestation,hg,ha,rfl,ho⟩
  next => cases h

section Runs
variable {s t : Runs.Config (Postgres C) OracleCall (OracleWrite C) (MayPanic OracleReply)}

/-- An attestation that was read once is read ever after. -/
theorem attestation_final
    (hr : (postgres server keychain lib).protocol.ReachesWhen (Unattested server) s t) {id : EventId}
    {announced : AnnouncedEvent C} {attestation : Attestation C}
    (hf : (Postgres.db server).getAnnouncedEvent id s.store = .ok (.ok (some announced)))
    (ha : announced.attestation = some attestation) :
    (Postgres.db server).getAnnouncedEvent id t.store = .ok (.ok (some announced)) := by
  have hstep : (postgres server keychain lib).protocol.Inductive (Unattested server)
      (fun s => (Postgres.db server).Finds s id announced) (fun _ _ _ => True) (fun _ _ => True) :=
    { check := fun _ _ => trivial
      answer := fun _ _ => trivial
      act := fun hf _ hg => write_keeps_attested hf ha hg
      result := fun _ _ _ => trivial
      stable := fun _ _ _ _ => trivial }
  exact (hstep.runs ⟨hf,fun _ => trivial,fun _ => trivial⟩ hr).store

end Runs

section Sampled
open Sample

def sampleServer : Server := ⟨fun _ => true,fun _ => true⟩

abbrev samplePostgres : Oracle (group 10007) (Postgres (group 10007)) :=
  postgres sampleServer Sample.keychain (libraries 10007)

def sampleMatch : EventId := ⟨⟨"/foo/A_B.winner".toList⟩⟩

/-- Two overlapping completions of one match, which had either side win. -/
def sampleOverlap (s : Postgres (group 10007)) : Option (Postgres (group 10007) × Postgres (group 10007)) :=
  samplePostgres.protocol.overlap (.completeEvent ⟨⟨sampleMatch,0⟩,⟨0,0⟩⟩)
    (.completeEvent ⟨⟨sampleMatch,1⟩,⟨0,0⟩⟩) s

def samplePublished (s : Postgres (group 10007)) : Option (Str × List (ZMod 10007)) :=
  samplePostgres.published sampleMatch s

/-- Attestations of both outcomes are published one after the other, and from their scalars
for the one nonce anybody computes the signing key. -/
theorem overlapping_outcomes_published : EventId.Accepted sampleMatch ∧
    ∃ s t : Runs.Config (Postgres (group 10007)) OracleCall (OracleWrite (group 10007)) (MayPanic OracleReply),
    ∃ announced announced' attestation attestation', ∃ a b : ZMod 10007,
    samplePostgres.protocol.Reaches (.start .empty) s ∧ samplePostgres.protocol.Reaches s t ∧
    samplePostgres.db.getAnnouncedEvent sampleMatch s.store = .ok (.ok (some announced)) ∧
    announced.attestation = some attestation ∧ attestation.outcome = "A".toList ∧
    attestation.schemes.oliviaV1 = some ⟨[a]⟩ ∧
    samplePostgres.db.getAnnouncedEvent sampleMatch t.store = .ok (.ok (some announced')) ∧
    announced'.attestation = some attestation' ∧ attestation'.outcome = "B".toList ∧
    attestation'.schemes.oliviaV1 = some ⟨[b]⟩ ∧ 2*a-b = Sample.keychain.oliviaV1Keypair.scalar := by
  let u := samplePostgres.protocol.ran 0 (.addEvent ⟨sampleMatch,none⟩) (.start .empty)
  have hadd : samplePostgres.protocol.Reaches (.start .empty) u := Runs.CheckThenAct.reaches_ran _ rfl
  have hpublished : (sampleOverlap u.store).map (Prod.map samplePublished samplePublished) =
      some (some ("A".toList,[3973]),some ("B".toList,[1368])) := by decide +kernel
  obtain ⟨⟨first,second⟩,hoverlap,hpublished⟩ := Option.map_eq_some_iff.mp hpublished
  obtain ⟨hfirst,hsecond⟩ := Prod.mk.inj hpublished
  obtain ⟨s,t,hs,ht,rfl,rfl⟩ := Runs.CheckThenAct.reaches_overlap (i := 1) (j := 2) (by decide) rfl rfl hoverlap
  obtain ⟨announced,attestation,hget,hatt,htext,hscalars⟩ := published_eq_some hfirst
  obtain ⟨announced',attestation',hget',hatt',htext',hscalars'⟩ := published_eq_some hsecond
  have hsecret : 2*(3973 : ZMod 10007)-1368 = Sample.keychain.oliviaV1Keypair.scalar := by decide +kernel
  exact ⟨by decide +kernel,s,t,announced,announced',attestation,attestation',_,_,hadd.trans hs,ht,
    hget,hatt,htext,hscalars,hget',hatt',htext',hscalars',hsecret⟩

/-- A later completion with the other outcome finds the match attested. -/
theorem attestation_final_match : ∃ s t : Runs.Config (Postgres (group 10007)) OracleCall
    (OracleWrite (group 10007)) (MayPanic OracleReply), ∃ announced attestation,
    samplePostgres.protocol.ReachesWhen (Unattested sampleServer) s t ∧
    (∃ c r, t.phase 2 = .returned c r) ∧
    samplePostgres.db.getAnnouncedEvent sampleMatch s.store = .ok (.ok (some announced)) ∧
    announced.attestation = some attestation ∧ attestation.outcome = "A".toList ∧
    samplePostgres.db.getAnnouncedEvent sampleMatch t.store = .ok (.ok (some announced)) := by
  let u := samplePostgres.protocol.ran 0 (.addEvent ⟨sampleMatch,none⟩) (.start .empty)
  let s := samplePostgres.protocol.ran 1 (.completeEvent ⟨⟨sampleMatch,0⟩,⟨0,0⟩⟩) u
  have hpublished : samplePublished s.store = some ("A".toList,[3973]) := by decide +kernel
  obtain ⟨announced,attestation,hget,hatt,htext,_⟩ := published_eq_some hpublished
  have hr : samplePostgres.protocol.ReachesWhen (Unattested sampleServer) s
      (samplePostgres.protocol.ran 2 (.completeEvent ⟨⟨sampleMatch,1⟩,⟨0,0⟩⟩) s) :=
    Runs.CheckThenAct.reachesWhen_ran _ rfl (fun _ h => unattested_of_read h)
  exact ⟨s,_,announced,attestation,hr,⟨_,_,Runs.Config.set_phase_self ..⟩,hget,hatt,htext,
    attestation_final hr hget hatt⟩

end Sampled

end Oracle
end Olivia
