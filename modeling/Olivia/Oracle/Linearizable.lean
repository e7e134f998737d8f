import Olivia.Db.Agreement
import Olivia.Oracle.Finality
import Olivia.Oracle.Lifecycle
import Olivia.Oracle.Service
import Olivia.Runs.Sequential

/-! # Overlapping calls as calls one after the other

A pending write was decided on a store that may have moved on. What it was decided for is still
there: an event that was absent is absent or stored by now, and one that was found has the
announcement that was verified. So a store that refuses a second insertion, and a second
attestation, is left by overlapping calls as it is by calls one after the other.
-/
namespace Olivia
namespace Oracle
variable {C : Group} {σ : Type}

/-- Both replies tell of success, both of an error, or both panic alike. -/
def SameAnswer (r r' : MayPanic OracleReply) : Prop := r.map OracleReply.isErr = r'.map OracleReply.isErr

/-- What a store has to guarantee, of the writes that it is given. -/
structure Serializes (oracle : Oracle C σ) (guard : OracleWrite C → σ → Prop) (I : σ → Prop) : Prop where
  lawful : oracle.db.Lawful
  keyed : ∀ {s id found}, I s → oracle.db.Finds s id found → found.event.id = id
  keeps : ∀ {s w}, I s → guard w s → I (oracle.write w s).2
  appears : ∀ {s w id}, I s → guard w s → oracle.db.getAnnouncedEvent id s = .ok (.ok none) →
    oracle.db.getAnnouncedEvent id (oracle.write w s).2 = .ok (.ok none) ∨
      ∃ found, oracle.db.Finds (oracle.write w s).2 id found
  insert_refused : ∀ {s announced found}, guard (.insertEvent announced) s →
    oracle.db.Finds s announced.event.id found → ∃ e, oracle.db.insertEvent announced s = (.ok (.error e),s)
  complete_refused : ∀ {s id attestation found}, guard (.completeEvent id attestation) s →
    oracle.db.Finds s id found → found.attestation.isSome → ∃ e, oracle.db.completeEvent id attestation s = (.ok (.error e),s)

variable {oracle : Oracle C σ} {guard : OracleWrite C → σ → Prop} {I : σ → Prop} {s : σ} {w : OracleWrite C}
variable {c : OracleCall}

/-- What the check of a call has found, as much of it as stays. -/
def Promised (oracle : Oracle C σ) : OracleCall → OracleWrite C → σ → Prop
  | .addEvent newEvent,w,s => ∃ announcement, oracle.keychain.createAnnouncement oracle.lib newEvent = .ok announcement ∧
      w = .insertEvent ⟨newEvent,announcement,none⟩ ∧ (oracle.db.getAnnouncedEvent newEvent.id s = .ok (.ok none) ∨
        ∃ found, oracle.db.Finds s newEvent.id found)
  | .completeEvent stamped,w,s => ∃ announced text oracleEvent attestation, oracle.db.Finds s stamped.outcome.id announced ∧
      stamped.outcome.outcomeString = .ok text ∧
      announced.announcement.verifyAgainstId oracle.lib.serdeJson stamped.outcome.id
        oracle.keychain.oraclePublicKeys.announcement = .ok (some oracleEvent) ∧
      oracle.attest stamped text oracleEvent = .ok attestation ∧ w = .completeEvent stamped.outcome.id attestation

/-- A found event is still found, with its announcement. -/
theorem write_finds (hlawful : oracle.db.Lawful) {id : EventId} {announced : AnnouncedEvent C}
    (hf : oracle.db.Finds s id announced) (w : OracleWrite C) :
    ∃ later, oracle.db.Finds (oracle.write w s).2 id later ∧ later.announcement = announced.announcement := by
  cases w with
  | insertEvent inserted => exact ⟨announced,hlawful.insert_keeps (Prod.ext rfl rfl) hf,rfl⟩
  | completeEvent eventId attestation =>
    have hw : oracle.db.completeEvent eventId attestation s = (_,_) := rfl
    rcases hlawful.complete_keeps hw hf with hkept | ⟨_,hattested⟩
    · exact ⟨announced,hkept,rfl⟩
    · exact ⟨_,hattested,rfl⟩

theorem promised_of_read (h : oracle.Serializes guard I) (hI : I s) (hr : oracle.read c s = .inr w) :
    Promised oracle c w s := by
  cases c with
  | addEvent newEvent =>
    obtain ⟨hget,announcement,hann,rfl⟩ := read_addEvent hr
    exact ⟨announcement,hann,rfl,Or.inl hget⟩
  | completeEvent stamped =>
    obtain ⟨announced,text,oracleEvent,attestation,hf,_,ht,hverify,hatt,rfl⟩ := read_completeEvent hr
    rw [h.keyed hI hf]
    exact ⟨announced,text,oracleEvent,attestation,hf,ht,hverify,hatt,rfl⟩

theorem Promised.stays {w' : OracleWrite C} (h : oracle.Serializes guard I) (hI : I s) (hw : guard w' s)
    (hq : Promised oracle c w s) : Promised oracle c w (oracle.write w' s).2 := by
  cases c with
  | addEvent newEvent =>
    obtain ⟨announcement,hann,rfl,hget | ⟨found,hf⟩⟩ := hq
    · exact ⟨announcement,hann,rfl,h.appears hI hw hget⟩
    · obtain ⟨later,hlater,_⟩ := write_finds h.lawful hf w'
      exact ⟨announcement,hann,rfl,Or.inr ⟨later,hlater⟩⟩
  | completeEvent stamped =>
    obtain ⟨announced,text,oracleEvent,attestation,hf,ht,hverify,hatt,rfl⟩ := hq
    obtain ⟨later,hlater,hann⟩ := write_finds h.lawful hf w'
    exact ⟨later,text,oracleEvent,attestation,hlater,ht,hann ▸ hverify,hatt,rfl⟩

/-- A promised write that comes late does what its call would do by now. -/
theorem Promised.late (h : oracle.Serializes guard I) (hI : I s) (hq : Promised oracle c w s) (hw : guard w s) :
    (oracle.write w s).2 = (oracle.protocol.run c s).2 ∧ SameAnswer (oracle.write w s).1 (oracle.protocol.run c s).1 := by
  have hsame : oracle.read c s = .inr w → (oracle.write w s).2 = (oracle.protocol.run c s).2 ∧
      SameAnswer (oracle.write w s).1 (oracle.protocol.run c s).1 := by
    intro hr
    have hrun : oracle.protocol.run c s = oracle.write w s := by
      simp only [Runs.CheckThenAct.run,protocol,hr]
    rw [hrun]
    exact ⟨rfl,rfl⟩
  cases c with
  | addEvent newEvent =>
    obtain ⟨announcement,hann,rfl,hget | ⟨found,hf⟩⟩ := hq
    · exact hsame (by simp [read,addEventRead,hget,hann,decided])
    · have hrefused : ∃ e, oracle.db.insertEvent ⟨newEvent,announcement,none⟩ s = (.ok (.error e),s) :=
        h.insert_refused hw hf
      obtain ⟨e,he⟩ := hrefused
      have hget : oracle.db.getAnnouncedEvent newEvent.id s = .ok (.ok (some found)) := hf
      simp [Runs.CheckThenAct.run,protocol,read,addEventRead,hget,decided,write,he,SameAnswer,Except.map,
        Except.mapError,OracleReply.isErr]
  | completeEvent stamped =>
    obtain ⟨announced,text,oracleEvent,attestation,hf,ht,hverify,hatt,rfl⟩ := hq
    have hget : oracle.db.getAnnouncedEvent stamped.outcome.id s = .ok (.ok (some announced)) := hf
    cases hattested : announced.attestation with
    | none =>
      refine hsame ?_
      simp [read,completeEventRead,hget,ht,hattested,hverify,hatt,decided,h.keyed hI hf]
    | some existing =>
      obtain ⟨e,he⟩ := h.complete_refused hw hf (by rw [hattested]; rfl)
      simp [Runs.CheckThenAct.run,protocol,read,completeEventRead,hget,ht,hattested,decided,write,he,SameAnswer,
        Except.map,Except.mapError,OracleReply.isErr]

theorem Serializes.serial (h : oracle.Serializes guard I) :
    oracle.protocol.Serial guard I (Promised oracle) SameAnswer where
  check hI hr := promised_of_read h hI hr
  answer _ _ := trivial
  act hI _ hw := h.keeps hI hw
  result _ _ _ := trivial
  stable hI hq _ hw := hq.stays h hI hw
  refl _ := rfl
  late hI hq hw := hq.late h hI hw

section InMemory
variable {keychain : KeyChain C} {lib : Libraries C}

theorem inMemory_serializes :
    (inMemory keychain lib).Serializes (fun _ _ => True) InMemory.Keyed where
  lawful := InMemory.db_lawful
  keyed hs hf := hs _ _ (InMemory.finds_iff.mp hf)
  keeps {s w} hs _ := by
    cases w with
    | insertEvent announced => exact InMemory.keyed_apply hs (.insertEvent announced)
    | completeEvent eventId attestation => exact InMemory.keyed_apply hs (.completeEvent eventId attestation)
  appears {s w id} _ _ _ := by
    cases hget : ((inMemory keychain lib).write w s).2.inner.lookup id with
    | none => exact Or.inl (by rw [← hget]; rfl)
    | some found => exact Or.inr ⟨found,InMemory.finds_iff.mpr hget⟩
  insert_refused {s announced found} _ hf := by
    rcases InMemory.insertEvent_cases announced s with ⟨hnone,_⟩ | hrefused
    · cases (InMemory.finds_iff.mp hf).symm.trans hnone
    · exact hrefused
  complete_refused {s id attestation found} _ hf hattested := by
    rcases InMemory.completeEvent_cases id attestation s with ⟨found',hf',hnone,_⟩ | hrefused
    · obtain rfl := Option.some.inj ((InMemory.finds_iff.mp hf).symm.trans hf')
      rw [hnone] at hattested
      cases hattested
    · exact hrefused

variable {s : InMemory C} {t u : Runs.Config (InMemory C) OracleCall (OracleWrite C) (MayPanic OracleReply)}

/-- However calls overlap on the store in memory, those that have returned are as good as made one after
the other, and every such order goes on with the run, a call that is made later coming later. -/
theorem inMemory_linearizable (hs : s.Keyed) (ht : (inMemory keychain lib).protocol.Reaches (.start s) t)
    (hu : (inMemory keychain lib).protocol.Reaches t u) :
    (∃ calls, (inMemory keychain lib).protocol.Linearized SameAnswer s calls t) ∧
    ∀ calls, (inMemory keychain lib).protocol.Linearized SameAnswer s calls t →
      ∃ more, (inMemory keychain lib).protocol.Linearized SameAnswer s (calls ++ more) u :=
  inMemory_serializes.serial.linearizable hs ht hu

end InMemory

section Postgres
variable {server : Server} {keychain : KeyChain C} {lib : Libraries C}

/-- A write to an event that can be stored, and that is not attested yet. -/
def Uncontested (server : Server) (w : OracleWrite C) (s : Postgres C) : Prop :=
  Unattested server w s ∧ ∀ announced, w = .insertEvent announced → announced.event.id.Accepted

theorem lookup_of_absent {s : Postgres C} {id : EventId}
    (hget : (Postgres.db server).getAnnouncedEvent id s = .ok (.ok none)) : s.event.lookup id.asStr = none := by
  cases hrow : s.event.lookup id.asStr with
  | none => rfl
  | some row =>
    have hget : Postgres.getAnnouncedEvent server id s = .ok (.ok none) := hget
    rw [Postgres.getAnnouncedEvent,hrow] at hget
    split at hget
    next =>
      obtain ⟨found,_,hfound⟩ := MayPanic.bind_eq_ok.mp hget
      cases hfound
    next => cases hget

/-- No row appears but the inserted one. -/
theorem postgres_appears {w : OracleWrite C} {s : Postgres C} {id : EventId}
    (hw : ∀ announced, w = .insertEvent announced → announced.event.id.Accepted)
    (hget : (Postgres.db server).getAnnouncedEvent id s = .ok (.ok none)) :
    (Postgres.db server).getAnnouncedEvent id ((postgres server keychain lib).write w s).2 = .ok (.ok none) ∨
      ∃ found, (Postgres.db server).Finds ((postgres server keychain lib).write w s).2 id found := by
  cases w with
  | insertEvent announced =>
    have hwrite : ((postgres server keychain lib).write (.insertEvent announced) s).2 =
        (Postgres.commit s (Postgres.insertTransaction server announced s)).2 := rfl
    rw [hwrite]
    rcases hr : Postgres.insertTransaction server announced s with panic | (e | t)
    · exact Or.inl hget
    · exact Or.inl hget
    · by_cases hid : id = announced.event.id
      · subst hid
        have hinsert : (Postgres.db server).insertEvent announced s = (.ok (.ok ()),t) :=
          congrArg (Postgres.commit s) hr
        exact Or.inr ⟨announced,Postgres.db_lawful.insert_finds (hw announced rfl) hinsert⟩
      · exact Or.inl (((Postgres.insertTransaction_sameBut hr).getAnnouncedEvent hid).trans hget)
  | completeEvent eventId attestation =>
    have hwrite : ((postgres server keychain lib).write (.completeEvent eventId attestation) s).2 =
        (Postgres.commit s (.ok (Postgres.updateAttestation server eventId attestation s))).2 := rfl
    rw [hwrite]
    rcases hr : Postgres.updateAttestation server eventId attestation s with e | t
    · exact Or.inl hget
    · by_cases hid : id = eventId
      · subst hid
        rw [Postgres.updateAttestation,lookup_of_absent hget] at hr
        split at hr
        next =>
          obtain rfl := Except.ok.inj hr
          exact Or.inl hget
        next => cases hr
      · exact Or.inl (((Postgres.updateAttestation_sameBut hr).getAnnouncedEvent hid).trans hget)

/-- A call that nothing comes between contests nothing. -/
theorem uncontested_of_read {c : OracleCall} {w : OracleWrite C} {s : Postgres C}
    (h : (postgres server keychain lib).protocol.check c s = .inr w)
    (hc : ∀ newEvent, c = .addEvent newEvent → newEvent.id.Accepted) : Uncontested server w s := by
  refine ⟨unattested_of_read h,?_⟩
  rintro announced rfl
  have h : (postgres server keychain lib).read c s = .inr (.insertEvent announced) := h
  cases c with
  | addEvent newEvent =>
    obtain ⟨_,_,_,hw⟩ := read_addEvent h
    obtain rfl := OracleWrite.insertEvent.inj hw
    exact hc newEvent rfl
  | completeEvent stamped =>
    obtain ⟨_,_,_,_,_,_,_,_,_,hw⟩ := read_completeEvent h
    cases hw

theorem postgres_serializes :
    (postgres server keychain lib).Serializes (Uncontested server) (fun _ => True) where
  lawful := Postgres.db_lawful
  keyed _ hf := Postgres.id_of_finds hf
  keeps _ _ := trivial
  appears _ hw hget := postgres_appears hw.2 hget
  insert_refused {s announced found} hw hf := by
    obtain ⟨_,row,hrow,_⟩ := Postgres.finds_iff.mp hf
    have hstored : ∃ e, Postgres.insertTransaction server announced s = .ok (.error e) :=
      Postgres.insertTransaction_stored (hw.2 _ rfl) (by rw [hrow]; simp)
    obtain ⟨e,he⟩ := hstored
    exact ⟨e,by simp [postgres,Postgres.db,Postgres.insertEvent,he,Postgres.commit]⟩
  complete_refused hw hf hattested := by
    rw [hw.1 _ hf] at hattested
    cases hattested

/-- Overlapping calls of oracles on one database are as good as calls one after the other as long as no
attestation is written over another one. -/
theorem postgres_linearizable {s : Postgres C}
    {t u : Runs.Config (Postgres C) OracleCall (OracleWrite C) (MayPanic OracleReply)}
    (ht : (postgres server keychain lib).protocol.ReachesWhen (Uncontested server) (.start s) t)
    (hu : (postgres server keychain lib).protocol.ReachesWhen (Uncontested server) t u) :
    (∃ calls, (postgres server keychain lib).protocol.Linearized SameAnswer s calls t) ∧
    ∀ calls, (postgres server keychain lib).protocol.Linearized SameAnswer s calls t →
      ∃ more, (postgres server keychain lib).protocol.Linearized SameAnswer s (calls ++ more) u :=
  postgres_serializes.serial.linearizable trivial ht hu

end Postgres

section Sampled
open Sample

/-- Both calls find no event, and one of them is refused. -/
theorem inMemory_linearizable_twice : ∃ t u : Runs.Config (InMemory (group 10007)) OracleCall
    (OracleWrite (group 10007)) (MayPanic OracleReply), ∃ calls more,
    (inMemory Sample.keychain (libraries 10007)).protocol.Reaches (.start .default) t ∧
    (inMemory Sample.keychain (libraries 10007)).protocol.Reaches t u ∧
    (t.store.inner.lookup sampleMatch).isSome ∧
    (inMemory Sample.keychain (libraries 10007)).protocol.Linearized SameAnswer .default calls t ∧
    (inMemory Sample.keychain (libraries 10007)).protocol.Linearized SameAnswer .default (calls ++ more) u := by
  have hoverlap : (((inMemory Sample.keychain (libraries 10007)).protocol.overlap (.addEvent ⟨sampleMatch,none⟩)
      (.addEvent ⟨sampleMatch,some ⟨0,0⟩⟩) .default).map (fun stores =>
        (stores.1.inner.lookup sampleMatch).isSome)) = some true := by decide +kernel
  obtain ⟨⟨a,b⟩,hoverlap,hsome⟩ := Option.map_eq_some_iff.mp hoverlap
  obtain ⟨t,u,ht,hu,rfl,_⟩ := Runs.CheckThenAct.reaches_overlap (s := .start InMemory.default) (i := 0) (j := 1)
    (by decide) rfl rfl hoverlap
  obtain ⟨⟨calls,hcalls⟩,hgrows⟩ := inMemory_linearizable InMemory.keyed_default ht hu
  obtain ⟨more,hmore⟩ := hgrows calls hcalls
  exact ⟨t,u,calls,more,ht,hu,hsome,hcalls,hmore⟩

/-- Two insertions of one event overlap, and then the event is completed. -/
theorem postgres_linearizable_match : ∃ t u v : Runs.Config (Postgres (group 10007)) OracleCall
    (OracleWrite (group 10007)) (MayPanic OracleReply), ∃ calls more last,
    samplePostgres.protocol.ReachesWhen (Uncontested sampleServer) (.start .empty) t ∧
    samplePostgres.protocol.ReachesWhen (Uncontested sampleServer) t u ∧
    samplePostgres.protocol.ReachesWhen (Uncontested sampleServer) u v ∧
    (∃ w, t.phase 1 = .checked (.addEvent ⟨sampleMatch,some ⟨0,0⟩⟩) w) ∧ (samplePublished v.store).isSome ∧
    samplePostgres.protocol.Linearized SameAnswer .empty calls t ∧
    samplePostgres.protocol.Linearized SameAnswer .empty (calls ++ more) u ∧
    samplePostgres.protocol.Linearized SameAnswer .empty (calls ++ more ++ last) v := by
  have hid : EventId.Accepted sampleMatch := by decide +kernel
  have hoverlap : ((samplePostgres.protocol.overlap (.addEvent ⟨sampleMatch,none⟩)
      (.addEvent ⟨sampleMatch,some ⟨0,0⟩⟩) .empty).map (fun stores => (samplePublished
        (samplePostgres.protocol.run (.completeEvent ⟨⟨sampleMatch,0⟩,⟨0,0⟩⟩) stores.2).2).isSome)) = some true := by
    decide +kernel
  obtain ⟨⟨a,b⟩,hoverlap,hsome⟩ := Option.map_eq_some_iff.mp hoverlap
  obtain ⟨w₀,w₁,hw₀,hw₁,_,rfl⟩ := Runs.CheckThenAct.overlap_eq_some hoverlap
  have hguard : Uncontested sampleServer w₀ .empty := uncontested_of_read hw₀ (by rintro _ ⟨⟩; exact hid)
  -- an insertion is checked for its id alone, whatever was written since
  have hsecond : Uncontested sampleServer w₁ (samplePostgres.protocol.act w₀ .empty).2 := by
    have hinserts := (uncontested_of_read hw₁ (by rintro _ ⟨⟩; exact hid)).2
    obtain ⟨_,_,_,rfl⟩ := read_addEvent hw₁
    exact ⟨trivial,hinserts⟩
  obtain ⟨ht,hu⟩ := Runs.CheckThenAct.reachesWhen_overlapped (s := .start Postgres.empty) (i := 0) (j := 1) (by decide)
    rfl rfl hw₀ hw₁ hguard hsecond
  obtain ⟨_,hchecked,_⟩ := Runs.CheckThenAct.overlapped_phases (P := samplePostgres.protocol)
    (s := .start Postgres.empty) (c := .addEvent ⟨sampleMatch,none⟩) (d := .addEvent ⟨sampleMatch,some ⟨0,0⟩⟩)
    (w := w₀) (v := w₁) (i := 0) (j := 1) (by decide)
  set t := (samplePostgres.protocol.overlapped 0 1 (.addEvent ⟨sampleMatch,none⟩)
    (.addEvent ⟨sampleMatch,some ⟨0,0⟩⟩) w₀ w₁ (.start .empty)).1
  set u := (samplePostgres.protocol.overlapped 0 1 (.addEvent ⟨sampleMatch,none⟩)
    (.addEvent ⟨sampleMatch,some ⟨0,0⟩⟩) w₀ w₁ (.start .empty)).2
  let v := samplePostgres.protocol.ran 2 (.completeEvent ⟨⟨sampleMatch,0⟩,⟨0,0⟩⟩) u
  have hv : samplePostgres.protocol.ReachesWhen (Uncontested sampleServer) u v :=
    Runs.CheckThenAct.reachesWhen_ran _ (Runs.CheckThenAct.overlapped_phase_ne (by decide) (by decide))
      (fun _ h => uncontested_of_read h (fun _ he => nomatch he))
  obtain ⟨⟨calls,hcalls⟩,hgrows⟩ := postgres_linearizable ht hu
  obtain ⟨more,hmore⟩ := hgrows calls hcalls
  obtain ⟨last,hlast⟩ := (postgres_linearizable (ht.trans hu) hv).2 _ hmore
  exact ⟨t,u,v,calls,more,last,ht,hu,hv,⟨w₁,hchecked⟩,hsome,hcalls,hmore,hlast⟩

end Sampled

end Oracle
end Olivia
