import Olivia.Secp256k1.Sample
import Olivia.Db.InMemory
import Olivia.Oracle.Oracle

/-! # The life of an event in memory

Calls interleave between their read and their write, so the check of a call may be stale
when it writes. The store refuses what a stale check would let through: an event is
inserted once and attested once, whatever the order.
-/
namespace Olivia
namespace InMemory
variable {C : Group} {s t u : InMemory C}

/-- Everything stored is still there, and attested as it was if it was. -/
def Evolves (s t : InMemory C) : Prop :=
  ∀ id announced, s.inner.lookup id = some announced → ∃ later, t.inner.lookup id = some later ∧
    later.event = announced.event ∧ later.announcement = announced.announcement ∧
    ∀ attestation, announced.attestation = some attestation → later.attestation = some attestation

theorem Evolves.refl (s : InMemory C) : s.Evolves s := fun _ _ h => ⟨_,h,rfl,rfl,fun _ h => h⟩

theorem Evolves.trans (hst : s.Evolves t) (htu : t.Evolves u) : s.Evolves u := by
  intro id announced h
  obtain ⟨b,hb,hevent,hann,hatt⟩ := hst _ _ h
  obtain ⟨c,hc,hevent',hann',hatt'⟩ := htu _ _ hb
  exact ⟨c,hc,hevent'.trans hevent,hann'.trans hann,fun a ha => hatt' a (hatt a ha)⟩

theorem insertEvent_evolves (announced : AnnouncedEvent C) (s : InMemory C) :
    s.Evolves (insertEvent announced s).2 := by
  rcases insertEvent_cases announced s with ⟨hnone,hi⟩ | ⟨e,hi⟩
  · rw [hi]
    intro id found hf
    have hne : id ≠ announced.event.id := by
      rintro rfl
      cases hf.symm.trans hnone
    exact ⟨found,by rw [lookup_insert,if_neg hne,hf],rfl,rfl,fun _ h => h⟩
  · rw [hi]
    exact Evolves.refl s

theorem completeEvent_evolves (id : EventId) (attestation : Attestation C) (s : InMemory C) :
    s.Evolves (completeEvent id attestation s).2 := by
  rcases completeEvent_cases id attestation s with ⟨found,hfound,hnone,hi⟩ | ⟨e,hi⟩
  · rw [hi]
    intro id' found' hf
    by_cases h : id' = id
    · subst h
      obtain rfl := Option.some.inj (hfound.symm.trans hf)
      refine ⟨{ found with attestation := some attestation },by rw [lookup_insert,if_pos rfl],rfl,rfl,?_⟩
      intro a ha
      simp [hnone] at ha
    · exact ⟨found',by rw [lookup_insert,if_neg h,hf],rfl,rfl,fun _ h => h⟩
  · rw [hi]
    exact Evolves.refl s

end InMemory

namespace Oracle
variable {C : Group}

def inMemory (keychain : KeyChain C) (lib : Libraries C) : Oracle C (InMemory C) :=
  ⟨InMemory.db,keychain,lib⟩

def Succeeded (r : MayPanic OracleReply) : Prop :=
  r = .ok (.addEvent (.ok ())) ∨ r = .ok (.completeEvent (.ok ()))

variable {keychain : KeyChain C} {lib : Libraries C}

/-- Every entry is what `add_event` made of the event it is stored under. -/
def Announces (keychain : KeyChain C) (lib : Libraries C) (id : EventId) (announced : AnnouncedEvent C) : Prop :=
  announced.event.id = id ∧ keychain.createAnnouncement lib announced.event = .ok announced.announcement

theorem write_inMemory_evolves (w : OracleWrite C) (s : InMemory C) :
    s.Evolves ((inMemory keychain lib).write w s).2 := by
  cases w with
  | insertEvent announced => exact InMemory.insertEvent_evolves announced s
  | completeEvent eventId attestation => exact InMemory.completeEvent_evolves eventId attestation s

/-- A write that does not succeed has changed nothing. -/
theorem write_inMemory_eq (w : OracleWrite C) (s : InMemory C) :
    ((inMemory keychain lib).write w s).2 = s ∨ Succeeded ((inMemory keychain lib).write w s).1 := by
  cases w with
  | insertEvent announced =>
    rcases InMemory.insertEvent_cases announced s with ⟨_,hi⟩ | ⟨e,hi⟩
    · exact Or.inr (Or.inl (by simp [write,inMemory,InMemory.db,hi,Except.map,Except.mapError]))
    · exact Or.inl (by simp [write,inMemory,InMemory.db,hi])
  | completeEvent eventId attestation =>
    rcases InMemory.completeEvent_cases eventId attestation s with ⟨_,_,_,hi⟩ | ⟨e,hi⟩
    · exact Or.inr (Or.inr (by simp [write,inMemory,InMemory.db,hi,Except.map,Except.mapError]))
    · exact Or.inl (by simp [write,inMemory,InMemory.db,hi])

theorem write_inMemory_completeEvent (id : EventId) (attestation : Attestation C) (s : InMemory C) :
    ((inMemory keychain lib).write (.completeEvent id attestation) s).2 = s ∨
    ∃ found, s.inner.lookup id = some found ∧ found.attestation = none ∧
      ((inMemory keychain lib).write (.completeEvent id attestation) s).2 =
        { s with inner := s.inner.insert id { found with attestation := some attestation } } := by
  rcases InMemory.completeEvent_cases id attestation s with ⟨found,hfound,hnone,hi⟩ | ⟨e,hi⟩
  · exact Or.inr ⟨found,hfound,hnone,by simp [write,inMemory,InMemory.db,hi]⟩
  · exact Or.inl (by simp [write,inMemory,InMemory.db,hi])

/-- The announcement of a stored event is never found bogus. -/
theorem completeEventRead_ne_bogus (hjson : lib.serdeJson.RoundTrips) (hsig : C.AnnouncementsVerify)
    {s : InMemory C} (hs : InMemory.Every (Announces keychain lib) s) {stamped : StampedOutcome}
    (hid : stamped.outcome.id.Accepted) :
    (inMemory keychain lib).completeEventRead stamped s ≠ .ok (.error .announcementWasBogus) := by
  intro h
  obtain ⟨announced,hf,hnone⟩ := completeEventRead_bogus h
  obtain ⟨hkey,hann⟩ := hs _ _ (InMemory.finds_iff.mp hf)
  rcases KeyChain.createAnnouncement_spec hjson hsig keychain (hkey ▸ hid) with
    ⟨nonces,announcement,_,hann',hverify⟩ | ⟨_,_,he,_⟩
  · obtain rfl := Except.ok.inj (hann.symm.trans hann')
    have hsome := hverify stamped.outcome.id
    rw [if_pos hkey] at hsome
    cases hnone.symm.trans hsome
  · cases hann.symm.trans he

/-- An uninterrupted addition stores the new event unattested, or nothing. -/
theorem addEvent_every {R : EventId → AnnouncedEvent C → Prop} {s : InMemory C} (hs : InMemory.Every R s)
    (h : ∀ announced, announced.attestation = none → R announced.event.id announced) (newEvent : Event) :
    InMemory.Every R ((inMemory keychain lib).addEvent newEvent s).2 := by
  simp only [addEvent,Runs.CheckThenAct.run,protocol]
  cases hr : (inMemory keychain lib).read (.addEvent newEvent) s with
  | inl r => exact hs
  | inr w =>
    obtain ⟨_,announcement,_,rfl⟩ := read_addEvent hr
    exact InMemory.insertEvent_every hs (h _ rfl)

/-- An uninterrupted completion attests the outcome of an unattested event, or nothing. -/
theorem completeEvent_inMemory {s : InMemory C} (hs : s.Keyed) (stamped : StampedOutcome) :
    ((inMemory keychain lib).completeEvent stamped s).2 = s ∨
    ∃ announced attestation, s.inner.lookup stamped.outcome.id = some announced ∧
      announced.attestation = none ∧ stamped.outcome.outcomeString = .ok attestation.outcome ∧
      ((inMemory keychain lib).completeEvent stamped s).2 = { s with
        inner := s.inner.insert stamped.outcome.id { announced with attestation := some attestation } } := by
  simp only [completeEvent,Runs.CheckThenAct.run,protocol]
  cases hr : (inMemory keychain lib).read (.completeEvent stamped) s with
  | inl r => exact Or.inl rfl
  | inr w =>
    obtain ⟨announced,text,_,attestation,hf,hnone,ht,_,hatt,rfl⟩ := read_completeEvent hr
    have hl := InMemory.finds_iff.mp hf
    have hkey := hs _ _ hl
    rcases write_inMemory_completeEvent announced.event.id attestation s with h | ⟨found,hfound,_,h⟩
    · exact Or.inl h
    · rw [hkey] at hfound h
      obtain rfl := Option.some.inj (hl.symm.trans hfound)
      refine Or.inr ⟨announced,attestation,hl,hnone,?_,hkey ▸ h⟩
      rw [ht,(attest_eq_ok hatt).1]

example : ((inMemory Sample.keychain (Sample.libraries 10007)).completeEvent
    ⟨⟨⟨⟨"/foo/bar.occur".toList⟩⟩,0⟩,⟨0,0⟩⟩ .default).1 =
    .ok (.completeEvent (.error .eventNotExist)) := by decide +kernel

/-- What an insertion promises: the event unattested, with the announcement made for it. -/
def Promises (keychain : KeyChain C) (lib : Libraries C) : OracleWrite C → Prop
  | .insertEvent announced => Announces keychain lib announced.event.id announced
  | .completeEvent _ _ => True

def NotBogus (c : OracleCall) (r : MayPanic OracleReply) : Prop :=
  ∀ stamped, c = .completeEvent stamped → stamped.outcome.id.Accepted →
    r ≠ .ok (.completeEvent (.error .announcementWasBogus))

theorem announces_inductive (hjson : lib.serdeJson.RoundTrips) (hsig : C.AnnouncementsVerify) :
    (inMemory keychain lib).protocol.Inductive (fun _ _ => True)
      (InMemory.Every (Announces keychain lib)) (fun _ w _ => Promises keychain lib w) NotBogus where
  check {c w s} _ h := by
    cases c with
    | addEvent newEvent =>
      obtain ⟨_,announcement,hann,rfl⟩ := read_addEvent h
      exact ⟨rfl,hann⟩
    | completeEvent stamped =>
      obtain ⟨_,_,_,_,_,_,_,_,_,rfl⟩ := read_completeEvent h
      trivial
  answer {c r s} hs h := by
    rintro stamped rfl hid rfl
    have hne := completeEventRead_ne_bogus hjson hsig hs hid
    rcases hd : (inMemory keychain lib).completeEventRead stamped s with panic | (e | written) <;>
      simp [protocol,read,hd,decided] at h
    exact hne (h ▸ hd)
  act {c w s} hs hq _ := by
    cases w with
    | insertEvent announced => exact InMemory.insertEvent_every hs hq
    | completeEvent eventId attestation => exact InMemory.completeEvent_every hs (fun _ h => h)
  result {c w s} _ _ _ := by
    intro stamped _ _
    cases w with
    | insertEvent announced =>
      rcases InMemory.insertEvent_cases announced s with ⟨_,hi⟩ | ⟨e,hi⟩ <;>
        simp [protocol,write,inMemory,InMemory.db,hi,Except.map,Except.mapError]
    | completeEvent eventId attestation =>
      rcases InMemory.completeEvent_cases eventId attestation s with ⟨_,_,_,hi⟩ | ⟨e,hi⟩ <;>
        simp [protocol,write,inMemory,InMemory.db,hi,Except.map,Except.mapError]
  stable _ hq _ _ := hq

section Runs
variable {s t : Runs.Config (InMemory C) OracleCall (OracleWrite C) (MayPanic OracleReply)}

theorem announces_holds (hjson : lib.serdeJson.RoundTrips) (hsig : C.AnnouncementsVerify)
    (hr : (inMemory keychain lib).protocol.Reaches (.start .default) s) :
    Runs.CheckThenAct.Holds (InMemory.Every (Announces keychain lib))
      (fun _ w _ => Promises keychain lib w) NotBogus s :=
  (announces_inductive hjson hsig).runs (.start (fun _ _ h => by cases h)) hr

open Runs.CheckThenAct in
theorem reaches_evolves (hr : (inMemory keychain lib).protocol.Reaches s t) : s.store.Evolves t.store :=
  Inductive.trivially.relates InMemory.Evolves.refl (fun h h' => h.trans h')
    (fun {_ w s} _ _ _ => write_inMemory_evolves w s) Holds.trivially hr

/-- In every run: entries keyed by their events, kept with their announcements and their
attestations, changed only by a call that succeeds, and never found bogus. -/
theorem lifecycle (hjson : lib.serdeJson.RoundTrips) (hsig : C.AnnouncementsVerify)
    (hs : (inMemory keychain lib).protocol.Reaches (.start .default) s)
    (ht : (inMemory keychain lib).protocol.Reaches s t) :
    t.store.Keyed ∧ s.store.Evolves t.store ∧
    (∀ i u, (inMemory keychain lib).protocol.Step i t u → u.store ≠ t.store →
      ∃ c r, u.phase i = .returned c r ∧ Succeeded r) ∧
    ∀ i stamped, stamped.outcome.id.Accepted →
      t.phase i ≠ .returned (.completeEvent stamped) (.ok (.completeEvent (.error .announcementWasBogus))) := by
  have hhs := announces_holds hjson hsig hs
  have hht := (announces_inductive hjson hsig).runs hhs ht
  refine ⟨fun id announced h => (hht.store id announced h).1,reaches_evolves ht,?_,?_⟩
  · intro i u hst hne
    rcases hst.store_eq with h | ⟨c,w,_,rfl⟩
    · exact absurd h hne
    · refine ⟨c,_,Runs.Config.set_phase_self ..,?_⟩
      exact (write_inMemory_eq w t.store).resolve_left hne
  · intro i stamped hid h
    exact hht.returned h stamped rfl hid rfl

/-- An event added by one call and attested by another. -/
theorem lifecycle_occur : ∃ s t : Runs.Config (InMemory (Sample.group 10007)) OracleCall
    (OracleWrite (Sample.group 10007)) (MayPanic OracleReply), ∃ announced later,
    s.store.inner.lookup ⟨⟨"/foo/bar.occur".toList⟩⟩ = some announced ∧ announced.attestation.isNone ∧
    t.store.inner.lookup ⟨⟨"/foo/bar.occur".toList⟩⟩ = some later ∧ later.attestation.isSome ∧
    later.event = announced.event ∧ t.store.Keyed := by
  let oracle := inMemory Sample.keychain (Sample.libraries 10007)
  let s := oracle.protocol.ran 0 (.addEvent ⟨⟨⟨"/foo/bar.occur".toList⟩⟩,none⟩) (.start .default)
  let t := oracle.protocol.ran 1 (.completeEvent ⟨⟨⟨⟨"/foo/bar.occur".toList⟩⟩,0⟩,⟨0,0⟩⟩) s
  have hadd : oracle.protocol.Reaches (.start .default) s := Runs.CheckThenAct.reaches_ran _ rfl
  have hcomplete : oracle.protocol.Reaches s t := Runs.CheckThenAct.reaches_ran _ rfl
  obtain ⟨hkeyed,hevolves,_⟩ := lifecycle (Sample.roundTrips 10007) (Sample.announcementsVerify 10007)
    hadd hcomplete
  have hsome : ((s.store.inner.lookup ⟨⟨"/foo/bar.occur".toList⟩⟩).map
      (fun announced => announced.attestation.isNone)) = some true := by decide +kernel
  have hdone : ((t.store.inner.lookup ⟨⟨"/foo/bar.occur".toList⟩⟩).map
      (fun later => later.attestation.isSome)) = some true := by decide +kernel
  obtain ⟨announced,hannounced,hnone⟩ := Option.map_eq_some_iff.mp hsome
  obtain ⟨later,hlater,hattested⟩ := Option.map_eq_some_iff.mp hdone
  obtain ⟨later',hlater',hevent,_⟩ := hevolves _ _ hannounced
  obtain rfl := Option.some.inj (hlater.symm.trans hlater')
  exact ⟨s,t,announced,later,hannounced,hnone,hlater,hattested,hevent,hkeyed⟩

end Runs
end Oracle
end Olivia
