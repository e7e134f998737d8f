import Olivia.Db.Basic
import Olivia.Secp256k1.Sample

/-! # The in-memory store

A map from ids to announced events, behind a lock that makes every access atomic. A second
event under an id and a second attestation of an event are refused.
-/
namespace Olivia

structure InMemory (C : Group) where
  publicKeys : Option (OracleKeys C)
  inner : AList (fun _ : EventId => AnnouncedEvent C)

namespace InMemory
variable {C : Group}

def default : InMemory C := ⟨none,∅⟩

def getAnnouncedEvent (id : EventId) (s : InMemory C) : DbResult (Option (AnnouncedEvent C)) :=
  .ok (.ok (s.inner.lookup id))

def insertEvent (observedEvent : AnnouncedEvent C) (s : InMemory C) : DbResult Unit × InMemory C :=
  match s.inner.lookup observedEvent.event.id with
  | some _ => (.ok (.error (.message (observedEvent.event.id.asStr ++ " already exists".toList))),s)
  | none => (.ok (.ok ()),{ s with inner := s.inner.insert observedEvent.event.id observedEvent })

def completeEvent (eventId : EventId) (attestation : Attestation C) (s : InMemory C) :
    DbResult Unit × InMemory C :=
  match s.inner.lookup eventId with
  | some event =>
    match event.attestation with
    | some _ => (.ok (.error (.message "This event has already been attested to".toList)),s)
    | none => (.ok (.ok ()),
        { s with inner := s.inner.insert eventId { event with attestation := some attestation } })
  | none => (.ok (.error (.message "Cannot complete event that does not exist".toList)),s)

def db : Db C (InMemory C) where
  getAnnouncedEvent := getAnnouncedEvent
  getPublicKeys s := .ok (.ok s.publicKeys)
  insertEvent := insertEvent
  completeEvent := completeEvent
  setPublicKeys publicKeys s := (.ok (.ok ()),{ s with publicKeys := some publicKeys })

variable {s : InMemory C} {id : EventId} {announced : AnnouncedEvent C}

theorem finds_iff : db.Finds s id announced ↔ s.inner.lookup id = some announced := by
  simp [Db.Finds,db,getAnnouncedEvent]

theorem insertEvent_of_none (h : s.inner.lookup announced.event.id = none) :
    insertEvent announced s =
      (.ok (.ok ()),{ s with inner := s.inner.insert announced.event.id announced }) := by
  simp [insertEvent,h]

/-- An insertion that is refused leaves the store alone. -/
theorem insertEvent_cases (announced : AnnouncedEvent C) (s : InMemory C) :
    (s.inner.lookup announced.event.id = none ∧ insertEvent announced s =
      (.ok (.ok ()),{ s with inner := s.inner.insert announced.event.id announced })) ∨
    ∃ e, insertEvent announced s = (.ok (.error e),s) := by
  cases h : s.inner.lookup announced.event.id with
  | none => exact Or.inl ⟨rfl,insertEvent_of_none h⟩
  | some found => exact Or.inr ⟨_,by rw [insertEvent,h]⟩

/-- Only a stored event without an attestation gets one. -/
theorem completeEvent_cases (id : EventId) (attestation : Attestation C) (s : InMemory C) :
    (∃ found, s.inner.lookup id = some found ∧ found.attestation = none ∧
      completeEvent id attestation s = (.ok (.ok ()),
        { s with inner := s.inner.insert id { found with attestation := some attestation } })) ∨
    ∃ e, completeEvent id attestation s = (.ok (.error e),s) := by
  cases h : s.inner.lookup id with
  | none => exact Or.inr ⟨_,by rw [completeEvent,h]⟩
  | some found =>
    cases ha : found.attestation with
    | some _ =>
      exact Or.inr ⟨.message "This event has already been attested to".toList,by
        simp only [completeEvent,h,ha]⟩
    | none =>
      refine Or.inl ⟨found,rfl,ha,?_⟩
      simp only [completeEvent,h,ha]

theorem db_lawful : (db : Db C (InMemory C)).Lawful where
  insert_finds {s t announced} _ hw := by
    rcases insertEvent_cases announced s with ⟨_,hi⟩ | ⟨e,hi⟩
    · obtain ⟨_,rfl⟩ := Prod.mk.inj (hi.symm.trans hw)
      rw [finds_iff,lookup_insert,if_pos rfl]
    · cases hi.symm.trans hw
  insert_keeps {s t announced found r id} hw hf := by
    rw [finds_iff] at hf
    rcases insertEvent_cases announced s with ⟨hnone,hi⟩ | ⟨e,hi⟩
    · obtain ⟨_,rfl⟩ := Prod.mk.inj (hi.symm.trans hw)
      have hne : id ≠ announced.event.id := by
        rintro rfl
        cases hf.symm.trans hnone
      rw [finds_iff,lookup_insert,if_neg hne,hf]
    · obtain ⟨_,rfl⟩ := Prod.mk.inj (hi.symm.trans hw)
      rwa [finds_iff]
  complete_finds {s t attestation found id} hw hf := by
    rw [finds_iff] at hf
    rcases completeEvent_cases id attestation s with ⟨found',hf',_,hi⟩ | ⟨e,hi⟩
    · obtain rfl : found = found' := Option.some.inj (hf.symm.trans hf')
      obtain ⟨_,rfl⟩ := Prod.mk.inj (hi.symm.trans hw)
      rw [finds_iff,lookup_insert,if_pos rfl]
    · cases hi.symm.trans hw
  complete_keeps {s t attestation found r id id'} hw hf := by
    rw [finds_iff] at hf
    rcases completeEvent_cases id' attestation s with ⟨found',hf',_,hi⟩ | ⟨e,hi⟩
    · obtain ⟨_,rfl⟩ := Prod.mk.inj (hi.symm.trans hw)
      by_cases h : id = id'
      · subst h
        obtain rfl : found = found' := Option.some.inj (hf.symm.trans hf')
        exact Or.inr ⟨rfl,by rw [finds_iff,lookup_insert,if_pos rfl]⟩
      · exact Or.inl (by rw [finds_iff,lookup_insert,if_neg h,hf])
    · obtain ⟨_,rfl⟩ := Prod.mk.inj (hi.symm.trans hw)
      exact Or.inl (by rwa [finds_iff])

def Keyed (s : InMemory C) : Prop :=
  ∀ id announced, s.inner.lookup id = some announced → announced.event.id = id

/-- A property of every entry. -/
def Every (R : EventId → AnnouncedEvent C → Prop) (s : InMemory C) : Prop :=
  ∀ id announced, s.inner.lookup id = some announced → R id announced

variable {R : EventId → AnnouncedEvent C → Prop}

theorem insertEvent_every {announced : AnnouncedEvent C} (hs : Every R s)
    (h : R announced.event.id announced) : Every R (insertEvent announced s).2 := by
  rcases insertEvent_cases announced s with ⟨_,hi⟩ | ⟨e,hi⟩
  · rw [hi]
    intro id found hf
    rw [lookup_insert] at hf
    split at hf
    next he => exact Option.some.inj hf ▸ he ▸ h
    next => exact hs _ _ hf
  · rwa [hi]

theorem completeEvent_every {id : EventId} {attestation : Attestation C} (hs : Every R s)
    (h : ∀ {announced}, s.inner.lookup id = some announced → R id announced →
      R id { announced with attestation := some attestation }) :
    Every R (completeEvent id attestation s).2 := by
  rcases completeEvent_cases id attestation s with ⟨found,hfound,_,hi⟩ | ⟨e,hi⟩
  · rw [hi]
    intro id' found' hf
    rw [lookup_insert] at hf
    split at hf
    next he => exact Option.some.inj hf ▸ he ▸ h hfound (hs _ _ hfound)
    next => exact hs _ _ hf
  · rwa [hi]

/-- Whatever is written, every event is stored under its own id. -/
theorem keyed_apply {s : InMemory C} (hs : s.Keyed) (op : DbOp C) : (db.apply op s).2.Keyed := by
  cases op with
  | insertEvent announced => exact insertEvent_every hs rfl
  | completeEvent eventId attestation => exact completeEvent_every hs (fun _ hid => hid)
  | setPublicKeys publicKeys => exact hs

theorem keyed_default : (default : InMemory C).Keyed := fun _ _ h => nomatch h

section Sampled
open Sample

/-- A store of events that were announced and inserted one after the other. -/
def holding (ids : List String) : InMemory (group 10007) :=
  (ids.filterMap (fun id => announcedEvent id.toList)).foldl (fun s event => (insertEvent event s).2) default

theorem holding_keyed (ids : List String) : (holding ids).Keyed :=
  List.foldlRecOn _ _ keyed_default (fun _ hs event _ => keyed_apply hs (.insertEvent event))

end Sampled

end InMemory
end Olivia
