import Olivia.Db.ReadEvent

/-! # Queries under a prefix

A source sees the events below its own path, and sees them without that path: the prefix is
put before the path a query asks for and taken from the ids it returns.
-/
namespace Olivia

structure PrefixedDb (σ : Type) where
  inner : DbReadEvent σ
  pathPrefix : Path

namespace PrefixedDb
variable {σ : Type} (db : PrefixedDb σ)

def prefixedQuery (query : EventQuery) : EventQuery :=
  { query with path := some ((query.path.getD Path.root).prefixPath db.pathPrefix) }

def queryEvent (query : EventQuery) (s : σ) : MayPanic (Except DbError (Option Event)) := do
  let found ← db.inner.queryEvent (db.prefixedQuery query) s
  return found.map (Option.map (fun x => x.stripPrefixPath db.pathPrefix))

def queryEvents (query : EventQuery) (s : σ) : MayPanic (Except DbError (List Event)) := do
  let found ← db.inner.queryEvents (db.prefixedQuery query) s
  return found.map (List.map (fun x => x.stripPrefixPath db.pathPrefix))

def readEvent : DbReadEvent σ := ⟨db.queryEvent,db.queryEvents⟩

/-- What is found below the prefix, stripped. -/
theorem queryEvents_eq_ok_iff {query : EventQuery} {s : σ} {events : List Event} :
    db.queryEvents query s = .ok (.ok events) ↔ ∃ found,
      db.inner.queryEvents (db.prefixedQuery query) s = .ok (.ok found) ∧
        found.map (fun x => x.stripPrefixPath db.pathPrefix) = events := by
  rw [queryEvents,MayPanic.bind_eq_ok]
  constructor
  · rintro ⟨_,hfound,h⟩
    obtain ⟨found,rfl,hevents⟩ := MayPanic.map_eq_ok (Except.ok.inj h)
    exact ⟨found,hfound,hevents⟩
  · rintro ⟨found,hfound,rfl⟩
    exact ⟨_,hfound,rfl⟩

variable {C : Group} {iteration : InMemory.Iteration C} {pathPrefix path : Path} {s : InMemory C}
variable {events : List Event}

/-- What a source finds at a path: everything stored below it, stripped. -/
theorem mem_queryEvents_path (h : queryEvents ⟨InMemory.readEvent iteration,pathPrefix⟩
      { path := some path } s = .ok (.ok events)) (event : Event) :
    event ∈ events ↔ ∃ id announced pathId, s.inner.lookup id = some announced ∧
      announced.event.id.path = .ok pathId ∧ (path.prefixPath pathPrefix).str <+: pathId.str ∧
      announced.event.stripPrefixPath pathPrefix = event := by
  obtain ⟨found,hfound,rfl⟩ := (queryEvents_eq_ok_iff _).mp h
  simp only [List.mem_map,InMemory.mem_queryEvents hfound,prefixedQuery,Option.getD_some,EventQuery.selects_path]
  constructor
  · rintro ⟨_,⟨id,announced,hl,⟨pathId,hp,hq⟩,rfl⟩,rfl⟩
    exact ⟨id,announced,pathId,hl,hp,hq,rfl⟩
  · rintro ⟨id,announced,pathId,hl,hp,hq,rfl⟩
    exact ⟨_,⟨id,announced,hl,⟨pathId,hp,hq⟩,rfl⟩,rfl⟩

end PrefixedDb

/-- An id found below a path begins with every prefix of that path. -/
theorem EventId.begins_of_path {id : EventId} {pathPrefix path pathId : Path} (h : id.path = .ok pathId)
    (hq : (path.prefixPath pathPrefix).str <+: pathId.str) :
    pathPrefix.isRoot ∨ pathPrefix.str <+: id.raw.str := by
  by_cases hroot : pathPrefix.isRoot
  · exact Or.inl hroot
  · obtain ⟨text,hs⟩ := path_eq_ok h
    obtain ⟨_,_,_,hid,_⟩ := Path.stripEvent_eq_some.mp hs
    have hpre : pathPrefix.str <+: (path.prefixPath pathPrefix).str := by
      unfold Path.prefixPath
      split
      · exact List.prefix_rfl
      · exact List.prefix_append ..
    exact Or.inr ((hpre.trans hq).trans (hid ▸ List.prefix_append ..))

/-- A stripped id that still spells an event is the same event at the rest of the path. -/
theorem EventId.of_stripPrefixPath {id : EventId} {pathPrefix : Path} {k : EventKind}
    (h : pathPrefix.isRoot ∨ pathPrefix.str <+: id.raw.str)
    (hk : (id.stripPrefixPath pathPrefix).eventKind = .ok k) : id.eventKind = .ok k ∧
      ∃ path, (id.stripPrefixPath pathPrefix).path = .ok path ∧ id.path = .ok (path.under pathPrefix) := by
  obtain ⟨path,text,hs,htext⟩ := eventKind_eq_ok hk
  have hid := Path.stripEvent_under hs pathPrefix
  rw [stripPrefixPath,Path.under_stripPrefixPath h] at hid
  exact ⟨eventKind_eq hid htext,path,path_eq hs,path_eq hid⟩

theorem EventId.stripPrefixPath_inj {id id' : EventId} {mount : Path} (h : mount.isRoot ∨ mount.str <+: id.raw.str)
    (h' : mount.isRoot ∨ mount.str <+: id'.raw.str)
    (hsame : id.stripPrefixPath mount = id'.stripPrefixPath mount) : id = id' := by
  have hraw : id.raw.stripPrefixPath mount = id'.raw.stripPrefixPath mount := congrArg EventId.raw hsame
  have hunder : id.raw = id'.raw := by
    rw [← Path.under_stripPrefixPath h,← Path.under_stripPrefixPath h',hraw]
  exact EventId.ext hunder

namespace PrefixedDb
variable {C : Group} {iteration : InMemory.Iteration C} {pathPrefix path : Path} {s : InMemory C}
variable {events : List Event}

/-- Stripping keeps apart what was found. -/
theorem queryEvents_nodup (hs : s.Keyed) (h : queryEvents ⟨InMemory.readEvent iteration,pathPrefix⟩
    { path := some path } s = .ok (.ok events)) : (events.map Event.id).Nodup := by
  obtain ⟨found,hfound,rfl⟩ := (queryEvents_eq_ok_iff _).mp h
  have hstrip : (found.map (fun x => x.stripPrefixPath pathPrefix)).map Event.id =
      (found.map Event.id).map (fun id => id.stripPrefixPath pathPrefix) := by
    rw [List.map_map,List.map_map]
    rfl
  rw [hstrip]
  refine List.Nodup.map_on ?_ (InMemory.queryEvents_nodup hs hfound)
  have hbegins : ∀ id ∈ found.map Event.id, pathPrefix.isRoot ∨ pathPrefix.str <+: id.raw.str := by
    intro id hid
    obtain ⟨event,hevent,rfl⟩ := List.mem_map.mp hid
    obtain ⟨_,announced,_,hsel,rfl⟩ := (InMemory.mem_queryEvents hfound event).mp hevent
    obtain ⟨pathId,hpath,hpre⟩ := EventQuery.selects_path.mp hsel
    exact EventId.begins_of_path hpath hpre
  intro id hid id' hid' hsame
  exact EventId.stripPrefixPath_inj (hbegins id hid) (hbegins id' hid') hsame

/-- A query by path alone returns where every stored id has a path. -/
theorem queryEvents_path_isOk_iff : (∃ events, queryEvents ⟨InMemory.readEvent iteration,pathPrefix⟩
    { path := some path } s = .ok (.ok events)) ↔ ∀ id announced, s.inner.lookup id = some announced →
      ∃ pathId, announced.event.id.path = .ok pathId := by
  have hinner : (∃ events, queryEvents ⟨InMemory.readEvent iteration,pathPrefix⟩ { path := some path } s =
      .ok (.ok events)) ↔ ∃ found, InMemory.queryEvents iteration
        (prefixedQuery ⟨InMemory.readEvent iteration,pathPrefix⟩ { path := some path }) s = .ok (.ok found) := by
    constructor
    · rintro ⟨events,h⟩
      obtain ⟨found,hfound,_⟩ := (queryEvents_eq_ok_iff _).mp h
      exact ⟨found,hfound⟩
    · rintro ⟨found,hfound⟩
      exact ⟨_,(queryEvents_eq_ok_iff _).mpr ⟨found,hfound,rfl⟩⟩
  rw [hinner,InMemory.queryEvents_isOk_iff]
  refine forall₃_congr (fun id announced _ => ?_)
  rw [EventQuery.selects_isOk_iff]
  simp [prefixedQuery]

end PrefixedDb

end Olivia
