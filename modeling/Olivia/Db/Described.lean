import Olivia.Core.Segments
import Olivia.Oracle.Lifecycle
import Olivia.Db.ReadEvent

/-! # What a query describes

A query describes events by the segments of their paths, and the in-memory store looks for
them by text. The two agree on how a path ends, but a text can begin like the path of the
query without being below it.
-/
namespace Olivia
variable {C : Group}

namespace EventQuery

/-- The conditions of a query besides its path. -/
def DescribesEnd (query : EventQuery) (announced : AnnouncedEvent C) (pathId : Path) : Prop :=
  (query.endsWith.isRoot ∨ query.endsWith.segments <:+ pathId.segments) ∧
  (∀ kind, query.kind = some kind → announced.event.id.eventKind = .ok kind) ∧
  ∀ attested, query.attested = some attested → attested = announced.attestation.isSome

/-- The events that a query describes. -/
def Describes (query : EventQuery) (announced : AnnouncedEvent C) : Prop :=
  ∃ pathId, announced.event.id.path = .ok pathId ∧
    (∀ path, query.path = some path → path.isParentOf pathId = true) ∧ query.DescribesEnd announced pathId

/-- Where a query can be answered: the stored ids have a path, and a kind where it is asked for. -/
def Answerable (query : EventQuery) (s : InMemory C) : Prop :=
  ∀ id announced, s.inner.lookup id = some announced → ∃ pathId, announced.event.id.path = .ok pathId ∧
    ((∀ path, query.path = some path → path.str <+: pathId.str) →
      (query.endsWith.isRoot ∨ query.endsWith.str <:+ pathId.str) → query.kind ≠ none →
        ∃ k, announced.event.id.eventKind = .ok k)

/-- Nothing else that the query describes the end of begins with the text of its path. -/
def NoneBeside (query : EventQuery) (s : InMemory C) : Prop :=
  ∀ id announced path pathId, s.inner.lookup id = some announced → query.path = some path →
    announced.event.id.path = .ok pathId → path.str <+: pathId.str → query.DescribesEnd announced pathId →
      path.isParentOf pathId = true

variable {query : EventQuery} {announced : AnnouncedEvent C} {s : InMemory C}

theorem selects_iff_describesEnd (hends : Path.fromStr query.endsWith.str = .ok query.endsWith) :
    query.selects announced = .ok true ↔ ∃ pathId, announced.event.id.path = .ok pathId ∧
      (∀ path, query.path = some path → path.str <+: pathId.str) ∧ query.DescribesEnd announced pathId := by
  obtain ⟨_,hhead,_⟩ := Path.fromStr_eq_ok.mp hends
  simp only [selects_eq_true,DescribesEnd,Path.segments_suffix_iff hhead]

theorem selects_of_describes (hends : Path.fromStr query.endsWith.str = .ok query.endsWith)
    (h : query.Describes announced) : query.selects announced = .ok true := by
  obtain ⟨pathId,hp,hbelow,hend⟩ := h
  refine (selects_iff_describesEnd hends).mpr ⟨pathId,hp,?_,hend⟩
  intro path hpath
  exact ((Path.isParentOf_iff_below path pathId).mp (hbelow path hpath)).begins

/-- A store of accepted ids can be asked anything. -/
theorem answerable_of_accepted (h : ∀ id announced, s.inner.lookup id = some announced →
    announced.event.id.Accepted) (query : EventQuery) : query.Answerable s := by
  intro id announced hl
  obtain ⟨p,k,hreads⟩ := (h id announced hl).reads
  exact ⟨p,hreads.path,fun _ _ _ => ⟨k,hreads.eventKind⟩⟩

end EventQuery

namespace InMemory
variable {iteration : Iteration C} {query : EventQuery} {s : InMemory C}

/-- A query returns the events that it describes, each once, in its order, and the first of them. -/
def QueriesDescribed (iteration : Iteration C) (query : EventQuery) (s : InMemory C) : Prop :=
  ∃ events, queryEvents iteration query s = .ok (.ok events) ∧ (events.map Event.id).Nodup ∧
    (∀ event, event ∈ events ↔ ∃ id announced, s.inner.lookup id = some announced ∧
      query.Describes announced ∧ announced.event = event) ∧
    events.Pairwise (fun a b => query.order.le a b = true) ∧
    queryEvent iteration query s = .ok (.ok events.head?)

theorem queryEvents_isOk_iff_answerable :
    (∃ events, queryEvents iteration query s = .ok (.ok events)) ↔ query.Answerable s :=
  queryEvents_isOk_iff.trans (forall₃_congr (fun _ _ _ => EventQuery.selects_isOk_iff))

/-- A query returns what it describes exactly where it can be answered and nothing beside its
path begins with the text of the path. -/
theorem queriesDescribed_iff (hs : s.Keyed) (hends : Path.fromStr query.endsWith.str = .ok query.endsWith) :
    QueriesDescribed iteration query s ↔ query.Answerable s ∧ query.NoneBeside s := by
  constructor
  · rintro ⟨events,h,_,hmem,_⟩
    refine ⟨queryEvents_isOk_iff_answerable.mp ⟨events,h⟩,?_⟩
    intro id announced path pathId hl hpath hp hpre hend
    have hsel : query.selects announced = .ok true := by
      refine (EventQuery.selects_iff_describesEnd hends).mpr ⟨pathId,hp,?_,hend⟩
      intro other hother
      obtain rfl := Option.some.inj (hpath.symm.trans hother)
      exact hpre
    have hevent := (mem_queryEvents h announced.event).mpr ⟨id,announced,hl,hsel,rfl⟩
    obtain ⟨id',announced',hl',⟨pathId',hp',hbelow,_⟩,hsame⟩ := (hmem announced.event).mp hevent
    rw [hsame] at hp'
    obtain rfl := Except.ok.inj (hp.symm.trans hp')
    exact hbelow path hpath
  · rintro ⟨hanswer,hbeside⟩
    obtain ⟨events,h⟩ : ∃ events, queryEvents iteration query s = .ok (.ok events) :=
      queryEvents_isOk_iff_answerable.mpr hanswer
    refine ⟨events,h,queryEvents_nodup hs h,?_,queryEvents_pairwise h,?_⟩
    · intro event
      rw [mem_queryEvents h]
      refine exists_congr (fun id => exists_congr (fun announced => and_congr_right (fun hl => ?_)))
      refine and_congr_left' ?_
      constructor
      · intro hsel
        obtain ⟨pathId,hp,hpre,hend⟩ := (EventQuery.selects_iff_describesEnd hends).mp hsel
        refine ⟨pathId,hp,?_,hend⟩
        intro path hpath
        exact hbeside id announced path pathId hl hpath hp (hpre path hpath) hend
      · exact EventQuery.selects_of_describes hends
    · rw [queryEvent,h,MayPanic.ok_bind,MayPanic.pure_eq]
      rfl

section Sampled
open Sample

/-- Without an event beside "/time", a query for what is below it returns just that. -/
theorem queriesDescribed_iff_below_time :
    QueriesDescribed .entries { path := some ⟨"/time".toList⟩ } (holding ["/time/x.occur","/day/x.occur"]) ↔
      EventQuery.Answerable { path := some ⟨"/time".toList⟩ } (holding ["/time/x.occur","/day/x.occur"]) ∧
        EventQuery.NoneBeside { path := some ⟨"/time".toList⟩ } (holding ["/time/x.occur","/day/x.occur"]) :=
  queriesDescribed_iff (holding_keyed _) (by decide +kernel)

/-- An event of "/time2" is returned to a query for those of "/time". -/
theorem event_beside_selected : ¬ ∀ (query : EventQuery) (s : InMemory (group 10007)), s.Keyed →
    Path.fromStr query.endsWith.str = .ok query.endsWith → QueriesDescribed .entries query s := by
  intro h
  obtain ⟨events,hevents,_,hmem,_⟩ := h { path := some ⟨"/time".toList⟩ }
    (holding ["/time/x.occur","/time2/x.occur"]) (holding_keyed _) (by decide +kernel)
  have hrun : queryEvents .entries { path := some ⟨"/time".toList⟩ } (holding ["/time/x.occur","/time2/x.occur"]) =
      .ok (.ok [⟨⟨⟨"/time2/x.occur".toList⟩⟩,none⟩,⟨⟨⟨"/time/x.occur".toList⟩⟩,none⟩]) := by decide +kernel
  obtain rfl := Except.ok.inj (Except.ok.inj (hrun.symm.trans hevents))
  obtain ⟨_,announced,_,⟨pathId,hp,hbelow,_⟩,hevent⟩ := (hmem ⟨⟨⟨"/time2/x.occur".toList⟩⟩,none⟩).mp (by simp)
  rw [hevent] at hp
  have hpath : EventId.path ⟨⟨"/time2/x.occur".toList⟩⟩ = .ok ⟨"/time2/x".toList⟩ := by decide +kernel
  obtain rfl := Except.ok.inj (hpath.symm.trans hp)
  have hnot := hbelow ⟨"/time".toList⟩ rfl
  revert hnot
  decide +kernel

end Sampled

end InMemory
end Olivia
