import Mathlib.Data.List.Sort
import Olivia.Core.Chrono
import Olivia.Db.InMemory

/-! # Querying events

A query selects events by the texts of their paths: a path asks for everything whose path
text it begins. What is selected is sorted by its expected time, events without one first.
-/
namespace Olivia

structure DbReadEvent (σ : Type) where
  queryEvent : EventQuery → σ → DbResult (Option Event)
  queryEvents : EventQuery → σ → DbResult (List Event)

def Order.le (order : Order) (a b : Event) : Bool :=
  match order with
  | .earliest => timeLe a.expectedOutcomeTime b.expectedOutcomeTime
  | .latest => timeLe b.expectedOutcomeTime a.expectedOutcomeTime

theorem Order.le_total (order : Order) (a b : Event) : order.le a b ∨ order.le b a := by
  cases order with
  | earliest => exact timeLe_total _ _
  | latest => exact timeLe_total _ _

theorem Order.le_trans {order : Order} {a b c : Event} (hab : order.le a b) (hbc : order.le b c) :
    order.le a c := by
  cases order with
  | earliest => exact timeLe_trans hab hbc
  | latest => exact timeLe_trans hbc hab

variable {C : Group}

def EventQuery.selects (query : EventQuery) (announced : AnnouncedEvent C) : MayPanic Bool := do
  let pathId ← announced.event.id.path
  if query.path.all (fun path => path.str.isPrefixOf pathId.str) &&
      (decide query.endsWith.isRoot || query.endsWith.str.isSuffixOf pathId.str) then
    let ofKind ← match query.kind with
      | some kind => do
        let eventKind ← announced.event.id.eventKind
        pure (decide (eventKind = kind))
      | none => pure true
    return ofKind && query.attested.all (fun attested => attested == announced.attestation.isSome)
  else return false

theorem EventQuery.path_all_iff {path : Option Path} {text : Str} :
    path.all (fun path => path.str.isPrefixOf text) = true ↔ ∀ p, path = some p → p.str <+: text := by
  cases path <;> simp

/-- What a query selects, one condition for each of its fields. -/
theorem EventQuery.selects_eq_true {query : EventQuery} {announced : AnnouncedEvent C} :
    query.selects announced = .ok true ↔ ∃ pathId, announced.event.id.path = .ok pathId ∧
      (∀ path, query.path = some path → path.str <+: pathId.str) ∧
      (query.endsWith.isRoot ∨ query.endsWith.str <:+ pathId.str) ∧
      (∀ kind, query.kind = some kind → announced.event.id.eventKind = .ok kind) ∧
      ∀ attested, query.attested = some attested → attested = announced.attestation.isSome := by
  obtain ⟨path,attested,order,endsWith,kind⟩ := query
  cases hp : announced.event.id.path with
  | error e => simp [selects,hp]
  | ok pathId =>
    have hattested : attested.all (fun attested => attested == announced.attestation.isSome) = true ↔
        ∀ a, attested = some a → a = announced.attestation.isSome := by cases attested <;> simp
    simp only [selects,hp,MayPanic.ok_bind,Except.ok.injEq,exists_eq_left',← path_all_iff,← hattested]
    split
    next hselected =>
      simp only [Bool.and_eq_true,Bool.or_eq_true,decide_eq_true_eq,List.isSuffixOf_iff_suffix] at hselected
      cases kind with
      | none => simp [hselected]
      | some kind => cases hk : announced.event.id.eventKind <;> simp [hselected]
    next hselected =>
      simp only [Bool.and_eq_true,Bool.or_eq_true,decide_eq_true_eq,List.isSuffixOf_iff_suffix] at hselected
      refine iff_of_false (by simp) ?_
      rintro ⟨hp,he,_⟩
      exact hselected ⟨hp,he⟩

/-- Whether an event is selected can be told where its id has a path, and a kind where it is asked for. -/
theorem EventQuery.selects_isOk_iff {query : EventQuery} {announced : AnnouncedEvent C} :
    (∃ selected, query.selects announced = .ok selected) ↔ ∃ pathId, announced.event.id.path = .ok pathId ∧
      ((∀ path, query.path = some path → path.str <+: pathId.str) →
        (query.endsWith.isRoot ∨ query.endsWith.str <:+ pathId.str) → query.kind ≠ none →
          ∃ k, announced.event.id.eventKind = .ok k) := by
  obtain ⟨path,attested,order,endsWith,kind⟩ := query
  cases hp : announced.event.id.path with
  | error e => simp [selects,hp]
  | ok pathId =>
    simp only [selects,hp,MayPanic.ok_bind,Except.ok.injEq,exists_eq_left',← path_all_iff]
    split
    next hselected =>
      simp only [Bool.and_eq_true,Bool.or_eq_true,decide_eq_true_eq,List.isSuffixOf_iff_suffix] at hselected
      cases kind with
      | none => simp
      | some kind => cases hk : announced.event.id.eventKind <;> simp [hselected]
    next hselected =>
      simp only [Bool.and_eq_true,Bool.or_eq_true,decide_eq_true_eq,List.isSuffixOf_iff_suffix] at hselected
      refine iff_of_true ⟨false,rfl⟩ ?_
      intro hp he
      exact absurd ⟨hp,he⟩ hselected

/-- A query by path alone selects by the beginning of the path text. -/
theorem EventQuery.selects_path {path : Path} {announced : AnnouncedEvent C} :
    ({ path := some path } : EventQuery).selects announced = .ok true ↔
      ∃ pathId, announced.event.id.path = .ok pathId ∧ path.str <+: pathId.str := by
  have hroot : Path.root.isRoot := rfl
  simp [selects_eq_true,hroot]

namespace InMemory

/-- The values of the map, in whatever order its hasher iterates them. -/
structure Iteration (C : Group) where
  values : InMemory C → List (AnnouncedEvent C)
  perm : ∀ s, (values s).Perm (s.inner.entries.map Sigma.snd)

/-- The order of the underlying list. -/
def Iteration.entries : Iteration C := ⟨fun s => s.inner.entries.map Sigma.snd,fun _ => .refl _⟩

variable (iteration : Iteration C)

def queryEvents (query : EventQuery) (s : InMemory C) : MayPanic (Except DbError (List Event)) := do
  let events ← MayPanic.filterMap (fun announced => do
    let selected ← query.selects announced
    return if selected then some announced else none) (iteration.values s)
  return .ok ((events.insertionSort (fun a b => query.order.le a.event b.event)).map AnnouncedEvent.event)

def queryEvent (query : EventQuery) (s : InMemory C) : MayPanic (Except DbError (Option Event)) := do
  let events ← queryEvents iteration query s
  return events.map List.head?

def readEvent : DbReadEvent (InMemory C) := ⟨queryEvent iteration,queryEvents iteration⟩

variable {iteration} {query : EventQuery} {s : InMemory C} {events : List Event}

theorem mem_values (iteration : Iteration C) {announced : AnnouncedEvent C} :
    announced ∈ iteration.values s ↔ ∃ id, s.inner.lookup id = some announced := by
  rw [(iteration.perm s).mem_iff,List.mem_map]
  constructor
  · rintro ⟨⟨id,_⟩,hmem,rfl⟩
    exact ⟨id,AList.mem_lookup_iff.mpr hmem⟩
  · rintro ⟨id,h⟩
    exact ⟨⟨id,announced⟩,AList.mem_lookup_iff.mp h,rfl⟩

/-- A query keeps of an event the event itself, where it selects it. -/
theorem kept_eq_some {a b : AnnouncedEvent C} (h : (do
    let selected ← query.selects a
    return if selected then some a else none) = .ok (some b)) : a = b ∧ query.selects a = .ok true := by
  obtain ⟨selected,hselected,h⟩ := MayPanic.bind_eq_ok.mp h
  cases selected with
  | false => simp at h
  | true => exact ⟨by simpa using h,hselected⟩

/-- A query that returns has looked at every event and returns those it selects. -/
theorem mem_queryEvents (h : queryEvents iteration query s = .ok (.ok events)) (event : Event) :
    event ∈ events ↔ ∃ id announced, s.inner.lookup id = some announced ∧
      query.selects announced = .ok true ∧ announced.event = event := by
  obtain ⟨found,hfound,h⟩ := MayPanic.bind_eq_ok.mp h
  obtain rfl := Except.ok.inj (Except.ok.inj h)
  obtain ⟨_,hmem⟩ := MayPanic.filterMap_eq_ok hfound
  have hselects : ∀ announced, announced ∈ found ↔
      (∃ id, s.inner.lookup id = some announced) ∧ query.selects announced = .ok true := by
    intro announced
    rw [hmem,← mem_values iteration]
    constructor
    · rintro ⟨a,ha,hs⟩
      obtain ⟨rfl,hsel⟩ := kept_eq_some hs
      exact ⟨ha,hsel⟩
    · rintro ⟨ha,hsel⟩
      exact ⟨announced,ha,by simp [hsel]⟩
  simp only [List.mem_map,List.mem_insertionSort,hselects]
  constructor
  · rintro ⟨announced,⟨⟨id,hl⟩,hsel⟩,rfl⟩
    exact ⟨id,announced,hl,hsel,rfl⟩
  · rintro ⟨id,announced,hl,hsel,rfl⟩
    exact ⟨announced,⟨⟨id,hl⟩,hsel⟩,rfl⟩

theorem values_ids_nodup (iteration : Iteration C) (h : s.Keyed) :
    ((iteration.values s).map (fun announced => announced.event.id)).Nodup := by
  have hkeys : (s.inner.entries.map Sigma.snd).map (fun announced => announced.event.id) =
      s.inner.entries.map Sigma.fst := by
    rw [List.map_map]
    refine List.map_congr_left ?_
    rintro ⟨id,announced⟩ hmem
    exact h id announced (AList.mem_lookup_iff.mpr hmem)
  rw [((iteration.perm s).map _).nodup_iff,hkeys]
  exact s.inner.nodupKeys

/-- A query returns nothing twice. -/
theorem queryEvents_nodup (hs : s.Keyed) (h : queryEvents iteration query s = .ok (.ok events)) :
    (events.map Event.id).Nodup := by
  obtain ⟨found,hfound,h⟩ := MayPanic.bind_eq_ok.mp h
  obtain rfl := Except.ok.inj (Except.ok.inj h)
  have hsub : (found.map (fun announced => announced.event.id)).Sublist
      ((iteration.values s).map (fun announced => announced.event.id)) := by
    refine MayPanic.filterMap_sublist ?_ hfound
    intro a b hab
    obtain ⟨rfl,_⟩ := kept_eq_some hab
    rfl
  have hperm := (List.perm_insertionSort (fun a b => query.order.le a.event b.event) found).map
    (fun announced : AnnouncedEvent C => announced.event.id)
  rw [List.map_map]
  exact hperm.nodup_iff.mpr ((values_ids_nodup iteration hs).sublist hsub)

/-- A query returns where it can tell of every stored event whether it is selected. -/
theorem queryEvents_isOk_iff : (∃ events, queryEvents iteration query s = .ok (.ok events)) ↔
    ∀ id announced, s.inner.lookup id = some announced → ∃ selected, query.selects announced = .ok selected := by
  constructor
  · rintro ⟨events,h⟩ id announced hl
    obtain ⟨found,hfound,_⟩ := MayPanic.bind_eq_ok.mp h
    obtain ⟨_,hb⟩ := MayPanic.filterMap_isOk_iff.mp ⟨found,hfound⟩ announced ((mem_values iteration).mpr ⟨id,hl⟩)
    obtain ⟨selected,hselected,_⟩ := MayPanic.bind_eq_ok.mp hb
    exact ⟨selected,hselected⟩
  · intro h
    obtain ⟨found,hfound⟩ : ∃ found, MayPanic.filterMap (fun announced => do
        let selected ← query.selects announced
        return if selected then some announced else none) (iteration.values s) = .ok found := by
      refine MayPanic.filterMap_isOk_iff.mpr ?_
      intro announced hmem
      obtain ⟨id,hl⟩ := (mem_values iteration).mp hmem
      obtain ⟨selected,hselected⟩ := h id announced hl
      exact ⟨_,by rw [hselected,MayPanic.ok_bind,MayPanic.pure_eq]⟩
    exact ⟨_,by rw [queryEvents,hfound,MayPanic.ok_bind,MayPanic.pure_eq]⟩

/-- What a query returns is in its order. -/
theorem queryEvents_pairwise (h : queryEvents iteration query s = .ok (.ok events)) :
    events.Pairwise (fun a b => query.order.le a b = true) := by
  obtain ⟨found,_,h⟩ := MayPanic.bind_eq_ok.mp h
  obtain rfl := Except.ok.inj (Except.ok.inj h)
  let ordered : AnnouncedEvent C → AnnouncedEvent C → Prop := fun a b => query.order.le a.event b.event = true
  have htotal : Std.Total ordered := ⟨fun a b => query.order.le_total a.event b.event⟩
  have htrans : IsTrans (AnnouncedEvent C) ordered := ⟨fun _ _ _ => Order.le_trans⟩
  have hsorted : (found.insertionSort ordered).Pairwise ordered := List.pairwise_insertionSort ordered found
  exact List.pairwise_map.mpr hsorted

/-- The first of a query's order is returned, if anything is selected. -/
theorem queryEvent_eq_ok {first : Option Event} (h : queryEvent iteration query s = .ok (.ok first)) :
    (first = none ∧ ∀ id announced, s.inner.lookup id = some announced → query.selects announced ≠ .ok true) ∨
    ∃ id announced, first = some announced.event ∧ s.inner.lookup id = some announced ∧
      query.selects announced = .ok true ∧ ∀ id' announced', s.inner.lookup id' = some announced' →
        query.selects announced' = .ok true → query.order.le announced.event announced'.event = true := by
  obtain ⟨r,hr,h⟩ := MayPanic.bind_eq_ok.mp h
  obtain ⟨events,rfl,rfl⟩ := MayPanic.map_eq_ok (Except.ok.inj h)
  have hmem := mem_queryEvents hr
  cases events with
  | nil =>
    refine Or.inl ⟨rfl,?_⟩
    intro id announced hl hsel
    have hnil := (hmem announced.event).mpr ⟨id,announced,hl,hsel,rfl⟩
    cases hnil
  | cons event rest =>
    obtain ⟨id,announced,hl,hsel,rfl⟩ := (hmem event).mp List.mem_cons_self
    refine Or.inr ⟨id,announced,rfl,hl,hsel,?_⟩
    intro id' announced' hl' hsel'
    have hmem' := (hmem announced'.event).mpr ⟨id',announced',hl',hsel',rfl⟩
    rcases List.mem_cons.mp hmem' with he | hrest
    · rw [he]
      exact or_self_iff.mp (query.order.le_total announced.event announced.event)
    · exact List.rel_of_pairwise_cons (queryEvents_pairwise hr) hrest

/-- Of the events that come first in a query's order, the one that is met first is returned. -/
theorem head?_queryEvents {announced : AnnouncedEvent C} {rest : List (AnnouncedEvent C)}
    (hvalues : iteration.values s = announced :: rest) (hselected : query.selects announced = .ok true)
    (hmin : ∀ id announced', s.inner.lookup id = some announced' → query.selects announced' = .ok true →
      query.order.le announced.event announced'.event = true)
    (h : queryEvents iteration query s = .ok (.ok events)) : events.head? = some announced.event := by
  obtain ⟨found,hfound,h⟩ := MayPanic.bind_eq_ok.mp h
  obtain rfl := Except.ok.inj (Except.ok.inj h)
  have hmem := (MayPanic.filterMap_eq_ok hfound).2
  rw [hvalues] at hfound
  obtain ⟨kept,hkept,hfound⟩ := MayPanic.bind_eq_ok.mp hfound
  obtain rfl : some announced = kept := by simpa [hselected] using hkept
  obtain ⟨others,_,hfound⟩ := MayPanic.bind_eq_ok.mp hfound
  obtain rfl : announced :: others = found := by simpa using hfound
  have hle : ∀ b ∈ others, query.order.le announced.event b.event = true := by
    intro b hb
    obtain ⟨a,ha,hab⟩ := (hmem b).mp (List.mem_cons_of_mem announced hb)
    obtain ⟨rfl,hsel⟩ := kept_eq_some hab
    obtain ⟨id,hl⟩ := (mem_values iteration).mp ha
    exact hmin id a hl hsel
  have hsort := List.insertionSort_cons_of_forall_rel (r := fun a b : AnnouncedEvent C =>
    query.order.le a.event b.event = true) hle
  rw [hsort]
  rfl

end InMemory
end Olivia
