import Olivia.Sources.OutcomeCreator
import Olivia.Sources.Ticker

/-! # Streams that wait for a time

A ticker asks for its latest event and an outcome source for the earliest that is not
attested, and both expect what they find to have a time. An event without one comes first
among the earliest and last among the latest, so the outcome source finds it as soon as it
is stored, and the ticker only while no event of its own has a time.
-/
namespace Olivia

structure TimeOutcomeStream (σ : Type) where
  db : PrefixedDb σ
  endsWith : Path
  eventKind : Option EventKind
  outcomeCreator : OutcomeCreator

namespace TimeOutcomeStream
variable {σ : Type} {C : Group} (stream : TimeOutcomeStream σ) (lib : Libraries C) (rng : Rng)

def query : EventQuery where
  attested := some false
  order := .earliest
  endsWith := stream.endsWith
  kind := stream.eventKind

/-- One turn of the loop: the time that it waits for and the outcome that it yields then. After
a database error, and where there is no event, the stream sleeps and asks again. -/
def next (now : NaiveDateTime) (s : σ) : MayPanic (Option (NaiveDateTime × StampedOutcome)) := do
  match ← stream.db.queryEvent stream.query s with
  | .ok (some event) =>
    let eventCompleteTime ← MayPanic.expect "time events always have this" event.expectedOutcomeTime
    let value ← stream.outcomeCreator.createOutcome lib rng event.id
    return some (eventCompleteTime,⟨⟨event.id,value⟩,now⟩)
  | .ok none => return none
  | .error _ => return none

end TimeOutcomeStream

namespace PrefixedDb
variable {σ : Type} {C : Group} {iteration : InMemory.Iteration C} {pathPrefix : Path} {query : EventQuery}
variable {s : InMemory C}

/-- An event that is selected for a query has a time. -/
def Timed (db : PrefixedDb σ) (query : EventQuery) (s : σ) : Prop :=
  ∀ event, db.queryEvent query s = .ok (.ok (some event)) → event.expectedOutcomeTime.isSome

/-- A query below a prefix asks for the event. -/
def AsksFor (pathPrefix : Path) (query : EventQuery) (announced : AnnouncedEvent C) : Prop :=
  ({ query with path := some ((query.path.getD Path.root).prefixPath pathPrefix) } : EventQuery).selects
    announced = .ok true

/-- The time of a stored event that a query asks for. -/
def Asked (pathPrefix : Path) (query : EventQuery) (s : InMemory C) (time : Option NaiveDateTime) : Prop :=
  ∃ id announced, s.inner.lookup id = some announced ∧ AsksFor pathPrefix query announced ∧
    announced.event.expectedOutcomeTime = time

theorem queryEvent_time {first : Option Event}
    (h : queryEvent ⟨InMemory.readEvent iteration,pathPrefix⟩ query s = .ok (.ok first)) :
    (first = none ∧ ∀ time, ¬ Asked pathPrefix query s time) ∨
    ∃ event, first = some event ∧ Asked pathPrefix query s event.expectedOutcomeTime ∧
      ∀ time, Asked pathPrefix query s time → match query.order with
        | .earliest => timeLe event.expectedOutcomeTime time = true
        | .latest => timeLe time event.expectedOutcomeTime = true := by
  obtain ⟨r,hr,h⟩ := MayPanic.bind_eq_ok.mp h
  obtain ⟨stored,rfl,rfl⟩ := MayPanic.map_eq_ok (Except.ok.inj h)
  rcases InMemory.queryEvent_eq_ok hr with ⟨rfl,hnone⟩ | ⟨id,announced,rfl,hl,hsel,hfirst⟩
  · refine Or.inl ⟨rfl,?_⟩
    rintro time ⟨id,announced,hl,hsel,_⟩
    exact hnone id announced hl hsel
  · refine Or.inr ⟨_,rfl,⟨id,announced,hl,hsel,rfl⟩,?_⟩
    rintro time ⟨id',announced',hl',hsel',rfl⟩
    have hle : query.order.le announced.event announced'.event = true := hfirst id' announced' hl' hsel'
    cases horder : query.order with
    | earliest =>
      rw [horder] at hle
      exact hle
    | latest =>
      rw [horder] at hle
      exact hle

/-- The earliest event has a time exactly where every event that is asked for has one. -/
theorem timed_earliest_iff (horder : query.order = .earliest)
    (hreturns : ∃ first, queryEvent ⟨InMemory.readEvent iteration,pathPrefix⟩ query s = .ok (.ok first)) :
    Timed ⟨InMemory.readEvent iteration,pathPrefix⟩ query s ↔ ¬ Asked pathPrefix query s none := by
  obtain ⟨first,hfirst⟩ := hreturns
  rcases queryEvent_time hfirst with ⟨rfl,hnone⟩ | ⟨event,rfl,hasked,hle⟩
  · refine iff_of_true ?_ (hnone none)
    intro event hevent
    cases hfirst.symm.trans hevent
  · simp only [horder] at hle
    constructor
    · intro htimed hnone
      have hsome := htimed event hfirst
      have hbefore := hle none hnone
      cases htime : event.expectedOutcomeTime with
      | none => simp [htime] at hsome
      | some time => simp [htime,timeLe] at hbefore
    · intro hnone other hother
      obtain rfl : event = other := by simpa using hfirst.symm.trans hother
      cases htime : event.expectedOutcomeTime with
      | none => exact absurd (htime ▸ hasked) hnone
      | some time => rfl

/-- The latest event has a time where one that is asked for has, or where none is without. -/
theorem timed_latest_iff (horder : query.order = .latest)
    (hreturns : ∃ first, queryEvent ⟨InMemory.readEvent iteration,pathPrefix⟩ query s = .ok (.ok first)) :
    Timed ⟨InMemory.readEvent iteration,pathPrefix⟩ query s ↔
      (Asked pathPrefix query s none → ∃ time, Asked pathPrefix query s (some time)) := by
  obtain ⟨first,hfirst⟩ := hreturns
  rcases queryEvent_time hfirst with ⟨rfl,hnone⟩ | ⟨event,rfl,hasked,hle⟩
  · refine iff_of_true ?_ (fun h => absurd h (hnone none))
    intro event hevent
    cases hfirst.symm.trans hevent
  · simp only [horder] at hle
    constructor
    · intro htimed _
      obtain ⟨time,htime⟩ := Option.isSome_iff_exists.mp (htimed event hfirst)
      exact ⟨time,htime ▸ hasked⟩
    · intro hsome other hother
      obtain rfl : event = other := by simpa using hfirst.symm.trans hother
      cases htime : event.expectedOutcomeTime with
      | none =>
        obtain ⟨time,htimed⟩ := hsome (htime ▸ hasked)
        have hafter := hle (some time) htimed
        simp [htime,timeLe] at hafter
      | some time => rfl

/-- An insertion asks for one event more, if the query asks for it. -/
theorem asked_insert {announced : AnnouncedEvent C} (hnone : s.inner.lookup announced.event.id = none)
    (time : Option NaiveDateTime) :
    Asked pathPrefix query { s with inner := s.inner.insert announced.event.id announced } time ↔
      Asked pathPrefix query s time ∨
        AsksFor pathPrefix query announced ∧ announced.event.expectedOutcomeTime = time := by
  simp only [Asked,lookup_insert]
  constructor
  · rintro ⟨id,found,hl,hasks,htime⟩
    split at hl
    next =>
      obtain rfl := Option.some.inj hl
      exact Or.inr ⟨hasks,htime⟩
    next => exact Or.inl ⟨id,found,hl,hasks,htime⟩
  · rintro (⟨id,found,hl,hasks,htime⟩ | ⟨hasks,htime⟩)
    · have hne : id ≠ announced.event.id := by
        rintro rfl
        cases hl.symm.trans hnone
      exact ⟨id,found,by rw [if_neg hne,hl],hasks,htime⟩
    · exact ⟨_,announced,if_pos rfl,hasks,htime⟩

end PrefixedDb

/-- A random or zero source below a path, on the in-memory store. -/
structure OutcomeSource (C : Group) where
  iteration : InMemory.Iteration C
  parent : Path
  endsWith : Path
  eventKind : Option EventKind
  outcomeCreator : OutcomeCreator

namespace OutcomeSource
open PrefixedDb
variable {C : Group}

def stream (source : OutcomeSource C) : TimeOutcomeStream (InMemory C) :=
  ⟨⟨InMemory.readEvent source.iteration,source.parent⟩,source.endsWith,source.eventKind,source.outcomeCreator⟩

/-- What keeps a time in every answer: an event without a time that is new in the store is not
asked for by the outcome source, and not by the ticker either unless an event with a time is. -/
def KeepsTimed (ticker : Ticker C) (source : OutcomeSource C) : OracleWrite C → InMemory C → Prop
  | .insertEvent announced,s => s.inner.lookup announced.event.id = none →
      announced.event.expectedOutcomeTime = none → ¬ AsksFor source.parent source.stream.query announced ∧
        (AsksFor ticker.parent ticker.query announced → ∃ time, Asked ticker.parent ticker.query s (some time))
  | .completeEvent _ _,_ => True

/-- What the outcome source is asked for has a time, and one of what the ticker is asked for. -/
structure Timely (ticker : Ticker C) (source : OutcomeSource C) (s : InMemory C) : Prop where
  outcomes : ¬ Asked source.parent source.stream.query s none
  ticks : Asked ticker.parent ticker.query s none → ∃ time, Asked ticker.parent ticker.query s (some time)

variable {ticker : Ticker C} {source : OutcomeSource C} {s : InMemory C} {announced : AnnouncedEvent C}

theorem attestation_of_asksFor (h : AsksFor source.parent source.stream.query announced) :
    announced.attestation = none := by
  obtain ⟨_,_,_,_,_,hattested⟩ := EventQuery.selects_eq_true.mp h
  have hnot : false = announced.attestation.isSome := hattested false rfl
  exact Option.not_isSome_iff_eq_none.mp (by simp [← hnot])

theorem asked_ticker_complete (id : EventId) (attestation : Attestation C) (time : Option NaiveDateTime) :
    Asked ticker.parent ticker.query (InMemory.completeEvent id attestation s).2 time ↔
      Asked ticker.parent ticker.query s time := by
  have hshown : ∀ id', ticker.Shown (InMemory.completeEvent id attestation s).2 id' time ↔ ticker.Shown s id' time :=
    fun id' => Ticker.shown_completeEvent attestation id id' time
  exact exists_congr hshown

/-- A completion takes events from the outcome source and adds none. -/
theorem asked_complete {id : EventId} {attestation : Attestation C}
    (h : Asked source.parent source.stream.query (InMemory.completeEvent id attestation s).2 none) :
    Asked source.parent source.stream.query s none := by
  rcases InMemory.completeEvent_cases id attestation s with ⟨found,_,_,hc⟩ | ⟨_,hc⟩
  · rw [hc] at h
    obtain ⟨id',announced,hl,hasks,htime⟩ := h
    rw [lookup_insert] at hl
    split at hl
    next =>
      obtain rfl := Option.some.inj hl
      cases attestation_of_asksFor hasks
    next => exact ⟨id',announced,hl,hasks,htime⟩
  · rwa [hc] at h

/-- A new event keeps a time in every answer exactly where the guard lets it in. -/
theorem timely_insert_iff (h : source.Timely ticker s) (hnone : s.inner.lookup announced.event.id = none) :
    source.Timely ticker { s with inner := s.inner.insert announced.event.id announced } ↔
      source.KeepsTimed ticker (.insertEvent announced) s := by
  constructor
  · intro hafter _ htime
    constructor
    · intro hasks
      exact hafter.outcomes ((asked_insert hnone none).mpr (Or.inr ⟨hasks,htime⟩))
    · intro hasks
      obtain ⟨time,hasked⟩ := hafter.ticks ((asked_insert hnone none).mpr (Or.inr ⟨hasks,htime⟩))
      rcases (asked_insert hnone (some time)).mp hasked with hbefore | ⟨_,hsome⟩
      · exact ⟨time,hbefore⟩
      · cases htime.symm.trans hsome
  · intro hkeeps
    constructor
    · intro hasked
      rcases (asked_insert hnone none).mp hasked with hbefore | ⟨hasks,htime⟩
      · exact h.outcomes hbefore
      · exact (hkeeps hnone htime).1 hasks
    · intro hasked
      have hsome : ∃ time, Asked ticker.parent ticker.query s (some time) := by
        rcases (asked_insert hnone none).mp hasked with hbefore | ⟨hasks,htime⟩
        · exact h.ticks hbefore
        · exact (hkeeps hnone htime).2 hasks
      obtain ⟨time,htime⟩ := hsome
      exact ⟨time,(asked_insert hnone (some time)).mpr (Or.inl htime)⟩

/-- Every write that is let in keeps it. -/
theorem write_timely {w : OracleWrite C} (h : source.Timely ticker s) (hw : source.KeepsTimed ticker w s) :
    source.Timely ticker (ticker.oracle.write w s).2 := by
  cases w with
  | insertEvent announced =>
    have hwrite : (ticker.oracle.write (.insertEvent announced) s).2 = (InMemory.insertEvent announced s).2 := rfl
    rw [hwrite]
    rcases InMemory.insertEvent_cases announced s with ⟨hnone,hi⟩ | ⟨_,hi⟩
    · rw [hi]
      exact (timely_insert_iff h hnone).mpr hw
    · rwa [hi]
  | completeEvent eventId attestation =>
    have hwrite : (ticker.oracle.write (.completeEvent eventId attestation) s).2 =
        (InMemory.completeEvent eventId attestation s).2 := rfl
    rw [hwrite]
    constructor
    · intro hasked
      exact h.outcomes (asked_complete hasked)
    · simp only [asked_ticker_complete]
      exact h.ticks

open Runs CheckThenAct

theorem timely_inductive : ticker.oracle.protocol.Inductive (source.KeepsTimed ticker) (source.Timely ticker)
    (fun _ _ _ => True) (fun _ _ => True) where
  check _ _ := trivial
  answer _ _ := trivial
  act hs _ hg := write_timely hs hg
  result _ _ _ := trivial
  stable _ _ _ _ := trivial

theorem timely_default : source.Timely ticker .default where
  outcomes := by
    rintro ⟨_,_,hl,_⟩
    cases hl
  ticks := by
    rintro ⟨_,_,hl,_⟩
    cases hl

/-- In every run in which new events without a time stay out of these answers, whatever is
selected for the ticker and for the outcome source has a time. -/
theorem selects_timed {t : Config (InMemory C) OracleCall (OracleWrite C) (MayPanic OracleReply)}
    (hr : ticker.oracle.protocol.ReachesWhen (source.KeepsTimed ticker) (.start .default) t)
    (initialTime : NaiveDateTime) :
    (ticker.stream initialTime).db.Timed (ticker.stream initialTime).query t.store ∧
      source.stream.db.Timed source.stream.query t.store := by
  have htimely := (timely_inductive.runs (Holds.start timely_default) hr).store
  constructor
  · intro event hevent
    exact (timed_latest_iff rfl ⟨_,hevent⟩).mpr htimely.ticks event hevent
  · intro event hevent
    exact (timed_earliest_iff rfl ⟨_,hevent⟩).mpr htimely.outcomes event hevent

section Sampled

/-- A zero source on everything below the path of the ticker. -/
def sampleSource : OutcomeSource (Sample.group 10007) := ⟨.entries,⟨"/time".toList⟩,.root,none,.zero⟩

/-- An event below that path was added, and nothing else happened. -/
def sampleAdded (time : Option NaiveDateTime) : Config (InMemory (Sample.group 10007)) OracleCall
    (OracleWrite (Sample.group 10007)) (MayPanic OracleReply) :=
  Ticker.sampleTicker.oracle.protocol.ran 0 (.addEvent ⟨⟨⟨"/time/foo.occur".toList⟩⟩,time⟩) (.start .default)

theorem selects_timed_minute :
    sampleSource.stream.db.queryEvent sampleSource.stream.query (sampleAdded (some ⟨60,0⟩)).store =
      .ok (.ok (some ⟨⟨⟨"/foo.occur".toList⟩⟩,some ⟨60,0⟩⟩)) ∧
    (Ticker.sampleTicker.stream ⟨0,0⟩).db.Timed (Ticker.sampleTicker.stream ⟨0,0⟩).query
      (sampleAdded (some ⟨60,0⟩)).store ∧
    sampleSource.stream.db.Timed sampleSource.stream.query (sampleAdded (some ⟨60,0⟩)).store := by
  refine ⟨by decide +kernel,selects_timed ?_ ⟨0,0⟩⟩
  refine reachesWhen_ran _ rfl ?_
  intro w hw
  obtain ⟨_,_,_,rfl⟩ := Oracle.read_addEvent hw
  intro _ htime
  cases htime

/-- One event without a time ends both streams. -/
theorem timeless_event_selected :
    (¬ ∀ (ticker : Ticker (Sample.group 10007)) (source : OutcomeSource (Sample.group 10007)) (initialTime : NaiveDateTime)
      (t : Config (InMemory (Sample.group 10007)) OracleCall (OracleWrite (Sample.group 10007)) (MayPanic OracleReply)),
      ticker.oracle.protocol.Reaches (.start .default) t →
        (ticker.stream initialTime).db.Timed (ticker.stream initialTime).query t.store ∧
        source.stream.db.Timed source.stream.query t.store) ∧
    sampleSource.stream.next (Sample.libraries 10007) OutcomeCreator.sampleRng ⟨0,0⟩ (sampleAdded none).store =
      .error (.expect "time events always have this") ∧
    (Ticker.sampleTicker.stream ⟨0,0⟩).next Ticker.sampleChrono (sampleAdded none).store =
      .error (.expect "time events always have this") := by
  refine ⟨?_,by decide +kernel,by decide +kernel⟩
  intro h
  have hreaches : Ticker.sampleTicker.oracle.protocol.Reaches (.start .default) (sampleAdded none) := reaches_ran _ rfl
  have htimed := (h Ticker.sampleTicker sampleSource ⟨0,0⟩ _ hreaches).2
  have hselected : sampleSource.stream.db.queryEvent sampleSource.stream.query (sampleAdded none).store =
      .ok (.ok (some ⟨⟨⟨"/foo.occur".toList⟩⟩,none⟩)) := by decide +kernel
  cases htimed _ hselected

end Sampled

end OutcomeSource
end Olivia
