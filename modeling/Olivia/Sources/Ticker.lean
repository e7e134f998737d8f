import Olivia.Db.Prefixed
import Olivia.Oracle.Lifecycle
import Olivia.Secp256k1.Sample

/-! # The ticker

A ticker adds an event for every tick of an interval. It keeps no count: for the next tick
it asks the database for the latest event of its kind and adds the interval to that time. So
a tick whose processing failed is emitted again, and a ticker that was restarted goes on
where the stored events end.
-/
namespace Olivia

structure TimeEventStream (σ : Type) where
  db : PrefixedDb σ
  lookAhead : Duration
  interval : Duration
  initialTime : NaiveDateTime
  endsWith : Path
  eventKind : EventKind

namespace TimeEventStream
variable {σ : Type} (stream : TimeEventStream σ) (chrono : Chrono)

def createUpdate (dt : NaiveDateTime) : Event :=
  ⟨EventId.fromPathAndKind (stream.endsWith.prefixPath (Path.fromDt chrono dt)) stream.eventKind,some dt⟩

def query : EventQuery where
  endsWith := stream.endsWith
  kind := some stream.eventKind
  order := .latest

/-- One turn of the loop, up to what it yields: the time it waits for and the new event. A
database error stops the stream. -/
def next (s : σ) : MayPanic (Option (Option NaiveDateTime × Event)) := do
  match ← stream.db.queryEvent stream.query s with
  | .ok (some latest) =>
    let latest ← MayPanic.expect "time events always have this" latest.expectedOutcomeTime
    let nextEvent ← chrono.add latest stream.interval
    let addWhen ← chrono.sub nextEvent stream.lookAhead
    return some (some addWhen,stream.createUpdate chrono nextEvent)
  | .ok none => return some (none,stream.createUpdate chrono stream.initialTime)
  | .error _ => return none

end TimeEventStream

/-- Where a ticker and the oracle that it feeds are: an event is emitted once its time has
come, and the oracle reads for it before it writes. -/
inductive TickerPhase (C : Group)
  | querying
  | emitting (addWhen : Option NaiveDateTime) (update : Event)
  | adding (w : OracleWrite C)
  | stopped

structure TickerState (C : Group) where
  db : InMemory C
  initialTime : NaiveDateTime
  phase : TickerPhase C

/-- A ticker below a path, feeding an oracle on the in-memory store. -/
structure Ticker (C : Group) where
  keychain : KeyChain C
  lib : Libraries C
  chrono : Chrono
  iteration : InMemory.Iteration C
  parent : Path
  lookAhead : Duration
  interval : Duration
  endsWith : Path
  eventKind : EventKind

namespace Ticker
variable {C : Group} (ticker : Ticker C)

def oracle : Oracle C (InMemory C) := .inMemory ticker.keychain ticker.lib

def prefixedDb : PrefixedDb (InMemory C) := ⟨InMemory.readEvent ticker.iteration,ticker.parent⟩

def stream (initialTime : NaiveDateTime) : TimeEventStream (InMemory C) :=
  ⟨ticker.prefixedDb,ticker.lookAhead,ticker.interval,initialTime,ticker.endsWith,ticker.eventKind⟩

/-- The query of the stream, whatever its initial time. -/
def query : EventQuery where
  endsWith := ticker.endsWith
  kind := some ticker.eventKind
  order := .latest

/-- An event that the ticker asks for. -/
def Matches (announced : AnnouncedEvent C) : Prop :=
  (ticker.prefixedDb.prefixedQuery ticker.query).selects announced = .ok true

instance (announced : AnnouncedEvent C) : Decidable (ticker.Matches announced) :=
  inferInstanceAs (Decidable (_ = _))

/-- The phase after a turn of the loop. -/
def queried (initialTime : NaiveDateTime) (db : InMemory C) : TickerPhase C :=
  match (ticker.stream initialTime).next ticker.chrono db with
  | .ok (some (addWhen,update)) => .emitting addWhen update
  | .ok none => .stopped
  | .error _ => .stopped

/-- Whatever the oracle returns the stream goes on; a panic of the oracle ends both. -/
def processed : MayPanic OracleReply → TickerPhase C
  | .ok _ => .querying
  | .error _ => .stopped

def checked (update : Event) (db : InMemory C) : TickerPhase C :=
  match ticker.oracle.read (.addEvent (update.prefixPath ticker.parent)) db with
  | .inl r => processed r
  | .inr w => .adding w

/-- A write of somebody else, who adds no event that the ticker asks for. -/
def Foreign : DbOp C → Prop
  | .insertEvent announced => ¬ ticker.Matches announced
  | _ => True

inductive Step : TickerState C → TickerState C → Prop
  | query {db initialTime} :
      Step ⟨db,initialTime,.querying⟩ ⟨db,initialTime,ticker.queried initialTime db⟩
  | check {db initialTime addWhen update} :
      Step ⟨db,initialTime,.emitting addWhen update⟩ ⟨db,initialTime,ticker.checked update db⟩
  | write {db initialTime w} : Step ⟨db,initialTime,.adding w⟩
      ⟨(ticker.oracle.write w db).2,initialTime,processed (ticker.oracle.write w db).1⟩
  | failed {s} (h : s.phase ≠ .stopped) : Step s { s with phase := .querying }
  -- one task owns the stream and awaits the oracle, so a write under way ends with the stream
  | restart {s} (initialTime : NaiveDateTime) : Step s ⟨s.db,initialTime,.querying⟩
  | other {s} {op : DbOp C} (h : ticker.Foreign op) : Step s { s with db := (InMemory.db.apply op s.db).2 }

abbrev Reaches := Relation.ReflTransGen ticker.Step

/-- A stored event that the ticker asks for, and its time. -/
def Shown (db : InMemory C) (id : EventId) (time : Option NaiveDateTime) : Prop :=
  ∃ announced, db.inner.lookup id = some announced ∧ ticker.Matches announced ∧
    announced.event.expectedOutcomeTime = time

/-- The times of the ticks since `t₀`. -/
abbrev Tick (t₀ : NaiveDateTime) : ℕ → Option NaiveDateTime → Prop := ticker.chrono.Tick t₀ ticker.interval

/-- The time after the first `n` ticks, which is the initial time before there is any. -/
def NextTick (t₀ initialTime : NaiveDateTime) : ℕ → Option NaiveDateTime → Prop
  | 0,time => time = some initialTime
  | n+1,time => ticker.Tick t₀ (n+1) time

variable {ticker} {db : InMemory C} {t₀ initialTime : NaiveDateTime} {n : ℕ} {time : Option NaiveDateTime}
variable {s t : TickerState C} {announced : AnnouncedEvent C} {id : EventId}

/-- The ticker asks for the events of its kind below its parent whose path ends as it should. -/
theorem matches_iff : ticker.Matches announced ↔ ∃ pathId, announced.event.id.path = .ok pathId ∧
    ticker.parent.str <+: pathId.str ∧ (ticker.endsWith.isRoot ∨ ticker.endsWith.str <:+ pathId.str) ∧
    announced.event.id.eventKind = .ok ticker.eventKind := by
  have hparent : Path.root.prefixPath ticker.parent = ticker.parent := rfl
  simp [Matches,EventQuery.selects_eq_true,PrefixedDb.prefixedQuery,query,prefixedDb,hparent]

/-- An attestation does not change what the ticker asks for. -/
theorem matches_attestation (attestation : Option (Attestation C)) :
    ticker.Matches { announced with attestation } ↔ ticker.Matches announced := by
  rw [matches_iff,matches_iff]

/-- An insertion shows one event more, if the ticker asks for it. -/
theorem shown_insert (hnone : db.inner.lookup announced.event.id = none) (id : EventId)
    (time : Option NaiveDateTime) :
    ticker.Shown { db with inner := db.inner.insert announced.event.id announced } id time ↔
      ticker.Shown db id time ∨
        ticker.Matches announced ∧ id = announced.event.id ∧ time = announced.event.expectedOutcomeTime := by
  simp only [Shown,lookup_insert]
  by_cases hid : id = announced.event.id
  · subst hid
    simp [hnone,eq_comm]
  · simp [hid]

theorem shown_insert_of_not (hm : ¬ ticker.Matches announced) (hnone : db.inner.lookup announced.event.id = none)
    (id : EventId) (time : Option NaiveDateTime) :
    ticker.Shown { db with inner := db.inner.insert announced.event.id announced } id time ↔
      ticker.Shown db id time := by
  simp [shown_insert hnone,hm]

theorem shown_completeEvent (attestation : Attestation C) (id' : EventId) (id : EventId)
    (time : Option NaiveDateTime) :
    ticker.Shown (InMemory.completeEvent id' attestation db).2 id time ↔ ticker.Shown db id time := by
  rcases InMemory.completeEvent_cases id' attestation db with ⟨found,hl,_,h⟩ | ⟨_,h⟩
  · rw [h]
    simp only [Shown,lookup_insert]
    by_cases hid : id = id'
    · subst hid
      simp [hl,matches_attestation]
    · simp [hid]
  · rw [h]

/-- What others write leaves the events of the ticker as they are. -/
theorem shown_foreign {op : DbOp C} (h : ticker.Foreign op) (id : EventId) (time : Option NaiveDateTime) :
    ticker.Shown (InMemory.db.apply op db).2 id time ↔ ticker.Shown db id time := by
  cases op with
  | insertEvent announced =>
    rcases InMemory.insertEvent_cases announced db with ⟨hnone,hi⟩ | ⟨_,hi⟩
    · simp only [Db.apply,InMemory.db,hi]
      exact shown_insert_of_not h hnone id time
    · simp only [Db.apply,InMemory.db,hi]
  | completeEvent eventId attestation => exact shown_completeEvent attestation eventId id time
  | setPublicKeys publicKeys => exact Iff.rfl

/-- What is emitted follows the latest of the ticker's events, or starts a ticker without any. -/
theorem next_eq_ok {addWhen : Option NaiveDateTime} {update : Event}
    (h : (ticker.stream initialTime).next ticker.chrono db = .ok (some (addWhen,update))) :
    ((∀ id time, ¬ ticker.Shown db id time) ∧ update.expectedOutcomeTime = some initialTime) ∨
    ∃ id latest nextEvent, ticker.Shown db id (some latest) ∧
      (∀ id' time, ticker.Shown db id' time → timeLe time (some latest) = true) ∧
      ticker.chrono.add latest ticker.interval = .ok nextEvent ∧
      update.expectedOutcomeTime = some nextEvent := by
  obtain ⟨found,hfound,h⟩ := MayPanic.bind_eq_ok.mp h
  obtain ⟨stored,hstored,hfound⟩ := MayPanic.bind_eq_ok.mp hfound
  obtain rfl := Except.ok.inj hfound
  cases stored with
  | error e => simp [Except.map] at h
  | ok stored =>
    rcases InMemory.queryEvent_eq_ok hstored with ⟨rfl,hnone⟩ | ⟨id,announced,rfl,hl,hm,hmax⟩
    · obtain ⟨_,rfl⟩ := Prod.mk.inj (Option.some.inj (Except.ok.inj h))
      refine Or.inl ⟨?_,rfl⟩
      rintro id time ⟨announced,hl,hm,_⟩
      exact hnone id announced hl hm
    · obtain ⟨latest,hlatest,h⟩ := MayPanic.bind_eq_ok.mp h
      obtain ⟨nextEvent,hnext,h⟩ := MayPanic.bind_eq_ok.mp h
      obtain ⟨_,_,h⟩ := MayPanic.bind_eq_ok.mp h
      obtain ⟨_,rfl⟩ := Prod.mk.inj (Option.some.inj (Except.ok.inj h))
      have htime : announced.event.expectedOutcomeTime = some latest :=
        MayPanic.expect_eq_ok.mp hlatest
      refine Or.inr ⟨id,latest,nextEvent,⟨announced,hl,hm,htime⟩,?_,hnext,rfl⟩
      rintro id' time ⟨announced',hl',hm',rfl⟩
      exact htime ▸ hmax id' announced' hl' hm'

/-- The next event that is emitted has the next time. -/
theorem next_nextTick (hchrono : ticker.chrono.Additive) (hinterval : 0 < ticker.interval)
    (h : Runs.Enumerates (ticker.Tick t₀) (ticker.Shown db) n) {addWhen : Option NaiveDateTime} {update : Event}
    (hnext : (ticker.stream initialTime).next ticker.chrono db = .ok (some (addWhen,update))) :
    ticker.NextTick t₀ initialTime n update.expectedOutcomeTime := by
  rcases next_eq_ok hnext with ⟨hnone,htime⟩ | ⟨id,latest,nextEvent,hshown,hmax,hadd,htime⟩
  · cases n with
    | zero => exact htime
    | succ n =>
      obtain ⟨time,ht⟩ := h.defined n n.lt_succ_self
      obtain ⟨id,hid⟩ := (h.times time).mpr ⟨n,n.lt_succ_self,ht⟩
      exact absurd hid (hnone id time)
  · obtain ⟨m,rfl,hm⟩ := h.latest (hchrono.schedule hinterval) hshown hmax
    rw [htime]
    exact hchrono.tick_succ hinterval hm hadd

/-- What the phase has in hand has the next time. -/
def Promises (ticker : Ticker C) (t₀ initialTime : NaiveDateTime) (n : ℕ) : TickerPhase C → Prop
  | .emitting _ update => ticker.NextTick t₀ initialTime n update.expectedOutcomeTime
  | .adding (.insertEvent announced) => ticker.NextTick t₀ initialTime n announced.event.expectedOutcomeTime
  | .adding (.completeEvent _ _) => False
  | _ => True

theorem promises_processed (r : MayPanic OracleReply) :
    ticker.Promises t₀ initialTime n (processed r : TickerPhase C) := by
  cases r <;> trivial

/-- The stored events are the ticks, and the next tick is under way. -/
structure Holds (ticker : Ticker C) (t₀ : NaiveDateTime) (n : ℕ) (s : TickerState C) : Prop where
  enumerates : Runs.Enumerates (ticker.Tick t₀) (ticker.Shown s.db) n
  promises : ticker.Promises t₀ s.initialTime n s.phase

/-- An event at the next time that the oracle inserts is one more tick, the first one if
there was none. -/
theorem enumerates_insert (hchrono : ticker.chrono.Additive) (hinterval : 0 < ticker.interval)
    (h : Runs.Enumerates (ticker.Tick t₀) (ticker.Shown db) n)
    (hnext : ticker.NextTick t₀ initialTime n announced.event.expectedOutcomeTime)
    (hnone : db.inner.lookup announced.event.id = none) (hm : ticker.Matches announced) :
    ∃ t₁, Runs.Enumerates (ticker.Tick t₁)
      (ticker.Shown { db with inner := db.inner.insert announced.event.id announced }) (n+1) := by
  have hrefl : ∀ time, timeLe time time = true := fun time => or_self_iff.mp (timeLe_total time time)
  have hshown : ∀ id time, ticker.Shown { db with inner := db.inner.insert announced.event.id announced } id time ↔
      ticker.Shown db id time ∨ id = announced.event.id ∧ time = announced.event.expectedOutcomeTime := by
    intro id time
    simp [shown_insert hnone,hm]
  cases n with
  | zero =>
    have htick : ticker.Tick initialTime 0 announced.event.expectedOutcomeTime := by
      rw [show announced.event.expectedOutcomeTime = some initialTime from hnext]
      exact hchrono.tick_zero
    have hempty : Runs.Enumerates (ticker.Tick initialTime) (ticker.Shown db) 0 := .empty h.not_shown
    exact ⟨initialTime,hempty.snoc (hchrono.schedule hinterval) hrefl htick hshown⟩
  | succ n => exact ⟨t₀,h.snoc (hchrono.schedule hinterval) hrefl hnext hshown⟩

theorem write_holds (hchrono : ticker.chrono.Additive) (hinterval : 0 < ticker.interval) {w : OracleWrite C}
    (h : ticker.Holds t₀ n ⟨db,initialTime,.adding w⟩) : ∃ t₁ m,
      ticker.Holds t₁ m ⟨(ticker.oracle.write w db).2,initialTime,processed (ticker.oracle.write w db).1⟩ := by
  cases w with
  | completeEvent eventId attestation => exact h.promises.elim
  | insertEvent announced =>
    have hwrite : (ticker.oracle.write (.insertEvent announced) db).2 = (InMemory.insertEvent announced db).2 := rfl
    rw [hwrite]
    rcases InMemory.insertEvent_cases announced db with ⟨hnone,hi⟩ | ⟨_,hi⟩
    · rw [hi]
      by_cases hm : ticker.Matches announced
      · obtain ⟨t₁,hinserted⟩ := enumerates_insert hchrono hinterval h.enumerates h.promises hnone hm
        exact ⟨t₁,n+1,hinserted,promises_processed _⟩
      · exact ⟨t₀,n,h.enumerates.congr (shown_insert_of_not hm hnone),promises_processed _⟩
    · rw [hi]
      exact ⟨t₀,n,h.enumerates,promises_processed _⟩

theorem checked_promises {update : Event}
    (h : ticker.NextTick t₀ initialTime n update.expectedOutcomeTime) :
    ticker.Promises t₀ initialTime n (ticker.checked update db) := by
  unfold checked
  split
  next => exact promises_processed _
  next w hread =>
    obtain ⟨_,announcement,_,rfl⟩ := Oracle.read_addEvent hread
    exact h

/-- What every step preserves. -/
theorem step_holds (hchrono : ticker.chrono.Additive) (hinterval : 0 < ticker.interval)
    (h : ticker.Holds t₀ n s) (hst : ticker.Step s t) : ∃ t₁ m, ticker.Holds t₁ m t := by
  cases hst with
  | @query db initialTime =>
    refine ⟨t₀,n,h.enumerates,?_⟩
    unfold queried
    split
    next hnext => exact next_nextTick hchrono hinterval h.enumerates hnext
    next => trivial
    next => trivial
  | check => exact ⟨t₀,n,h.enumerates,checked_promises h.promises⟩
  | write => exact write_holds hchrono hinterval h
  | failed _ => exact ⟨t₀,n,h.enumerates,trivial⟩
  | restart initialTime => exact ⟨t₀,n,h.enumerates,trivial⟩
  | other hop => exact ⟨t₀,n,h.enumerates.congr (shown_foreign hop),h.promises⟩

theorem reaches_holds (hchrono : ticker.chrono.Additive) (hinterval : 0 < ticker.interval)
    (h : ticker.Holds t₀ n s) (hr : ticker.Reaches s t) : ∃ t₁ m, ticker.Holds t₁ m t := by
  induction hr with
  | refl => exact ⟨t₀,n,h⟩
  | tail _ hst ih =>
    obtain ⟨t₁,m,h⟩ := ih
    exact step_holds hchrono hinterval h hst

/-- In every run the stored events of the ticker are at the first `n` times of a schedule, one
at each, and whatever it emits is at the next time. -/
theorem ticks_contiguous (hchrono : ticker.chrono.Additive) (hinterval : 0 < ticker.interval)
    (hr : ticker.Reaches ⟨.default,initialTime,.querying⟩ s) :
    ∃ t₀ n, Runs.Enumerates (ticker.Tick t₀) (ticker.Shown s.db) n ∧
      (∀ addWhen update, s.phase = .emitting addWhen update →
        ticker.NextTick t₀ s.initialTime n update.expectedOutcomeTime) ∧
      ∀ addWhen update, (ticker.stream s.initialTime).next ticker.chrono s.db = .ok (some (addWhen,update)) →
        ticker.NextTick t₀ s.initialTime n update.expectedOutcomeTime := by
  have hempty : Runs.Enumerates (ticker.Tick initialTime) (ticker.Shown .default) 0 := by
    refine .empty ?_
    rintro id time ⟨announced,hl,_⟩
    cases hl
  have hstart : ticker.Holds initialTime 0 ⟨.default,initialTime,.querying⟩ := ⟨hempty,trivial⟩
  obtain ⟨t₀,n,h⟩ := reaches_holds hchrono hinterval hstart hr
  refine ⟨t₀,n,h.enumerates,?_,fun _ _ hnext => next_nextTick hchrono hinterval h.enumerates hnext⟩
  intro addWhen update hphase
  have hpromises := h.promises
  rwa [hphase] at hpromises

section Sampled

/-- The step that ticker and oracle take by themselves. -/
def turn (ticker : Ticker C) (s : TickerState C) : TickerState C :=
  match s.phase with
  | .querying => ⟨s.db,s.initialTime,ticker.queried s.initialTime s.db⟩
  | .emitting _ update => ⟨s.db,s.initialTime,ticker.checked update s.db⟩
  | .adding w => ⟨(ticker.oracle.write w s.db).2,s.initialTime,processed (ticker.oracle.write w s.db).1⟩
  | .stopped => s

theorem reaches_turn (s : TickerState C) : ticker.Reaches s (ticker.turn s) := by
  obtain ⟨db,initialTime,phase⟩ := s
  cases phase with
  | querying => exact .single .query
  | emitting addWhen update => exact .single .check
  | adding w => exact .single .write
  | stopped => exact .refl

theorem reaches_turns (s : TickerState C) (k : ℕ) : ticker.Reaches s (ticker.turn^[k] s) := by
  induction k with
  | zero => exact .refl
  | succ k ih =>
    rw [Function.iterate_succ_apply']
    exact ih.trans (reaches_turn _)

def nanoseconds (t : NaiveDateTime) : ℤ := t.seconds*1000000000+t.nanosecond.toNat

def timeAt (nanoseconds : ℤ) : NaiveDateTime :=
  ⟨nanoseconds/1000000000,UInt32.ofNat (nanoseconds%1000000000).toNat⟩

theorem nanosecond_timeAt (k : ℤ) : ((timeAt k).nanosecond.toNat : ℤ) = k%1000000000 := by
  have hlt : (k%1000000000).toNat < UInt32.size := by
    rw [UInt32.size]
    omega
  simp only [timeAt,UInt32.toNat_ofNat_of_lt' hlt]
  omega

theorem nanoseconds_timeAt (k : ℤ) : nanoseconds (timeAt k) = k := by
  have hnano := nanosecond_timeAt k
  have hseconds : (timeAt k).seconds = k/1000000000 := rfl
  rw [nanoseconds]
  omega

/-- A date is before the time that any number of nanoseconds beyond its own stands for. -/
theorem timeAt_later {t : NaiveDateTime} {k : ℤ} (h : nanoseconds t < k) : (timeAt k).le t = false := by
  have hnano := nanosecond_timeAt k
  have hseconds : (timeAt k).seconds = k/1000000000 := rfl
  rw [Bool.eq_false_iff,Ne,NaiveDateTime.le_iff]
  unfold nanoseconds at h
  omega

def twoDigits (n : ℕ) : Str := if n < 10 then '0' :: Text.decimal n else Text.decimal n

/-- The dates of the first day, which has no leap second. -/
def sampleChrono : Chrono where
  add t d := .ok (if d = 0 then t else timeAt (nanoseconds t+d))
  sub t d := .ok (if d = 0 then t else timeAt (nanoseconds t-d))
  format t := "1970-01-01T".toList ++ twoDigits (t.seconds.toNat/3600) ++ ':' ::
    twoDigits (t.seconds.toNat/60%60) ++ ':' :: twoDigits (t.seconds.toNat%60)

theorem sampleChrono_additive : sampleChrono.Additive where
  add_zero t := rfl
  add_add {t u a b} ha hb h := by
    obtain rfl := Except.ok.inj h
    by_cases hzero : a = 0
    · simp [hzero]
    · by_cases hb' : b = 0
      · simp [sampleChrono,hb']
      · have hsum : a+b ≠ 0 := (add_pos_of_pos_of_nonneg (ha.lt_of_ne' hzero) hb).ne'
        simp [sampleChrono,hzero,hb',hsum,nanoseconds_timeAt,add_assoc]
  later {t u a} ha h := by
    obtain rfl := Except.ok.inj h
    rw [if_neg ha.ne']
    exact timeAt_later (lt_add_of_pos_right _ ha)

/-- An event for every minute. -/
def sampleTicker : Ticker (Sample.group 10007) where
  keychain := Sample.keychain
  lib := Sample.libraries 10007
  chrono := sampleChrono
  iteration := .entries
  parent := ⟨"/time".toList⟩
  lookAhead := 3600000000000
  interval := 60000000000
  endsWith := .root
  eventKind := .singleOccurrence

/-- One minute is stored and the next emitted. -/
def sampleEmitted : TickerState (Sample.group 10007) := sampleTicker.turn^[4] ⟨.default,⟨0,0⟩,.querying⟩

/-- The stream was dropped while the second event was processed, and started again later. -/
def sampleRestarted : TickerState (Sample.group 10007) :=
  sampleTicker.turn^[4] ⟨sampleEmitted.db,⟨777,0⟩,.querying⟩

def emitted : TickerPhase C → Option Event
  | .emitting _ update => some update
  | _ => none

theorem emitted_eq_some {phase : TickerPhase C} {update : Event} (h : emitted phase = some update) :
    ∃ addWhen, phase = .emitting addWhen update := by
  cases phase with
  | emitting addWhen event =>
    obtain rfl := Option.some.inj h
    exact ⟨addWhen,rfl⟩
  | _ => cases h

theorem sampleRestarted_reaches : sampleTicker.Reaches ⟨.default,⟨0,0⟩,.querying⟩ sampleRestarted := by
  have hemitted : sampleTicker.Reaches ⟨.default,⟨0,0⟩,.querying⟩ sampleEmitted := reaches_turns _ 4
  exact (hemitted.tail (.restart ⟨777,0⟩)).trans (reaches_turns _ 4)

/-- The times that the ticker finds in the database, in the order of the map. -/
def storedTimes (ticker : Ticker C) (db : InMemory C) : List (Option NaiveDateTime) :=
  ((db.inner.entries.map Sigma.snd).filter (fun announced => ticker.Matches announced)).map
    (fun announced => announced.event.expectedOutcomeTime)

theorem ticks_contiguous_minutes : storedTimes sampleTicker sampleRestarted.db = [some ⟨60,0⟩,some ⟨0,0⟩] ∧
    emitted sampleRestarted.phase = some ⟨⟨⟨"/1970-01-01T00:02:00.occur".toList⟩⟩,some ⟨120,0⟩⟩ ∧
    ∃ t₀ n, Runs.Enumerates (sampleTicker.Tick t₀) (sampleTicker.Shown sampleRestarted.db) n ∧
      sampleTicker.NextTick t₀ ⟨777,0⟩ n (some ⟨120,0⟩) := by
  have hupdate : emitted sampleRestarted.phase =
    some ⟨⟨⟨"/1970-01-01T00:02:00.occur".toList⟩⟩,some ⟨120,0⟩⟩ := by decide +kernel
  have hinitial : sampleRestarted.initialTime = ⟨777,0⟩ := by decide +kernel
  obtain ⟨addWhen,hphase⟩ := emitted_eq_some hupdate
  obtain ⟨t₀,n,henumerates,hnext,_⟩ := ticks_contiguous sampleChrono_additive (by decide) sampleRestarted_reaches
  exact ⟨by decide +kernel,hupdate,t₀,n,henumerates,hinitial ▸ hnext addWhen _ hphase⟩

end Sampled

end Ticker
end Olivia
