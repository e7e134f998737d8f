import Olivia.Db.Agreement
import Olivia.Db.Described
import Olivia.Db.KindFilter
import Olivia.Db.Ltree

/-! # Queries of the Postgres store

The server compares ltrees and matches patterns where the in-memory store compares texts, and
it sorts an absent time behind every other one. What it selects of a row depends on the path
column of the row, on its attestation and on its id.
-/
namespace Olivia
variable {C : Group}

/-- The order of the server, in which null is larger than every time. -/
def nullsLast : Option NaiveDateTime → Option NaiveDateTime → Bool
  | _,none => true
  | none,some _ => false
  | some t,some u => t.le u

theorem nullsLast_total (t u : Option NaiveDateTime) : nullsLast t u = true ∨ nullsLast u t = true := by
  cases t with
  | none => cases u <;> exact Or.inr rfl
  | some t =>
    cases u with
    | none => exact Or.inl rfl
    | some u => exact t.le_total u

theorem nullsLast_trans {t u v : Option NaiveDateTime} (htu : nullsLast t u = true) (huv : nullsLast u v = true) :
    nullsLast t v = true := by
  cases v with
  | none => cases t <;> rfl
  | some v =>
    cases u with
    | none => cases huv
    | some u =>
      cases t with
      | none => cases htu
      | some t => exact NaiveDateTime.le_trans htu huv

namespace Order
variable (order : Order)

/-- What the statement sorts by. -/
def nullsLe (order : Order) (t u : Option NaiveDateTime) : Bool :=
  match order with
  | .earliest => nullsLast t u
  | .latest => nullsLast u t

theorem nullsLe_total (t u : Option NaiveDateTime) : order.nullsLe t u = true ∨ order.nullsLe u t = true := by
  cases order with
  | earliest => exact nullsLast_total t u
  | latest => exact nullsLast_total u t

theorem nullsLe_trans {t u v : Option NaiveDateTime} (htu : order.nullsLe t u = true)
    (huv : order.nullsLe u v = true) : order.nullsLe t v = true := by
  cases order with
  | earliest => exact nullsLast_trans htu huv
  | latest => exact nullsLast_trans huv htu

end Order

/-- The events with a property, each once and in an order. -/
structure Lists (P : Event → Prop) (le : Event → Event → Bool) (events : List Event) : Prop where
  nodup : (events.map Event.id).Nodup
  mem : ∀ event, event ∈ events ↔ P event
  sorted : events.Pairwise (fun a b => le a b = true)

/-- The order of the times that a query asks for. -/
def Order.timesLe (order : Order) (t u : NaiveDateTime) : Bool :=
  match order with
  | .earliest => t.le u
  | .latest => u.le t

/-- What the server sorts events by. -/
def Order.rowLe (order : Order) (a b : Event) : Bool := order.nullsLe a.expectedOutcomeTime b.expectedOutcomeTime

namespace Order
variable {order : Order} {a b : Event} {t u : NaiveDateTime}

theorem timesLe_antisymm (htu : order.timesLe t u = true) (hut : order.timesLe u t = true) : t = u := by
  cases order with
  | earliest => exact NaiveDateTime.le_antisymm htu hut
  | latest => exact NaiveDateTime.le_antisymm hut htu

/-- Both orders are that of the times, where there are two. -/
theorem le_eq (ha : a.expectedOutcomeTime = some t) (hb : b.expectedOutcomeTime = some u) :
    order.le a b = order.timesLe t u ∧ order.rowLe a b = order.timesLe t u := by
  cases order <;> simp [le,rowLe,nullsLe,timesLe,timeLe,nullsLast,ha,hb]

/-- Next to a time, none is put on different sides. -/
theorem le_none (ha : a.expectedOutcomeTime = none) (hb : b.expectedOutcomeTime = some t) :
    (order.le a b = true ↔ order = .earliest) ∧ (order.le b a = true ↔ order = .latest) ∧
      (order.rowLe a b = true ↔ order = .latest) ∧ (order.rowLe b a = true ↔ order = .earliest) := by
  cases order <;> simp [le,rowLe,nullsLe,timeLe,nullsLast,ha,hb]

end Order

namespace Lists
variable {P : Event → Prop} {le le' : Event → Event → Bool} {events events' : List Event} {order : Order}

theorem perm (h : Lists P le events) (h' : Lists P le' events') : events.Perm events' :=
  (List.perm_ext_iff_of_nodup h.nodup.of_map h'.nodup.of_map).mpr (fun event => (h.mem event).trans (h'.mem event).symm)

/-- However events without a time are sorted in, the times come in one order. -/
theorem times_eq (h : Lists P order.le events) (h' : Lists P order.rowLe events') :
    events.filterMap Event.expectedOutcomeTime = events'.filterMap Event.expectedOutcomeTime := by
  have hsorted : (events.filterMap Event.expectedOutcomeTime).Pairwise (fun t u => order.timesLe t u = true) :=
    h.sorted.filterMap _ (fun a b hab t ht u hu => (Order.le_eq ht hu).1 ▸ hab)
  have hsorted' : (events'.filterMap Event.expectedOutcomeTime).Pairwise (fun t u => order.timesLe t u = true) :=
    h'.sorted.filterMap _ (fun a b hab t ht u hu => (Order.le_eq ht hu).2 ▸ hab)
  exact List.Perm.eq_of_pairwise (fun _ _ _ _ => Order.timesLe_antisymm) hsorted hsorted' ((h.perm h').filterMap _)

/-- The first event is not behind any other one. -/
theorem head_le (htotal : ∀ a b, le a b = true ∨ le b a = true) {first : Event} {rest : List Event}
    (h : Lists P le (first :: rest)) : ∀ event ∈ first :: rest, le first event = true := by
  intro event hevent
  rcases List.mem_cons.mp hevent with rfl | hevent
  · exact or_self_iff.mp (htotal event event)
  · exact List.rel_of_pairwise_cons h.sorted hevent

/-- Events with a time and events without one. -/
def Mixed (events : List Event) : Prop :=
  (∃ event ∈ events, event.expectedOutcomeTime.isSome) ∧ ∃ event ∈ events, event.expectedOutcomeTime = none

theorem times_of_not_mixed (h : Lists P order.le events) (h' : Lists P order.rowLe events') (hmixed : ¬ Mixed events) :
    events.map Event.expectedOutcomeTime = events'.map Event.expectedOutcomeTime := by
  have htimes : ∀ {l : List Event}, (∀ event ∈ l, event.expectedOutcomeTime.isSome) →
      l.map Event.expectedOutcomeTime = (l.filterMap Event.expectedOutcomeTime).map some := by
    intro l hl
    induction l with
    | nil => rfl
    | cons event l ih =>
      obtain ⟨t,ht⟩ := Option.isSome_iff_exists.mp (hl event List.mem_cons_self)
      rw [List.map_cons,List.filterMap_cons_some ht,List.map_cons,ih (fun e he => hl e (List.mem_cons_of_mem event he)),ht]
  have hmem : ∀ event, event ∈ events' ↔ event ∈ events := fun event => (h'.mem event).trans (h.mem event).symm
  by_cases hsome : ∃ event ∈ events, event.expectedOutcomeTime.isSome
  · have hall : ∀ event ∈ events, event.expectedOutcomeTime.isSome := by
      intro event hevent
      rw [Option.isSome_iff_ne_none]
      exact fun hnone => hmixed ⟨hsome,event,hevent,hnone⟩
    rw [htimes hall,htimes (fun event he => hall event ((hmem event).mp he)),times_eq h h']
  · have hall : ∀ event ∈ events, event.expectedOutcomeTime = none := by
      intro event hevent
      rw [← Option.not_isSome_iff_eq_none]
      exact fun he => hsome ⟨event,hevent,he⟩
    have hnone : events.map Event.expectedOutcomeTime = List.replicate events.length none :=
      List.eq_replicate_iff.mpr ⟨List.length_map _,by simpa using hall⟩
    have hnone' : events'.map Event.expectedOutcomeTime = List.replicate events'.length none :=
      List.eq_replicate_iff.mpr ⟨List.length_map _,by simpa [hmem] using hall⟩
    rw [hnone,hnone',(h.perm h').length_eq]

/-- The first of the events has the same time in both orders unless there are events with a time
and events without one. -/
theorem first_time_iff (h : Lists P order.le events) (h' : Lists P order.rowLe events') :
    events.head?.map Event.expectedOutcomeTime = events'.head?.map Event.expectedOutcomeTime ↔ ¬ Mixed events := by
  constructor
  · rintro hfirst ⟨⟨timed,htimed,hsome⟩,untimed,huntimed,hnone⟩
    obtain ⟨t,ht⟩ := Option.isSome_iff_exists.mp hsome
    have hmem : ∀ event, event ∈ events → event ∈ events' := fun event he => (h'.mem event).mpr ((h.mem event).mp he)
    have htimed' := hmem timed htimed
    have huntimed' := hmem untimed huntimed
    cases events with
    | nil => cases htimed
    | cons first rest =>
      cases events' with
      | nil => cases htimed'
      | cons first' rest' =>
        have hle := h.head_le order.le_total
        have hle' := h'.head_le (fun a b => order.nullsLe_total a.expectedOutcomeTime b.expectedOutcomeTime)
        have hsame : first.expectedOutcomeTime = first'.expectedOutcomeTime := by simpa using hfirst
        cases htime : first.expectedOutcomeTime with
        | none =>
          have hearliest := (Order.le_none htime ht).1.mp (hle timed htimed)
          have hlatest := (Order.le_none (hsame.symm.trans htime) ht).2.2.1.mp (hle' timed htimed')
          cases hearliest.symm.trans hlatest
        | some u =>
          have hlatest := (Order.le_none hnone htime).2.1.mp (hle untimed huntimed)
          have hearliest := (Order.le_none hnone (hsame.symm.trans htime)).2.2.2.mp (hle' untimed huntimed')
          cases hearliest.symm.trans hlatest
  · intro hmixed
    rw [← List.head?_map,← List.head?_map,times_of_not_mixed h h' hmixed]

end Lists

namespace Postgres

/-- What the server decides of a query: whether it answers the statement for its parameters,
and in which order it meets the rows. -/
structure Plan (C : Group) where
  answers : Str → Str → Str → Postgres C → Bool
  rows : Postgres C → List (Str × EventRow C)
  perm : ∀ s, (rows s).Perm (s.event.entries.map (fun row => (row.1,row.2)))

/-- The order of the underlying list, on a server that answers everything. -/
def Plan.entries : Plan C := ⟨fun _ _ _ _ => true,fun s => s.event.entries.map (fun row => (row.1,row.2)),fun _ => .refl _⟩

/-- The conditions of the statement. -/
def rowSelected (query : EventQuery) (path lquery : Str) (row : Str × EventRow C) : Bool :=
  (labels path).isPrefixOf (labels row.2.path) && Lquery.matches lquery row.2.path &&
    query.attested.all (fun attested => attested == row.2.att.outcome.isSome) &&
    decide (Text.Stands (kindPattern query.kind) row.1)

variable (plan : Plan C)

/-- The rows that the statement of both queries returns. -/
def selectRows (query : EventQuery) (s : Postgres C) : MayPanic (Except DbError (List (Str × EventRow C))) := do
  let path ← ltree (query.path.getD Path.root)
  let lquery ← Lquery.endsWith query.endsWith
  if plan.answers path lquery (kindPattern query.kind) s then
    return .ok (((plan.rows s).filter (rowSelected query path lquery)).insertionSort (fun a b =>
      query.order.nullsLe a.2.expectedOutcomeTime b.2.expectedOutcomeTime))
  else return .error .statementFailed

def rowEvent (row : Str × EventRow C) : MayPanic Event := do
  let id ← MayPanic.expect "error retrieving column id" (← EventId.fromStr row.1).toOption
  return ⟨id,row.2.expectedOutcomeTime⟩

/-- The statement returns one row at most. -/
def queryEvent (query : EventQuery) (s : Postgres C) : MayPanic (Except DbError (Option Event)) := do
  match ← selectRows plan query s with
  | .error e => return .error e
  | .ok rows =>
    match rows.head? with
    | none => return .ok none
    | some row => return .ok (some (← rowEvent row))

def queryEvents (query : EventQuery) (s : Postgres C) : MayPanic (Except DbError (List Event)) := do
  match ← selectRows plan query s with
  | .error e => return .error e
  | .ok rows => return .ok (← rows.mapM rowEvent)

def readEvent : DbReadEvent (Postgres C) := ⟨queryEvent plan,queryEvents plan⟩

end Postgres

/-- What holds of a row: its id was taken and has the path in the path column, and its columns
can be read. -/
structure EventRow.Kept (takes : Str → Bool) (text : Str) (row : EventRow C) : Prop where
  taken : takes text = true
  path : ∃ path, EventId.path ⟨⟨text⟩⟩ = .ok path ∧ ltree path = .ok row.path
  att : ∃ attestation, row.att.read = .ok attestation
  oracleEvent : ∃ oracleEvent, RawOracleEvent.fromJsonBytes (C := C) row.oracleEvent = .ok oracleEvent

theorem EventRow.Kept.read {takes : Str → Bool} {text : Str} {row : EventRow C} (h : row.Kept takes text)
    (hid : EventId.Accepted ⟨⟨text⟩⟩) :
    ∃ announced, row.read text = .ok announced := by
  obtain ⟨attestation,hatt⟩ := h.att
  obtain ⟨oracleEvent,hevent⟩ := h.oracleEvent
  have hparse : EventId.fromStr text = .ok (.ok ⟨⟨text⟩⟩) := hid
  refine ⟨⟨⟨⟨⟨text⟩⟩,row.expectedOutcomeTime⟩,⟨oracleEvent,row.signature⟩,attestation⟩,?_⟩
  rw [EventRow.read,hatt,MayPanic.ok_bind,hparse,MayPanic.ok_bind,hevent]
  rfl

namespace Postgres

/-- A database whose rows are kept, by servers that take only texts of a kind. -/
def Kept (takes : Str → Bool) (s : Postgres C) : Prop :=
  ∀ text row, s.event.lookup text = some row → row.Kept takes text

variable {server : Server} {s t : Postgres C} {plan : Plan C} {query : EventQuery} {id : EventId}
variable {takes : Str → Bool}

theorem kept_empty : Kept takes (empty : Postgres C) := fun _ _ h => nomatch h

theorem Kept.insert {text : Str} {row : EventRow C} (hs : Kept takes s) (hrow : row.Kept takes text) :
    Kept takes { s with event := s.event.insert text row } := by
  intro text' row' hl
  rw [lookup_insert] at hl
  split at hl
  next he =>
    obtain rfl := Option.some.inj hl
    exact he ▸ hrow
  next => exact hs text' row' hl

theorem updateAttestation_kept {attestation : Attestation C} (hs : Kept takes s)
    (h : updateAttestation server id attestation s = .ok t) : Kept takes t := by
  simp only [updateAttestation] at h
  split at h
  next =>
    split at h
    next =>
      obtain rfl := Except.ok.inj h
      exact hs
    next row hrow =>
      obtain rfl := Except.ok.inj h
      exact hs.insert { hs _ row hrow with att := ⟨_,read_attestationColumn attestation⟩ }
  next => cases h

theorem insertTransaction_kept {event : AnnouncedEvent C} (htakes : ∀ text, server.text text = true → takes text = true)
    (hs : Kept takes s) (h : insertTransaction server event s = .ok (.ok t)) : Kept takes t := by
  obtain ⟨node,path,u,v,hnode,hpath,hparents,hrow,hatt⟩ := insertTransaction_eq_ok h
  have hu : Kept takes u := by
    unfold Kept
    rw [setNodeParents_event hparents]
    exact hs
  have hv : Kept takes v := by
    simp only [insertRow] at hrow
    split at hrow
    next hc =>
      obtain rfl := Except.ok.inj hrow
      simp only [Bool.and_eq_true] at hc
      exact hu.insert {
        taken := htakes _ hc.1.1
        path := ⟨node,hnode,hpath⟩
        att := ⟨none,rfl⟩
        oracleEvent := ⟨event.announcement.oracleEvent,by
          simp [RawOracleEvent.fromJsonBytes,RawOracleEvent.asBytes]⟩ }
    next => cases hrow
  rcases hatt with ⟨_,rfl⟩ | ⟨attestation,_,hupdate⟩
  · exact hv
  · exact updateAttestation_kept hv hupdate

theorem commit_kept {r : DbResult (Postgres C)} (hs : Kept takes s)
    (h : ∀ u, r = .ok (.ok u) → Kept takes u) : Kept takes (commit s r).2 := by
  rcases r with panic | e | u
  · exact hs
  · exact hs
  · exact h u rfl

/-- Every write keeps the rows. -/
theorem apply_kept (htakes : ∀ text, server.text text = true → takes text = true) (op : DbOp C) (s : Postgres C)
    (hs : Kept takes s) : Kept takes ((db server).apply op s).2 := by
  cases op with
  | insertEvent announced => exact commit_kept hs (fun _ hu => insertTransaction_kept htakes hs hu)
  | completeEvent eventId attestation =>
    exact commit_kept hs (fun _ hu => updateAttestation_kept hs (Except.ok.inj hu))
  | setPublicKeys publicKeys =>
    simp only [Db.apply,db,setPublicKeys]
    split
    · exact hs
    · exact hs

theorem mem_rows (plan : Plan C) {text : Str} {row : EventRow C} :
    (text,row) ∈ plan.rows s ↔ s.event.lookup text = some row := by
  rw [(plan.perm s).mem_iff,List.mem_map]
  constructor
  · rintro ⟨⟨key,value⟩,hmem,he⟩
    obtain ⟨rfl,rfl⟩ := Prod.mk.inj he
    exact AList.mem_lookup_iff.mpr hmem
  · intro h
    exact ⟨⟨text,row⟩,AList.mem_lookup_iff.mp h,rfl⟩

theorem rows_nodup (plan : Plan C) (s : Postgres C) : ((plan.rows s).map Prod.fst).Nodup := by
  rw [((plan.perm s).map _).nodup_iff,List.map_map]
  exact s.event.nodupKeys

/-- What is read of a row besides its announcement. -/
theorem read_spec {text : Str} {row : EventRow C} {announced : AnnouncedEvent C} (h : row.read text = .ok announced) :
    announced.event = ⟨⟨⟨text⟩⟩,row.expectedOutcomeTime⟩ ∧ EventId.Accepted ⟨⟨text⟩⟩ ∧
      announced.attestation.isSome = row.att.outcome.isSome := by
  obtain ⟨attestation,id,oracleEvent,hatt,hid,_,rfl⟩ := read_eq_ok h
  obtain ⟨haccepted,htext⟩ := EventId.accepted_of_fromStr hid
  obtain rfl : id = ⟨⟨text⟩⟩ := EventId.ext (Path.ext htext)
  refine ⟨rfl,haccepted,?_⟩
  unfold AttestationColumn.read at hatt
  split at hatt
  next hnone =>
    obtain rfl := Except.ok.inj hatt
    rw [hnone]
    rfl
  next outcome hsome =>
    obtain ⟨_,_,hatt⟩ := MayPanic.bind_eq_ok.mp hatt
    obtain rfl := Except.ok.inj hatt
    rw [hsome]
    rfl

end Postgres

namespace Path
variable {p q : Path} {rest rest' : Str}

/-- Without confusion the server compares two paths as they are compared by their segments. -/
theorem faithful_of_not_confused (hp : p.str = '/' :: rest) (hq : q.str = '/' :: rest') (h : ¬ p.Confused q) :
    p.Faithful q := by
  by_cases hproot : p.isRoot
  · exact faithful_of_isRoot hproot hq
  by_cases hqroot : q.isRoot
  · exact faithful_to_root hproot hqroot hp
  obtain ⟨hbegins,hends⟩ := not_confused_iff.mp h
  rw [faithful_iff_of_not_root hproot hp hq,labels_ltree hq hqroot,isParentOf_iff_segments hp hq hproot]
  refine ⟨⟨hbegins,fun h => h.map label⟩,⟨fun htext => ?_,fun he => ?_⟩,⟨hends,fun h => h.map label⟩⟩
  · have hlabels : p.segments.map label = q.segments.map label := by
      rw [← splitOn_ltree hp,← splitOn_ltree hq,htext]
    have hlength : p.segments.length = q.segments.length := by simpa using congrArg List.length hlabels
    exact segments_injective hp hq ((hbegins (hlabels ▸ List.prefix_rfl)).eq_of_length hlength)
  · rw [(List.cons.inj (hp.symm.trans (he ▸ hq))).2]

end Path

namespace EventQuery

/-- The server tells the path, the end and the kind of a query as they are told from an id. -/
def Clear (query : EventQuery) (id : EventId) : Prop := ∀ pathId, id.path = .ok pathId →
  (∀ path, query.path = some path → ¬ path.Confused pathId) ∧ ¬ query.endsWith.Confused pathId ∧
    ∀ kind, query.kind = some kind → id.FilteredByKind kind

/-- A query whose path and end are paths. -/
structure WellFormed (query : EventQuery) : Prop where
  path : ∀ path, query.path = some path → Path.fromStr path.str = .ok path
  endsWith : Path.fromStr query.endsWith.str = .ok query.endsWith

variable {query : EventQuery}

theorem WellFormed.path_getD (h : query.WellFormed) : ∃ rest, (query.path.getD Path.root).str = '/' :: rest := by
  cases hpath : query.path with
  | none => exact ⟨[],rfl⟩
  | some path => exact Path.exists_of_fromStr (h.path path hpath)

end EventQuery

namespace Postgres
variable {s : Postgres C} {plan : Plan C} {query : EventQuery} {takes : Str → Bool}

/-- A row is selected where its event is described. -/
theorem rowSelected_iff (hquery : query.WellFormed) {path lquery text : Str}
    (hpath : ltree (query.path.getD Path.root) = .ok path) (hlquery : Lquery.endsWith query.endsWith = .ok lquery)
    {row : EventRow C} {announced : AnnouncedEvent C} (hread : row.read text = .ok announced) {pathId : Path}
    (hid : EventId.path ⟨⟨text⟩⟩ = .ok pathId) (hrow : ltree pathId = .ok row.path) (hclear : query.Clear ⟨⟨text⟩⟩) :
    rowSelected query path lquery (text,row) = true ↔ query.Describes announced := by
  obtain ⟨hevent,haccepted,hatt⟩ := read_spec hread
  obtain ⟨rest,hrest⟩ := hquery.path_getD
  obtain ⟨rest',hrest'⟩ := Path.exists_of_fromStr hquery.endsWith
  obtain ⟨tail,htail⟩ : ∃ tail, pathId.str = '/' :: tail := List.head?_eq_some_iff.mp (haccepted.head_path hid)
  obtain ⟨hbegins,hends,hkind⟩ := hclear pathId hid
  have hroot : ¬ (query.path.getD Path.root).Confused pathId := by
    cases hp : query.path with
    | none => exact Path.not_confused_root (Or.inl rfl) (rfl : Path.root.str = '/' :: []) htail
    | some p => exact hbegins p hp
  obtain ⟨_,_,_,h1,h2,_,hparent,_⟩ := Path.faithful_of_not_confused hrest htail hroot
  obtain rfl := Except.ok.inj (h1.symm.trans hpath)
  obtain rfl := Except.ok.inj (h2.symm.trans hrow)
  obtain ⟨_,_,_,_,h2',h3,_,_,hend⟩ := Path.faithful_of_not_confused hrest' htail hends
  obtain rfl := Except.ok.inj (h2'.symm.trans hrow)
  obtain rfl := Except.ok.inj (h3.symm.trans hlquery)
  have hbelow : (query.path.getD Path.root).isParentOf pathId = true ↔
      ∀ path, query.path = some path → path.isParentOf pathId = true := by
    cases query.path with
    | none => exact iff_of_true (Path.isParentOf_of_isRoot rfl htail) (fun _ h => nomatch h)
    | some p => simp
  have hlike : Text.Stands (kindPattern query.kind) text ↔
      ∀ kind, query.kind = some kind → announced.event.id.eventKind = .ok kind := by
    rw [hevent]
    cases hk : query.kind with
    | none => exact iff_of_true ((Text.stands_many []).mpr ⟨[],List.nil_suffix,by decide⟩) (fun _ h => nomatch h)
    | some k =>
      simp only [Option.some.injEq,forall_eq']
      exact hkind k hk
  have hattested : query.attested.all (fun attested => attested == row.att.outcome.isSome) = true ↔
      ∀ attested, query.attested = some attested → attested = announced.attestation.isSome := by
    rw [hatt]
    cases query.attested <;> simp
  have hpathId : announced.event.id.path = .ok pathId := by
    rw [hevent]
    exact hid
  rw [rowSelected,Bool.and_eq_true,Bool.and_eq_true,Bool.and_eq_true,List.isPrefixOf_iff_prefix,decide_eq_true_eq,
    hparent,hend,hbelow,hlike,hattested]
  constructor
  · rintro ⟨⟨⟨hbelow,hend⟩,hattested⟩,hkind⟩
    exact ⟨pathId,hpathId,hbelow,hend,hkind,hattested⟩
  · rintro ⟨other,hother,hbelow,hend,hkind,hattested⟩
    obtain rfl := Except.ok.inj (hpathId.symm.trans hother)
    exact ⟨⟨⟨hbelow,hend⟩,hattested⟩,hkind⟩

theorem params_isOk (hquery : query.WellFormed) : ∃ path lquery,
    ltree (query.path.getD Path.root) = .ok path ∧ Lquery.endsWith query.endsWith = .ok lquery := by
  obtain ⟨rest,hrest⟩ := hquery.path_getD
  obtain ⟨rest',hrest'⟩ := Path.exists_of_fromStr hquery.endsWith
  by_cases hroot : query.endsWith.isRoot
  · exact ⟨_,_,ltree_eq hrest,if_pos hroot⟩
  · have hlquery : Lquery.endsWith query.endsWith = .ok ("*.".toList ++ rest'.flatMap encode) := by
      rw [Lquery.endsWith,if_neg hroot,ltree_eq hrest',MayPanic.ok_bind,MayPanic.pure_eq]
    exact ⟨_,_,ltree_eq hrest,hlquery⟩

/-- The server answers the statement of a query. -/
def Plan.Answers (plan : Plan C) (query : EventQuery) (s : Postgres C) : Prop := ∀ path lquery,
  ltree (query.path.getD Path.root) = .ok path → Lquery.endsWith query.endsWith = .ok lquery →
    plan.answers path lquery (kindPattern query.kind) s = true

theorem rowEvent_eq {row : Str × EventRow C} {announced : AnnouncedEvent C} (h : row.2.read row.1 = .ok announced) :
    rowEvent row = .ok announced.event := by
  obtain ⟨hevent,haccepted,_⟩ := read_spec h
  have hparse : EventId.fromStr row.1 = .ok (.ok ⟨⟨row.1⟩⟩) := haccepted
  rw [rowEvent,hparse,hevent]
  rfl

theorem selectRows_spec (hquery : query.WellFormed) (hanswers : plan.Answers query s) (hs : Kept takes s)
    (hids : ∀ text ∈ s.event, EventId.Accepted ⟨⟨text⟩⟩) (hclear : ∀ text ∈ s.event, query.Clear ⟨⟨text⟩⟩) :
    ∃ rows, selectRows plan query s = .ok (.ok rows) ∧ (rows.map Prod.fst).Nodup ∧
      (∀ row, row ∈ rows ↔ s.event.lookup row.1 = some row.2 ∧
        ∃ announced, row.2.read row.1 = .ok announced ∧ query.Describes announced) ∧
      rows.Pairwise (fun a b => query.order.nullsLe a.2.expectedOutcomeTime b.2.expectedOutcomeTime = true) := by
  obtain ⟨path,lquery,hpath,hlquery⟩ := params_isOk hquery
  refine ⟨((plan.rows s).filter (rowSelected query path lquery)).insertionSort (fun a b =>
      query.order.nullsLe a.2.expectedOutcomeTime b.2.expectedOutcomeTime),?_,?_,?_,?_⟩
  · simp only [selectRows,hpath,hlquery,MayPanic.ok_bind,hanswers path lquery hpath hlquery,if_true,MayPanic.pure_eq]
  · rw [((List.perm_insertionSort _ _).map _).nodup_iff]
    exact (rows_nodup plan s).sublist (List.filter_sublist.map _)
  · rintro ⟨text,row⟩
    rw [List.mem_insertionSort,List.mem_filter,mem_rows]
    refine and_congr_right (fun hl => ?_)
    have hmem : text ∈ s.event := AList.lookup_isSome.mp (by rw [hl]; rfl)
    obtain ⟨pathId,hid,hltree⟩ := (hs text row hl).path
    obtain ⟨announced,hannounced⟩ := (hs text row hl).read (hids text hmem)
    rw [rowSelected_iff hquery hpath hlquery hannounced hid hltree (hclear text hmem)]
    constructor
    · exact fun h => ⟨announced,hannounced,h⟩
    · rintro ⟨other,hother,h⟩
      obtain rfl := Except.ok.inj (hannounced.symm.trans hother)
      exact h
  · have htotal : Std.Total (fun a b : Str × EventRow C =>
        query.order.nullsLe a.2.expectedOutcomeTime b.2.expectedOutcomeTime = true) :=
      ⟨fun a b => query.order.nullsLe_total _ _⟩
    have htrans : IsTrans (Str × EventRow C) (fun a b =>
        query.order.nullsLe a.2.expectedOutcomeTime b.2.expectedOutcomeTime = true) :=
      ⟨fun _ _ _ => query.order.nullsLe_trans⟩
    exact List.pairwise_insertionSort _ _

/-- The event that the row of an id is read as. -/
def Shows (s : Postgres C) (id : EventId) (announced : AnnouncedEvent C) : Prop :=
  ∃ row, s.event.lookup id.asStr = some row ∧ row.read id.asStr = .ok announced

/-- A query that is clear on the ids of the rows returns the events that it describes. -/
theorem queryEvents_spec (hquery : query.WellFormed) (hanswers : plan.Answers query s) (hs : Kept takes s)
    (hids : ∀ text ∈ s.event, EventId.Accepted ⟨⟨text⟩⟩) (hclear : ∀ text ∈ s.event, query.Clear ⟨⟨text⟩⟩) :
    ∃ events, queryEvents plan query s = .ok (.ok events) ∧ queryEvent plan query s = .ok (.ok events.head?) ∧
      Lists (fun event => ∃ id announced, s.Shows id announced ∧ query.Describes announced ∧
        announced.event = event) query.order.rowLe events := by
  obtain ⟨rows,hrows,hnodup,hmem,hsorted⟩ := selectRows_spec hquery hanswers hs hids hclear
  have hevents : ∀ row ∈ rows, rowEvent row = .ok ⟨⟨⟨row.1⟩⟩,row.2.expectedOutcomeTime⟩ := by
    intro row hrow
    obtain ⟨_,announced,hannounced,_⟩ := (hmem row).mp hrow
    rw [rowEvent_eq hannounced,(read_spec hannounced).1]
  refine ⟨rows.map (fun row => ⟨⟨⟨row.1⟩⟩,row.2.expectedOutcomeTime⟩),?_,?_,?_,?_,?_⟩
  · rw [queryEvents,hrows,MayPanic.ok_bind]
    dsimp only
    rw [MayPanic.mapM_eq hevents]
    rfl
  · rw [queryEvent,hrows,MayPanic.ok_bind]
    cases rows with
    | nil => rfl
    | cons row rest =>
      dsimp only [List.head?_cons]
      rw [hevents row List.mem_cons_self]
      rfl
  · have hinjective : Function.Injective (fun text : Str => (⟨⟨text⟩⟩ : EventId)) :=
      fun _ _ h => congrArg EventId.asStr h
    have hids := hnodup.map hinjective
    rw [List.map_map] at hids ⊢
    exact hids
  · intro event
    rw [List.mem_map]
    constructor
    · rintro ⟨⟨text,row⟩,hrow,rfl⟩
      obtain ⟨hl,announced,hannounced,hdescribes⟩ := (hmem _).mp hrow
      exact ⟨⟨⟨text⟩⟩,announced,⟨row,hl,hannounced⟩,hdescribes,(read_spec hannounced).1⟩
    · rintro ⟨id,announced,⟨row,hl,hannounced⟩,hdescribes,rfl⟩
      exact ⟨(id.asStr,row),(hmem _).mpr ⟨hl,announced,hannounced,hdescribes⟩,(read_spec hannounced).1.symm⟩
  · exact List.pairwise_map.mpr hsorted

end Postgres
namespace InMemory
variable {iteration : Iteration C} {query : EventQuery} {s : InMemory C}

/-- A query with nothing beside its path returns the events that it describes. -/
theorem queryEvents_spec (hs : s.Keyed) (hends : Path.fromStr query.endsWith.str = .ok query.endsWith)
    (hanswer : query.Answerable s) (hbeside : query.NoneBeside s) :
    ∃ events, queryEvents iteration query s = .ok (.ok events) ∧ queryEvent iteration query s = .ok (.ok events.head?) ∧
      Lists (fun event => ∃ id announced, s.inner.lookup id = some announced ∧ query.Describes announced ∧
        announced.event = event) query.order.le events := by
  obtain ⟨events,h⟩ : ∃ events, queryEvents iteration query s = .ok (.ok events) :=
    queryEvents_isOk_iff_answerable.mpr hanswer
  refine ⟨events,h,by rw [queryEvent,h]; rfl,queryEvents_nodup hs h,?_,queryEvents_pairwise h⟩
  intro event
  rw [mem_queryEvents h]
  refine exists_congr (fun id => exists_congr (fun announced => and_congr_right (fun hl => and_congr_left' ?_)))
  constructor
  · intro hsel
    obtain ⟨pathId,hp,hpre,hend⟩ := (EventQuery.selects_iff_describesEnd hends).mp hsel
    exact ⟨pathId,hp,fun path hpath => hbeside id announced path pathId hl hpath hp (hpre path hpath) hend,hend⟩
  · exact EventQuery.selects_of_describes hends

end InMemory

namespace Agreement
variable {server : Server} {s : InMemory C} {t : Postgres C}

/-- The stores hold the same events. -/
theorem Related.shows_iff (h : Related server s t) (ht : Postgres.Kept server.text t) {id : EventId}
    {announced : AnnouncedEvent C} : t.Shows id announced ↔ s.inner.lookup id = some announced := by
  constructor
  · rintro ⟨row,hrow,hread⟩
    have hfinds : (Postgres.db server).Finds t id announced :=
      Postgres.finds_iff.mpr ⟨(ht _ row hrow).taken,row,hrow,hread⟩
    exact Except.ok.inj (Except.ok.inj ((h.event id (ht _ row hrow).taken).symm.trans hfinds))
  · intro hl
    obtain ⟨_,_,htext⟩ := h.storable id announced hl
    have hfinds : (Postgres.db server).Finds t id announced := (h.event id htext).trans (by rw [hl])
    exact (Postgres.finds_iff.mp hfinds).2

/-- Whatever the database holds a row of, memory holds an event of. -/
theorem Related.lookup_of_row (h : Related server s t) (ht : Postgres.Kept server.text t) {text : Str}
    (hrow : text ∈ t.event) : ∃ announced, s.inner.lookup ⟨⟨text⟩⟩ = some announced := by
  obtain ⟨row,hrow⟩ := Option.isSome_iff_exists.mp (AList.lookup_isSome.mpr hrow)
  have htaken : server.text (EventId.asStr ⟨⟨text⟩⟩) = true := (ht text row hrow).taken
  refine Option.ne_none_iff_exists'.mp (fun hnone => ?_)
  have hnorow : t.event.lookup (EventId.asStr ⟨⟨text⟩⟩) = none := (h.row_iff htaken).mpr hnone
  cases hrow.symm.trans hnorow

section Sampled
open Sample

/-- Events below "/foo", one of them without a time. -/
def sampleEvents : List Event :=
  [⟨⟨⟨"/foo/bar.occur".toList⟩⟩,none⟩,⟨⟨⟨"/foo/baz.occur".toList⟩⟩,some ⟨5,0⟩⟩,⟨⟨⟨"/foo/qux.occur".toList⟩⟩,some ⟨3,0⟩⟩]

/-- The insertion of these events. -/
def sampleOps : List (DbOp (group 10007)) := sampleEvents.filterMap (fun event =>
  (keychain.createAnnouncement (libraries 10007) event).toOption.map (fun announcement =>
    .insertEvent ⟨event,announcement,none⟩))

theorem sampleEvents_accepted : ∀ event ∈ sampleEvents, event.id.Accepted := by decide +kernel

theorem sampleOps_matched : Runs.Along InMemory.db.apply (Matched ⟨fun _ => true,fun _ => true⟩) sampleOps .default := by
  refine Runs.Along.of_forall (fun op hop s => ?_) _
  obtain ⟨event,hevent,hop⟩ := List.mem_filterMap.mp hop
  obtain ⟨announcement,_,rfl⟩ := Option.map_eq_some_iff.mp hop
  have haccepted := sampleEvents_accepted event hevent
  obtain ⟨path,_,_,hstrip,_⟩ := haccepted.fits
  have hpath := EventId.path_eq hstrip
  obtain ⟨label,hlabel⟩ := Postgres.ltree_isOk (haccepted.head_path hpath)
  exact fun _ => ⟨haccepted,rfl,⟨path,label,hpath,hlabel,rfl,fun _ _ => rfl⟩,fun _ h => nomatch h⟩

end Sampled

end Agreement
end Olivia
