import Olivia.Core.Mounting
import Olivia.Oracle.Ledger
import Olivia.Sources.Predicate
import Olivia.Sources.Siblings

/-! # Outcomes that follow from an outcome

A source of events may be told to send predicates along with every event, and a source of
outcomes to look for related events after every outcome and to send theirs. The store is read
when the outcome has been handled and other sources have been heard in between, and what was
found is sent while they are still heard. Whatever comes in between, every related event that
was found is attested in the end, with what the outcome decides unless another outcome for it
came first; and of the predicates that were sent along with an event one becomes true.
-/
namespace Olivia

/-- What follows an outcome in the stream of its source. An error is logged. -/
def CompleteRelated.relatedUpdates {σ : Type} (source : CompleteRelated σ) (stamped : StampedOutcome) (s : σ) :
    MayPanic (List StampedOutcome) := do
  match ← source.completeRelated stamped.outcome s with
  | .ok related => return related.map (fun outcome => ⟨outcome,stamped.time⟩)
  | .error _ => return []

/-- An event as its source sends it, and its predicates with the time that it is expected at. -/
def eventUpdates (predicate : Option PredicateSource) (event : Event) : MayPanic (List Event) :=
  match predicate with
  | some source => do
    let ids ← source.applyToEventId event.id
    return event :: ids.map (fun id => ⟨id,event.expectedOutcomeTime⟩)
  | none => .ok [event]

theorem EventId.prefixPath_stripPrefixPath {id : EventId} {mount : Path} {k : EventKind}
    (h : mount.isRoot ∨ mount.str <+: id.raw.str) (hk : (id.stripPrefixPath mount).eventKind = .ok k) :
    (id.stripPrefixPath mount).prefixPath mount = id := by
  obtain ⟨p,text,hs,_⟩ := eventKind_eq_ok hk
  rw [prefixPath,Path.prefixPath_of_stripEvent hs,stripPrefixPath,Path.under_stripPrefixPath h]

/-- The store in memory always answers, so what follows is what is related. -/
theorem CompleteRelated.relatedUpdates_eq_ok {C : Group} {iteration : InMemory.Iteration C} {pathPrefix : Path}
    {stamped : StampedOutcome} {s : InMemory C} {related : List StampedOutcome}
    (h : (inMemory iteration pathPrefix).relatedUpdates stamped s = .ok related) :
    ∃ rs, completeRelated (inMemory iteration pathPrefix) stamped.outcome s = .ok (.ok rs) ∧
      related = rs.map (fun outcome => ⟨outcome,stamped.time⟩) := by
  obtain ⟨r,hr,h⟩ := MayPanic.bind_eq_ok.mp h
  cases r with
  | ok rs => exact ⟨rs,hr,(Except.ok.inj h).symm⟩
  | error e =>
    obtain ⟨n,hn,hr⟩ := MayPanic.bind_eq_ok.mp hr
    split at hr
    next => cases hr
    next =>
      obtain ⟨kind,_,hr⟩ := MayPanic.bind_eq_ok.mp hr
      obtain ⟨path,_,hr⟩ := MayPanic.bind_eq_ok.mp hr
      obtain ⟨found,hfound,hr⟩ := MayPanic.bind_eq_ok.mp hr
      cases found with
      | error e =>
        obtain ⟨inner,hinner,hfound⟩ := MayPanic.bind_eq_ok.mp hfound
        obtain ⟨_,_,hinner⟩ := MayPanic.bind_eq_ok.mp hinner
        obtain rfl := Except.ok.inj hinner
        cases hfound
      | ok found =>
        obtain ⟨related,_,hr⟩ := MayPanic.bind_eq_ok.mp hr
        cases hr

namespace Service
variable {C : Group} {service : Service C} {s t : NodeDb C} {msgs later : List Sent} {id : EventId}
variable {announced : AnnouncedEvent C} {parent : Path}

def sentOutcomes (parent : Path) (updates : List StampedOutcome) : List Sent :=
  updates.map (fun stamped => ⟨parent,.outcome stamped⟩)

def sentEvents (parent : Path) (updates : List Event) : List Sent :=
  updates.map (fun event => ⟨parent,.event event⟩)

/-- An event that was sent is stored. -/
theorem stored_of_sent (hjson : service.lib.serdeJson.RoundTrips) (hsig : C.AnnouncementsVerify)
    (h : service.machine.run msgs .default = .ok s) (hid : id.Accepted) {sent : Sent} (hmem : sent ∈ msgs)
    (hadds : (adds id sent).isSome) : ∃ announced, s.inner.lookup id = some announced := by
  have hholds := lookup_of_unknown (s := .default) hjson hsig InMemory.keyed_default hid h rfl
  have htold : told id msgs ≠ none := by
    clear h hholds
    induction msgs with
    | nil => cases hmem
    | cons first msgs ih =>
      rw [told]
      cases hfirst : adds id first with
      | some event => simp
      | none =>
        rcases List.mem_cons.mp hmem with rfl | hmem
        · rw [hfirst] at hadds
          cases hadds
        · exact ih hmem
  cases htold' : told id msgs with
  | none => exact absurd htold' htold
  | some tale =>
    rw [htold'] at hholds
    obtain ⟨announced,hl,_⟩ := hholds
    exact ⟨announced,hl⟩

/-- A recorded event for which an outcome was sent is attested, with the first one if it was not before. -/
theorem attested_of_sent (hjson : service.lib.serdeJson.RoundTrips) (hsig : C.AnnouncementsVerify)
    (hs : s.toInMemory.Keyed) (hrecorded : service.Recorded s) (hid : id.Accepted)
    (hl : s.inner.lookup id = some announced) (h : service.machine.run later s = .ok t) {sent : Sent}
    (hmem : sent ∈ later) (hcompletes : (completes id sent).isSome) :
    ∃ announced' attestation, t.inner.lookup id = some announced' ∧ announced'.attestation = some attestation ∧
      (announced.attestation = none → ∃ first ∈ later, ∃ stamped, completes id first = some stamped ∧
        stamped.outcome.outcomeString = .ok attestation.outcome) := by
  obtain ⟨event,completed,hkey,hrecords⟩ := hrecorded id announced hid hl
  cases completed with
  | some stamped =>
    obtain ⟨_,_,_,attestation,_,_,_,hatt⟩ := hrecords.attested stamped rfl
    refine ⟨announced,attestation,lookup_of_attested hs h hl (by rw [hatt]; rfl),hatt,?_⟩
    intro hnone
    cases hatt.symm.trans hnone
  | none =>
    obtain rfl := hrecords.event_eq
    obtain ⟨announced',hl',hrecords'⟩ := lookup_of_announced hjson hsig hs hid h hl hrecords
    cases hfirst : later.findSome? (completes id) with
    | none =>
      rw [List.findSome?_eq_none_iff.mp hfirst sent hmem] at hcompletes
      cases hcompletes
    | some stamped =>
      rw [hfirst] at hrecords'
      obtain ⟨_,_,text,attestation,_,htext,hattest,hatt⟩ := hrecords'.attested stamped rfl
      obtain ⟨first,hmem,hstamped⟩ := List.exists_of_findSome?_eq_some hfirst
      refine ⟨announced',attestation,hl',hatt,fun _ => ⟨first,hmem,stamped,hstamped,?_⟩⟩
      rw [htext,(Oracle.attest_eq_ok hattest).1]

section Related
variable {iteration : InMemory.Iteration C} {stamped : StampedOutcome} {related : List StampedOutcome}

/-- A stored event of a kind whose outcome follows from that of an event with three outcomes or more, with a
path whose text goes on from the text of the outcome's. -/
def Follows (parent : Path) (outcome : Outcome) (s : NodeDb C) (id : EventId) (k : EventKind) : Prop :=
  ∃ n kind path pathId, outcome.id.nOutcomes = .ok n ∧ 3 ≤ n ∧ outcome.id.eventKind = .ok kind ∧
    outcome.id.path = .ok path ∧ (s.inner.lookup id).isSome ∧ id.path = .ok pathId ∧
    (path.prefixPath parent).str <+: pathId.str ∧ id.eventKind = .ok k ∧ k.Related kind

/-- What is sent after an outcome is for the events that follow from it, and what it decides. -/
theorem sent_of_related (id : EventId) (hs : s.toInMemory.Keyed)
    (hrelated : (CompleteRelated.inMemory iteration parent).relatedUpdates stamped s.toInMemory = .ok related) :
    (∀ k, Follows parent stamped.outcome s id k → ∃ sent ∈ sentOutcomes parent related, (completes id sent).isSome) ∧
    ∀ sent ∈ sentOutcomes parent related, ∀ other, completes id sent = some other → ∃ k,
      Follows parent stamped.outcome s id k ∧ CompleteRelated.Decides stamped.outcome other.outcome.value k := by
  obtain ⟨rs,hrs,rfl⟩ := CompleteRelated.relatedUpdates_eq_ok hrelated
  rcases CompleteRelated.completeRelated_eq_ok hrs with
    ⟨n,hn,hlt,rfl⟩ | ⟨n,kind,path,hn,hge,hkind,hpath,hof,hall⟩
  · refine ⟨?_,fun sent hsent => nomatch hsent⟩
    rintro k ⟨m,_,_,_,hm,hge,_⟩
    obtain rfl := Except.ok.inj (hn.symm.trans hm)
    exact absurd hlt (UInt64.not_lt.mpr hge)
  have hmounted : ∀ {found rest l}, CompleteRelated.Sees parent path s.toInMemory found l rest →
      (found.event.id.stripPrefixPath parent).prefixPath parent = found.event.id :=
    fun hsees => EventId.prefixPath_stripPrefixPath (EventId.begins_of_path hsees.atPath hsees.below) hsees.strippedKind
  constructor
  · rintro k ⟨_,kind',path',pathId,_,_,hkind',hpath',hstored,hpathId,hbelow,hk,hk'⟩
    obtain rfl := Except.ok.inj (hkind.symm.trans hkind')
    obtain rfl := Except.ok.inj (hpath.symm.trans hpath')
    obtain ⟨announced,hl⟩ := Option.isSome_iff_exists.mp hstored
    obtain rfl : announced.event.id = id := hs id announced hl
    obtain ⟨r,hr,rest,hsees,hid,_⟩ := hall _ announced pathId k hl hpathId hk hbelow hk'
    refine ⟨_,List.mem_map_of_mem (List.mem_map_of_mem hr),?_⟩
    have hmount : r.id.prefixPath parent = announced.event.id := by rw [hid,hmounted hsees]
    simp [completes,StampedOutcome.prefixPath,Outcome.prefixPath,hmount]
  · intro sent hsent other hother
    obtain ⟨_,hstamped,rfl⟩ := List.mem_map.mp hsent
    obtain ⟨r,hr,rfl⟩ := List.mem_map.mp hstamped
    obtain ⟨found,k,rest,hsees,hk',hdecides,hid⟩ := hof r hr
    have hmount : r.id.prefixPath parent = found.event.id := by rw [hid,hmounted hsees]
    have hvalue : other.outcome = ⟨found.event.id,r.value⟩ := by
      simp only [completes,StampedOutcome.prefixPath,Outcome.prefixPath,hmount] at hother
      split at hother
      next => exact (congrArg StampedOutcome.outcome (Option.some.inj hother)).symm
      next => cases hother
    obtain rfl : found.event.id = id := (congrArg Outcome.id hvalue).symm.trans (completes_eq_some hother)
    obtain ⟨id',hl⟩ := hsees.stored
    obtain rfl : found.event.id = id' := hs id' found hl
    refine ⟨k,⟨n,kind,path,_,hn,hge,hkind,hpath,by rw [hl]; rfl,hsees.atPath,hsees.below,hsees.ofKind,hk'⟩,?_⟩
    rw [hvalue]
    exact hdecides

/-- An event that follows is attested in the end, with what the outcome decides if no other
source has an outcome for it. -/
theorem settled_of_follows (hjson : service.lib.serdeJson.RoundTrips) (hsig : C.AnnouncementsVerify)
    (h : service.machine.run msgs .default = .ok s)
    (hrelated : (CompleteRelated.inMemory iteration parent).relatedUpdates stamped s.toInMemory = .ok related)
    (hsent : ∀ sent ∈ sentOutcomes parent related, sent ∈ later) (ht : service.machine.run later s = .ok t)
    (hid : id.Accepted) {k : EventKind} (hfollows : Follows parent stamped.outcome s id k) :
    ∃ announced' attestation, t.inner.lookup id = some announced' ∧ announced'.attestation = some attestation ∧
      ((∀ announced, s.inner.lookup id = some announced → announced.attestation = none) →
        (∀ sent ∈ later, (completes id sent).isSome → sent ∈ sentOutcomes parent related) →
        ∃ value, CompleteRelated.Decides stamped.outcome value k ∧
          Outcome.outcomeString ⟨id,value⟩ = .ok attestation.outcome) := by
  have hs : s.toInMemory.Keyed := service.machine.run_keeps (s := .default) InMemory.keyed_default h
  obtain ⟨hcomplete,hdecides⟩ := sent_of_related id hs hrelated
  obtain ⟨sent,hmem,hcompletes⟩ := hcomplete k hfollows
  obtain ⟨_,_,_,_,_,_,_,_,hstored,_,_,hk,_⟩ := hfollows
  obtain ⟨announced,hl⟩ := Option.isSome_iff_exists.mp hstored
  obtain ⟨announced',attestation,hl',hatt,hfirst⟩ :=
    attested_of_sent hjson hsig hs (recorded_of_run hjson hsig rfl h) hid hl ht (hsent sent hmem) hcompletes
  refine ⟨announced',attestation,hl',hatt,?_⟩
  intro hnone honly
  obtain ⟨first,hlater,other,hother,htext⟩ := hfirst (hnone announced hl)
  obtain ⟨l,⟨_,_,_,_,_,_,_,_,_,_,_,hl',_⟩,hvalue⟩ := hdecides first (honly first hlater (by rw [hother]; rfl)) other hother
  obtain rfl : l = k := Except.ok.inj (hl'.symm.trans hk)
  obtain rfl := completes_eq_some hother
  exact ⟨_,hvalue,htext⟩

/-- After an outcome its source sends outcomes for exactly the events that follow, attested or not, and
whatever is sent in between, each of them is attested in the end, with what the outcome decides if it was
not attested and no other source has an outcome for it. -/
theorem related_settled (hjson : service.lib.serdeJson.RoundTrips) (hsig : C.AnnouncementsVerify)
    (h : service.serve msgs .default = .ok s)
    (hrelated : (CompleteRelated.inMemory iteration parent).relatedUpdates stamped s.toInMemory = .ok related)
    (hsent : ∀ sent ∈ sentOutcomes parent related, sent ∈ later) (ht : service.serve later s = .ok t) :
    (∀ id, (∃ sent ∈ sentOutcomes parent related, (completes id sent).isSome) ↔
      ∃ k, Follows parent stamped.outcome s id k) ∧
    ∀ id k, id.Accepted → Follows parent stamped.outcome s id k →
      ∃ announced' attestation, t.inner.lookup id = some announced' ∧ announced'.attestation = some attestation ∧
        ((∀ announced, s.inner.lookup id = some announced → announced.attestation = none) →
          (∀ sent ∈ later, (completes id sent).isSome → sent ∈ sentOutcomes parent related) →
          ∃ value, CompleteRelated.Decides stamped.outcome value k ∧
            Outcome.outcomeString ⟨id,value⟩ = .ok attestation.outcome) := by
  rw [serve_eq_run] at h ht
  have hs : s.toInMemory.Keyed := service.machine.run_keeps (s := .default) InMemory.keyed_default h
  refine ⟨?_,fun id k hid hfollows => settled_of_follows hjson hsig h hrelated hsent ht hid hfollows⟩
  intro id
  obtain ⟨hcomplete,hdecides⟩ := sent_of_related id hs hrelated
  constructor
  · rintro ⟨sent,hmem,hcompletes⟩
    obtain ⟨other,hother⟩ := Option.isSome_iff_exists.mp hcompletes
    obtain ⟨k,hfollows,_⟩ := hdecides sent hmem other hother
    exact ⟨k,hfollows⟩
  · rintro ⟨k,hfollows⟩
    exact hcomplete k hfollows

end Related

section Predicates
variable {iteration : InMemory.Iteration C} {related : List StampedOutcome} {event : Event} {p : Path} {k : EventKind}
variable {source : PredicateSource} {values : List UInt64} {updates : List Event} {value w : UInt64} {time : NaiveDateTime}

/-- Whether an outcome makes the predicate for a value true. -/
def Makes : PredicateKind → UInt64 → UInt64 → Prop
  | .eq,value,outcome => value = outcome
  | .bound .gt,value,outcome => value < outcome

instance : (predicateKind : PredicateKind) → (value outcome : UInt64) → Decidable (Makes predicateKind value outcome)
  | .eq,value,outcome => inferInstanceAs (Decidable (value = outcome))
  | .bound .gt,value,outcome => inferInstanceAs (Decidable (value < outcome))

theorem told_completed {event : Event} {stamped : StampedOutcome} (h : told id msgs = some (event,some stamped)) :
    ∃ sent ∈ msgs, (completes id sent).isSome := by
  induction msgs with
  | nil => cases h
  | cons first msgs ih =>
    rw [told] at h
    cases hfirst : adds id first with
    | some added =>
      rw [hfirst] at h
      obtain ⟨sent,hmem,hsent⟩ := List.exists_of_findSome?_eq_some (Prod.mk.inj (Option.some.inj h)).2
      exact ⟨sent,List.mem_cons_of_mem _ hmem,by rw [hsent]; rfl⟩
    | none =>
      rw [hfirst] at h
      obtain ⟨sent,hmem,hsent⟩ := ih h
      exact ⟨sent,List.mem_cons_of_mem _ hmem,hsent⟩

/-- Without an outcome there is no attestation. -/
theorem unattested_of_untold (hjson : service.lib.serdeJson.RoundTrips) (hsig : C.AnnouncementsVerify)
    (h : service.machine.run msgs .default = .ok s) (hid : id.Accepted) (hl : s.inner.lookup id = some announced)
    (hquiet : ∀ sent ∈ msgs, completes id sent = none) : announced.attestation = none := by
  have hholds := lookup_of_unknown (s := .default) hjson hsig InMemory.keyed_default hid h rfl
  rw [hl] at hholds
  cases htold : told id msgs with
  | none =>
    rw [htold] at hholds
    cases hholds
  | some tale =>
    obtain ⟨event,completed⟩ := tale
    rw [htold] at hholds
    obtain ⟨_,hsame,hrecords⟩ := hholds
    obtain rfl := Option.some.inj hsame
    cases completed with
    | none => exact hrecords.unattested rfl
    | some stamped =>
      obtain ⟨sent,hmem,hsent⟩ := told_completed htold
      rw [hquiet sent hmem] at hsent
      cases hsent

/-- An outcome decides a generated predicate by comparing the two values. -/
theorem decides_predicate (hr : event.id.Reads p k) (hpredicable : event.id.Predicable value source.predicateKind)
    {predicate : Predicate} (hc : event.id.Compares value source.predicateKind predicate) {decided : UInt64}
    (h : CompleteRelated.Decides ⟨event.id,w⟩ decided (.predicate k.dropDigits predicate)) :
    decided = if Makes source.predicateKind value w then 1 else 0 := by
  obtain ⟨text,htext,hdecided⟩ := h
  cases hkind : source.predicateKind with
  | eq =>
    rw [hkind] at hc
    obtain ⟨text',htext',rfl⟩ := hc
    have hiff : text = text' ↔ value = w := by
      constructor
      · rintro rfl
        exact hr.outcomeString_injective htext' htext
      · rintro rfl
        exact Except.ok.inj (htext.symm.trans htext')
    obtain rfl := Except.ok.inj hdecided
    exact if_congr hiff rfl rfl
  | bound boundKind =>
    rw [hkind] at hc hpredicable
    obtain rfl : predicate = .bound boundKind value := hc
    obtain ⟨n,hprice⟩ := hpredicable
    obtain rfl : displayU64 w = text := by simpa [Outcome.outcomeString,hprice] using htext
    cases boundKind
    simp only [Predicate.predicateOutcome,parseU64_displayU64,MayPanic.expect_some,MayPanic.ok_bind,
      MayPanic.pure_eq] at hdecided
    exact (Except.ok.inj hdecided).symm

theorem related_predicate {predicate : Predicate} : (EventKind.predicate k.dropDigits predicate).Related k := by
  cases k <;> simp [EventKind.Related,EventKind.dropDigits,EventKind.eqFuzzy]

/-- The events that a source sends along are its predicates. -/
theorem mem_updates (hupdates : eventUpdates (some source) event = .ok updates)
    (hvalues : source.outcomeFilter.outcomesFor event.id = .ok values) (hvalue : value ∈ values) {built : EventId}
    (hbuilt : event.id.predicate source.predicateKind value = .ok built) :
    ⟨built,event.expectedOutcomeTime⟩ ∈ updates := by
  obtain ⟨ids,hids,hupdates⟩ := MayPanic.bind_eq_ok.mp hupdates
  obtain rfl := Except.ok.inj hupdates
  rw [PredicateSource.applyToEventId,hvalues,MayPanic.ok_bind] at hids
  obtain ⟨_,hat⟩ := MayPanic.mapM_eq_ok hids
  obtain ⟨i,hi⟩ := List.mem_iff_getElem?.mp hvalue
  obtain ⟨built',hmem,hbuilt'⟩ := hat i value hi
  obtain rfl := Except.ok.inj (hbuilt.symm.trans hbuilt')
  exact List.mem_cons_of_mem _ (List.mem_map_of_mem (List.mem_of_getElem? hmem))

end Predicates

section Sampled
open CompleteRelated (inMemory)

def sampleMatch : Event := ⟨⟨⟨"/A_B.vs".toList⟩⟩,none⟩

def sampleEqualities : PredicateSource := ⟨.all,.eq⟩

/-- A match and an equality for each of its results. -/
def sampleUpdates : List Event := ["/A_B.vs","/A_B.vs=A_win","/A_B.vs=B_win","/A_B.vs=draw"].map
  (fun id => ⟨⟨⟨id.toList⟩⟩,none⟩)

def sampleWon : StampedOutcome := ⟨⟨sampleMatch.id,0⟩,⟨0,0⟩⟩

/-- The store where the match has just been won, what follows, and the store after that. -/
theorem sample_settles : ∃ s t : NodeDb (Sample.group 10007), ∃ related,
    sampleService.serve (sentEvents ⟨"/foo".toList⟩ sampleUpdates ++ [⟨⟨"/foo".toList⟩,.outcome sampleWon⟩])
      .default = .ok s ∧ (s.inner.lookup ⟨⟨"/foo/A_B.vs=A_win".toList⟩⟩).isSome ∧
    (inMemory .entries ⟨"/foo".toList⟩).relatedUpdates sampleWon s.toInMemory = .ok related ∧
    sampleService.serve (sentOutcomes ⟨"/foo".toList⟩ related) s = .ok t := by
  have hall : (sampleService.serve (sentEvents ⟨"/foo".toList⟩ sampleUpdates ++
      [⟨⟨"/foo".toList⟩,.outcome sampleWon⟩]) .default).toOption.any (fun s =>
        (s.inner.lookup ⟨⟨"/foo/A_B.vs=A_win".toList⟩⟩).isSome && ((inMemory .entries ⟨"/foo".toList⟩).relatedUpdates sampleWon s.toInMemory).toOption.any (fun related =>
          (sampleService.serve (sentOutcomes ⟨"/foo".toList⟩ related) s).toOption.isSome)) = true := by
    decide +kernel
  obtain ⟨s,hs,hrest⟩ := MayPanic.of_toOption_any hall
  obtain ⟨hstored,hrest⟩ := (Bool.and_eq_true _ _).mp hrest
  obtain ⟨related,hrelated,ht⟩ := MayPanic.of_toOption_any hrest
  obtain ⟨t,ht⟩ := MayPanic.isOk_of_toOption ht
  exact ⟨s,t,related,hs,hstored,hrelated,ht⟩

/-- That the winner has won is attested as well. -/
theorem related_settled_vs : ∃ t : NodeDb (Sample.group 10007), ∃ announced attestation,
    t.inner.lookup ⟨⟨"/foo/A_B.vs=A_win".toList⟩⟩ = some announced ∧ announced.attestation = some attestation := by
  obtain ⟨s,t,related,hs,hstored,hrelated,ht⟩ := sample_settles
  have hjson : sampleService.lib.serdeJson.RoundTrips := Sample.roundTrips 10007
  have hfollows : Follows ⟨"/foo".toList⟩ sampleWon.outcome s ⟨⟨"/foo/A_B.vs=A_win".toList⟩⟩
      (.predicate (.vsMatch .winOrDraw) (.eq "A_win".toList)) :=
    ⟨3,.vsMatch .winOrDraw,⟨"/A_B".toList⟩,⟨"/foo/A_B".toList⟩,by decide +kernel,by decide,by decide +kernel,
      by decide +kernel,hstored,by decide +kernel,by decide +kernel,by decide +kernel,rfl⟩
  obtain ⟨announced,attestation,hl,hatt,_⟩ := (related_settled hjson (Sample.announcementsVerify 10007) hs hrelated
    (fun sent hsent => hsent) ht).2 _ _ (by decide +kernel) hfollows
  exact ⟨t,announced,attestation,hl,hatt⟩

end Sampled

end Service
end Olivia
