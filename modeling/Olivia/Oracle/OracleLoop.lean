import Olivia.Runs.Logged
import Olivia.Sources.CompleteRelated

/-! # The loop over one source

The loop adds the events that arrive and completes the outcomes that its source yields. The
source passes an outcome on first and asks for the related events when it is polled again,
whether the outcome was accepted or not. What is attested at a path then follows from every
inner outcome that reached an event there, so two of them have to say the same.
-/
namespace Olivia

/-- Where the stream that completes related events is between two polls. -/
inductive Source
  | listening
  | yielded (stamped : StampedOutcome)
  | completing (stamped : StampedOutcome) (related : List Outcome)

structure LoopState (C : Group) where
  db : InMemory C
  source : Source

/-- An event that an outcome reached before it was attested, and the inner outcome behind it. -/
structure Completion where
  id : EventId
  origin : Outcome

/-- An oracle on the in-memory store with one source of outcomes under a path. -/
structure OracleLoop (C : Group) where
  keychain : KeyChain C
  lib : Libraries C
  iteration : InMemory.Iteration C
  parent : Path

namespace OracleLoop
variable {C : Group} (loop : OracleLoop C)

def oracle : Oracle C (InMemory C) := .inMemory loop.keychain loop.lib

def completeRelated (outcome : Outcome) (db : InMemory C) : DbResult (List Outcome) :=
  (CompleteRelated.inMemory loop.iteration loop.parent).completeRelated outcome db

/-- What the loop does with an outcome. A panic ends the loop and changes nothing. -/
def complete (stamped : StampedOutcome) (db : InMemory C) : InMemory C :=
  (loop.oracle.completeEvent (stamped.prefixPath loop.parent) db).2

def completions (stamped : StampedOutcome) (origin : Outcome) (db : InMemory C) : List Completion :=
  let id := (stamped.prefixPath loop.parent).outcome.id
  match db.inner.lookup id with
  | some announced => if announced.attestation.isNone then [⟨id,origin⟩] else []
  | none => []

inductive Step : LoopState C → List Completion → LoopState C → Prop
  | event {s} (newEvent : Event) : Step s [] { s with db := (loop.oracle.addEvent newEvent s.db).2 }
  | outcome {db stamped kind} (hkind : stamped.outcome.id.eventKind = .ok kind) (hplain : ¬ kind.IsPredicate) :
      Step ⟨db,.listening⟩ (loop.completions stamped stamped.outcome db)
        ⟨loop.complete stamped db,.yielded stamped⟩
  | related {db stamped related} (h : loop.completeRelated stamped.outcome db = .ok (.ok related)) :
      Step ⟨db,.yielded stamped⟩ [] ⟨db,.completing stamped related⟩
  | relatedFailed {db stamped e} (h : loop.completeRelated stamped.outcome db = .ok (.error e)) :
      Step ⟨db,.yielded stamped⟩ [] ⟨db,.listening⟩
  | relatedOutcome {db stamped outcome related} :
      Step ⟨db,.completing stamped (outcome :: related)⟩
        (loop.completions ⟨outcome,stamped.time⟩ stamped.outcome db)
        ⟨loop.complete ⟨outcome,stamped.time⟩ db,.completing stamped related⟩
  | relatedDone {db stamped} : Step ⟨db,.completing stamped []⟩ [] ⟨db,.listening⟩

/-- Everything the loop can have done since it was started on an empty store. -/
abbrev Runs := Runs.Logged loop.Step ⟨.default,.listening⟩

/-- The origin of a completion explains the text that the event is attested with. -/
def Explains (x : Completion) (attested : Str) : Prop :=
  ∃ k kind text, x.id.eventKind = .ok k ∧ x.origin.id.eventKind = .ok kind ∧
    x.origin.outcomeString = .ok text ∧
    (¬ k.IsPredicate ∧ k.eqFuzzy kind ∧ attested = text ∨
      ∃ inner predicate value, k = .predicate inner predicate ∧ inner.eqFuzzy kind ∧
        predicate.predicateOutcome text = .ok value ∧ Outcome.outcomeString ⟨x.id,value⟩ = .ok attested)

def Explained (log : List Completion) (id : EventId) (announced : AnnouncedEvent C) : Prop :=
  announced.event.id = id ∧ ∀ attestation, announced.attestation = some attestation →
    ∃ x ∈ log, x.id = id ∧ Explains x attestation.outcome

def Plain (outcome : Outcome) : Prop := ∃ kind, outcome.id.eventKind = .ok kind ∧ ¬ kind.IsPredicate

/-- An outcome that was related to another one. -/
def Follows (origin outcome : Outcome) : Prop :=
  ∃ k kind, outcome.id.eventKind = .ok k ∧ origin.id.eventKind = .ok kind ∧ k.Related kind ∧
    CompleteRelated.Decides origin outcome.value k

def Pending : Source → Prop
  | .listening => True
  | .yielded stamped => Plain stamped.outcome
  | .completing stamped related => ∀ outcome ∈ related, Follows stamped.outcome outcome

variable {loop} {log : List Completion} {db : InMemory C} {stamped : StampedOutcome} {origin : Outcome}

theorem explains_plain {text : Str} (h : Plain stamped.outcome)
    (ht : (stamped.prefixPath loop.parent).outcome.outcomeString = .ok text) :
    Explains ⟨(stamped.prefixPath loop.parent).outcome.id,stamped.outcome⟩ text := by
  obtain ⟨kind,hkind,hplain⟩ := h
  have hsame := Outcome.outcomeString_prefixPath hkind loop.parent
  exact ⟨kind,kind,text,EventId.eventKind_prefixPath hkind loop.parent,hkind,hsame.symm.trans ht,
    Or.inl ⟨hplain,kind.eqFuzzy_refl,rfl⟩⟩

/-- A related price is printed like its origin, a predicate by its value on that print. -/
theorem explains_related {text : Str} (h : Follows origin stamped.outcome)
    (ht : (stamped.prefixPath loop.parent).outcome.outcomeString = .ok text) :
    Explains ⟨(stamped.prefixPath loop.parent).outcome.id,origin⟩ text := by
  obtain ⟨k,kind,hk,hkind,hrelated,hdecides⟩ := h
  have hk' := EventId.eventKind_prefixPath hk loop.parent
  cases k with
  | predicate inner predicate =>
    obtain ⟨printed,hprinted,hvalue⟩ := hdecides
    exact ⟨_,kind,printed,hk',hkind,hprinted,Or.inr ⟨inner,predicate,_,rfl,hrelated,hvalue,ht⟩⟩
  | price n =>
    cases kind with
    | price m =>
      have hsame := Outcome.outcomeString_prefixPath hk loop.parent
      have hprinted : stamped.outcome.outcomeString = .ok text := hsame.symm.trans ht
      have hvalue : stamped.outcome.value = origin.value := hdecides
      have horigin : origin.outcomeString = stamped.outcome.outcomeString := by
        simp [Outcome.outcomeString,hk,hkind,hvalue]
      exact ⟨_,_,text,hk',hkind,horigin.trans hprinted,Or.inl ⟨id,trivial,rfl⟩⟩
    | _ => exact absurd hrelated id
  | _ => exact absurd hrelated id

theorem Explained.mono {entries : List Completion} {id : EventId} {announced : AnnouncedEvent C}
    (h : Explained log id announced) : Explained (entries ++ log) id announced := by
  refine ⟨h.1,?_⟩
  intro attestation ha
  obtain ⟨x,hx,hid,he⟩ := h.2 attestation ha
  exact ⟨x,List.mem_append_right entries hx,hid,he⟩

/-- A completion that its origin explains keeps everything attested explained. -/
theorem complete_explained (hdb : InMemory.Every (Explained log) db)
    (hexplains : ∀ text, (stamped.prefixPath loop.parent).outcome.outcomeString = .ok text →
      Explains ⟨(stamped.prefixPath loop.parent).outcome.id,origin⟩ text) :
    InMemory.Every (Explained (loop.completions stamped origin db ++ log)) (loop.complete stamped db) := by
  have hkeyed : db.Keyed := fun id announced h => (hdb id announced h).1
  rcases Oracle.completeEvent_inMemory hkeyed (stamped.prefixPath loop.parent) with
    h | ⟨announced,attestation,hl,hnone,ht,h⟩
  · rw [complete,oracle,h]
    exact fun id announced hl => (hdb id announced hl).mono
  · have hlog : loop.completions stamped origin db =
        [⟨(stamped.prefixPath loop.parent).outcome.id,origin⟩] := by
      simp [completions,hl,hnone]
    rw [complete,oracle,h,hlog]
    intro id found hf
    rw [lookup_insert] at hf
    split at hf
    next hid =>
      obtain rfl := Option.some.inj hf
      refine ⟨hid ▸ hkeyed _ announced hl,?_⟩
      intro attestation' ha
      obtain rfl := Option.some.inj ha
      exact ⟨_,List.mem_cons_self,hid.symm,hexplains _ ht⟩
    next => exact (hdb id found hf).mono

theorem pending_related {related : List Outcome}
    (hrelated : loop.completeRelated stamped.outcome db = .ok (.ok related)) :
    Pending (.completing stamped related) := by
  intro outcome hmem
  rcases CompleteRelated.completeRelated_eq_ok hrelated with
    ⟨_,_,_,rfl⟩ | ⟨_,kind,path,_,_,hkind,_,hof,_⟩
  · cases hmem
  · obtain ⟨announced,k,rest,hsees,hrel,hdecides,hid⟩ := hof outcome hmem
    exact ⟨k,kind,hid ▸ hsees.strippedKind,hkind,hrel,hdecides⟩

/-- What every step preserves. -/
theorem step_explained {s t : LoopState C} {entries : List Completion}
    (h : InMemory.Every (Explained log) s.db ∧ Pending s.source) (hst : loop.Step s entries t) :
    InMemory.Every (Explained (entries ++ log)) t.db ∧ Pending t.source := by
  obtain ⟨hdb,hsource⟩ := h
  cases hst with
  | event newEvent =>
    exact ⟨Oracle.addEvent_every hdb (fun announced hnone => ⟨rfl,fun a ha => by simp [hnone] at ha⟩)
      newEvent,hsource⟩
  | outcome hkind hplain =>
    exact ⟨complete_explained hdb (fun _ => explains_plain ⟨_,hkind,hplain⟩),⟨_,hkind,hplain⟩⟩
  | related hr => exact ⟨hdb,pending_related hr⟩
  | relatedFailed _ => exact ⟨hdb,trivial⟩
  | relatedOutcome =>
    obtain ⟨hfirst,hrest⟩ := List.forall_mem_cons.mp hsource
    exact ⟨complete_explained hdb (fun _ => explains_related hfirst),hrest⟩
  | relatedDone => exact ⟨hdb,trivial⟩

/-- In every run every attested text is explained by a completion in its log. -/
theorem runs_explained {s : LoopState C} (h : loop.Runs s log) : InMemory.Every (Explained log) s.db := by
  have hinit : InMemory.Every (Explained []) (.default : InMemory C) ∧ Pending .listening :=
    ⟨fun _ _ h => (by cases h),trivial⟩
  exact (Runs.Logged.invariant (I := fun (s : LoopState C) log =>
    InMemory.Every (Explained log) s.db ∧ Pending s.source) hinit step_explained h).1

/-- The inner outcomes that reach waiting events at one path, if they decide each other,
have the same text. -/
def Agree (x y : Completion) : Prop :=
  ∀ path k l, x.id.path = .ok path → y.id.path = .ok path → x.origin.id.eventKind = .ok k →
    y.origin.id.eventKind = .ok l → k.eqFuzzy l → x.origin.outcomeString = y.origin.outcomeString

instance : Std.Symm Agree where
  symm _ _ h path k l hx hy hk hl hkl := (h path l k hy hx hl hk hkl.symm).symm

/-- A predicate over an attested event is attested with its value on the attested text. -/
def Consistent (db : InMemory C) : Prop :=
  ∀ id id' announced announced' attestation attestation' path k inner predicate,
    db.inner.lookup id = some announced → announced.attestation = some attestation →
    db.inner.lookup id' = some announced' → announced'.attestation = some attestation' →
    announced.event.id.path = .ok path → announced'.event.id.path = .ok path →
    announced.event.id.eventKind = .ok k → ¬ k.IsPredicate →
    announced'.event.id.eventKind = .ok (.predicate inner predicate) → inner.eqFuzzy k →
    ∃ value, predicate.predicateOutcome attestation.outcome = .ok value ∧
      Outcome.outcomeString ⟨announced'.event.id,value⟩ = .ok attestation'.outcome

/-- Attestations of related events agree wherever the outcomes behind them do. -/
theorem consistent_of_agree {s : LoopState C} (h : loop.Runs s log) (hagree : log.Pairwise Agree) :
    Consistent s.db := by
  intro id id' announced announced' attestation attestation' path k inner predicate
    hl ha hl' ha' hp hp' hk hplain hk' hinner
  obtain ⟨rfl,hexplained⟩ := runs_explained h id announced hl
  obtain ⟨rfl,hexplained'⟩ := runs_explained h id' announced' hl'
  obtain ⟨x,hx,hid,kx,kind,text,hkx,hkind,htext,hcases⟩ := hexplained attestation ha
  obtain ⟨y,hy,hid',ky,kind',text',hky,hkind',htext',hcases'⟩ := hexplained' attestation' ha'
  rw [hid,hk] at hkx
  rw [hid',hk'] at hky
  obtain rfl := Except.ok.inj hkx
  obtain rfl := Except.ok.inj hky
  rcases hcases with ⟨_,hfuzzy,rfl⟩ | ⟨_,_,_,rfl,_⟩
  · rcases hcases' with ⟨hnot,_⟩ | ⟨_,_,value,he,hfuzzy',hvalue,hprinted⟩
    · exact absurd trivial hnot
    · obtain ⟨rfl,rfl⟩ := EventKind.predicate.inj he
      have hkinds : kind.eqFuzzy kind' := hfuzzy.symm.trans (hinner.symm.trans hfuzzy')
      have hxy : Agree x y := hagree.forall_of_forall (fun _ _ _ _ _ _ _ _ _ _ => rfl) hx hy
      have hsame := hxy path kind kind' (hid ▸ hp) (hid' ▸ hp') hkind hkind' hkinds
      rw [htext,htext'] at hsame
      obtain rfl := Except.ok.inj hsame
      exact ⟨value,hvalue,hid' ▸ hprinted⟩
  · exact absurd trivial hplain

section Deliver

/-- The completions of related outcomes that nothing comes between. -/
def completeAll (loop : OracleLoop C) (stamped : StampedOutcome) :
    List Outcome → InMemory C × List Completion → InMemory C × List Completion
  | [], s => s
  | outcome :: related, (db,log) => completeAll loop stamped related
      (loop.complete ⟨outcome,stamped.time⟩ db,loop.completions ⟨outcome,stamped.time⟩ stamped.outcome db ++ log)

/-- An inner outcome and everything the source relates to it, with no event in between. -/
def deliver (loop : OracleLoop C) (stamped : StampedOutcome) (s : InMemory C × List Completion) :
    Option (InMemory C × List Completion) :=
  match loop.completeRelated stamped.outcome (loop.complete stamped s.1) with
  | .ok (.ok related) => some (loop.completeAll stamped related
      (loop.complete stamped s.1,loop.completions stamped stamped.outcome s.1 ++ s.2))
  | _ => none

theorem runs_event {s : LoopState C} (h : loop.Runs s log) (newEvent : Event) :
    loop.Runs { s with db := (loop.oracle.addEvent newEvent s.db).2 } log := .step h (.event newEvent)

theorem runs_completeAll {related : List Outcome} (h : loop.Runs ⟨db,.completing stamped related⟩ log) :
    loop.Runs ⟨(loop.completeAll stamped related (db,log)).1,.listening⟩
      (loop.completeAll stamped related (db,log)).2 := by
  induction related generalizing db log with
  | nil => exact .step h .relatedDone
  | cons outcome related ih => exact ih (.step h .relatedOutcome)

theorem runs_deliver {s t : InMemory C × List Completion} {kind : EventKind}
    (h : loop.Runs ⟨s.1,.listening⟩ s.2) (hkind : stamped.outcome.id.eventKind = .ok kind)
    (hplain : ¬ kind.IsPredicate) (hd : loop.deliver stamped s = some t) :
    loop.Runs ⟨t.1,.listening⟩ t.2 := by
  unfold deliver at hd
  split at hd
  next related hrelated =>
    obtain rfl := Option.some.inj hd
    have hyielded : loop.Runs ⟨loop.complete stamped s.1,.yielded stamped⟩ _ :=
      .step h (.outcome hkind hplain)
    have hcompleting : loop.Runs ⟨loop.complete stamped s.1,.completing stamped related⟩ ([] ++ _) :=
      .step hyielded (.related hrelated)
    exact runs_completeAll hcompleting
  next => cases hd

/-- The text that an event is attested with. -/
def attestedText (id : EventId) (db : InMemory C) : Option Str :=
  (db.inner.lookup id).bind (fun announced => announced.attestation.map Attestation.outcome)

theorem Consistent.texts {path : Path} {k inner : EventKind} {predicate : Predicate} {id id' : EventId}
    {text text' : Str} (h : Consistent db) (hkeyed : db.Keyed) (ht : attestedText id db = some text)
    (ht' : attestedText id' db = some text') (hp : id.path = .ok path) (hp' : id'.path = .ok path)
    (hk : id.eventKind = .ok k) (hplain : ¬ k.IsPredicate)
    (hk' : id'.eventKind = .ok (.predicate inner predicate)) (hinner : inner.eqFuzzy k) :
    ∃ value, predicate.predicateOutcome text = .ok value ∧ Outcome.outcomeString ⟨id',value⟩ = .ok text' := by
  obtain ⟨announced,hl,hmap⟩ := Option.bind_eq_some_iff.mp ht
  obtain ⟨attestation,ha,rfl⟩ := Option.map_eq_some_iff.mp hmap
  obtain ⟨announced',hl',hmap'⟩ := Option.bind_eq_some_iff.mp ht'
  obtain ⟨attestation',ha',rfl⟩ := Option.map_eq_some_iff.mp hmap'
  obtain rfl := hkeyed _ _ hl
  obtain rfl := hkeyed _ _ hl'
  exact h _ _ _ _ _ _ path k inner predicate hl ha hl' ha' hp hp' hk hplain hk' hinner

theorem pairwise_agree_of_origin {origin : Outcome} (h : ∀ x ∈ log, x.origin = origin) :
    log.Pairwise Agree := by
  refine List.pairwise_of_forall_mem_list ?_
  intro x hx y hy path k l _ _ _ _ _
  rw [h x hx,h y hy]

end Deliver

section Sampled
open Sample

def sampleLoop : OracleLoop (group 10007) := ⟨Sample.keychain,libraries 10007,.entries,.root⟩

def samplePrice : EventId := ⟨⟨"/foo/bar.price?n=3".toList⟩⟩
def samplePredicate : EventId := ⟨⟨"/foo/bar.price_5".toList⟩⟩

def sampleAdd (id : EventId) (db : InMemory (group 10007)) : InMemory (group 10007) :=
  (sampleLoop.oracle.addEvent ⟨id,none⟩ db).2

/-- The price is there when its outcome arrives. -/
def sampleRun : Option (InMemory (group 10007) × List Completion) :=
  sampleLoop.deliver ⟨⟨samplePrice,7⟩,⟨0,0⟩⟩ (sampleAdd samplePrice (sampleAdd samplePredicate .default),[])

/-- The price is added after its first outcome has arrived, and attested with its second. -/
def sampleLateRun : Option (InMemory (group 10007) × List Completion) :=
  (sampleLoop.deliver ⟨⟨samplePrice,7⟩,⟨0,0⟩⟩ (sampleAdd samplePredicate .default,[])).bind
    (fun s => sampleLoop.deliver ⟨⟨samplePrice,3⟩,⟨0,0⟩⟩ (sampleAdd samplePrice s.1,s.2))

theorem samplePrice_kind : samplePrice.eventKind = .ok (.price 3) := by decide +kernel

theorem consistent_of_agree_price : ∃ db log, sampleLoop.Runs ⟨db,.listening⟩ log ∧
    attestedText samplePrice db = some "7".toList ∧ attestedText samplePredicate db = some "true".toList ∧
    Consistent db := by
  have htexts : sampleRun.map (fun s => (attestedText samplePrice s.1,attestedText samplePredicate s.1,
      s.2.all (fun x => x.origin = ⟨samplePrice,7⟩))) =
      some (some "7".toList,some "true".toList,true) := by decide +kernel
  obtain ⟨s,hs,htexts⟩ := Option.map_eq_some_iff.mp htexts
  simp only [Prod.mk.injEq,List.all_eq_true,decide_eq_true_eq] at htexts
  obtain ⟨hprice,hpredicate,horigin⟩ := htexts
  have hadded : sampleLoop.Runs ⟨sampleAdd samplePrice (sampleAdd samplePredicate .default),.listening⟩ [] :=
    runs_event (runs_event .start ⟨samplePredicate,none⟩) ⟨samplePrice,none⟩
  have hrun : sampleLoop.Runs ⟨s.1,.listening⟩ s.2 := runs_deliver hadded samplePrice_kind id hs
  exact ⟨s.1,s.2,hrun,hprice,hpredicate,consistent_of_agree hrun (pairwise_agree_of_origin horigin)⟩

/-- The predicate is attested as true of 7, its price then as 3. -/
theorem predicate_contradicts_price : ∃ db log, sampleLoop.Runs ⟨db,.listening⟩ log ∧
    attestedText samplePrice db = some "3".toList ∧ attestedText samplePredicate db = some "true".toList ∧
    ¬ Consistent db := by
  have htexts : sampleLateRun.map (fun s => (attestedText samplePrice s.1,attestedText samplePredicate s.1)) =
      some (some "3".toList,some "true".toList) := by decide +kernel
  obtain ⟨t,ht,htexts⟩ := Option.map_eq_some_iff.mp htexts
  obtain ⟨hprice,hpredicate⟩ := Prod.mk.inj htexts
  obtain ⟨s,hs,ht⟩ := Option.bind_eq_some_iff.mp ht
  have hadded : sampleLoop.Runs ⟨sampleAdd samplePredicate .default,.listening⟩ [] :=
    runs_event .start ⟨samplePredicate,none⟩
  have hfirst : sampleLoop.Runs ⟨s.1,.listening⟩ s.2 := runs_deliver hadded samplePrice_kind id hs
  have hrun : sampleLoop.Runs ⟨t.1,.listening⟩ t.2 :=
    runs_deliver (runs_event hfirst ⟨samplePrice,none⟩) samplePrice_kind id ht
  have hkeyed : t.1.Keyed := fun id announced h => (runs_explained hrun id announced h).1
  refine ⟨t.1,t.2,hrun,hprice,hpredicate,?_⟩
  intro hconsistent
  have hpath : samplePrice.path = .ok ⟨"/foo/bar".toList⟩ := by decide +kernel
  obtain ⟨value,hvalue,hprinted⟩ := hconsistent.texts hkeyed hprice hpredicate hpath (by decide +kernel)
    samplePrice_kind id
    (by decide +kernel : samplePredicate.eventKind = .ok (.predicate (.price 0) (.bound .gt 5))) trivial
  obtain rfl : 0 = value := Except.ok.inj ((by decide +kernel :
    Predicate.predicateOutcome (.bound .gt 5) "3".toList = .ok 0).symm.trans hvalue)
  exact absurd hprinted (by decide +kernel)

end Sampled

end OracleLoop
end Olivia
