import Olivia.Db.Prefixed
import Olivia.Secp256k1.Sample
import Olivia.Oracle.Lifecycle

/-! # Completing related events

The outcome of an event decides the outcomes of its siblings: the predicates on its kind,
and the prices with other digits. The siblings are asked for by their path, with a query
that answers with the whole subtree and with every longer name as well.
-/
namespace Olivia

/-- The kinds whose outcome follows from an outcome of the other kind. -/
def EventKind.Related : EventKind → EventKind → Prop
  | .predicate inner _, kind => inner.eqFuzzy kind
  | .price _, .price _ => True
  | _, _ => False

structure CompleteRelated (σ : Type) where
  db : PrefixedDb σ

namespace CompleteRelated
variable {σ : Type}

def relatedOutcome (outcome : Outcome) (outcomeEventKind : EventKind) (related : Event) :
    MayPanic (Option Outcome) := do
  match ← related.id.eventKind with
  | .predicate inner predicate =>
    if inner.eqFuzzy outcomeEventKind then do
      let outcomeString ← outcome.outcomeString
      let outcomeValue ← predicate.predicateOutcome outcomeString
      return some ⟨related.id,outcomeValue⟩
    else return none
  | .price _ =>
    match outcomeEventKind with
    | .price _ => return some ⟨related.id,outcome.value⟩
    | _ => return none
  | _ => return none

def completeRelated (source : CompleteRelated σ) (outcome : Outcome) (s : σ) :
    MayPanic (Except DbError (List Outcome)) := do
  let nOutcomes ← outcome.id.nOutcomes
  if nOutcomes < 3 then return .ok []
  else
    let outcomeEventKind ← outcome.id.eventKind
    let path ← outcome.id.path
    match ← source.db.queryEvents { path := some path } s with
    | .error e => return .error e
    | .ok relatedEvents =>
      let related ← MayPanic.filterMap (relatedOutcome outcome outcomeEventKind) relatedEvents
      return .ok related

variable {outcome : Outcome} {kind : EventKind} {related : Event}

/-- Below three outcomes nothing is completed, and from three on what the query finds is asked. -/
theorem completeRelated_eq_ok_iff {source : CompleteRelated σ} {s : σ} {rs : List Outcome} :
    source.completeRelated outcome s = .ok (.ok rs) ↔ ∃ n, outcome.id.nOutcomes = .ok n ∧
      (n < 3 ∧ rs = [] ∨ 3 ≤ n ∧ ∃ kind path found, outcome.id.eventKind = .ok kind ∧
        outcome.id.path = .ok path ∧ source.db.queryEvents { path := some path } s = .ok (.ok found) ∧
        MayPanic.filterMap (relatedOutcome outcome kind) found = .ok rs) := by
  rw [completeRelated,MayPanic.bind_eq_ok]
  refine exists_congr (fun n => and_congr_right (fun _ => ?_))
  by_cases hlt : n < 3
  · rw [if_pos hlt]
    constructor
    · intro h
      exact Or.inl ⟨hlt,(Except.ok.inj (Except.ok.inj h)).symm⟩
    · rintro (⟨_,rfl⟩ | ⟨hge,_⟩)
      · rfl
      · exact absurd hlt (UInt64.not_lt.mpr hge)
  · rw [if_neg hlt]
    constructor
    · intro h
      obtain ⟨kind,hkind,h⟩ := MayPanic.bind_eq_ok.mp h
      obtain ⟨path,hpath,h⟩ := MayPanic.bind_eq_ok.mp h
      obtain ⟨found,hfound,h⟩ := MayPanic.bind_eq_ok.mp h
      cases found with
      | error e => simp at h
      | ok found =>
        obtain ⟨related,hrelated,h⟩ := MayPanic.bind_eq_ok.mp h
        obtain rfl := Except.ok.inj (Except.ok.inj h)
        exact Or.inr ⟨UInt64.not_lt.mp hlt,kind,path,found,hkind,hpath,hfound,hrelated⟩
    · rintro (⟨h,_⟩ | ⟨_,kind,path,found,hkind,hpath,hfound,hrelated⟩)
      · exact absurd h hlt
      · simp only [hkind,hpath,hfound,hrelated,MayPanic.ok_bind,MayPanic.pure_eq]

/-- The value that the outcome gives to an event of a related kind. -/
def Decides (outcome : Outcome) (value : UInt64) : EventKind → Prop
  | .predicate _ predicate => ∃ text, outcome.outcomeString = .ok text ∧
    predicate.predicateOutcome text = .ok value
  | _ => value = outcome.value

theorem relatedOutcome_eq_ok {r : Option Outcome} (h : relatedOutcome outcome kind related = .ok r) :
    ∃ k, related.id.eventKind = .ok k ∧ (¬ k.Related kind ∧ r = none ∨
      k.Related kind ∧ ∃ value, Decides outcome value k ∧ r = some ⟨related.id,value⟩) := by
  obtain ⟨k,hk,h⟩ := MayPanic.bind_eq_ok.mp h
  refine ⟨k,hk,?_⟩
  cases k with
  | predicate inner predicate =>
    by_cases hf : inner.eqFuzzy kind
    · simp only [if_pos hf] at h
      obtain ⟨text,ht,h⟩ := MayPanic.bind_eq_ok.mp h
      obtain ⟨value,hv,h⟩ := MayPanic.bind_eq_ok.mp h
      exact Or.inr ⟨hf,value,⟨text,ht,hv⟩,(Except.ok.inj h).symm⟩
    · simp only [if_neg hf] at h
      exact Or.inl ⟨hf,(Except.ok.inj h).symm⟩
  | price n =>
    cases kind with
    | price m => exact Or.inr ⟨trivial,outcome.value,rfl,(Except.ok.inj h).symm⟩
    | _ => exact Or.inl ⟨id,(Except.ok.inj h).symm⟩
  | _ => exact Or.inl ⟨id,(Except.ok.inj h).symm⟩

variable {C : Group} {iteration : InMemory.Iteration C} {pathPrefix path rest : Path} {s : InMemory C}
variable {announced : AnnouncedEvent C} {k : EventKind} {rs : List Outcome}

/-- A stored event that a source finds below a path, and the path it sees the event at. -/
structure Sees (pathPrefix path : Path) (s : InMemory C) (announced : AnnouncedEvent C) (k : EventKind)
    (rest : Path) : Prop where
  stored : ∃ id, s.inner.lookup id = some announced
  ofKind : announced.event.id.eventKind = .ok k
  atPath : announced.event.id.path = .ok (rest.under pathPrefix)
  below : (path.prefixPath pathPrefix).str <+: (rest.under pathPrefix).str
  strippedKind : (announced.event.id.stripPrefixPath pathPrefix).eventKind = .ok k
  strippedPath : (announced.event.id.stripPrefixPath pathPrefix).path = .ok rest

/-- What was found has been stripped and parsed again, so it is seen. -/
theorem sees_of_found {id : EventId} {pathId : Path} (hl : s.inner.lookup id = some announced)
    (hp : announced.event.id.path = .ok pathId) (hq : (path.prefixPath pathPrefix).str <+: pathId.str)
    (hk : (announced.event.id.stripPrefixPath pathPrefix).eventKind = .ok k) :
    ∃ rest, Sees pathPrefix path s announced k rest ∧ pathId = rest.under pathPrefix := by
  obtain ⟨hkind,rest,hrest,hpath⟩ := EventId.of_stripPrefixPath (EventId.begins_of_path hp hq) hk
  obtain rfl := Except.ok.inj (hp.symm.trans hpath)
  exact ⟨rest,⟨⟨id,hl⟩,hkind,hp,hq,hk,hrest⟩,rfl⟩

/-- A source that completes related events of the in-memory store. -/
def inMemory (iteration : InMemory.Iteration C) (pathPrefix : Path) : CompleteRelated (InMemory C) :=
  ⟨⟨InMemory.readEvent iteration,pathPrefix⟩⟩

/-- Either nothing is completed, or it is what the source sees below the path of the event. -/
theorem completeRelated_eq_ok
    (h : completeRelated (inMemory iteration pathPrefix) outcome s = .ok (.ok rs)) :
    (∃ n, outcome.id.nOutcomes = .ok n ∧ n < 3 ∧ rs = []) ∨
    ∃ n kind path, outcome.id.nOutcomes = .ok n ∧ 3 ≤ n ∧ outcome.id.eventKind = .ok kind ∧
      outcome.id.path = .ok path ∧
      (∀ r ∈ rs, ∃ announced k rest, Sees pathPrefix path s announced k rest ∧ k.Related kind ∧
        Decides outcome r.value k ∧ r.id = announced.event.id.stripPrefixPath pathPrefix) ∧
      ∀ id announced pathId k, s.inner.lookup id = some announced → announced.event.id.path = .ok pathId →
        announced.event.id.eventKind = .ok k → (path.prefixPath pathPrefix).str <+: pathId.str →
        k.Related kind → ∃ r ∈ rs, ∃ rest, Sees pathPrefix path s announced k rest ∧
          r.id = announced.event.id.stripPrefixPath pathPrefix ∧ pathId = rest.under pathPrefix := by
  obtain ⟨n,hn,⟨hlt,rfl⟩ | ⟨hge,kind,path,found,hkind,hpath,hfound,hrelated⟩⟩ := completeRelated_eq_ok_iff.mp h
  · exact Or.inl ⟨n,hn,hlt,rfl⟩
  · have hmem := PrefixedDb.mem_queryEvents_path hfound
    obtain ⟨hall,hrs⟩ := MayPanic.filterMap_eq_ok hrelated
    refine Or.inr ⟨n,kind,path,hn,hge,hkind,hpath,?_,?_⟩
    · intro r hr
      obtain ⟨event,hevent,hr⟩ := (hrs r).mp hr
      obtain ⟨id,announced,pathId,hl,hp,hq,rfl⟩ := (hmem event).mp hevent
      obtain ⟨k,hk,⟨_,hnone⟩ | ⟨hrel,value,hvalue,hsome⟩⟩ := relatedOutcome_eq_ok hr
      · cases hnone
      · obtain rfl := Option.some.inj hsome
        obtain ⟨rest,hsees,_⟩ := sees_of_found hl hp hq hk
        exact ⟨announced,k,rest,hsees,hrel,hvalue,rfl⟩
    · intro id announced pathId k hl hp hk hq hrel
      have hevent := (hmem _).mpr ⟨id,announced,pathId,hl,hp,hq,rfl⟩
      obtain ⟨r,hr⟩ := hall _ hevent
      obtain ⟨k',hk',hcases⟩ := relatedOutcome_eq_ok hr
      obtain ⟨rest,hsees,hrest⟩ := sees_of_found hl hp hq hk'
      obtain rfl : k = k' := Except.ok.inj (hk.symm.trans hsees.ofKind)
      rcases hcases with ⟨hnot,_⟩ | ⟨_,value,_,rfl⟩
      · exact absurd hrel hnot
      · exact ⟨_,(hrs _).mpr ⟨_,hevent,hr⟩,rest,hsees,rfl,hrest⟩

/-- No event of a related kind is stored below the path of the event, or at a longer name. -/
def NoneBeyond (pathPrefix : Path) (outcome : Outcome) (s : InMemory C) : Prop :=
  ∀ id announced path kind pathId k, s.inner.lookup id = some announced → outcome.id.path = .ok path →
    outcome.id.eventKind = .ok kind → announced.event.id.path = .ok pathId →
    announced.event.id.eventKind = .ok k → k.Related kind →
    (path.prefixPath pathPrefix).str <+: pathId.str → pathId = path.under pathPrefix

/-- Only siblings are completed exactly when nothing related is stored beyond the path. -/
theorem completeRelated_siblings_iff
    (h : completeRelated (inMemory iteration pathPrefix) outcome s = .ok (.ok rs)) :
    (∀ r ∈ rs, r.id.path = outcome.id.path) ↔
      (∃ n, outcome.id.nOutcomes = .ok n ∧ n < 3) ∨ NoneBeyond pathPrefix outcome s := by
  rcases completeRelated_eq_ok h with ⟨n,hn,hlt,rfl⟩ | ⟨n,kind,path,hn,hge,hkind,hpath,hof,hall⟩
  · exact iff_of_true (by simp) (Or.inl ⟨n,hn,hlt⟩)
  · constructor
    · intro hrs
      refine Or.inr ?_
      intro id announced path' kind' pathId k hl hpath' hkind' hp hk hrel hq
      obtain rfl := Except.ok.inj (hpath.symm.trans hpath')
      obtain rfl := Except.ok.inj (hkind.symm.trans hkind')
      obtain ⟨r,hr,rest,hsees,hid,rfl⟩ := hall id announced pathId k hl hp hk hq hrel
      have hsame := hrs r hr
      rw [hid,hsees.strippedPath,hpath] at hsame
      rw [Except.ok.inj hsame]
    · rintro (⟨n',hn',hlt⟩ | hnone) r hr
      · obtain rfl := Except.ok.inj (hn.symm.trans hn')
        exact absurd hlt (UInt64.not_lt.mpr hge)
      · obtain ⟨announced,k,rest,hsees,hrel,_,hid⟩ := hof r hr
        obtain ⟨id,hl⟩ := hsees.stored
        have hbeyond : rest.under pathPrefix = path.under pathPrefix :=
          hnone id announced path kind _ k hl hpath hkind hsees.atPath hsees.ofKind hrel hsees.below
        rw [hid,hsees.strippedPath,hpath,Path.under_injective hbeyond]

section Sampled
open Sample

/-- Events that were added to an empty store. -/
def sampleStore (ids : List Str) : InMemory (group 10007) := ids.foldl (fun s id =>
  ((Oracle.inMemory keychain (libraries 10007)).addEvent ⟨⟨⟨id⟩⟩,none⟩ s).2) .default

def sampleRelated (id : Str) (value : UInt64) (ids : List Str) : MayPanic (Except DbError (List Outcome)) :=
  completeRelated (inMemory .entries .root) ⟨⟨⟨id⟩⟩,value⟩ (sampleStore ids)

example : sampleRelated "/foo/A_B.vs".toList 0 ["/foo/A_B.winner".toList,"/foo/A_B.vs=A_win".toList] =
    .ok (.ok [⟨⟨⟨"/foo/A_B.vs=A_win".toList⟩⟩,1⟩]) := by decide +kernel

/-- The sibling predicate alone is completed, and nothing is stored beyond. -/
theorem completeRelated_siblings_price : ∃ rs,
    sampleRelated "/foo/bar.price?n=3".toList 5 ["/foo/bar.price_3".toList,"/foo/qux.price".toList] =
      .ok (.ok rs) ∧ rs = [⟨⟨⟨"/foo/bar.price_3".toList⟩⟩,1⟩] ∧
    ((∃ n, EventId.nOutcomes ⟨⟨"/foo/bar.price?n=3".toList⟩⟩ = .ok n ∧ n < 3) ∨
      NoneBeyond .root ⟨⟨⟨"/foo/bar.price?n=3".toList⟩⟩,5⟩
        (sampleStore ["/foo/bar.price_3".toList,"/foo/qux.price".toList])) := by
  have h : sampleRelated "/foo/bar.price?n=3".toList 5 ["/foo/bar.price_3".toList,"/foo/qux.price".toList] =
    .ok (.ok [⟨⟨⟨"/foo/bar.price_3".toList⟩⟩,1⟩]) := by decide +kernel
  exact ⟨_,h,rfl,(completeRelated_siblings_iff h).mp (by decide +kernel)⟩

/-- A price is passed on to a deeper event and to one with a longer name. -/
theorem price_completed_beyond : EventId.Accepted ⟨⟨"/foo/bar.price?n=3".toList⟩⟩ ∧ ∃ rs,
    sampleRelated "/foo/bar.price?n=3".toList 5
      ["/foo/bar/baz.price?n=2".toList,"/foo/barometer.price".toList] = .ok (.ok rs) ∧
    rs = [⟨⟨⟨"/foo/barometer.price".toList⟩⟩,5⟩,⟨⟨⟨"/foo/bar/baz.price?n=2".toList⟩⟩,5⟩] ∧
    ∀ r ∈ rs, r.id.path ≠ EventId.path ⟨⟨"/foo/bar.price?n=3".toList⟩⟩ := by
  have h : sampleRelated "/foo/bar.price?n=3".toList 5
      ["/foo/bar/baz.price?n=2".toList,"/foo/barometer.price".toList] =
      .ok (.ok [⟨⟨⟨"/foo/barometer.price".toList⟩⟩,5⟩,⟨⟨⟨"/foo/bar/baz.price?n=2".toList⟩⟩,5⟩]) := by
    decide +kernel
  exact ⟨by decide +kernel,_,h,rfl,by decide +kernel⟩

end Sampled

end CompleteRelated
end Olivia
