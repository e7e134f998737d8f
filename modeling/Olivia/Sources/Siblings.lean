import Olivia.Core.Canonical
import Olivia.Sources.CompleteRelated

/-! # Completing every sibling

What is missed: an event with fewer than three outcomes completes nothing, although
predicates stand on it like on every other event. Where there are three outcomes or more
the siblings are all completed, as long as the ids that the query returns still read back.
-/
namespace Olivia

theorem Path.prefixPath_prefix_under (p mount : Path) : (p.prefixPath mount).str <+: (p.under mount).str := by
  by_cases hp : p.isRoot
  · rw [prefixPath,if_pos hp,under]
    split
    next hmount => rw [hmount,hp]
    next => exact List.prefix_append ..
  · rw [prefixPath_eq_under hp]

/-- A predicate that stands on an event of the outcome's kind can be told from its text. -/
theorem Predicate.predicateOutcome_isOk {inner kind : EventKind} {predicate : Predicate} {id : EventId}
    {value : UInt64} {text : Str} (hw : inner.Wraps predicate) (hf : inner.eqFuzzy kind)
    (hk : id.eventKind = .ok kind) (htext : Outcome.outcomeString ⟨id,value⟩ = .ok text) :
    ∃ v, predicate.predicateOutcome text = .ok v := by
  cases predicate with
  | eq target => exact ⟨_,rfl⟩
  | bound boundKind target =>
    cases boundKind
    obtain rfl : inner = .price 0 := hw
    cases kind with
    | price n =>
      obtain rfl : displayU64 value = text := by simpa [Outcome.outcomeString,hk] using htext
      exact ⟨_,by rw [predicateOutcome,parseU64_displayU64,MayPanic.expect_some,MayPanic.ok_bind,MayPanic.pure_eq]⟩
    | _ => simp [EventKind.eqFuzzy] at hf

namespace CompleteRelated
variable {C : Group} {iteration : InMemory.Iteration C} {pathPrefix path : Path} {s : InMemory C}
variable {outcome : Outcome} {kind k : EventKind} {announced : AnnouncedEvent C} {rs : List Outcome} {text : Str}

/-- A stored event at the path of the outcome's event whose outcome follows from this one. -/
structure Sibling (pathPrefix : Path) (outcome : Outcome) (s : InMemory C) (announced : AnnouncedEvent C) : Prop where
  stored : ∃ id, s.inner.lookup id = some announced
  atPath : ∃ path, outcome.id.path = .ok path ∧ announced.event.id.path = .ok (path.under pathPrefix)
  related : ∃ kind k, outcome.id.eventKind = .ok kind ∧ announced.event.id.eventKind = .ok k ∧ k.Related kind

/-- Every sibling is completed, and completed once. -/
def CompletesSiblings (iteration : InMemory.Iteration C) (pathPrefix : Path) (outcome : Outcome)
    (s : InMemory C) : Prop :=
  ∃ rs, completeRelated (inMemory iteration pathPrefix) outcome s = .ok (.ok rs) ∧
    ∀ announced, Sibling pathPrefix outcome s announced →
      (rs.map Outcome.id).count (announced.event.id.stripPrefixPath pathPrefix) = 1

/-- The stored ids have a path, and a kind as well where the query finds them and strips them. -/
def ReadsBack (pathPrefix path : Path) (s : InMemory C) : Prop :=
  ∀ id announced, s.inner.lookup id = some announced → ∃ pathId, announced.event.id.path = .ok pathId ∧
    ((path.prefixPath pathPrefix).str <+: pathId.str →
      ∃ k, (announced.event.id.stripPrefixPath pathPrefix).eventKind = .ok k)

/-- An event that was found can be asked about an outcome where its kind can be read. -/
theorem relatedOutcome_isOk_iff {related : Event} (hkind : outcome.id.eventKind = .ok kind)
    (htext : outcome.outcomeString = .ok text) :
    (∃ r, relatedOutcome outcome kind related = .ok r) ↔ ∃ k, related.id.eventKind = .ok k := by
  constructor
  · rintro ⟨r,h⟩
    obtain ⟨k,hk,_⟩ := relatedOutcome_eq_ok h
    exact ⟨k,hk⟩
  · rintro ⟨k,hk⟩
    obtain ⟨_,_,_,hspelled⟩ := EventId.eventKind_eq_ok hk
    simp only [relatedOutcome,hk,MayPanic.ok_bind]
    cases k with
    | predicate inner predicate =>
      by_cases hf : inner.eqFuzzy kind
      · obtain ⟨_,hwraps⟩ := hspelled.closed
        obtain ⟨v,hv⟩ := Predicate.predicateOutcome_isOk hwraps hf hkind htext
        exact ⟨some ⟨related.id,v⟩,by simp [hf,htext,hv]⟩
      · exact ⟨none,by simp [hf]⟩
    | price n => cases kind <;> exact ⟨_,rfl⟩
    | _ => exact ⟨_,rfl⟩

/-- Nothing is completed twice, as no event is found twice. -/
theorem completeRelated_nodup (hs : s.Keyed)
    (h : completeRelated (inMemory iteration pathPrefix) outcome s = .ok (.ok rs)) :
    (rs.map Outcome.id).Nodup := by
  obtain ⟨n,_,⟨_,rfl⟩ | ⟨_,kind,path,found,_,_,hfound,hrelated⟩⟩ := completeRelated_eq_ok_iff.mp h
  · exact List.nodup_nil
  · have hsub : (rs.map Outcome.id).Sublist (found.map Event.id) := by
      refine MayPanic.filterMap_sublist ?_ hrelated
      intro event r hr
      obtain ⟨_,_,⟨_,hnone⟩ | ⟨_,value,_,hsome⟩⟩ := relatedOutcome_eq_ok hr
      · cases hnone
      · obtain rfl := Option.some.inj hsome
        rfl
    exact (PrefixedDb.queryEvents_nodup hs hfound).sublist hsub

/-- From three outcomes on, the completion returns where the ids that it looks at read back. -/
theorem completeRelated_isOk_iff (iteration : InMemory.Iteration C) {n : UInt64} (hn : outcome.id.nOutcomes = .ok n) (hge : 3 ≤ n)
    (hkind : outcome.id.eventKind = .ok kind) (hpath : outcome.id.path = .ok path)
    (htext : outcome.outcomeString = .ok text) :
    (∃ rs, completeRelated (inMemory iteration pathPrefix) outcome s = .ok (.ok rs)) ↔
      ReadsBack pathPrefix path s := by
  constructor
  · rintro ⟨rs,h⟩
    obtain ⟨m,hm,⟨hlt,_⟩ | ⟨_,kind',path',found,hkind',hpath',hfound,hrelated⟩⟩ := completeRelated_eq_ok_iff.mp h
    · obtain rfl := Except.ok.inj (hn.symm.trans hm)
      exact absurd hlt (UInt64.not_lt.mpr hge)
    obtain rfl := Except.ok.inj (hkind.symm.trans hkind')
    obtain rfl := Except.ok.inj (hpath.symm.trans hpath')
    intro id announced hl
    obtain ⟨pathId,hp⟩ := PrefixedDb.queryEvents_path_isOk_iff.mp ⟨found,hfound⟩ id announced hl
    refine ⟨pathId,hp,?_⟩
    intro hpre
    have hevent := (PrefixedDb.mem_queryEvents_path hfound _).mpr ⟨id,announced,pathId,hl,hp,hpre,rfl⟩
    have hasked := MayPanic.filterMap_isOk_iff.mp ⟨rs,hrelated⟩ _ hevent
    exact (relatedOutcome_isOk_iff hkind htext).mp hasked
  · intro hreads
    obtain ⟨found,hfound⟩ : ∃ found, (inMemory iteration pathPrefix).db.queryEvents { path := some path } s =
        .ok (.ok found) := by
      refine PrefixedDb.queryEvents_path_isOk_iff.mpr ?_
      intro id announced hl
      obtain ⟨pathId,hp,_⟩ := hreads id announced hl
      exact ⟨pathId,hp⟩
    obtain ⟨rs,hrelated⟩ : ∃ rs, MayPanic.filterMap (relatedOutcome outcome kind) found = .ok rs := by
      refine MayPanic.filterMap_isOk_iff.mpr ?_
      intro event hevent
      obtain ⟨id,announced,pathId,hl,hp,hpre,rfl⟩ := (PrefixedDb.mem_queryEvents_path hfound event).mp hevent
      obtain ⟨pathId',hp',hstrips⟩ := hreads id announced hl
      obtain rfl : pathId = pathId' := Except.ok.inj (hp.symm.trans hp')
      exact (relatedOutcome_isOk_iff hkind htext).mpr (hstrips hpre)
    exact ⟨rs,completeRelated_eq_ok_iff.mpr ⟨n,hn,Or.inr ⟨hge,kind,path,found,hkind,hpath,hfound,hrelated⟩⟩⟩

/-- A sibling is always among what the query finds. -/
theorem Sibling.completed {n : UInt64} (hsibling : Sibling pathPrefix outcome s announced)
    (hn : outcome.id.nOutcomes = .ok n) (hge : 3 ≤ n) (hs : s.Keyed)
    (h : completeRelated (inMemory iteration pathPrefix) outcome s = .ok (.ok rs)) :
    (rs.map Outcome.id).count (announced.event.id.stripPrefixPath pathPrefix) = 1 := by
  refine List.count_eq_one_of_mem (completeRelated_nodup hs h) ?_
  rcases completeRelated_eq_ok h with ⟨m,hm,hlt,_⟩ | ⟨_,kind,path,_,_,hkind,hpath,_,hall⟩
  · obtain rfl := Except.ok.inj (hn.symm.trans hm)
    exact absurd hlt (UInt64.not_lt.mpr hge)
  · obtain ⟨⟨id,hl⟩,⟨p,hp,hatpath⟩,⟨kind',k,hkind',hk,hrel⟩⟩ := hsibling
    obtain rfl := Except.ok.inj (hpath.symm.trans hp)
    obtain rfl := Except.ok.inj (hkind.symm.trans hkind')
    have hpre := path.prefixPath_prefix_under pathPrefix
    obtain ⟨r,hr,_,_,hid,_⟩ := hall id announced _ k hl hatpath hk hpre hrel
    exact List.mem_map.mpr ⟨r,hr,hid⟩

theorem completesSiblings_of_three {n : UInt64} (hn : outcome.id.nOutcomes = .ok n) (hge : 3 ≤ n)
    (hkind : outcome.id.eventKind = .ok kind) (hpath : outcome.id.path = .ok path)
    (htext : outcome.outcomeString = .ok text) (hs : s.Keyed) :
    CompletesSiblings iteration pathPrefix outcome s ↔ ReadsBack pathPrefix path s := by
  rw [← completeRelated_isOk_iff iteration hn hge hkind hpath htext]
  constructor
  · rintro ⟨rs,h,_⟩
    exact ⟨rs,h⟩
  · rintro ⟨rs,h⟩
    exact ⟨rs,h,fun _ hsibling => hsibling.completed hn hge hs h⟩

/-- Below three outcomes nothing is completed. -/
theorem completesSiblings_of_fewer {n : UInt64} (hn : outcome.id.nOutcomes = .ok n) (hlt : n < 3) :
    CompletesSiblings iteration pathPrefix outcome s ↔ ∀ announced, ¬ Sibling pathPrefix outcome s announced := by
  have hnone : completeRelated (inMemory iteration pathPrefix) outcome s = .ok (.ok []) :=
    completeRelated_eq_ok_iff.mpr ⟨n,hn,Or.inl ⟨hlt,rfl⟩⟩
  constructor
  · rintro ⟨rs,h,hcount⟩ announced hsibling
    obtain rfl := Except.ok.inj (Except.ok.inj (hnone.symm.trans h))
    have hone := hcount announced hsibling
    simp at hone
  · intro h
    exact ⟨[],hnone,fun announced hsibling => absurd hsibling (h announced)⟩

/-- The siblings of an accepted event, a predicate or not, are completed, each once, exactly
where the event has three outcomes and what is found reads back, or where there is no sibling. -/
theorem completesSiblings_iff (hacc : outcome.id.Accepted) (hvalid : outcome.Valid) (hs : s.Keyed) :
    CompletesSiblings iteration pathPrefix outcome s ↔
      (∃ n path, outcome.id.nOutcomes = .ok n ∧ 3 ≤ n ∧ outcome.id.path = .ok path ∧ ReadsBack pathPrefix path s) ∨
      ∃ n, outcome.id.nOutcomes = .ok n ∧ n < 3 ∧ ∀ announced, ¬ Sibling pathPrefix outcome s announced := by
  obtain ⟨path,kind,hreads⟩ := hacc.reads
  obtain ⟨text,htext,_⟩ := hreads.printed (hreads.valid_iff.mp hvalid)
  obtain ⟨n,hn⟩ := EventId.nOutcomes_isOk hreads.eventKind
  by_cases hlt : n < 3
  · rw [completesSiblings_of_fewer hn hlt]
    constructor
    · intro h
      exact Or.inr ⟨n,hn,hlt,h⟩
    · rintro (⟨m,_,hm,hge,_⟩ | ⟨_,_,_,h⟩)
      · obtain rfl := Except.ok.inj (hn.symm.trans hm)
        exact absurd hlt (UInt64.not_lt.mpr hge)
      · exact h
  · have hge : 3 ≤ n := UInt64.not_lt.mp hlt
    rw [completesSiblings_of_three hn hge hreads.eventKind hreads.path htext hs]
    constructor
    · intro h
      exact Or.inl ⟨n,path,hn,hge,hreads.path,h⟩
    · rintro (⟨_,p,_,_,hp,h⟩ | ⟨m,hm,hlt',_⟩)
      · exact Except.ok.inj (hp.symm.trans hreads.path) ▸ h
      · obtain rfl := Except.ok.inj (hn.symm.trans hm)
        exact absurd hlt' hlt

section Sampled
open Sample

theorem sampleStore_keyed (ids : List Str) : (sampleStore ids).Keyed :=
  List.foldlRecOn _ _ InMemory.keyed_default (fun _ hs _ _ => Oracle.addEvent_every hs (fun _ _ => rfl) _)

theorem completesSiblings_iff_at_price :
    CompletesSiblings .entries .root ⟨⟨⟨"/foo/bar.price?n=3".toList⟩⟩,5⟩
      (sampleStore ["/foo/bar.price_3".toList,"/foo/bar.price".toList]) ↔
    (∃ n path, EventId.nOutcomes ⟨⟨"/foo/bar.price?n=3".toList⟩⟩ = .ok n ∧ 3 ≤ n ∧
      EventId.path ⟨⟨"/foo/bar.price?n=3".toList⟩⟩ = .ok path ∧
        ReadsBack .root path (sampleStore ["/foo/bar.price_3".toList,"/foo/bar.price".toList])) ∨
      ∃ n, EventId.nOutcomes ⟨⟨"/foo/bar.price?n=3".toList⟩⟩ = .ok n ∧ n < 3 ∧
        ∀ announced, ¬ Sibling .root ⟨⟨⟨"/foo/bar.price?n=3".toList⟩⟩,5⟩
          (sampleStore ["/foo/bar.price_3".toList,"/foo/bar.price".toList]) announced :=
  completesSiblings_iff (by decide +kernel) ⟨"5".toList,by decide +kernel⟩ (sampleStore_keyed _)

/-- The predicate on a winner is not completed with the match. -/
theorem winner_predicate_missed : ¬ ∀ (s : InMemory (group 10007)) (outcome : Outcome), s.Keyed →
    outcome.id.Accepted → (∀ inner predicate, outcome.id.eventKind ≠ .ok (.predicate inner predicate)) →
      outcome.Valid → CompletesSiblings .entries .root outcome s := by
  intro h
  have hk : EventId.eventKind ⟨⟨"/foo/A_B.winner".toList⟩⟩ = .ok (.vsMatch .win) := by decide +kernel
  obtain ⟨rs,hrs,hcount⟩ := h (sampleStore ["/foo/A_B.winner".toList,"/foo/A_B.winner=A".toList])
    ⟨⟨⟨"/foo/A_B.winner".toList⟩⟩,0⟩ (sampleStore_keyed _) (by decide +kernel)
    (fun _ _ hpred => by cases hk.symm.trans hpred) ⟨"A".toList,by decide +kernel⟩
  have hnone : completeRelated (inMemory .entries .root) ⟨⟨⟨"/foo/A_B.winner".toList⟩⟩,0⟩
      (sampleStore ["/foo/A_B.winner".toList,"/foo/A_B.winner=A".toList]) = .ok (.ok []) := by decide +kernel
  obtain rfl := Except.ok.inj (Except.ok.inj (hnone.symm.trans hrs))
  have hstored : ((sampleStore ["/foo/A_B.winner".toList,"/foo/A_B.winner=A".toList]).inner.lookup
      ⟨⟨"/foo/A_B.winner=A".toList⟩⟩).isSome := by decide +kernel
  obtain ⟨announced,hl⟩ := Option.isSome_iff_exists.mp hstored
  have hid := sampleStore_keyed _ _ _ hl
  have hsibling : Sibling .root ⟨⟨⟨"/foo/A_B.winner".toList⟩⟩,0⟩
      (sampleStore ["/foo/A_B.winner".toList,"/foo/A_B.winner=A".toList]) announced := by
    refine ⟨⟨_,hl⟩,⟨⟨"/foo/A_B".toList⟩,by decide +kernel,?_⟩,
      ⟨.vsMatch .win,.predicate (.vsMatch .win) (.eq "A".toList),hk,?_,rfl⟩⟩
    · rw [hid]
      decide +kernel
    · rw [hid]
      decide +kernel
  have hone := hcount announced hsibling
  simp at hone

end Sampled

end CompleteRelated
end Olivia
