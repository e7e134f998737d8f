import Mathlib.Data.Multiset.Filter
import Olivia.Core.EventText
import Olivia.Db.Nodes

/-! # The events of a node

The events of a node are found by their ids: those that go on with a dot behind the path of
the node. A dot can also stand in a segment of a longer path, whose events are then listed
as if they were the node's own.
-/
namespace Olivia
namespace NodeDb
variable {C : Group} {walk : Walk C} {path : Path} {s : NodeDb C} {g : GetPath} {id : EventId}
variable {keys : List EventId}

theorem isAt_iff : isAt path id = true ↔ ∃ rest, id.asStr = path.str ++ '.' :: rest := by
  unfold isAt
  constructor
  · intro h
    split at h
    next remaining hdrop =>
      obtain ⟨front,hid,hfront⟩ := List.dropPrefix?_eq_some_iff.mp hdrop
      obtain ⟨rest,rfl⟩ := List.head?_eq_some_iff.mp (LawfulBEq.eq_of_beq h)
      exact ⟨rest,by rw [hid,LawfulBEq.eq_of_beq hfront]⟩
    next => cases h
  · rintro ⟨rest,hid⟩
    have hdrop : id.asStr.dropPrefix? path.str = some ('.' :: rest) :=
      hid ▸ List.dropPrefix?_append_of_beq ('.' :: rest) (beq_self_eq_true path.str)
    simp [hdrop]

/-- An id goes on with a dot behind the path of its event, and behind every path that this
path goes on with a dot behind. -/
theorem isAt_iff_path {q : Path} (h : id.Accepted) (hq : id.path = .ok q) :
    isAt path id = true ↔ q = path ∨ path.str ++ ['.'] <+: q.str := by
  obtain ⟨text,hs⟩ := EventId.path_eq_ok hq
  obtain ⟨_,_,_,hraw,_⟩ := Path.stripEvent_eq_some.mp hs
  rw [isAt_iff]
  constructor
  · rintro ⟨rest,hid⟩
    by_cases hdot : '.' ∈ rest
    · obtain ⟨front,last,hsplit⟩ := Text.rsplitOnce_isSome hdot
      obtain ⟨rfl,hlast⟩ := Text.rsplitOnce_eq_some.mp hsplit
      have hid' : id.asStr = (path.str ++ '.' :: front) ++ '.' :: last := by simp [hid]
      exact Or.inr ⟨front,by rw [← (h.eq_of_append hs hid' hlast).1]; simp⟩
    · exact Or.inl (Path.ext (h.eq_of_append hs hid hdot).1.symm)
  · rintro (rfl | ⟨rest,hrest⟩)
    · exact ⟨text,hraw⟩
    · exact ⟨rest ++ '.' :: text,by rw [EventId.asStr,hraw,← hrest]; simp⟩

/-- The kinds of the events that are stored at a path. -/
def kindsAt (path : Path) (s : NodeDb C) : Multiset EventKind :=
  ((s.inner.keys.filter (fun id => id.path = .ok path)).filterMap (fun id => id.eventKind.toOption) : List EventKind)

/-- An event whose path goes on with a dot behind the path. -/
def DottedBeyond (path : Path) (s : NodeDb C) : Prop :=
  ∃ id q, id ∈ s.inner ∧ id.path = .ok q ∧ path.str ++ ['.'] <+: q.str

theorem eventsAt_eq (hkeys : ∀ id ∈ keys, id.Accepted) :
    eventsAt path keys = .ok ((keys.filter (isAt path)).filterMap (fun id => id.eventKind.toOption)) := by
  rw [List.filterMap_filter]
  refine MayPanic.filterMap_eq (fun id hid => ?_)
  obtain ⟨_,k,hreads⟩ := (hkeys id hid).reads
  by_cases hat : isAt path id = true
  · simp [hat,hreads.eventKind,Except.toOption]
  · simp [hat]

/-- Every accepted id has a kind to list. -/
theorem length_kinds {l : List EventId} (h : ∀ id ∈ l, id.Accepted) :
    (l.filterMap (fun id => id.eventKind.toOption)).length = l.length := by
  rw [List.filterMap_length_eq_length]
  intro id hid
  obtain ⟨_,k,hreads⟩ := (h id hid).reads
  simp [hreads.eventKind,Except.toOption]

/-- The events of a node are those that are stored at it exactly where no dot goes on behind
its path in the path of another event. -/
theorem events_iff (hids : ∀ id ∈ s.inner, id.Accepted) (hg : getNode walk path s = .ok (.ok (some g))) :
    (g.events : Multiset EventKind) = kindsAt path s ↔ ¬ DottedBeyond path s := by
  have hkeys : ∀ id ∈ walk.keys s.toInMemory, id.Accepted := fun id hid => hids id ((mem_keys walk).mp hid)
  have hevents := Except.ok.inj ((getNode_eq_some hg).1.symm.trans (eventsAt_eq hkeys))
  have hlisted : (g.events : Multiset EventKind) =
      ((s.inner.keys.filter (isAt path)).filterMap (fun id => id.eventKind.toOption) : List EventKind) := by
    rw [hevents]
    exact Multiset.coe_eq_coe.mpr (((walk.keysPerm s.toInMemory).filter _).filterMap _)
  have hat : ∀ id ∈ s.inner.keys, (isAt path id = true ↔ id.path = .ok path ∨
      ∃ q, id.path = .ok q ∧ path.str ++ ['.'] <+: q.str) := by
    intro id hid
    obtain ⟨q,_,hreads⟩ := (hids id hid).reads
    rw [isAt_iff_path (hids id hid) hreads.path]
    simp [hreads.path]
  rw [hlisted,kindsAt,Multiset.coe_eq_coe]
  constructor
  · rintro hperm ⟨id,q,hid,hq,hbeyond⟩
    have hown : s.inner.keys.filter (fun id => id.path = .ok path) =
        (s.inner.keys.filter (isAt path)).filter (fun id => id.path = .ok path) := by
      rw [List.filter_filter]
      refine List.filter_congr (fun id hid => ?_)
      by_cases hpath : id.path = .ok path
      · simp [hpath,(hat id hid).mpr (Or.inl hpath)]
      · simp [hpath]
    have haccepted : ∀ p : EventId → Bool, ∀ id ∈ s.inner.keys.filter p, id.Accepted :=
      fun p id hid => hids id (List.mem_of_mem_filter hid)
    have hlength := hperm.length_eq
    rw [length_kinds (haccepted _),length_kinds (haccepted _),hown] at hlength
    have hall := List.filter_eq_self.mp (List.filter_sublist.eq_of_length hlength.symm)
    have hmem : id ∈ s.inner.keys.filter (isAt path) :=
      List.mem_filter.mpr ⟨hid,(hat id hid).mpr (Or.inr ⟨q,hq,hbeyond⟩)⟩
    obtain rfl : q = path := Except.ok.inj (hq.symm.trans (of_decide_eq_true (hall id hmem)))
    have hle := hbeyond.length_le
    simp at hle
  · intro hnone
    refine List.Perm.of_eq (congrArg _ (List.filter_congr (fun id hid => ?_)))
    rw [Bool.eq_iff_iff,hat id hid,decide_eq_true_iff]
    exact or_iff_left (fun ⟨q,hq,hbeyond⟩ => hnone ⟨id,q,hid,hq,hbeyond⟩)

section Sampled
open Sample

theorem events_iff_at_foo : ∃ g,
    getNode Walk.entries ⟨"/foo".toList⟩ (run (inserting ["/foo.occur","/foo/bar.occur"])) = .ok (.ok (some g)) ∧
      ((g.events : Multiset EventKind) = kindsAt ⟨"/foo".toList⟩ (run (inserting ["/foo.occur","/foo/bar.occur"])) ↔
        ¬ DottedBeyond ⟨"/foo".toList⟩ (run (inserting ["/foo.occur","/foo/bar.occur"]))) := by
  obtain ⟨g,hg⟩ : ∃ g, getNode Walk.entries ⟨"/foo".toList⟩ (run (inserting ["/foo.occur","/foo/bar.occur"])) =
      .ok (.ok (some g)) := shown_of_isSome (by decide +kernel)
  have hids : ∀ id ∈ (run (inserting ["/foo.occur","/foo/bar.occur"])).inner.keys, id.Accepted := by decide +kernel
  exact ⟨g,hg,events_iff hids hg⟩

/-- An event below "/foo.bar" is listed at "/foo". -/
theorem dotted_event_listed : ¬ ∀ (s : NodeDb (group 10007)) (path : Path) (g : GetPath),
    (∀ id ∈ s.inner, id.Accepted) → Path.fromStr path.str = .ok path →
      getNode Walk.entries path s = .ok (.ok (some g)) → (g.events : Multiset EventKind) = kindsAt path s := by
  intro h
  obtain ⟨g,hg⟩ : ∃ g, getNode Walk.entries ⟨"/foo".toList⟩ (run (inserting ["/foo.bar/x.occur"])) =
      .ok (.ok (some g)) := shown_of_isSome (by decide +kernel)
  have hids : ∀ id ∈ (run (inserting ["/foo.bar/x.occur"])).inner.keys, id.Accepted := by decide +kernel
  have hsame := h _ _ g hids (by decide +kernel) hg
  have hlisted : eventsAt ⟨"/foo".toList⟩ (Walk.entries.keys (run (inserting ["/foo.bar/x.occur"])).toInMemory) =
      .ok [.singleOccurrence] := by decide +kernel
  have hnone : (run (inserting ["/foo.bar/x.occur"])).inner.keys.filter (fun id => id.path = .ok ⟨"/foo".toList⟩) = [] := by
    decide +kernel
  rw [← Except.ok.inj (hlisted.symm.trans (getNode_eq_some hg).1),kindsAt,hnone] at hsame
  simp at hsame

end Sampled

end NodeDb
end Olivia
