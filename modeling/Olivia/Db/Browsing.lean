import Olivia.Db.Boundaries
import Olivia.Db.Dates
import Olivia.Db.NodeEvents

/-! # Browsing the tree

A node is returned, or found not to be there, unless it is one of dates: then an event at the
node, or beside it in the same segment, is cut to a text that no event is read from.
-/
namespace Olivia
namespace NodeDb
variable {C : Group} {walk : Walk C} {path : Path} {s : NodeDb C} {id : EventId} {ops : List (NodeOp C)}
variable {parseDate : Str → Option NaiveDate} {dates : AList (fun _ : NaiveDate => Finset Str)} {q : Path}

/-- One event is read for its date unless its path goes on within the last segment of the node. -/
theorem addDate_isOk_iff (hq : id.path = .ok q) : (∃ dates', addDate parseDate path dates id = .ok dates') ↔
    (¬ path.isRoot → ∀ rest, q.str = path.str ++ rest → '/' ∈ rest) := by
  simp only [addDate,hq,MayPanic.ok_bind,List.isPrefixOf_iff_prefix]
  split
  next hbegins =>
    rw [path_stripPrefixPath hq hbegins]
    have hstrip : ∀ rest, ¬ path.isRoot → q.str = path.str ++ rest → (q.stripPrefixPath path).str = rest :=
      fun rest hroot hrest => by rw [Path.stripPrefixPath_append hroot hrest]
    split
    next hcut =>
      refine iff_of_true ?_ (fun hroot rest hrest => hstrip rest hroot hrest ▸ hcut.resolve_left hroot)
      rw [MayPanic.ok_bind]
      split
      · split <;> exact ⟨_,rfl⟩
      · exact ⟨_,rfl⟩
    next hcut =>
      push Not at hcut
      obtain ⟨rest,hrest⟩ := hbegins
      refine iff_of_false (by simp) (fun h => hcut.2 ?_)
      rw [hstrip rest hcut.1 hrest.symm]
      exact h hcut.1 rest hrest.symm
  next hbegins =>
    exact iff_of_true ⟨_,rfl⟩ (fun _ rest hrest => absurd ⟨rest,hrest.symm⟩ hbegins)

/-- The children of a node are described in any case, but for the dates. -/
theorem childDesc_isOk_iff {keys : List EventId} {children : List Child} {next : Option Str} {kind : NodeKind}
    (hkeys : ∀ id ∈ keys, id.Accepted) : (∃ desc, childDesc parseDate path keys children next kind = .ok desc) ↔
      (kind = .dateMap → ¬ path.isRoot → ∀ id ∈ keys, ∀ q rest, id.path = .ok q → q.str = path.str ++ rest →
        '/' ∈ rest) := by
  cases kind with
  | list => exact iff_of_true ⟨_,rfl⟩ (fun h => nomatch h)
  | range rangeKind =>
    refine iff_of_true ?_ (fun h => nomatch h)
    rw [childDesc]
    split <;> exact ⟨_,rfl⟩
  | dateMap =>
    have hdates : (∃ desc, childDesc parseDate path keys children next .dateMap = .ok desc) ↔
        ∃ dates, keys.foldlM (addDate parseDate path) ∅ = .ok dates := by
      constructor
      · rintro ⟨desc,h⟩
        obtain ⟨dates,hdates,_⟩ := MayPanic.bind_eq_ok.mp h
        exact ⟨dates,hdates⟩
      · rintro ⟨dates,hdates⟩
        exact ⟨.dateMap dates,MayPanic.bind_eq_ok.mpr ⟨dates,hdates,rfl⟩⟩
    have hreturns : ∀ (dates : AList (fun _ : NaiveDate => Finset Str)), ∀ id ∈ keys,
        (∃ dates', addDate parseDate path dates id = .ok dates') ↔
          (¬ path.isRoot → ∀ q rest, id.path = .ok q → q.str = path.str ++ rest → '/' ∈ rest) := by
      intro dates id hid
      obtain ⟨q,_,hreads⟩ := (hkeys id hid).reads
      rw [addDate_isOk_iff hreads.path]
      constructor
      · intro h hroot q' rest hq' hrest
        obtain rfl := Except.ok.inj (hreads.path.symm.trans hq')
        exact h hroot rest hrest
      · intro h hroot rest hrest
        exact h hroot q rest hreads.path hrest
    rw [hdates,MayPanic.foldlM_isOk_iff hreturns]
    simp only [forall_true_left]
    exact ⟨fun h hroot id hid => h id hid hroot,fun h id hid hroot => h hroot id hid⟩

/-- A node of dates has no event whose path only lengthens the last segment of the node. -/
def DatesApart (path : Path) (s : InMemory C) : Prop := ¬ path.isRoot →
  ∀ id q rest, id ∈ s.inner → id.path = .ok q → q.str = path.str ++ rest → '/' ∈ rest

/-- A node of a store of accepted ids is returned unless it is one of dates and has such an event. -/
theorem getNode_isOk_iff (hs : s.toInMemory.Keyed) (hids : ∀ id ∈ s.inner, id.Accepted) :
    (∃ r, getNode walk path s = .ok r) ↔ (kindOf s.nodeKinds path = .dateMap → DatesApart path s.toInMemory) := by
  have hkeys : ∀ id ∈ walk.keys s.toInMemory, id.Accepted := fun id hid => hids id ((mem_keys walk).mp hid)
  obtain ⟨next,hnext,_⟩ := nextUnattested_spec walk path hs hids
  obtain ⟨children,hchildren⟩ := childrenList_isOk s.nodeKinds path hkeys
  have hdesc : (∃ desc, childDesc walk.parseDate path (walk.keys s.toInMemory) children next
      (kindOf s.nodeKinds path) = .ok desc) ↔ _ := childDesc_isOk_iff hkeys
  simp only [mem_keys] at hdesc
  have hget : (∃ r, getNode walk path s = .ok r) ↔ ∃ desc, childDesc walk.parseDate path
      (walk.keys s.toInMemory) children next (kindOf s.nodeKinds path) = .ok desc := by
    constructor
    · rintro ⟨r,h⟩
      simp only [getNode,hnext,hchildren,eventsAt_eq hkeys,MayPanic.ok_bind] at h
      obtain ⟨desc,hdesc,_⟩ := MayPanic.bind_eq_ok.mp h
      exact ⟨desc,hdesc⟩
    · rintro ⟨desc,hdesc⟩
      exact ⟨_,getNode_eq hnext hchildren (eventsAt_eq hkeys) hdesc⟩
  rw [hget,hdesc]
  exact ⟨fun h hkind hroot id q rest hid => h hkind hroot id hid q rest,
    fun h hkind hroot id hid q rest => h hkind hroot id q rest hid⟩

/-- A node with an event at it or below it is there, where it is returned. -/
theorem getNode_shown {rest : Str} (hs : s.toInMemory.Keyed) (hids : ∀ id ∈ s.inner, id.Accepted)
    (hp : path.str = '/' :: rest) (hid : id ∈ s.inner) (hq : id.path = .ok q) (hbelow : path.isParentOf q = true)
    (hapart : kindOf s.nodeKinds path = .dateMap → DatesApart path s.toInMemory) :
    ∃ g, getNode walk path s = .ok (.ok (some g)) := by
  have hkeys : ∀ id ∈ walk.keys s.toInMemory, id.Accepted := fun id hid => hids id ((mem_keys walk).mp hid)
  have hkey := (mem_keys walk).mpr hid
  obtain ⟨next,hnext,_⟩ := nextUnattested_spec walk path hs hids
  obtain ⟨children,hchildren⟩ := childrenList_isOk s.nodeKinds path hkeys
  have hdesc : ∃ desc, childDesc walk.parseDate path (walk.keys s.toInMemory) children next
      (kindOf s.nodeKinds path) = .ok desc := by
    refine (childDesc_isOk_iff hkeys).mpr (fun hkind hroot id hid q rest => ?_)
    exact hapart hkind hroot id q rest ((mem_keys walk).mp hid)
  obtain ⟨desc,hdesc⟩ := hdesc
  have hget := getNode_eq hnext hchildren (eventsAt_eq hkeys) hdesc
  by_cases hsame : q = path
  · have hat : id ∈ (walk.keys s.toInMemory).filter (isAt path) :=
      List.mem_filter.mpr ⟨hkey,(isAt_iff_path (hids id hid) hq).mpr (Or.inl hsame)⟩
    have hlength := length_kinds (l := (walk.keys s.toInMemory).filter (isAt path))
      (fun id hid => hkeys id (List.mem_of_mem_filter hid))
    have hne : (((walk.keys s.toInMemory).filter (isAt path)).filterMap
        (fun id => id.eventKind.toOption)).isEmpty = false := by
      rw [List.isEmpty_eq_false_iff,← List.length_pos_iff,hlength]
      exact List.length_pos_of_mem hat
    rw [hne,Bool.false_and,if_neg (by simp)] at hget
    exact ⟨_,hget⟩
  · obtain ⟨rest',hhead⟩ := List.head?_eq_some_iff.mp ((hids id hid).head_path hq)
    obtain ⟨name,hfollows⟩ := Path.Under.follows hp hhead ⟨hbelow,hsame⟩
    have hchild := ((childrenList_spec hp hkeys hchildren).2 ⟨name,kindOf s.nodeKinds (path.child name)⟩).mpr
      ⟨id,q,hkey,hq,hbelow,Or.inl hfollows,rfl⟩
    have hne : children.isEmpty = false := by
      cases children with
      | nil => cases hchild
      | cons => rfl
    rw [hne,Bool.and_false,if_neg (by simp)] at hget
    exact ⟨_,hget⟩

/-- Whatever accepted events were inserted and whatever nodes were set, browsing to a path
returns unless it is a node of dates with an event at it, or beside it in the same segment. -/
theorem browsing_returns_iff (hops : ∀ announced, .write (.insertEvent announced) ∈ ops → announced.event.id.Accepted) :
    (∃ r, getNode walk path (run ops) = .ok r) ↔
      (kindAfter ops path = .dateMap → DatesApart path (run ops).toInMemory) := by
  rw [getNode_isOk_iff (keyed_run ops) (accepted_run hops),kindOf_run]

/-- A list of children is the list of all of them, also that of a range without any. -/
theorem getNode_listed {g : GetPath} {list : List Child} (hids : ∀ id ∈ (run ops).inner, id.Accepted)
    (hp : Path.fromStr path.str = .ok path) (hg : getNode walk path (run ops) = .ok (.ok (some g)))
    (hlist : g.childDesc = .list list) : ∀ name, name ∈ list.map Child.name ↔ name ∈ listedNames ops path := by
  obtain ⟨next,children,_,hchildren,_,hdesc⟩ := getNode_eq_ok hg
  rw [hlist] at hdesc
  have hsame : list = children := by
    cases hkind : kindOf (run ops).nodeKinds path with
    | list =>
      rw [hkind] at hdesc
      exact (ChildDesc.list.inj (Except.ok.inj hdesc)).symm
    | range rangeKind =>
      simp only [hkind,childDesc] at hdesc
      split at hdesc
      next hempty =>
        rw [List.isEmpty_iff.mp hempty]
        exact (ChildDesc.list.inj (Except.ok.inj hdesc)).symm
      next => cases hdesc
    | dateMap =>
      rw [hkind] at hdesc
      obtain ⟨_,_,hdesc⟩ := MayPanic.bind_eq_ok.mp hdesc
      cases hdesc
  rw [hsame]
  exact (childrenList_names hids hp hchildren).2.1

section Sampled
open Sample

theorem browsing_returns_at_match :
    (∃ r, getNode Walk.entries ⟨"/s/EPL/match".toList⟩ (run (inserting ["/s/EPL/match/2021-10-04/A_B.vs"])) = .ok r) ↔
      (kindAfter (inserting ["/s/EPL/match/2021-10-04/A_B.vs"]) ⟨"/s/EPL/match".toList⟩ = .dateMap →
        DatesApart ⟨"/s/EPL/match".toList⟩ (run (inserting ["/s/EPL/match/2021-10-04/A_B.vs"])).toInMemory) := by
  exact browsing_returns_iff (accepted_inserting (by decide +kernel))

/-- An event at a node of dates makes browsing to it panic. -/
theorem browsing_panics_at_match : ¬ ∀ (ops : List (NodeOp (group 10007))) (path : Path),
    (∀ announced, .write (.insertEvent announced) ∈ ops → announced.event.id.Accepted) →
      Path.fromStr path.str = .ok path → ∃ r, getNode Walk.entries path (run ops) = .ok r := by
  intro h
  have hops : ∀ announced, .write (.insertEvent announced) ∈ inserting ["/s/EPL/match.occur"] →
      announced.event.id.Accepted := accepted_inserting (by decide +kernel)
  have hreturns := h (inserting ["/s/EPL/match.occur"]) ⟨"/s/EPL/match".toList⟩ hops (by decide)
  have hkind : kindOf (run (inserting ["/s/EPL/match.occur"])).nodeKinds ⟨"/s/EPL/match".toList⟩ = .dateMap := by
    decide +kernel
  have hmem : (⟨⟨"/s/EPL/match.occur".toList⟩⟩ : EventId) ∈ (run (inserting ["/s/EPL/match.occur"])).inner.keys := by
    decide +kernel
  have hapart := (getNode_isOk_iff (keyed_run _) (accepted_run hops)).mp hreturns hkind
  have hslash := hapart (by decide) _ ⟨"/s/EPL/match".toList⟩ [] hmem (by decide +kernel) (by decide)
  cases hslash

end Sampled

end NodeDb
end Olivia
