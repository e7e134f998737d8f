import Olivia.Db.NodeEvents
import Olivia.Db.Children

/-! # The boundaries of a range

A range shows its least and its greatest child, and the child of the next unattested event.
The children are those of the events below the node, but the next event is asked for by the
text of its path, which an event at the node itself or beside it can begin with as well.
-/
namespace Olivia
namespace Path
variable {p q : Path} {name : Str} {next : Option Str}

/-- Strictly below a path. -/
def Under (p q : Path) : Prop := p.isParentOf q = true ∧ q ≠ p

/-- What a path is read as that begins with the text of another one and is not below it. -/
def Misread (p q : Path) : Option Str → Prop
  | some name => (∃ names, p.Beside q (name :: names)) ∨ p.isRoot ∧ q.isRoot ∧ name = []
  | none => ¬ p.isRoot ∧ ∃ more, '/' ∉ more ∧ q.str = p.str ++ more

theorem Under.follows {rest rest' : Str} (hp : p.str = '/' :: rest) (hq : q.str = '/' :: rest') (h : p.Under q) :
    ∃ name, p.Follows q name := by
  obtain ⟨hbelow,hne⟩ := h
  by_cases hroot : p.isRoot
  · have hsplit : rest'.splitOn '/' ≠ [] := List.splitOn_ne_nil '/' rest'
    refine ⟨(rest'.splitOn '/').head hsplit,hbelow,hne,(rest'.splitOn '/').tail,?_⟩
    rw [if_pos hroot,List.nil_append,List.cons_head_tail,segments_of_head hq]
  · obtain ⟨names,hnames⟩ := (isParentOf_iff_segments hp hq hroot).mp hbelow
    cases names with
    | nil => exact absurd (segments_injective hq hp (by simpa using hnames.symm)) hne
    | cons name names => exact ⟨name,hbelow,hne,names,by rw [if_neg hroot,hnames]⟩

/-- What is shown of a path behind another one: the segment that follows, where it is below. -/
theorem first_eq_some_iff {rest rest' : Str} (hp : p.str = '/' :: rest) (hq : q.str = '/' :: rest')
    (hunder : p.Under q) : (q.stripPrefixPath p).first = some name ↔ p.Follows q name := by
  rw [first_stripPrefixPath hp hq hunder.1]
  refine or_iff_left ?_
  rintro ⟨hroot,hqroot,_⟩
  exact hunder.2 (hqroot.trans hroot.symm)

/-- Where it is not below, it is read as something else. -/
theorem first_iff_misread {rest rest' : Str} (hp : p.str = '/' :: rest) (hq : q.str = '/' :: rest')
    (hbegins : p.str <+: q.str) (hnot : ¬ p.Under q) : (q.stripPrefixPath p).first = next ↔ p.Misread q next := by
  by_cases hroot : p.isRoot
  · have hbelow : p.isParentOf q = true := isParentOf_of_isRoot hroot hq
    obtain rfl : q = p := not_not.mp (fun hne => hnot ⟨hbelow,hne⟩)
    have hfirst : (q.stripPrefixPath q).first = some [] := by
      rw [show q = root from hroot]
      decide
    cases next with
    | none => simp [hfirst,Misread,hroot]
    | some name => simp [hfirst,Misread,hroot,Beside,eq_comm]
  · cases next with
    | some name =>
      have hnames : ∀ names, (q.stripPrefixPath p).segments = name :: names ↔ p.Beside q (name :: names) := by
        intro names
        rw [← and_iff_right (b := (q.stripPrefixPath p).segments = name :: names) hbegins,
          segments_stripPrefixPath hp hq]
        refine or_iff_right ?_
        rintro ⟨hbelow,hsegments⟩
        have hne : q ≠ p := by
          rintro rfl
          simp [hroot] at hsegments
        exact hnot ⟨hbelow,hne⟩
      simp only [Misread,hroot,false_and,or_false,first,List.head?_eq_some_iff,hnames]
    | none =>
      obtain ⟨tail,htail⟩ := hbegins
      rw [stripPrefixPath_append hroot htail.symm,first,List.head?_eq_none_iff,segments]
      have hslash : (tail.splitOn '/').tail = [] ↔ '/' ∉ tail := by
        constructor
        · intro hnil hslash
          obtain ⟨a,b,names,hsplit⟩ := Text.splitOn_of_mem hslash
          simp [hsplit] at hnil
        · intro hslash
          rw [List.splitOn_eq_singleton hslash]
          rfl
      rw [hslash]
      constructor
      · intro hslash
        exact ⟨hroot,tail,hslash,htail.symm⟩
      · rintro ⟨_,more,hmore,hstr⟩
        obtain rfl := List.append_cancel_left (htail.trans hstr)
        exact hmore

end Path

namespace NodeDb
variable {C : Group} {walk : Walk C} {path : Path} {g : GetPath} {ops : List (NodeOp C)}
variable {rangeKind : RangeKind} {next : Option Str}

/-- An event that is stored at a path and has no attestation. -/
def Unattested (s : InMemory C) (announced : AnnouncedEvent C) (q : Path) : Prop :=
  ∃ id, s.inner.lookup id = some announced ∧ id.path = .ok q ∧ announced.attestation = none

/-- No unattested event among some paths is expected earlier. -/
def Earliest (s : InMemory C) (among : Path → Prop) (announced : AnnouncedEvent C) (q : Path) : Prop :=
  Unattested s announced q ∧ among q ∧ ∀ announced' q', Unattested s announced' q' → among q' →
    timeLe announced.event.expectedOutcomeTime announced'.event.expectedOutcomeTime = true

/-- The child of the next unattested event below a path, if there is one. -/
def NextBelow (s : InMemory C) (path : Path) : Option Str → Prop
  | some name => ∃ announced q, Earliest s path.Under announced q ∧ path.Follows q name
  | none => ∀ announced q, Unattested s announced q → ¬ path.Under q

/-- The query for the unattested events of a node. -/
def unattestedQuery (path : Path) : EventQuery := { path := some path, attested := some false }

variable {s : InMemory C} {announced : AnnouncedEvent C} {q : Path}

theorem path_of_lookup {id : EventId} (hs : s.Keyed) (hids : ∀ id ∈ s.inner, id.Accepted)
    (hl : s.inner.lookup id = some announced) : announced.event.id = id ∧ ∃ q, id.path = .ok q := by
  obtain ⟨q,_,hreads⟩ := (hids id (AList.lookup_isSome.mp (by rw [hl]; rfl))).reads
  exact ⟨hs id announced hl,q,hreads.path⟩

theorem selects_iff_unattested {id : EventId} (hs : s.Keyed) (hids : ∀ id ∈ s.inner, id.Accepted)
    (hl : s.inner.lookup id = some announced) : (unattestedQuery path).selects announced = .ok true ↔
      ∃ q, id.path = .ok q ∧ path.str <+: q.str ∧ announced.attestation = none := by
  have hroot : Path.root.isRoot := rfl
  rw [EventQuery.selects_eq_true,(path_of_lookup hs hids hl).1]
  simp [unattestedQuery,hroot]

theorem queryEvents_unattested (iteration : InMemory.Iteration C) (path : Path) (hs : s.Keyed)
    (hids : ∀ id ∈ s.inner, id.Accepted) :
    ∃ events, InMemory.queryEvents iteration (unattestedQuery path) s = .ok (.ok events) := by
  refine InMemory.queryEvents_isOk_iff.mpr (fun id announced hl => EventQuery.selects_isOk_iff.mpr ?_)
  obtain ⟨hid,q,hq⟩ := path_of_lookup hs hids hl
  exact ⟨q,by rw [hid,hq],fun _ _ hkind => absurd rfl hkind⟩

theorem nextUnattested_of_none {events : List Event} (hnone : events.head? = none)
    (h : InMemory.queryEvents walk.toIteration (unattestedQuery path) s = .ok (.ok events)) :
    nextUnattested walk path s = .ok (.ok none) := by
  have hfirst : InMemory.queryEvent walk.toIteration (unattestedQuery path) s = .ok (.ok none) := by
    rw [InMemory.queryEvent,h,← hnone]
    rfl
  exact MayPanic.bind_eq_ok.mpr ⟨_,hfirst,rfl⟩

theorem nextUnattested_of_some {events : List Event} {event : Event} (hsome : events.head? = some event)
    (hq : event.id.path = .ok q)
    (h : InMemory.queryEvents walk.toIteration (unattestedQuery path) s = .ok (.ok events)) :
    nextUnattested walk path s = .ok (.ok (q.stripPrefixPath path).first) := by
  have hfirst : InMemory.queryEvent walk.toIteration (unattestedQuery path) s = .ok (.ok (some event)) := by
    rw [InMemory.queryEvent,h,← hsome]
    rfl
  exact MayPanic.bind_eq_ok.mpr ⟨_,hfirst,MayPanic.bind_eq_ok.mpr ⟨q,hq,rfl⟩⟩

/-- The next unattested event is the earliest of those whose path begins with the text of the
node, and it is shown as what is left of its path. -/
theorem nextUnattested_spec (walk : Walk C) (path : Path) (hs : s.Keyed)
    (hids : ∀ id ∈ s.inner, id.Accepted) : ∃ next, nextUnattested walk path s = .ok (.ok next) ∧
      (next = none ∧ (∀ announced q, Unattested s announced q → ¬ path.str <+: q.str) ∨
        ∃ announced q, Earliest s (path.str <+: ·.str) announced q ∧ next = (q.stripPrefixPath path).first) := by
  obtain ⟨events,hevents⟩ := queryEvents_unattested walk.toIteration path hs hids
  have hfirst : InMemory.queryEvent walk.toIteration (unattestedQuery path) s = .ok (.ok events.head?) := by
    rw [InMemory.queryEvent,hevents]
    rfl
  have hselected : ∀ announced q, Unattested s announced q → path.str <+: q.str →
      ∃ id, s.inner.lookup id = some announced ∧ (unattestedQuery path).selects announced = .ok true := by
    rintro announced q ⟨id,hl,hq,hnone⟩ hbegins
    exact ⟨id,hl,(selects_iff_unattested hs hids hl).mpr ⟨q,hq,hbegins,hnone⟩⟩
  rcases InMemory.queryEvent_eq_ok hfirst with ⟨hnone,hall⟩ | ⟨id,announced,hsome,hl,hsel,hmin⟩
  · refine ⟨none,nextUnattested_of_none hnone hevents,Or.inl ⟨rfl,?_⟩⟩
    intro announced q hopen hbegins
    obtain ⟨id,hl,hsel⟩ := hselected announced q hopen hbegins
    exact hall id announced hl hsel
  · obtain ⟨q,hq,hbegins,hnone⟩ := (selects_iff_unattested hs hids hl).mp hsel
    have hpath : announced.event.id.path = .ok q := by rw [(path_of_lookup hs hids hl).1,hq]
    refine ⟨_,nextUnattested_of_some hsome hpath hevents,
      Or.inr ⟨announced,q,⟨⟨id,hl,hq,hnone⟩,hbegins,?_⟩,rfl⟩⟩
    intro announced' q' hopen hbegins'
    obtain ⟨id',hl',hsel'⟩ := hselected announced' q' hopen hbegins'
    exact hmin id' announced' hl' hsel'

/-- Any of the earliest events may be met first. -/
theorem exists_nextUnattested (hs : s.Keyed) (hids : ∀ id ∈ s.inner, id.Accepted)
    (h : Earliest s (path.str <+: ·.str) announced q) :
    ∃ walk : Walk C, nextUnattested walk path s = .ok (.ok (q.stripPrefixPath path).first) := by
  classical
  obtain ⟨⟨id,hl,hq,hnone⟩,hbegins,hmin⟩ := h
  have hmem : announced ∈ s.inner.entries.map Sigma.snd :=
    (InMemory.mem_values InMemory.Iteration.entries).mpr ⟨id,hl⟩
  obtain ⟨before,after,hsplit⟩ := List.append_of_mem hmem
  let walk : Walk C :=
    { Walk.entries with
      values := fun s' => if s' = s then announced :: (before ++ after) else s'.inner.entries.map Sigma.snd
      perm := by
        intro s'
        split
        next heq =>
          rw [heq,hsplit]
          exact List.perm_middle.symm
        next => exact .refl _ }
  have hvalues : walk.values s = announced :: (before ++ after) := if_pos rfl
  obtain ⟨events,hevents⟩ := queryEvents_unattested walk.toIteration path hs hids
  have hsel := (selects_iff_unattested hs hids hl).mpr ⟨q,hq,hbegins,hnone⟩
  have hsome := InMemory.head?_queryEvents hvalues hsel (by
    intro id' announced' hl' hsel'
    obtain ⟨q',hq',hbegins',hnone'⟩ := (selects_iff_unattested hs hids hl').mp hsel'
    exact hmin announced' q' ⟨id',hl',hq',hnone'⟩ hbegins') hevents
  exact ⟨walk,nextUnattested_of_some hsome (by rw [(path_of_lookup hs hids hl).1,hq]) hevents⟩

/-- A range of the least and the greatest child, and of the next unattested event below. -/
def ShowsBoundaries (ops : List (NodeOp C)) (path : Path) (rangeKind : RangeKind) (g : GetPath) : Prop :=
  ∃ start next stop, g.childDesc = .range rangeKind (some start) next (some stop) ∧
    IsLeast {name | HasChild ops path name} start ∧ IsGreatest {name | HasChild ops path name} stop ∧
    NextBelow (run ops).toInMemory path next

/-- The earliest unattested events that a range takes for its own and that are not below it
are read as the child of one that is. -/
def MisreadsRight (ops : List (NodeOp C)) (path : Path) : Prop :=
  ∀ announced q next, Earliest (run ops).toInMemory (path.str <+: ·.str) announced q → ¬ path.Under q →
    path.Misread q next → NextBelow (run ops).toInMemory path next

/-- A node with children is shown as a range of them. -/
theorem getNode_range {children : List Child} {next : Option Str} (hids : ∀ id ∈ (run ops).inner, id.Accepted)
    (hkind : kindAfter ops path = .range rangeKind)
    (hnext : nextUnattested walk path (run ops).toInMemory = .ok (.ok next))
    (hchildren : childrenList (run ops).nodeKinds path (walk.keys (run ops).toInMemory) = .ok children)
    (hne : children ≠ []) : ∃ g, getNode walk path (run ops) = .ok (.ok (some g)) ∧
      g.childDesc = .range rangeKind (children.head?.map Child.name) next (children.getLast?.map Child.name) := by
  have hkeys : ∀ id ∈ walk.keys (run ops).toInMemory, id.Accepted :=
    fun id hid => hids id ((mem_keys walk).mp hid)
  have hempty : children.isEmpty = false := by simpa using hne
  have hdesc : childDesc walk.parseDate path (walk.keys (run ops).toInMemory) children next
      (kindOf (run ops).nodeKinds path) =
        .ok (.range rangeKind (children.head?.map Child.name) next (children.getLast?.map Child.name)) := by
    rw [kindOf_run,hkind,childDesc,hempty]
    rfl
  have hget := getNode_eq hnext hchildren (eventsAt_eq hkeys) hdesc
  rw [hempty,Bool.and_false,if_neg (by simp)] at hget
  exact ⟨_,hget,rfl⟩

/-- The names that a node lists: those of its children, and one of an event at the root. -/
def listedNames (ops : List (NodeOp C)) (path : Path) : Set Str :=
  {name | HasChild ops path name ∨ path.isRoot ∧ name = [] ∧ ∃ id ∈ (run ops).inner, id.path = .ok Path.root}

/-- What a range with an event below it shows, whatever the order the map is walked in. -/
theorem getNode_boundaries (walk : Walk C) (hids : ∀ id ∈ (run ops).inner, id.Accepted)
    (hp : Path.fromStr path.str = .ok path) (hkind : kindAfter ops path = .range rangeKind)
    (hunder : ∃ id q, id ∈ (run ops).inner ∧ id.path = .ok q ∧ path.Under q)
    (hnext : nextUnattested walk path (run ops).toInMemory = .ok (.ok next)) :
    ∃ g start stop, getNode walk path (run ops) = .ok (.ok (some g)) ∧
      g.childDesc = .range rangeKind (some start) next (some stop) ∧
      IsLeast (listedNames ops path) start ∧ IsGreatest (listedNames ops path) stop := by
  obtain ⟨rest,hrest⟩ := Path.exists_of_fromStr hp
  have hkeys : ∀ id ∈ walk.keys (run ops).toInMemory, id.Accepted :=
    fun id hid => hids id ((mem_keys walk).mp hid)
  obtain ⟨children,hchildren⟩ := childrenList_isOk (run ops).nodeKinds path hkeys
  obtain ⟨hsorted,hnames,_⟩ := childrenList_names hids hp hchildren
  have hne : children ≠ [] := by
    rintro rfl
    obtain ⟨id,q,hid,hq,hunder⟩ := hunder
    obtain ⟨rest',hq'⟩ := List.head?_eq_some_iff.mp ((hids id hid).head_path hq)
    obtain ⟨name,hfollows⟩ := hunder.follows hrest hq'
    have hmem := (hnames name).mpr (Or.inl ⟨id,q,hid,hq,hfollows⟩)
    cases hmem
  have hset : {name | name ∈ children.map Child.name} = listedNames ops path := Set.ext hnames
  obtain ⟨start,stop,hstart,hstop,hleast,hgreatest⟩ := Text.bounds_of_pairwise hsorted hne
  obtain ⟨g,hg,hdesc⟩ := getNode_range hids hkind hnext hchildren hne
  rw [hset] at hleast hgreatest
  rw [hstart,hstop] at hdesc
  exact ⟨g,start,stop,hg,hdesc,hleast,hgreatest⟩

theorem listedNames_of_shared (h : RootShared ops path) : listedNames ops path = {name | HasChild ops path name} := by
  refine Set.ext (fun name => ⟨?_,Or.inl⟩)
  rintro (hchild | ⟨hroot,rfl,hid⟩)
  · exact hchild
  · exact h hroot hid

/-- An event at the root adds the least of all names. -/
theorem shared_of_isLeast {start : Str} (hlisted : IsLeast (listedNames ops path) start)
    (hchild : IsLeast {name | HasChild ops path name} start) : RootShared ops path := by
  intro hroot hid
  have hle : start ≤ [] := hlisted.2 (Or.inr ⟨hroot,rfl,hid⟩)
  have hnil : start = [] := not_not.mp (fun hne => absurd hle (not_le.mpr (by
    obtain ⟨c,rest,rfl⟩ := List.exists_cons_of_ne_nil hne
    exact List.nil_lt_cons c rest)))
  subst hnil
  exact hchild.1

/-- A range shows the boundaries of its events, in whatever order the map is walked, exactly
where an event at the root has the empty name of a child that is there, and every event that
the range takes for its next is read as the child of one. -/
theorem boundaries_iff (hids : ∀ id ∈ (run ops).inner, id.Accepted) (hp : Path.fromStr path.str = .ok path)
    (hkind : kindAfter ops path = .range rangeKind)
    (hunder : ∃ id q, id ∈ (run ops).inner ∧ id.path = .ok q ∧ path.Under q) :
    (∀ walk : Walk C, ∃ g, getNode walk path (run ops) = .ok (.ok (some g)) ∧
      ShowsBoundaries ops path rangeKind g) ↔ RootShared ops path ∧ MisreadsRight ops path := by
  have hkeyed := keyed_run ops
  obtain ⟨rest,hrest⟩ := Path.exists_of_fromStr hp
  have hhead : ∀ announced q, Unattested (run ops).toInMemory announced q → ∃ rest, q.str = '/' :: rest := by
    rintro announced q ⟨id,hl,hq,_⟩
    exact List.head?_eq_some_iff.mp ((hids id (AList.lookup_isSome.mp (by rw [hl]; rfl))).head_path hq)
  constructor
  · intro h
    have hshows : ∀ (walk : Walk C) next, nextUnattested walk path (run ops).toInMemory = .ok (.ok next) →
        RootShared ops path ∧ NextBelow (run ops).toInMemory path next := by
      intro walk next hnext
      obtain ⟨g,start,stop,hg,hdesc,hleast,_⟩ := getNode_boundaries walk hids hp hkind hunder hnext
      obtain ⟨g',hg',start',next',stop',hdesc',hleast',_,hbelow⟩ := h walk
      obtain rfl : g = g' := by simpa [hg] using hg'
      obtain ⟨_,hstart,rfl,_⟩ := ChildDesc.range.inj (hdesc.symm.trans hdesc')
      obtain rfl := Option.some.inj hstart
      exact ⟨shared_of_isLeast hleast hleast',hbelow⟩
    constructor
    · obtain ⟨next,hnext,_⟩ := nextUnattested_spec Walk.entries path hkeyed hids
      exact (hshows Walk.entries next hnext).1
    · intro announced q next hearliest hnot hmisread
      obtain ⟨walk,hnext⟩ := exists_nextUnattested hkeyed hids hearliest
      obtain ⟨rest',hq⟩ := hhead announced q hearliest.1
      rw [(Path.first_iff_misread hrest hq hearliest.2.1 hnot).mpr hmisread] at hnext
      exact (hshows walk next hnext).2
  · rintro ⟨hshared,hmisread⟩ walk
    obtain ⟨next,hnext,hspec⟩ := nextUnattested_spec walk path hkeyed hids
    obtain ⟨g,start,stop,hg,hdesc,hleast,hgreatest⟩ := getNode_boundaries walk hids hp hkind hunder hnext
    rw [listedNames_of_shared hshared] at hleast hgreatest
    refine ⟨g,hg,start,next,stop,hdesc,hleast,hgreatest,?_⟩
    rcases hspec with ⟨rfl,hnone⟩ | ⟨announced,q,hearliest,rfl⟩
    · intro announced q hopen hunder
      exact hnone announced q hopen ((Path.isParentOf_iff_below path q).mp hunder.1).begins
    · obtain ⟨rest',hq⟩ := hhead announced q hearliest.1
      by_cases hbelow : path.Under q
      · obtain ⟨name,hfollows⟩ := hbelow.follows hrest hq
        rw [(Path.first_eq_some_iff hrest hq hbelow).mpr hfollows]
        refine ⟨announced,q,⟨hearliest.1,hbelow,?_⟩,hfollows⟩
        intro announced' q' hopen hbelow'
        exact hearliest.2.2 announced' q' hopen ((Path.isParentOf_iff_below path q').mp hbelow'.1).begins
      · exact hmisread announced q _ hearliest hbelow
          ((Path.first_iff_misread hrest hq hearliest.2.1 hbelow).mp rfl)

section Sampled
open Sample

/-- Events that are inserted below or at "/foo", which is made a range of hours. -/
def hourly (ids : List String) : List (NodeOp (group 10007)) :=
  inserting ids ++ [.setNode ⟨⟨"/foo".toList⟩,.range (.time 3600)⟩]

theorem boundaries_iff_at_foo : (∀ walk : Walk (group 10007), ∃ g,
      getNode walk ⟨"/foo".toList⟩ (run (hourly ["/foo/a.occur","/foo/b.occur"])) = .ok (.ok (some g)) ∧
        ShowsBoundaries (hourly ["/foo/a.occur","/foo/b.occur"]) ⟨"/foo".toList⟩ (.time 3600) g) ↔
    RootShared (hourly ["/foo/a.occur","/foo/b.occur"]) ⟨"/foo".toList⟩ ∧
      MisreadsRight (hourly ["/foo/a.occur","/foo/b.occur"]) ⟨"/foo".toList⟩ := by
  have hids : ∀ id ∈ (run (hourly ["/foo/a.occur","/foo/b.occur"])).inner.keys, id.Accepted := by decide +kernel
  have hmem : (⟨⟨"/foo/a.occur".toList⟩⟩ : EventId) ∈ (run (hourly ["/foo/a.occur","/foo/b.occur"])).inner.keys := by
    decide +kernel
  exact boundaries_iff hids (by decide +kernel) (by decide +kernel)
    ⟨_,⟨"/foo/a".toList⟩,hmem,by decide +kernel,by decide +kernel,by decide⟩

/-- An unattested event at the range itself hides the next one below it. -/
theorem own_event_hides_next : ¬ ∀ (ops : List (NodeOp (group 10007))) (path : Path) (rangeKind : RangeKind),
    (∀ id ∈ (run ops).inner, id.Accepted) → Path.fromStr path.str = .ok path →
      kindAfter ops path = .range rangeKind →
      (∃ id q, id ∈ (run ops).inner ∧ id.path = .ok q ∧ path.Under q) →
      ∃ g, getNode Walk.entries path (run ops) = .ok (.ok (some g)) ∧ ShowsBoundaries ops path rangeKind g := by
  intro h
  let ops := hourly ["/foo/a.occur","/foo.occur"]
  let id : EventId := ⟨⟨"/foo/a.occur".toList⟩⟩
  have hids : ∀ id ∈ (run ops).inner.keys, id.Accepted := by decide +kernel
  have hp : Path.fromStr "/foo".toList = .ok ⟨"/foo".toList⟩ := by decide
  have hkind : kindAfter ops ⟨"/foo".toList⟩ = .range (.time 3600) := by decide +kernel
  have hmem : id ∈ (run ops).inner.keys := by decide +kernel
  have hunder : (⟨"/foo".toList⟩ : Path).Under ⟨"/foo/a".toList⟩ := ⟨by decide +kernel,by decide⟩
  have hpath : id.path = .ok ⟨"/foo/a".toList⟩ := by decide +kernel
  have hbelow : ∃ id q, id ∈ (run ops).inner ∧ id.path = .ok q ∧ (⟨"/foo".toList⟩ : Path).Under q :=
    ⟨id,_,hmem,hpath,hunder⟩
  have hnext : nextUnattested Walk.entries ⟨"/foo".toList⟩ (run ops).toInMemory = .ok (.ok none) := by decide +kernel
  obtain ⟨g,_,_,hg,hdesc,_,_⟩ := getNode_boundaries Walk.entries hids hp hkind hbelow hnext
  obtain ⟨g',hg',_,next,_,hdesc',_,_,hshown⟩ := h ops _ _ hids hp hkind hbelow
  obtain rfl : g = g' := Option.some.inj (Except.ok.inj (Except.ok.inj (hg.symm.trans hg')))
  obtain ⟨_,_,rfl,_⟩ := ChildDesc.range.inj (hdesc.symm.trans hdesc')
  obtain ⟨announced,hl⟩ := Option.isSome_iff_exists.mp (AList.lookup_isSome.mpr hmem)
  have hnone : ((run ops).inner.lookup id).all (fun announced => announced.attestation.isNone) = true := by
    decide +kernel
  rw [hl] at hnone
  exact hshown announced _ ⟨id,hl,hpath,Option.isNone_iff_eq_none.mp hnone⟩ hunder

end Sampled

end NodeDb
end Olivia
