import Olivia.Db.Browsing
import Olivia.Db.PgQueries
import Olivia.Db.Tree

/-! # Nodes of the Postgres store

A node is there when its path has a row in the tree. Its children are the rows whose parent it
is, also where a node was set and no event is stored, and its events and dates are found with
the path column of the events.
-/
namespace Olivia
variable {C : Group}

/-- What the server and the libraries decide of a node: the plans of the queries for events, the
values that are taken, the order of the rows of the tree, the collation and which texts are dates. -/
structure NodePlan (C : Group) extends Postgres.Plan C, Server where
  tree : PgBackend C → List (Str × TreeRow)
  treePerm : ∀ s, (tree s).Perm (s.tree.entries.map (fun row => (row.1,row.2)))
  collation : Str → Str → Bool
  collation_total : ∀ a b, collation a b = true ∨ collation b a = true
  collation_trans : ∀ {a b c}, collation a b = true → collation b c = true → collation a c = true
  parseDate : Str → Option NaiveDate

theorem MayPanic.mapM_forall₂ {ε α β : Type} {f : α → Except ε β} {R : α → β → Prop} {l : List α}
    (h : ∀ a ∈ l, ∃ b, f a = .ok b ∧ R a b) : ∃ r, l.mapM f = .ok r ∧ List.Forall₂ R l r := by
  induction l with
  | nil => exact ⟨[],rfl,.nil⟩
  | cons a l ih =>
    obtain ⟨b,hb,hR⟩ := h a List.mem_cons_self
    obtain ⟨r,hr,hrest⟩ := ih (fun c hc => h c (List.mem_cons_of_mem a hc))
    exact ⟨b :: r,by simp [List.mapM_cons,hb,hr],.cons hR hrest⟩

namespace PgBackend
variable (plan : NodePlan C)

/-- The ids of the rows whose parent a path is. -/
def childRows (path : Path) (s : PgBackend C) : List Str :=
  ((plan.tree s).filter (fun row => row.2.parent = some path.str)).map Prod.fst

/-- The path of a child, and its name behind the path of the node. -/
def childName (path : Path) (row : Str) : MayPanic (Path × Str) := do
  let id ← MayPanic.expect "error retrieving column id" (Path.fromStr row).toOption
  let name ← MayPanic.unwrap (id.stripPrefixPath path).first
  return (id,name)

def kindOf (s : PgBackend C) (id : Path) : NodeKind := (s.kinds.lookup id.str).getD (inferNodeKind id)

/-- At most a hundred children. -/
def childList (path : Path) (s : PgBackend C) : MayPanic (List Child) :=
  ((childRows plan path s).take 100).mapM (fun row => do
    let (id,name) ← childName path row
    return ⟨name,kindOf s id⟩)

/-- The names of the least and of the greatest child. -/
def minMaxChildren (path : Path) (s : PgBackend C) : MayPanic (List Str) :=
  let rows := childRows plan path s
  let least := (rows.insertionSort (fun a b => plan.collation a b)).take 1
  let greatest := (rows.insertionSort (fun a b => plan.collation b a)).take 1
  (least ++ greatest).mapM (fun row => do
    let (_,name) ← childName path row
    return name)

def nextUnattested (path : Path) (s : PgBackend C) : MayPanic (Except DbError (Option Str)) := do
  match ← Postgres.queryEvent plan.toPlan { path := some path, attested := some false } s.toPostgres with
  | .error e => return .error e
  | .ok none => return .ok none
  | .ok (some event) =>
    let eventPath ← event.id.path
    return .ok (eventPath.stripPrefixPath path).first

/-- The dates map after one more row. -/
def addRowDate (path : Path) (dates : AList (fun _ : NaiveDate => Finset Str)) (row : Str) :
    MayPanic (AList (fun _ : NaiveDate => Finset Str)) := do
  let id ← MayPanic.expect "error retrieving column id" (← EventId.fromStr row).toOption
  let stripped ← (id.stripPrefixPath path).path
  match stripped.segments with
  | date :: next :: _ =>
    match plan.parseDate date with
    | some date => return dates.insert date (insert next ((dates.lookup date).getD ∅))
    | none => return dates
  | _ => return dates

/-- The ids of the events whose path column passes a test. -/
def eventRows (test : Str → Bool) (s : PgBackend C) : List Str :=
  ((plan.rows s.toPostgres).filter (fun row => test row.2.path)).map Prod.fst

def childDesc (path : Path) (s : PgBackend C) : NodeKind → MayPanic (Except DbError ChildDesc)
  | .list => do
    let list ← childList plan path s
    return .ok (.list list)
  | .range rangeKind => do
    match ← nextUnattested plan path s with
    | .error e => return .error e
    | .ok next =>
      let names ← minMaxChildren plan path s
      -- the end is popped off the names and then the start
      return .ok (.range rangeKind names.dropLast.getLast? next names.getLast?)
  | .dateMap => do
    let label ← ltree path
    if plan.ltree label then
      let dates ← (eventRows plan (fun column => (labels label).isPrefixOf (labels column)) s).foldlM
        (addRowDate plan path) ∅
      return .ok (.dateMap dates)
    else return .error .statementFailed

def getNode (path : Path) (s : PgBackend C) : MayPanic (Except DbError (Option GetPath)) := do
  if plan.text path.str then
    if path.str ∈ s.tree then
      match ← childDesc plan path s (kindOf s path) with
      | .error e => return .error e
      | .ok desc =>
        let label ← ltree path
        if plan.ltree label then
          let events ← (eventRows plan (fun column => column == label) s).mapM (fun row => do
            let id ← MayPanic.expect "error retrieving column id" (← EventId.fromStr row).toOption
            id.eventKind)
          return .ok (some ⟨events,desc⟩)
        else return .error .statementFailed
    else return .ok none
  else return .error .statementFailed

variable {plan : NodePlan C} {s t : PgBackend C} {log : List Node} {path q : Path}

/-- A path right below another one, of what is recorded at or below it. -/
def IsChild (s : PgBackend C) (log : List Node) (path q : Path) : Prop :=
  q.parent = some path ∧ ∃ r, Recorded s log r ∧ q.isParentOf r = true

theorem mem_childRows (plan : NodePlan C) (hs : Closed s log) {row : Str} :
    row ∈ childRows plan path s ↔ IsChild s log path ⟨row⟩ := by
  have hrows : ∀ value, (row,value) ∈ plan.tree s ↔ s.tree.lookup row = some value := by
    intro value
    rw [(plan.treePerm s).mem_iff,List.mem_map]
    constructor
    · rintro ⟨⟨key,value'⟩,hmem,he⟩
      obtain ⟨rfl,rfl⟩ := Prod.mk.inj he
      exact AList.mem_lookup_iff.mpr hmem
    · exact fun h => ⟨⟨row,value⟩,AList.mem_lookup_iff.mp h,rfl⟩
  have hparent : ∀ value, s.tree.lookup row = some value →
      (value.parent = some path.str ↔ Path.parent ⟨row⟩ = some path) := by
    intro value hvalue
    rw [hs.parents ⟨row⟩ value hvalue,Option.map_eq_some_iff]
    constructor
    · rintro ⟨p,hp,hstr⟩
      rwa [← Path.ext hstr]
    · exact fun h => ⟨path,h,rfl⟩
  rw [IsChild,← hs.rows ⟨row⟩,childRows,List.mem_map]
  simp only [List.mem_filter,decide_eq_true_eq,Prod.exists,exists_and_right,exists_eq_right]
  constructor
  · rintro ⟨value,hmem,hvalue⟩
    have hlookup := (hrows value).mp hmem
    exact ⟨(hparent value hlookup).mp hvalue,AList.lookup_isSome.mp (by rw [hlookup]; rfl)⟩
  · rintro ⟨hsome,hmem⟩
    obtain ⟨value,hlookup⟩ := Option.isSome_iff_exists.mp (AList.lookup_isSome.mpr hmem)
    exact ⟨value,(hrows value).mpr hlookup,(hparent value hlookup).mpr hsome⟩

theorem childRows_nodup (plan : NodePlan C) (path : Path) (s : PgBackend C) : (childRows plan path s).Nodup := by
  have hkeys : ((plan.tree s).map Prod.fst).Nodup := by
    rw [((plan.treePerm s).map _).nodup_iff,List.map_map]
    exact s.tree.nodupKeys
  exact hkeys.sublist (List.filter_sublist.map _)

/-- A child that is a path is named by its segment behind the node. -/
theorem childName_spec {rest : Str} (hp : path.str = '/' :: rest) (hq : Path.fromStr q.str = .ok q)
    (hparent : q.parent = some path) : ∃ name, childName path q.str = .ok (q,name) ∧ path.Follows q name := by
  obtain ⟨rest',hrest'⟩ := Path.exists_of_fromStr hq
  have hunder : path.Under q := by
    refine ⟨Path.isParentOf_parent hparent,?_⟩
    rintro rfl
    exact absurd (Path.parent_length_lt hparent) (Nat.lt_irrefl _)
  obtain ⟨name,hname⟩ := hunder.follows hp hrest'
  refine ⟨name,?_,hname⟩
  simp only [childName,hq,Except.toOption,MayPanic.expect_some,MayPanic.ok_bind,
    (Path.first_eq_some_iff hp hrest' hunder).mpr hname,MayPanic.unwrap_some,MayPanic.pure_eq]

/-- The kind set last at a path, or inferred where none was set. -/
def kindAt (log : List Node) (path : Path) : NodeKind := (lastKind log path).getD (inferNodeKind path)

theorem kindOf_eq (hs : Closed s log) (path : Path) : kindOf s path = kindAt log path := by
  rw [kindOf,hs.kinds,kindAt]

/-- A hundred children, or all of them. -/
theorem childList_spec (plan : NodePlan C) (hs : Closed s log) {rest : Str} (hp : path.str = '/' :: rest)
    (hvalid : ∀ q, IsChild s log path q → Path.fromStr q.str = .ok q) :
    ∃ list qs, childList plan path s = .ok list ∧ qs.Nodup ∧ (∀ q ∈ qs, IsChild s log path q) ∧
      (qs.length = 100 ∨ ∀ q, IsChild s log path q → q ∈ qs) ∧
      List.Forall₂ (fun q child => path.Follows q child.name ∧ child.kind = kindAt log q) qs list := by
  have hchildren : ∀ row ∈ (childRows plan path s).take 100, ∃ child : Child, (do
      let (id,name) ← childName path row
      return (⟨name,kindOf s id⟩ : Child)) = .ok child ∧
        path.Follows ⟨row⟩ child.name ∧ child.kind = kindAt log ⟨row⟩ := by
    intro row hrow
    have hchild := (mem_childRows plan hs).mp (List.mem_of_mem_take hrow)
    obtain ⟨name,hname,hfollows⟩ := childName_spec hp (hvalid _ hchild) hchild.1
    exact ⟨⟨name,kindOf s ⟨row⟩⟩,by rw [hname]; rfl,hfollows,kindOf_eq hs ⟨row⟩⟩
  obtain ⟨list,hlist,hforall⟩ := MayPanic.mapM_forall₂ hchildren
  have hinjective : Function.Injective Path.mk := fun _ _ h => congrArg Path.str h
  refine ⟨list,((childRows plan path s).take 100).map Path.mk,hlist,?_,?_,?_,?_⟩
  · exact ((childRows_nodup plan path s).sublist (List.take_sublist 100 _)).map hinjective
  · intro q hq
    obtain ⟨row,hrow,rfl⟩ := List.mem_map.mp hq
    exact (mem_childRows plan hs).mp (List.mem_of_mem_take hrow)
  · by_cases hlength : 100 ≤ (childRows plan path s).length
    · exact Or.inl (by rw [List.length_map,List.length_take_of_le hlength])
    · refine Or.inr (fun q hq => ?_)
      rw [List.take_of_length_le (by omega)]
      exact List.mem_map.mpr ⟨q.str,(mem_childRows plan hs).mpr hq,rfl⟩
  · exact List.forall₂_map_left_iff.mpr hforall

/-- A range without children has no boundaries, and any other one those of the collation. -/
theorem minMaxChildren_spec (plan : NodePlan C) (hs : Closed s log) {rest : Str} (hp : path.str = '/' :: rest)
    (hvalid : ∀ q, IsChild s log path q → Path.fromStr q.str = .ok q) :
    ∃ names, minMaxChildren plan path s = .ok names ∧
      ((names = [] ∧ ∀ q, ¬ IsChild s log path q) ∨ ∃ least greatest start stop, names = [start,stop] ∧
        (IsChild s log path least ∧ path.Follows least start) ∧ (IsChild s log path greatest ∧ path.Follows greatest stop) ∧
        ∀ q, IsChild s log path q → plan.collation least.str q.str = true ∧ plan.collation q.str greatest.str = true) := by
  have hsorted : ∀ le : Str → Str → Bool, (∀ a b, le a b = true ∨ le b a = true) →
      (∀ {a b c}, le a b = true → le b c = true → le a c = true) →
      ∀ row rows, (childRows plan path s).insertionSort (fun a b => le a b) = row :: rows →
        IsChild s log path ⟨row⟩ ∧ ∀ q, IsChild s log path q → le row q.str = true := by
    intro le htotal htrans row rows hsort
    have hpair : ((childRows plan path s).insertionSort (fun a b => le a b)).Pairwise (fun a b => le a b = true) := by
      have : Std.Total (fun a b => le a b = true) := ⟨htotal⟩
      have : IsTrans Str (fun a b => le a b = true) := ⟨fun _ _ _ => htrans⟩
      exact List.pairwise_insertionSort _ _
    have hmem : ∀ a, a ∈ row :: rows ↔ IsChild s log path ⟨a⟩ := by
      intro a
      rw [← hsort,List.mem_insertionSort,mem_childRows plan hs]
    refine ⟨(hmem row).mp List.mem_cons_self,fun q hq => ?_⟩
    rw [hsort] at hpair
    rcases List.mem_cons.mp ((hmem q.str).mpr hq) with he | hrows
    · rw [he]
      exact or_self_iff.mp (htotal row row)
    · exact List.rel_of_pairwise_cons hpair hrows
  have hempty : ∀ le : Str → Str → Bool, (childRows plan path s).insertionSort (fun a b => le a b) = [] ↔
      ∀ q, ¬ IsChild s log path q := by
    intro le
    rw [List.eq_nil_iff_forall_not_mem]
    simp only [List.mem_insertionSort,mem_childRows plan hs]
    exact ⟨fun h q => h q.str,fun h row => h ⟨row⟩⟩
  cases hleast : (childRows plan path s).insertionSort (fun a b => plan.collation a b) with
  | nil =>
    have hnone := (hempty _).mp hleast
    have hgreatest := (hempty (fun a b => plan.collation b a)).mpr hnone
    exact ⟨[],by rw [minMaxChildren,hleast,hgreatest]; rfl,Or.inl ⟨rfl,hnone⟩⟩
  | cons least rows =>
    obtain ⟨hchild,hle⟩ := hsorted plan.collation plan.collation_total plan.collation_trans least rows hleast
    cases hgreatest : (childRows plan path s).insertionSort (fun a b => plan.collation b a) with
    | nil => exact absurd hchild ((hempty (fun a b => plan.collation b a)).mp hgreatest ⟨least⟩)
    | cons greatest rows' =>
      obtain ⟨hchild',hle'⟩ := hsorted (fun a b => plan.collation b a) (fun a b => plan.collation_total b a)
        (fun hba hcb => plan.collation_trans hcb hba) greatest rows' hgreatest
      obtain ⟨start,hstart,hfollows⟩ := childName_spec hp (hvalid _ hchild) hchild.1
      obtain ⟨stop,hstop,hfollows'⟩ := childName_spec hp (hvalid _ hchild') hchild'.1
      refine ⟨[start,stop],?_,Or.inr ⟨⟨least⟩,⟨greatest⟩,start,stop,rfl,⟨hchild,hfollows⟩,⟨hchild',hfollows'⟩,
        fun q hq => ⟨hle q hq,hle' q hq⟩⟩⟩
      simp [minMaxChildren,hleast,hgreatest,hstart,hstop]

/-- The row of an event at or below a path that has no attestation. -/
def Pending (s : PgBackend C) (path : Path) (id : EventId) (row : EventRow C) (q : Path) : Prop :=
  s.event.lookup id.asStr = some row ∧ row.att.outcome = none ∧ id.path = .ok q ∧ path.isParentOf q = true

variable {takes : Str → Bool}

theorem describes_pending {id : EventId} {announced : AnnouncedEvent C} :
    (s.Shows id announced ∧ EventQuery.Describes { path := some path, attested := some false } announced) ↔
      ∃ row q, Pending s path id row q ∧ row.read id.asStr = .ok announced := by
  constructor
  · rintro ⟨⟨row,hl,hread⟩,q,hq,hbelow,_,_,hattested⟩
    obtain ⟨hevent,_,hatt⟩ := Postgres.read_spec hread
    rw [hevent] at hq
    have hnone : row.att.outcome = none := by
      rw [← Option.not_isSome_iff_eq_none,← hatt,← hattested false rfl]
      exact Bool.false_ne_true
    exact ⟨row,q,⟨hl,hnone,hq,hbelow path rfl⟩,hread⟩
  · rintro ⟨row,q,⟨hl,hnone,hq,hbelow⟩,hread⟩
    obtain ⟨hevent,_,hatt⟩ := Postgres.read_spec hread
    refine ⟨⟨row,hl,hread⟩,q,by rw [hevent]; exact hq,?_,Or.inl rfl,(fun _ h => nomatch h),?_⟩
    · intro p hpath
      exact Option.some.inj hpath ▸ hbelow
    · intro attested hattested
      rw [hatt,hnone,← Option.some.inj hattested]
      rfl

/-- The events can be read, and the server tells a path apart from theirs. -/
structure Clear (s : PgBackend C) (path : Path) : Prop where
  ids : ∀ text ∈ s.event, EventId.Accepted ⟨⟨text⟩⟩
  apart : ∀ (id : EventId) q, id.asStr ∈ s.event → id.path = .ok q → ¬ path.Confused q

/-- The next unattested event is the earliest of those at or below the node, one with a time
before one without. -/
theorem nextUnattested_spec (hkept : s.Kept takes) (hclear : s.Clear path) (hp : Path.fromStr path.str = .ok path)
    (hanswers : plan.Answers { path := some path, attested := some false } s.toPostgres) :
    ∃ next, nextUnattested plan path s = .ok (.ok next) ∧
      ((next = none ∧ ∀ id row q, ¬ Pending s path id row q) ∨ ∃ id row q, Pending s path id row q ∧
        (∀ id' row' q', Pending s path id' row' q' →
          nullsLast row.expectedOutcomeTime row'.expectedOutcomeTime = true) ∧
        next = (q.stripPrefixPath path).first) := by
  have hquery : EventQuery.WellFormed { path := some path, attested := some false } := by
    refine ⟨fun p hpath => ?_,(by decide +kernel : Path.fromStr Path.root.str = .ok Path.root)⟩
    exact Option.some.inj hpath ▸ hp
  have hrows : ∀ text ∈ s.event, EventQuery.Clear { path := some path, attested := some false } ⟨⟨text⟩⟩ := by
    intro text htext q hq
    obtain ⟨_,htail⟩ := List.head?_eq_some_iff.mp ((hclear.ids text htext).head_path hq)
    refine ⟨fun p hpath => ?_,Path.not_confused_root (Or.inl rfl) (rfl : Path.root.str = '/' :: []) htail,
      (fun _ h => nomatch h)⟩
    exact Option.some.inj hpath ▸ hclear.apart ⟨⟨text⟩⟩ q htext hq
  obtain ⟨events,_,hfirst,hlists⟩ := Postgres.queryEvents_spec hquery hanswers hkept hclear.ids hrows
  have hpending : ∀ id row q, Pending s path id row q →
      ∃ event ∈ events, event = ⟨id,row.expectedOutcomeTime⟩ := by
    intro id row q hpending
    obtain ⟨announced,hread⟩ := (hkept _ row hpending.1).read (hclear.ids _ (AList.lookup_isSome.mp (by rw [hpending.1]; rfl)))
    obtain ⟨hshows,hdescribes⟩ := describes_pending.mpr ⟨row,q,hpending,hread⟩
    exact ⟨announced.event,(hlists.mem _).mpr ⟨id,announced,hshows,hdescribes,rfl⟩,(Postgres.read_spec hread).1⟩
  cases events with
  | nil =>
    refine ⟨none,by rw [nextUnattested,hfirst]; rfl,Or.inl ⟨rfl,fun id row q h => ?_⟩⟩
    obtain ⟨_,hevent,_⟩ := hpending id row q h
    cases hevent
  | cons event rest =>
    obtain ⟨id,announced,hshows,hdescribes,hevent⟩ := (hlists.mem event).mp List.mem_cons_self
    obtain ⟨row,q,h,hread⟩ := describes_pending.mp ⟨hshows,hdescribes⟩
    obtain rfl : event = ⟨id,row.expectedOutcomeTime⟩ := hevent.symm.trans (Postgres.read_spec hread).1
    refine ⟨(q.stripPrefixPath path).first,?_,Or.inr ⟨id,row,q,h,fun id' row' q' h' => ?_,rfl⟩⟩
    · rw [nextUnattested,hfirst,MayPanic.ok_bind]
      dsimp only [List.head?_cons]
      rw [h.2.2.1]
      rfl
    · obtain ⟨_,hmem,rfl⟩ := hpending id' row' q' h'
      exact hlists.head_le (fun a b => nullsLast_total a.expectedOutcomeTime b.expectedOutcomeTime) _ hmem

theorem mem_eventRows (plan : NodePlan C) (test : Str → Bool) {text : Str} :
    text ∈ eventRows plan test s ↔ ∃ row, s.event.lookup text = some row ∧ test row.path = true := by
  simp [eventRows,Postgres.mem_rows]

/-- The server finds the events at a path and those at or below it. -/
theorem mem_eventRows_clear (plan : NodePlan C) (hkept : s.Kept takes) (hclear : s.Clear path)
    (hp : Path.fromStr path.str = .ok path) {column : Str} (hcolumn : ltree path = .ok column) (id : EventId) :
    (id.asStr ∈ eventRows plan (fun other => (labels column).isPrefixOf (labels other)) s ↔
      id.asStr ∈ s.event ∧ ∃ q, id.path = .ok q ∧ path.isParentOf q = true) ∧
    (id.asStr ∈ eventRows plan (fun other => other == column) s ↔ id.asStr ∈ s.event ∧ id.path = .ok path) := by
  obtain ⟨rest,hrest⟩ := Path.exists_of_fromStr hp
  have hcompare : ∀ row, s.event.lookup id.asStr = some row → ∃ q, id.path = .ok q ∧
      (labels column <+: labels row.path ↔ path.isParentOf q = true) ∧ (column = row.path ↔ path = q) := by
    intro row hl
    obtain ⟨q,hq,hrow⟩ := (hkept _ row hl).path
    have hmem : id.asStr ∈ s.event := AList.lookup_isSome.mp (by rw [hl]; rfl)
    obtain ⟨tail,htail⟩ := List.head?_eq_some_iff.mp ((hclear.ids _ hmem).head_path hq)
    obtain ⟨_,_,_,h1,h2,_,hbelow,hat,_⟩ :=
      Path.faithful_of_not_confused hrest htail (hclear.apart id q hmem hq)
    obtain rfl := Except.ok.inj (h1.symm.trans hcolumn)
    obtain rfl := Except.ok.inj (h2.symm.trans hrow)
    exact ⟨q,hq,hbelow,hat⟩
  simp only [mem_eventRows,List.isPrefixOf_iff_prefix,beq_iff_eq,← AList.lookup_isSome,Option.isSome_iff_exists]
  constructor
  · constructor
    · rintro ⟨row,hl,hb⟩
      obtain ⟨q,hq,hbelow,_⟩ := hcompare row hl
      exact ⟨⟨row,hl⟩,q,hq,hbelow.mp hb⟩
    · rintro ⟨⟨row,hl⟩,q,hq,hparent⟩
      obtain ⟨q',hq',hbelow,_⟩ := hcompare row hl
      obtain rfl := Except.ok.inj (hq.symm.trans hq')
      exact ⟨row,hl,hbelow.mpr hparent⟩
  · constructor
    · rintro ⟨row,hl,hsame⟩
      obtain ⟨q,hq,_,hat⟩ := hcompare row hl
      exact ⟨⟨row,hl⟩,(hat.mp hsame.symm) ▸ hq⟩
    · rintro ⟨⟨row,hl⟩,hq⟩
      obtain ⟨q',hq',_,hat⟩ := hcompare row hl
      exact ⟨row,hl,(hat.mpr (Except.ok.inj (hq.symm.trans hq'))).symm⟩

theorem eventRows_nodup (plan : NodePlan C) (test : Str → Bool) (s : PgBackend C) : (eventRows plan test s).Nodup :=
  (Postgres.rows_nodup plan.toPlan s.toPostgres).sublist (List.filter_sublist.map _)

/-- The kinds of the events at a path, each once. -/
theorem kindsAt_spec (plan : NodePlan C) (hkept : s.Kept takes) (hclear : s.Clear path)
    (hp : Path.fromStr path.str = .ok path) {column : Str} (hcolumn : ltree path = .ok column) :
    ∃ kinds ids, (eventRows plan (fun other => other == column) s).mapM (fun row => do
        let id ← MayPanic.expect "error retrieving column id" (← EventId.fromStr row).toOption
        id.eventKind) = .ok kinds ∧ ids.Nodup ∧
      (∀ id : EventId, id ∈ ids ↔ id.asStr ∈ s.event ∧ id.path = .ok path) ∧
      List.Forall₂ (fun id kind => id.eventKind = .ok kind) ids kinds := by
  have hkinds : ∀ row ∈ eventRows plan (fun other => other == column) s, ∃ kind, (do
      let id ← MayPanic.expect "error retrieving column id" (← EventId.fromStr row).toOption
      id.eventKind) = .ok kind ∧ EventId.eventKind ⟨⟨row⟩⟩ = .ok kind := by
    intro row hrow
    obtain ⟨hmem,_⟩ := (mem_eventRows_clear plan hkept hclear hp hcolumn ⟨⟨row⟩⟩).2.mp hrow
    have haccepted := hclear.ids row hmem
    obtain ⟨_,kind,hreads⟩ := haccepted.reads
    have hparse : EventId.fromStr row = .ok (.ok ⟨⟨row⟩⟩) := haccepted
    exact ⟨kind,by rw [hparse]; exact hreads.eventKind,hreads.eventKind⟩
  obtain ⟨kinds,hmap,hforall⟩ := MayPanic.mapM_forall₂ hkinds
  have hinjective : Function.Injective (fun text : Str => (⟨⟨text⟩⟩ : EventId)) :=
    fun _ _ h => congrArg EventId.asStr h
  refine ⟨kinds,(eventRows plan (fun other => other == column) s).map (fun text => ⟨⟨text⟩⟩),hmap,
    (eventRows_nodup plan _ s).map hinjective,fun id => ?_,List.forall₂_map_left_iff.mpr hforall⟩
  rw [← (mem_eventRows_clear plan hkept hclear hp hcolumn id).2,List.mem_map]
  constructor
  · rintro ⟨text,htext,rfl⟩
    exact htext
  · exact fun h => ⟨id.asStr,h,rfl⟩

/-- A row below the node is read for its date as an event is in memory. -/
theorem addRowDate_eq (plan : NodePlan C) {row : Str} {dates : AList (fun _ : NaiveDate => Finset Str)}
    (hid : EventId.Accepted ⟨⟨row⟩⟩) (hq : EventId.path ⟨⟨row⟩⟩ = .ok q) (hbelow : path.isParentOf q = true) :
    addRowDate plan path dates row = NodeDb.addDate plan.parseDate path dates ⟨⟨row⟩⟩ := by
  have hbegins : path.str.isPrefixOf q.str = true :=
    List.isPrefixOf_iff_prefix.mpr ((Path.isParentOf_iff_below path q).mp hbelow).begins
  have hparse : EventId.fromStr row = .ok (.ok ⟨⟨row⟩⟩) := hid
  rw [addRowDate,NodeDb.addDate,hparse,hq]
  exact (if_pos hbegins).symm

theorem not_beside_of_isParentOf {names : List Str} {rest : Str} (hp : path.str = '/' :: rest)
    (h : path.isParentOf q = true) : ¬ path.Beside q names := by
  rintro ⟨hroot,more,tail,hne,hmore,hstr,_⟩
  rw [List.append_assoc] at hstr
  rcases (Path.isParentOf_iff_behind (by simp [hp]) hroot).mp h with rfl | ⟨tail',htail'⟩
  · simpa [hne] using congrArg List.length hstr
  · cases more with
    | nil => exact hne rfl
    | cons c more =>
      have hcut : c :: more ++ '/' :: tail = '/' :: tail' := List.append_cancel_left (hstr.symm.trans htail')
      obtain rfl := (List.cons.inj hcut).1
      exact hmore List.mem_cons_self

/-- The dates of the events below the node, where none of the events is at the node itself. -/
theorem dates_spec (plan : NodePlan C) (hkept : s.Kept takes) (hclear : s.Clear path)
    (hp : Path.fromStr path.str = .ok path) {column : Str} (hcolumn : ltree path = .ok column)
    (hbelow : ¬ path.isRoot → ∀ id : EventId, id.asStr ∈ s.event → id.path ≠ .ok path) :
    ∃ dates, (eventRows plan (fun other => (labels column).isPrefixOf (labels other)) s).foldlM
        (addRowDate plan path) ∅ = .ok dates ∧
      NodeDb.Shows dates (fun date name => ∃ (id : EventId) (q : Path), id.asStr ∈ s.event ∧ id.path = .ok q ∧
        NodeDb.Dates plan.parseDate path q date name) := by
  obtain ⟨rest,hrest⟩ := Path.exists_of_fromStr hp
  have hrows : ∀ row ∈ eventRows plan (fun other => (labels column).isPrefixOf (labels other)) s,
      EventId.Accepted ⟨⟨row⟩⟩ ∧ ∃ q, EventId.path ⟨⟨row⟩⟩ = .ok q ∧ path.isParentOf q = true := by
    intro row hrow
    obtain ⟨hmem,hq⟩ := (mem_eventRows_clear plan hkept hclear hp hcolumn ⟨⟨row⟩⟩).1.mp hrow
    exact ⟨hclear.ids row hmem,hq⟩
  have hsame : ∀ (rows : List Str) dates, (∀ row ∈ rows, EventId.Accepted ⟨⟨row⟩⟩ ∧
      ∃ q, EventId.path ⟨⟨row⟩⟩ = .ok q ∧ path.isParentOf q = true) →
      rows.foldlM (addRowDate plan path) dates =
        (rows.map (fun row => (⟨⟨row⟩⟩ : EventId))).foldlM (NodeDb.addDate plan.parseDate path) dates := by
    intro rows
    induction rows with
    | nil => exact fun _ _ => rfl
    | cons row rows ih =>
      intro dates hall
      obtain ⟨hid,q,hq,hparent⟩ := hall row List.mem_cons_self
      rw [List.foldlM_cons,List.map_cons,List.foldlM_cons,addRowDate_eq plan hid hq hparent]
      exact congrArg _ (funext fun dates => ih dates (fun row hrow => hall row (List.mem_cons_of_mem _ hrow)))
  have hreturns : ∀ dates, ∀ id ∈ (eventRows plan (fun other => (labels column).isPrefixOf (labels other)) s).map
      (fun row => (⟨⟨row⟩⟩ : EventId)), (∃ dates', NodeDb.addDate plan.parseDate path dates id = .ok dates') ↔ True := by
    intro dates id hid
    obtain ⟨row,hrow,rfl⟩ := List.mem_map.mp hid
    obtain ⟨hmem,q,hq,hparent⟩ := (mem_eventRows_clear plan hkept hclear hp hcolumn ⟨⟨row⟩⟩).1.mp hrow
    refine iff_of_true ((NodeDb.addDate_isOk_iff hq).mpr (fun hroot more hmore => ?_)) trivial
    rcases (Path.isParentOf_iff_behind (by simp [hrest]) hroot).mp hparent with rfl | ⟨tail,htail⟩
    · exact absurd hq (hbelow hroot _ hmem)
    · rw [List.append_cancel_left (hmore.symm.trans htail)]
      exact List.mem_cons_self
  obtain ⟨dates,hdates⟩ := (MayPanic.foldlM_isOk_iff (b := ∅) hreturns).mpr (fun _ _ => trivial)
  refine ⟨dates,by rw [hsame _ _ hrows,hdates],?_⟩
  have hids : ∀ id ∈ (eventRows plan (fun other => (labels column).isPrefixOf (labels other)) s).map
      (fun row => (⟨⟨row⟩⟩ : EventId)), id.Accepted := by
    intro id hid
    obtain ⟨row,hrow,rfl⟩ := List.mem_map.mp hid
    exact (hrows row hrow).1
  refine (NodeDb.foldlM_addDate_shows hrest hids NodeDb.shows_empty hdates).congr (fun date name => ?_)
  rw [false_or]
  constructor
  · rintro ⟨id,q,hid,hq,hshown⟩
    obtain ⟨row,hrow,rfl⟩ := List.mem_map.mp hid
    obtain ⟨hmem,q',hq',hparent⟩ := (mem_eventRows_clear plan hkept hclear hp hcolumn ⟨⟨row⟩⟩).1.mp hrow
    obtain rfl := Except.ok.inj (hq.symm.trans hq')
    refine ⟨⟨⟨row⟩⟩,q,hmem,hq,hshown.resolve_right ?_⟩
    rintro ⟨text,names,_,hbeside⟩
    exact not_beside_of_isParentOf hrest hparent hbeside
  · rintro ⟨id,q,hmem,hq,hshown⟩
    have hrow := (mem_eventRows_clear plan hkept hclear hp hcolumn id).1.mpr ⟨hmem,q,hq,hshown.choose_spec.choose_spec.2.1⟩
    exact ⟨id,q,List.mem_map.mpr ⟨id.asStr,hrow,rfl⟩,hq,Or.inl hshown⟩

/-- Setting a node leaves the events alone. -/
theorem setNodeTransaction_event {server : Server} {node : Node} (h : setNodeTransaction server node s = .ok t) :
    t.event = s.event := by
  obtain ⟨u,hu,rfl⟩ := setNodeTransaction_eq_ok h
  exact Postgres.setNodeParents_event hu

theorem step_kept {entries : List Node} (hs : s.Kept (fun _ => true)) (h : Step s entries t) :
    t.Kept (fun _ => true) := by
  have hset : ∀ {server : Server} {node : Node} {r : DbResult Unit},
      apply server (.setNode node) s = (r,t) → t.Kept (fun _ => true) := by
    intro server node r h
    rcases setNode_cases h with ⟨_,hset⟩ | ⟨_,rfl⟩
    · unfold Postgres.Kept
      rw [setNodeTransaction_event hset]
      exact hs
    · exact hs
  cases h with
  | write server op => exact Postgres.apply_kept (fun _ _ => rfl) op s.toPostgres hs
  | setNode h => exact hset h
  | refused h _ => exact hset h

/-- What is shown of a node of a kind. -/
def ShowsChildren (plan : NodePlan C) (s : PgBackend C) (log : List Node) (path : Path) (desc : ChildDesc) :
    NodeKind → Prop
  | .list => ∃ list qs, desc = .list list ∧ qs.Nodup ∧ (∀ q ∈ qs, IsChild s log path q) ∧
      (qs.length = 100 ∨ ∀ q, IsChild s log path q → q ∈ qs) ∧
      List.Forall₂ (fun q child => path.Follows q child.name ∧ child.kind = kindAt log q) qs list
  | .range rangeKind => ∃ start next stop, desc = .range rangeKind start next stop ∧
      ((start = none ∧ stop = none ∧ ∀ q, ¬ IsChild s log path q) ∨ ∃ least greatest name name',
        start = some name ∧ stop = some name' ∧ (IsChild s log path least ∧ path.Follows least name) ∧
        (IsChild s log path greatest ∧ path.Follows greatest name') ∧
        ∀ q, IsChild s log path q → plan.collation least.str q.str = true ∧ plan.collation q.str greatest.str = true) ∧
      ((next = none ∧ ∀ id row q, ¬ Pending s path id row q) ∨ ∃ id row q, Pending s path id row q ∧
        (∀ id' row' q', Pending s path id' row' q' →
          nullsLast row.expectedOutcomeTime row'.expectedOutcomeTime = true) ∧
        next = (q.stripPrefixPath path).first)
  | .dateMap => ∃ dates, desc = .dateMap dates ∧ NodeDb.Shows dates (fun date name => ∃ (id : EventId) (q : Path),
      id.asStr ∈ s.event ∧ id.path = .ok q ∧ NodeDb.Dates plan.parseDate path q date name)

/-- What a node shows: its events and its children. -/
def ShowsNode (plan : NodePlan C) (s : PgBackend C) (log : List Node) (path : Path) (g : GetPath) : Prop :=
  (∃ ids, ids.Nodup ∧ (∀ id : EventId, id ∈ ids ↔ id.asStr ∈ s.event ∧ id.path = .ok path) ∧
    List.Forall₂ (fun id kind => id.eventKind = .ok kind) ids g.events) ∧
  ShowsChildren plan s log path g.childDesc (kindAt log path)

/-- The server answers the statements for a node. -/
structure Answered (plan : NodePlan C) (s : PgBackend C) (path : Path) : Prop where
  text : plan.text path.str = true
  ltree : ∀ column, Olivia.ltree path = .ok column → plan.ltree column = true
  query : plan.toPlan.Answers { path := some path, attested := some false } s.toPostgres

/-- The rows under a node can be read: its children are paths, and no event is stored right at a
node of dates. -/
structure Browsable (s : PgBackend C) (log : List Node) (path : Path) : Prop where
  children : kindAt log path ≠ .dateMap → ∀ q, IsChild s log path q → Path.fromStr q.str = .ok q
  dates : kindAt log path = .dateMap → ¬ path.isRoot → ∀ id : EventId, id.asStr ∈ s.event → id.path ≠ .ok path

theorem childDesc_spec (hs : Closed s log) (hkept : s.Kept takes) (hclear : s.Clear path)
    (hp : Path.fromStr path.str = .ok path) (hanswers : Answered plan s path) (hbrowsable : Browsable s log path) :
    ∃ desc, childDesc plan path s (kindAt log path) = .ok (.ok desc) ∧
      ShowsChildren plan s log path desc (kindAt log path) := by
  obtain ⟨rest,hrest⟩ := Path.exists_of_fromStr hp
  obtain ⟨hchildren,hdates⟩ := hbrowsable
  cases hkind : kindAt log path with
  | list =>
    rw [hkind] at hchildren
    obtain ⟨list,qs,hlist,hspec⟩ := childList_spec plan hs hrest (hchildren (by simp))
    exact ⟨.list list,by rw [childDesc,hlist]; rfl,list,qs,rfl,hspec⟩
  | range rangeKind =>
    rw [hkind] at hchildren
    obtain ⟨next,hnext,hspec⟩ := nextUnattested_spec hkept hclear hp hanswers.query
    obtain ⟨names,hnames,hends⟩ := minMaxChildren_spec plan hs hrest (hchildren (by simp))
    refine ⟨.range rangeKind names.dropLast.getLast? next names.getLast?,?_,_,_,_,rfl,?_,hspec⟩
    · rw [childDesc,hnext,MayPanic.ok_bind]
      dsimp only
      rw [hnames]
      rfl
    · rcases hends with ⟨rfl,hnone⟩ | ⟨least,greatest,start,stop,rfl,hspec⟩
      · exact Or.inl ⟨rfl,rfl,hnone⟩
      · exact Or.inr ⟨least,greatest,start,stop,rfl,rfl,hspec⟩
  | dateMap =>
    have hcolumn := ltree_eq hrest
    obtain ⟨dates,hfold,hshows⟩ := dates_spec plan hkept hclear hp hcolumn (hdates hkind)
    refine ⟨.dateMap dates,?_,dates,rfl,hshows⟩
    rw [childDesc,hcolumn,MayPanic.ok_bind,if_pos (hanswers.ltree _ hcolumn),hfold]
    rfl

/-- In a state that calls of the backend have reached, where the server takes the path and answers, tells
it apart from the paths of the stored events, and the rows under it read back, a node is shown if
something was recorded at or below the path, with what was recorded, and it is not there otherwise. -/
theorem getNode_spec (h : Runs s log) (hclear : s.Clear path) (hp : Path.fromStr path.str = .ok path)
    (hanswers : Answered plan s path) (hbrowsable : Browsable s log path) :
    (getNode plan path s = .ok (.ok none) ∧ ∀ r, Recorded s log r → path.isParentOf r = false) ∨
      ∃ g, getNode plan path s = .ok (.ok (some g)) ∧ (∃ r, Recorded s log r ∧ path.isParentOf r = true) ∧
        ShowsNode plan s log path g := by
  have hs : Closed s log := h.invariant closed_empty (fun hs hst => step_closed hs hst)
  have hkept : s.Kept (fun _ => true) :=
    h.invariant (I := fun s _ => s.Kept (fun _ => true)) Postgres.kept_empty (fun hs hst => step_kept hs hst)
  obtain ⟨rest,hrest⟩ := Path.exists_of_fromStr hp
  have hcolumn := ltree_eq hrest
  by_cases hmem : path.str ∈ s.tree
  · obtain ⟨desc,hdesc,hchildren⟩ := childDesc_spec hs hkept hclear hp hanswers hbrowsable
    obtain ⟨kinds,ids,hkinds,hevents⟩ := kindsAt_spec plan hkept hclear hp hcolumn
    refine Or.inr ⟨⟨kinds,desc⟩,?_,(hs.rows path).mp hmem,⟨ids,hevents⟩,hchildren⟩
    rw [getNode,if_pos hanswers.text,if_pos hmem,kindOf_eq hs,hdesc,MayPanic.ok_bind]
    dsimp only
    rw [hcolumn,MayPanic.ok_bind,if_pos (hanswers.ltree _ hcolumn),hkinds]
    rfl
  · refine Or.inl ⟨by rw [getNode,if_pos hanswers.text,if_neg hmem]; rfl,fun r hr => ?_⟩
    exact Bool.not_eq_true _ ▸ fun hbelow => hmem ((hs.rows path).mpr ⟨r,hr,hbelow⟩)

section Sampled
open Sample

/-- Rows in the order of the underlying list, texts in that of their characters, and two dates. -/
def samplePlan : NodePlan (group 10007) :=
  { Postgres.Plan.entries with
    text := fun _ => true
    ltree := fun _ => true
    tree := fun s => s.tree.entries.map (fun row => (row.1,row.2))
    treePerm := fun _ => .refl _
    collation := fun a b => decide (a ≤ b)
    collation_total := fun a b => by simpa using le_total a b
    collation_trans := fun hab hbc => by simpa using le_trans (of_decide_eq_true hab) (of_decide_eq_true hbc)
    parseDate := NodeDb.datedWalk.parseDate }

/-- Events on two days below "/foo", where the kind is one of dates. -/
def sampleDated : PgBackend (group 10007) :=
  (apply lenient (.setNode ⟨⟨"/foo".toList⟩,.dateMap⟩) ((["/foo/2021-10-04/A_B.vs","/foo/2021-10-05/C_D.vs"].filterMap
    (fun id => announcedEvent id.toList)).foldl (fun s event => (apply lenient (.write (.insertEvent event)) s).2) empty)).2

theorem sampleDated_runs : Runs sampleDated [⟨⟨"/foo".toList⟩,.dateMap⟩] := by
  have hevents : Runs ((["/foo/2021-10-04/A_B.vs","/foo/2021-10-05/C_D.vs"].filterMap (fun id =>
      announcedEvent id.toList)).foldl (fun s event => (apply lenient (.write (.insertEvent event)) s).2) empty) [] :=
    List.foldlRecOn (motive := fun s => Runs s []) _ _ .start
      (fun _ hs event _ => hs.step (.write lenient (.insertEvent event)))
  exact hevents.step (Step.setNode (Prod.ext (by decide +kernel) rfl))

/-- The node shows the match under its day. -/
theorem getNode_spec_at_foo : ∃ g dates, getNode samplePlan ⟨"/foo".toList⟩ sampleDated = .ok (.ok (some g)) ∧
    ShowsNode samplePlan sampleDated [⟨⟨"/foo".toList⟩,.dateMap⟩] ⟨"/foo".toList⟩ g ∧ g.childDesc = .dateMap dates ∧
    "A_B".toList ∈ (dates.lookup ⟨18904⟩).getD ∅ := by
  have hpaths : ∀ text ∈ sampleDated.event.keys, EventId.Accepted ⟨⟨text⟩⟩ ∧
      ∃ q ∈ ([⟨"/foo/2021-10-04/A_B".toList⟩,⟨"/foo/2021-10-05/C_D".toList⟩] : List Path),
        EventId.path ⟨⟨text⟩⟩ = .ok q := by decide +kernel
  have hapart : ∀ q ∈ ([⟨"/foo/2021-10-04/A_B".toList⟩,⟨"/foo/2021-10-05/C_D".toList⟩] : List Path),
      ¬ (⟨"/foo".toList⟩ : Path).Confused q ∧ q ≠ ⟨"/foo".toList⟩ := by
    simp only [Path.not_confused_iff]
    decide +kernel
  have hpath : ∀ (id : EventId) q, id.asStr ∈ sampleDated.event → id.path = .ok q →
      q ∈ ([⟨"/foo/2021-10-04/A_B".toList⟩,⟨"/foo/2021-10-05/C_D".toList⟩] : List Path) := by
    intro id q hmem hq
    obtain ⟨_,q',hq',hpath⟩ := hpaths _ (AList.mem_keys.mp hmem)
    exact Except.ok.inj (hpath.symm.trans hq) ▸ hq'
  have hclear : sampleDated.Clear ⟨"/foo".toList⟩ :=
    ⟨fun text hmem => (hpaths text (AList.mem_keys.mp hmem)).1,fun id q hmem hq => (hapart q (hpath id q hmem hq)).1⟩
  have hkind : kindAt [⟨⟨"/foo".toList⟩,.dateMap⟩] ⟨"/foo".toList⟩ = .dateMap := by decide +kernel
  have hbrowsable : Browsable sampleDated [⟨⟨"/foo".toList⟩,.dateMap⟩] ⟨"/foo".toList⟩ :=
    ⟨fun hne => absurd hkind hne,fun _ _ id hmem hq => (hapart _ (hpath id _ hmem hq)).2 rfl⟩
  have hanswers : Answered samplePlan sampleDated ⟨"/foo".toList⟩ := ⟨rfl,fun _ _ => rfl,fun _ _ _ _ => rfl⟩
  rcases getNode_spec sampleDated_runs hclear (by decide +kernel) hanswers hbrowsable with ⟨_,hnone⟩ | ⟨g,hg,_,hshows⟩
  · have hnode : Recorded sampleDated [⟨⟨"/foo".toList⟩,.dateMap⟩] ⟨"/foo".toList⟩ :=
      Or.inr ⟨_,List.mem_singleton.mpr rfl,rfl⟩
    cases (hnone _ hnode).symm.trans (Path.isParentOf_self _)
  · have hchildren := hshows.2
    rw [hkind] at hchildren
    obtain ⟨dates,hdesc,hdates⟩ := hchildren
    have hstored : "/foo/2021-10-04/A_B.vs".toList ∈ sampleDated.event.keys := by decide +kernel
    have hat : EventId.path ⟨⟨"/foo/2021-10-04/A_B.vs".toList⟩⟩ = .ok ⟨"/foo/2021-10-04/A_B".toList⟩ := by decide +kernel
    exact ⟨g,dates,hg,hshows,hdesc,((hdates _).2 _).mpr ⟨⟨⟨"/foo/2021-10-04/A_B.vs".toList⟩⟩,_,AList.mem_keys.mpr hstored,
      hat,"2021-10-04".toList,[],by decide +kernel,by decide +kernel,by decide +kernel⟩⟩

end Sampled

end PgBackend
end Olivia
