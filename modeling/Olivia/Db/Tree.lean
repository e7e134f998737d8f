import Olivia.Core.ValidPath
import Olivia.Db.Nodes
import Olivia.Db.Postgres
import Olivia.Runs.Logged

/-! # The tree of the Postgres store

A row of the tree is a path that an event was stored at or a node was set at, or a parent of
one. Rows are inserted from the path up to the root, each beside its parent, and those that are
there stay as they are; a kind is set on a row that its own transaction has put there.
-/
namespace Olivia

/-- The store with the kind column of its tree, of the rows where it is not null. -/
structure PgBackend (C : Group) extends Postgres C where
  kinds : AList (fun _ : Str => NodeKind)

section Ancestors
variable {node q : Path}

theorem ancestors_of_some {parent : Path} (h : node.parent = some parent) :
    ancestors node = node :: ancestors parent := by
  rw [ancestors]
  split
  next parent' hparent =>
    obtain rfl := Option.some.inj (hparent.symm.trans h)
    rfl
  next hnone => cases hnone.symm.trans h

theorem ancestors_of_none (h : node.parent = none) : ancestors node = [node] := by
  rw [ancestors]
  split
  next parent hparent => cases hparent.symm.trans h
  next => rfl

theorem ancestors_eq_cons (node : Path) : ∃ rest, ancestors node = node :: rest := by
  rw [ancestors]
  exact ⟨_,rfl⟩

/-- The paths that are inserted for a node are those it is below. -/
theorem mem_ancestors (node q : Path) : q ∈ ancestors node ↔ q.isParentOf node = true := by
  cases h : node.parent with
  | none =>
    rw [ancestors_of_none h,List.mem_singleton]
    constructor
    · rintro rfl
      exact Path.isParentOf_self q
    · intro hbelow
      by_contra hne
      rw [Path.isParentOf,if_neg (Ne.symm hne)] at hbelow
      split at hbelow
      next parent hparent => cases hparent.symm.trans h
      next => cases hbelow
  | some parent =>
    have hlt := Path.parent_length_lt h
    rw [ancestors_of_some h,List.mem_cons,mem_ancestors parent q]
    by_cases hne : node = q
    · subst hne
      simp [Path.isParentOf_self]
    · rw [Path.isParentOf_of_parent h hne]
      exact or_iff_right (Ne.symm hne)
termination_by node.str.length

/-- Each is inserted beside its parent. -/
theorem ancestors_zip (node : Path) :
    ((ancestors node).map Path.str).zip (((ancestors node).map Path.str).tail.map some ++ [none]) =
      (ancestors node).map (fun a => (a.str,a.parent.map Path.str)) := by
  cases h : node.parent with
  | none => simp [ancestors_of_none h,h]
  | some parent =>
    have hlt := Path.parent_length_lt h
    have ih := ancestors_zip parent
    obtain ⟨rest,hrest⟩ := ancestors_eq_cons parent
    rw [hrest] at ih
    rw [ancestors_of_some h,hrest]
    simpa [h] using ih
termination_by node.str.length

/-- The values of the insertion are bound to these rows. -/
theorem ancestors_values (node : Path) : boundRows (placeholders ((ancestors node).map Path.str).length)
    (params (((ancestors node).map Path.str).zip (((ancestors node).map Path.str).tail.map some ++ [none]))) =
      (ancestors node).map (fun a => (a.str,a.parent.map Path.str)) := by
  have hlength : ((ancestors node).map Path.str).length =
      ((ancestors node).map (fun a => (a.str,a.parent.map Path.str))).length := by simp
  rw [ancestors_zip,hlength,boundRows_params]

/-- Each is the parent of the one before, and shorter. -/
theorem ancestors_isChain (node : Path) :
    (ancestors node).IsChain (fun q parent => q.parent = some parent ∧ parent.str.length < q.str.length) := by
  cases h : node.parent with
  | none =>
    rw [ancestors_of_none h]
    exact List.isChain_singleton node
  | some parent =>
    have hlt := Path.parent_length_lt h
    have ih := ancestors_isChain parent
    obtain ⟨rest,hrest⟩ := ancestors_eq_cons parent
    rw [hrest] at ih
    rw [ancestors_of_some h,hrest]
    exact List.isChain_cons_cons.mpr ⟨⟨h,hlt⟩,ih⟩
termination_by node.str.length

theorem head_parent {parent : Path} (hnode : node.str.head? = some '/') (h : node.parent = some parent) :
    parent.str.head? = some '/' := by
  have hbelow := (Path.isParentOf_iff_below parent node).mp (Path.isParentOf_parent h)
  exact hbelow.head hnode

/-- A path that begins with a slash is cut down to the root. -/
theorem getLast_ancestors (node : Path) (hnode : node.str.head? = some '/') : (ancestors node).getLast? = some Path.root := by
  cases h : node.parent with
  | none =>
    rcases Path.parent_eq_none h with hroot | hslash
    · rw [ancestors_of_none h,hroot]
      rfl
    · exact absurd (List.mem_of_head? hnode) hslash
  | some parent =>
    have hlt := Path.parent_length_lt h
    rw [ancestors_of_some h,List.getLast?_cons,getLast_ancestors parent (head_parent hnode h)]
    rfl
termination_by node.str.length

/-- No path is a parent of parents of its own without end. -/
theorem parent_wellFounded : WellFounded (fun parent q : Path => q.parent = some parent) :=
  Subrelation.wf Path.parent_length_lt (measure (fun q : Path => q.str.length)).wf

/-- The recursion over parents ends, and decides the order of the segments of valid paths. The
parents of each of them lead down to the root. -/
theorem ValidPath.segment_order : WellFounded (fun parent q : Path => q.parent = some parent) ∧
    (∀ p q : ValidPath, p.path.isParentOf q.path = true ↔
      p.path.isRoot ∨ p = q ∨ p.path.str ++ ['/'] <+: q.path.str) ∧
    IsPartialOrder ValidPath (fun p q => p.path.isParentOf q.path = true) ∧
    ∀ p : ValidPath, (ancestors p.path).head? = some p.path ∧ (ancestors p.path).getLast? = some Path.root ∧
      (ancestors p.path).IsChain (fun q parent => q.parent = some parent ∧ parent.str.length < q.str.length) := by
  have horder : IsPartialOrder ValidPath (fun p q => p.path.isParentOf q.path = true) := by
    simp only [← ValidPath.le_iff_isParentOf]
    infer_instance
  refine ⟨parent_wellFounded,ValidPath.isParentOf_iff,horder,fun p => ?_⟩
  obtain ⟨rest,hrest⟩ := ancestors_eq_cons p.path
  obtain ⟨tail,hslash⟩ := p.starts
  refine ⟨?_,getLast_ancestors p.path ?_,ancestors_isChain p.path⟩
  · rw [hrest]
    rfl
  · rw [hslash]
    rfl

end Ancestors

namespace Postgres
variable {C : Group} {server : Server} {s t : Postgres C} {node q : Path} {announced : AnnouncedEvent C}

/-- Of rows that are inserted where none is, by induction over the paths. -/
theorem lookup_insertAbsent (paths : List Path) (tree : AList (fun _ : Str => TreeRow)) (q : Path) :
    ((paths.map (fun a => (a.str,a.parent.map Path.str))).foldl (fun tree (child,parent) =>
      if child ∈ tree then tree else tree.insert child ⟨parent⟩) tree).lookup q.str =
      (tree.lookup q.str).or (if q ∈ paths then some ⟨q.parent.map Path.str⟩ else none) := by
  induction paths generalizing tree with
  | nil => simp
  | cons a paths ih =>
    rw [List.map_cons,List.foldl_cons,ih]
    dsimp only
    by_cases hmem : a.str ∈ tree
    · rw [if_pos hmem]
      by_cases hq : q = a
      · subst hq
        obtain ⟨row,hrow⟩ := Option.isSome_iff_exists.mp (AList.lookup_isSome.mpr hmem)
        simp [hrow]
      · simp [hq]
    · rw [if_neg hmem,lookup_insert]
      by_cases hq : q = a
      · subst hq
        simp [AList.lookup_eq_none.mpr hmem]
      · have hstr : q.str ≠ a.str := fun h => hq (Path.ext h)
        simp [hq,hstr]

/-- The rows that a successful insertion of a node and its parents leaves. -/
theorem setNodeParents_spec (h : setNodeParents server node s = .ok t) :
    t.event = s.event ∧ ∀ q : Path, t.tree.lookup q.str =
      (s.tree.lookup q.str).or (if q.isParentOf node then some ⟨q.parent.map Path.str⟩ else none) := by
  refine ⟨setNodeParents_event h,fun q => ?_⟩
  simp only [setNodeParents,ancestors_values] at h
  split at h
  next =>
    obtain rfl := Except.ok.inj h
    rw [lookup_insertAbsent]
    simp only [mem_ancestors]
  next => cases h

theorem insertRow_spec {path : Str} (h : insertRow server announced path s = .ok t) :
    t.tree = s.tree ∧ ∀ text, text ∈ t.event ↔ text = announced.event.id.asStr ∨ text ∈ s.event := by
  simp only [insertRow] at h
  split at h
  next =>
    obtain rfl := Except.ok.inj h
    exact ⟨rfl,fun text => AList.mem_insert _⟩
  next => cases h

theorem updateAttestation_spec {id : EventId} {attestation : Attestation C}
    (h : updateAttestation server id attestation s = .ok t) : t.tree = s.tree ∧ ∀ text, text ∈ t.event ↔ text ∈ s.event := by
  simp only [updateAttestation] at h
  split at h
  next =>
    split at h
    next =>
      obtain rfl := Except.ok.inj h
      exact ⟨rfl,fun _ => Iff.rfl⟩
    next row hrow =>
      obtain rfl := Except.ok.inj h
      refine ⟨rfl,fun text => ?_⟩
      have hmem : id.asStr ∈ s.event := AList.lookup_isSome.mp (by rw [hrow]; rfl)
      rw [AList.mem_insert]
      exact ⟨fun h => h.elim (fun h => h ▸ hmem) (fun h => h),Or.inr⟩
  next => cases h

/-- What a committed insertion of an event leaves in the tree and the keys of the events. -/
theorem insertTransaction_spec (h : insertTransaction server announced s = .ok (.ok t)) :
    ∃ node, announced.event.id.path = .ok node ∧ (∀ q : Path, t.tree.lookup q.str =
      (s.tree.lookup q.str).or (if q.isParentOf node then some ⟨q.parent.map Path.str⟩ else none)) ∧
      ∀ text, text ∈ t.event ↔ text = announced.event.id.asStr ∨ text ∈ s.event := by
  obtain ⟨node,path,u,v,hnode,_,hparents,hrow,hatt⟩ := insertTransaction_eq_ok h
  obtain ⟨hevent,htree⟩ := setNodeParents_spec hparents
  obtain ⟨htree',hevent'⟩ := insertRow_spec hrow
  rw [hevent] at hevent'
  rw [← htree'] at htree
  refine ⟨node,hnode,?_⟩
  rcases hatt with ⟨_,rfl⟩ | ⟨attestation,_,hup⟩
  · exact ⟨htree,hevent'⟩
  · obtain ⟨htree'',hevent''⟩ := updateAttestation_spec hup
    exact ⟨htree'' ▸ htree,fun text => (hevent'' text).trans (hevent' text)⟩

/-- A write leaves the tree and the keys of the events, unless it has inserted an event. -/
theorem apply_cases {op : DbOp C} {r : DbResult Unit} (h : (db server).apply op s = (r,t)) :
    (t.tree = s.tree ∧ ∀ text, text ∈ t.event ↔ text ∈ s.event) ∨
      ∃ id node, EventId.path id = .ok node ∧ (∀ q : Path, t.tree.lookup q.str =
        (s.tree.lookup q.str).or (if q.isParentOf node then some ⟨q.parent.map Path.str⟩ else none)) ∧
        ∀ text, text ∈ t.event ↔ text = id.asStr ∨ text ∈ s.event := by
  cases op with
  | insertEvent announced =>
    rcases commit_eq h with ⟨u,hu,_,rfl⟩ | ⟨rfl,_⟩
    · obtain ⟨node,hnode,htree,hevent⟩ := insertTransaction_spec hu
      exact Or.inr ⟨announced.event.id,node,hnode,htree,hevent⟩
    · exact Or.inl ⟨rfl,fun _ => Iff.rfl⟩
  | completeEvent eventId attestation =>
    rcases commit_eq h with ⟨u,hu,_,rfl⟩ | ⟨rfl,_⟩
    · exact Or.inl (updateAttestation_spec (Except.ok.inj hu))
    · exact Or.inl ⟨rfl,fun _ => Iff.rfl⟩
  | setPublicKeys publicKeys =>
    have hset : setPublicKeys publicKeys s = (r,t) := h
    unfold setPublicKeys at hset
    split at hset
    next =>
      obtain ⟨_,rfl⟩ := Prod.mk.inj hset
      exact Or.inl ⟨rfl,fun _ => Iff.rfl⟩
    next =>
      obtain ⟨_,rfl⟩ := Prod.mk.inj hset
      exact Or.inl ⟨rfl,fun _ => Iff.rfl⟩

end Postgres

namespace PgBackend
variable {C : Group} (server : Server)

def empty : PgBackend C := ⟨Postgres.empty,∅⟩

/-- The update of a row's kind, which reaches the row of the node if there is one. -/
def updateKind (node : Node) (s : PgBackend C) : Except DbError (PgBackend C) :=
  if server.text node.path.str then
    .ok (if node.path.str ∈ s.tree then { s with kinds := s.kinds.insert node.path.str node.kind } else s)
  else .error .statementFailed

/-- The transaction of `set_node`. -/
def setNodeTransaction (node : Node) (s : PgBackend C) : Except DbError (PgBackend C) :=
  match Postgres.setNodeParents server node.path s.toPostgres with
  | .error e => .error e
  | .ok t => updateKind server node { s with toPostgres := t }

def setNode (node : Node) (s : PgBackend C) : DbResult Unit × PgBackend C :=
  match setNodeTransaction server node s with
  | .ok t => (.ok (.ok ()),t)
  | .error e => (.ok (.error e),s)

def apply : NodeOp C → PgBackend C → DbResult Unit × PgBackend C
  | .write op,s =>
    (((Postgres.db server).apply op s.toPostgres).1,
      { s with toPostgres := ((Postgres.db server).apply op s.toPostgres).2 })
  | .setNode node,s => setNode server node s

/-- A call of a backend whose server may refuse any of its statements. The nodes that were set
are logged. -/
inductive Step : PgBackend C → List Node → PgBackend C → Prop
  | write {s : PgBackend C} (server : Server) (op : DbOp C) : Step s [] (apply server (.write op) s).2
  | setNode {s t : PgBackend C} {server : Server} {node : Node}
      (h : apply server (.setNode node) s = (.ok (.ok ()),t)) : Step s [node] t
  | refused {s t : PgBackend C} {r : DbResult Unit} {server : Server} {node : Node}
      (h : apply server (.setNode node) s = (r,t)) (hr : r ≠ .ok (.ok ())) : Step s [] t

abbrev Runs : PgBackend C → List Node → Prop := Runs.Logged Step empty

variable {server} {s t : PgBackend C} {log : List Node} {node : Node}

/-- A path that an event is stored at or that a node was set at. -/
def Recorded (s : PgBackend C) (log : List Node) (r : Path) : Prop :=
  (∃ id : EventId, id.asStr ∈ s.event ∧ id.path = .ok r) ∨ ∃ node ∈ log, node.path = r

/-- The kind that was set last at a path, in a log with the newest first. -/
def lastKind (log : List Node) (q : Path) : Option NodeKind :=
  (log.find? (fun node => node.path = q)).map Node.kind

/-- The rows of the tree, each with its parent and with its kind. -/
structure Closed (s : PgBackend C) (log : List Node) : Prop where
  rows : ∀ q : Path, q.str ∈ s.tree ↔ ∃ r, Recorded s log r ∧ q.isParentOf r = true
  parents : ∀ (q : Path) (row : TreeRow), s.tree.lookup q.str = some row → row.parent = q.parent.map Path.str
  kinds : ∀ q : Path, s.kinds.lookup q.str = lastKind log q

theorem closed_empty : Closed (empty : PgBackend C) [] where
  rows q := by
    refine iff_of_false (AList.notMem_empty q.str) ?_
    rintro ⟨r,⟨id,hid,_⟩ | ⟨node,hnode,_⟩,_⟩
    · exact AList.notMem_empty id.asStr hid
    · cases hnode
  parents _ _ h := nomatch h
  kinds _ := rfl

/-- Rows for a path and its parents close the tree over one more recorded path. -/
theorem Closed.extend {log' : List Node} {path : Path} (hs : Closed s log)
    (htree : ∀ q : Path, t.tree.lookup q.str =
      (s.tree.lookup q.str).or (if q.isParentOf path then some ⟨q.parent.map Path.str⟩ else none))
    (hrecorded : ∀ r, Recorded t log' r ↔ r = path ∨ Recorded s log r)
    (hkinds : ∀ q : Path, t.kinds.lookup q.str = lastKind log' q) : Closed t log' where
  rows q := by
    rw [← AList.lookup_isSome,htree,Option.isSome_or,Bool.or_eq_true,AList.lookup_isSome,hs.rows]
    simp only [hrecorded,or_and_right,exists_or,exists_eq_left]
    rw [or_comm]
    refine or_congr ?_ Iff.rfl
    split
    next h => simp [h]
    next h => simp [h]
  parents q row hrow := by
    rw [htree,Option.or_eq_some_iff] at hrow
    rcases hrow with hrow | ⟨_,hrow⟩
    · exact hs.parents q row hrow
    · split at hrow
      next => exact Option.some.inj hrow ▸ rfl
      next => cases hrow
  kinds := hkinds

theorem Closed.congr (hs : Closed s log) (htree : t.tree = s.tree)
    (hevent : ∀ text, text ∈ t.event ↔ text ∈ s.event) (hkinds : t.kinds = s.kinds) : Closed t log where
  rows q := by
    rw [htree,hs.rows]
    simp only [Recorded,hevent]
  parents := htree ▸ hs.parents
  kinds := hkinds ▸ hs.kinds

theorem write_closed (hs : Closed s log) (server : Server) (op : DbOp C) :
    Closed (apply server (.write op) s).2 log := by
  rcases Postgres.apply_cases (rfl : (Postgres.db server).apply op s.toPostgres = (_,_)) with
    ⟨htree,hevent⟩ | ⟨id,path,hpath,htree,hevent⟩
  · exact hs.congr htree hevent rfl
  · refine hs.extend htree (fun r => ?_) hs.kinds
    have hkeys : ∀ id' : EventId, id'.asStr ∈ (apply server (.write op) s).2.event ↔ id' = id ∨ id'.asStr ∈ s.event := by
      intro id'
      rw [show id' = id ↔ id'.asStr = id.asStr from ⟨congrArg _,fun h => EventId.ext (Path.ext h)⟩]
      exact hevent id'.asStr
    simp only [Recorded,hkeys,or_and_right,exists_or,exists_eq_left,hpath,Except.ok.injEq,eq_comm (a := path),or_assoc]

/-- A node that was set has its row, and the row its kind. -/
theorem setNodeTransaction_eq_ok (h : setNodeTransaction server node s = .ok t) : ∃ u,
    Postgres.setNodeParents server node.path s.toPostgres = .ok u ∧
      t = ⟨u,s.kinds.insert node.path.str node.kind⟩ := by
  unfold setNodeTransaction at h
  split at h
  next => cases h
  next u hu =>
    refine ⟨u,hu,?_⟩
    have hmem : node.path.str ∈ u.tree := by
      rw [← AList.lookup_isSome,(Postgres.setNodeParents_spec hu).2,if_pos (Path.isParentOf_self _),Option.isSome_or]
      exact Bool.or_true _
    simp only [updateKind,if_pos hmem] at h
    split at h
    next => exact (Except.ok.inj h).symm
    next => cases h

theorem setNode_cases {r : DbResult Unit} (h : apply server (.setNode node) s = (r,t)) :
    (r = .ok (.ok ()) ∧ setNodeTransaction server node s = .ok t) ∨ r ≠ .ok (.ok ()) ∧ t = s := by
  have hset : setNode server node s = (r,t) := h
  unfold setNode at hset
  split at hset
  next u hu =>
    obtain ⟨rfl,rfl⟩ := Prod.mk.inj hset
    exact Or.inl ⟨rfl,hu⟩
  next =>
    obtain ⟨rfl,rfl⟩ := Prod.mk.inj hset
    exact Or.inr ⟨by simp,rfl⟩

theorem setNode_closed (hs : Closed s log) (h : setNodeTransaction server node s = .ok t) : Closed t (node :: log) := by
  obtain ⟨u,hu,rfl⟩ := setNodeTransaction_eq_ok h
  obtain ⟨hevent,htree⟩ := Postgres.setNodeParents_spec hu
  refine hs.extend htree (fun r => ?_) (fun q => ?_)
  · simp only [Recorded,hevent,List.exists_mem_cons_iff,eq_comm (a := r)]
    exact or_left_comm
  · rw [lookup_insert,hs.kinds,lastKind,lastKind,List.find?_cons]
    by_cases hq : node.path = q
    · simp [hq]
    · have hstr : q.str ≠ node.path.str := fun h => hq (Path.ext h.symm)
      simp [hq,hstr]

/-- Every call keeps the tree closed. -/
theorem step_closed {entries : List Node} (hs : Closed s log) (h : Step s entries t) : Closed t (entries ++ log) := by
  cases h with
  | write server op => exact write_closed hs server op
  | setNode h =>
    rcases setNode_cases h with ⟨_,hset⟩ | ⟨hne,_⟩
    · exact setNode_closed hs hset
    · exact absurd rfl hne
  | refused h hr =>
    rcases setNode_cases h with ⟨hok,_⟩ | ⟨_,rfl⟩
    · exact absurd hok hr
    · exact hs

/-- The tree is closed, the parents of its rows are rows, and only the root has none, where
every recorded path begins with a slash. -/
structure AncestorClosure (s : PgBackend C) (log : List Node) : Prop extends Closed s log where
  parent_mem : ∀ (q : Path) (row : TreeRow) (parent : Str), s.tree.lookup q.str = some row →
    row.parent = some parent → parent ∈ s.tree
  null_root : (∀ r, Recorded s log r → r.str.head? = some '/') → ∀ (q : Path) (row : TreeRow),
    s.tree.lookup q.str = some row → row.parent = none → q = Path.root

/-- In every state that calls have reached, whichever of them succeeded, the tree is the closure
of the recorded paths under their parents. -/
theorem tree_closure (h : Runs s log) : AncestorClosure s log := by
  have hs : Closed s log := h.invariant closed_empty (fun hs hst => step_closed hs hst)
  have hbelow : ∀ (q : Path) (row : TreeRow), s.tree.lookup q.str = some row →
      ∃ r, Recorded s log r ∧ q.isParentOf r = true :=
    fun q row hrow => (hs.rows q).mp (AList.lookup_isSome.mp (by rw [hrow]; rfl))
  refine { hs with parent_mem := ?_, null_root := ?_ }
  · intro q row parent hrow hsome
    obtain ⟨r,hr,hqr⟩ := hbelow q row hrow
    obtain ⟨p,hp,rfl⟩ := Option.map_eq_some_iff.mp ((hs.parents q row hrow).symm.trans hsome)
    exact (hs.rows p).mpr ⟨r,hr,Path.isParentOf_trans (Path.isParentOf_parent hp) hqr⟩
  · intro hslash q row hrow hnone
    obtain ⟨r,hr,hqr⟩ := hbelow q row hrow
    have hhead : q.str.head? = some '/' := ((Path.isParentOf_iff_below q r).mp hqr).head (hslash r hr)
    rcases Path.parent_eq_none (Option.map_eq_none_iff.mp ((hs.parents q row hrow).symm.trans hnone)) with hroot | hnot
    · exact hroot
    · exact absurd (List.mem_of_head? hhead) hnot

section Sampled
open Sample

/-- A server that takes every value. -/
def lenient : Server := ⟨fun _ => true,fun _ => true⟩

/-- An event at "/foo/bar" and then a kind for "/foo", on an empty database. -/
def sampleTree : PgBackend (group 10007) :=
  (apply lenient (.setNode ⟨⟨"/foo".toList⟩,.dateMap⟩) ((announcedEvent "/foo/bar.occur".toList).toList.foldl
    (fun s event => (apply lenient (.write (.insertEvent event)) s).2) empty)).2

theorem sampleTree_runs : Runs sampleTree [⟨⟨"/foo".toList⟩,.dateMap⟩] := by
  have hevent : Runs ((announcedEvent "/foo/bar.occur".toList).toList.foldl
      (fun s event => (apply lenient (.write (.insertEvent event)) s).2) empty) [] :=
    List.foldlRecOn (motive := fun s => Runs s []) _ _ .start
      (fun _ hs event _ => hs.step (.write lenient (.insertEvent event)))
  exact hevent.step (Step.setNode (Prod.ext (by decide +kernel) rfl))

theorem tree_closure_at_foo : AncestorClosure sampleTree [⟨⟨"/foo".toList⟩,.dateMap⟩] :=
  tree_closure sampleTree_runs

end Sampled

end PgBackend
end Olivia
