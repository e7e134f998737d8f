import Mathlib.Data.Char
import Mathlib.Data.Finset.Insert
import Mathlib.Data.List.Lex
import Olivia.Core.Segments
import Olivia.Db.ReadEvent
import Olivia.Text.Sorted

/-! # Nodes of the event tree

A path is a node when an event is stored at it or below it. What the in-memory store shows of
a node is computed from the ids of all stored events; only the kinds that were set for nodes
are stored beside them. Where no kind was set it is inferred from the path.
-/
namespace Olivia

inductive RangeKind
  | time (interval : UInt32)
  deriving DecidableEq

inductive NodeKind
  | list
  | range (rangeKind : RangeKind)
  | dateMap
  deriving DecidableEq

structure Node where
  path : Path
  kind : NodeKind

structure Child where
  name : Str
  kind : NodeKind
  deriving DecidableEq

/-- A date, as a day since the epoch. -/
structure NaiveDate where
  day : ℤ
  deriving DecidableEq

inductive ChildDesc
  | list (list : List Child)
  | range (rangeKind : RangeKind) (start nextUnattested stop : Option Str)
  | dateMap (dates : AList (fun _ : NaiveDate => Finset Str))

structure GetPath where
  events : List EventKind
  childDesc : ChildDesc

def inferNodeKind (path : Path) : NodeKind :=
  match path.segments with
  | [root,_competition,last] => if root = "s".toList ∧ last = "match".toList then .dateMap else .list
  | _ => .list

/-- The store with the kinds that were set. -/
structure NodeDb (C : Group) extends InMemory C where
  nodeKinds : AList (fun _ : Path => NodeKind)

/-- The writes of the store. -/
inductive NodeOp (C : Group)
  | write (op : DbOp C)
  | setNode (node : Node)

/-- What the libraries decide: the order the map is walked in, and which texts are dates. -/
structure Walk (C : Group) extends InMemory.Iteration C where
  keys : InMemory C → List EventId
  keysPerm : ∀ s, (keys s).Perm s.inner.keys
  parseDate : Str → Option NaiveDate

/-- A walk in the order of the underlying list that knows no dates. -/
def Walk.entries {C : Group} : Walk C :=
  { InMemory.Iteration.entries with
    keys := fun s => s.inner.keys
    keysPerm := fun _ => .refl _
    parseDate := fun _ => none }

namespace NodeDb
variable {C : Group}

def default : NodeDb C := ⟨InMemory.default,∅⟩

def setNode (node : Node) (s : NodeDb C) : DbResult Unit × NodeDb C :=
  (.ok (.ok ()),{ s with nodeKinds := s.nodeKinds.insert node.path node.kind })

def apply : NodeOp C → NodeDb C → DbResult Unit × NodeDb C
  | .write op,s => ((InMemory.db.apply op s.toInMemory).1,{ s with toInMemory := (InMemory.db.apply op s.toInMemory).2 })
  | .setNode node,s => setNode node s

/-- What the writes leave of an empty store. -/
def run (ops : List (NodeOp C)) : NodeDb C := ops.foldl (fun s op => (apply op s).2) default

def kindOf (nodeKinds : AList (fun _ : Path => NodeKind)) (path : Path) : NodeKind :=
  (nodeKinds.lookup path).getD (inferNodeKind path)

/-- The child of a node that an event is stored under. -/
def childOf (nodeKinds : AList (fun _ : Path => NodeKind)) (path : Path) (eventId : EventId) :
    MayPanic (Option Child) := do
  let eventPath ← eventId.path
  if path.isParentOf eventPath then
    let childPath := eventPath.stripPrefixPath path
    return childPath.first.map (fun last =>
      let fullPath := (Path.root.child last).prefixPath path
      ⟨last,kindOf nodeKinds fullPath⟩)
  else return none

def childrenList (nodeKinds : AList (fun _ : Path => NodeKind)) (path : Path) (keys : List EventId) :
    MayPanic (List Child) := do
  let children ← MayPanic.filterMap (childOf nodeKinds path) keys
  return Text.sortedDedup Child.name children

/-- An id goes on with a dot behind the text of a path. -/
def isAt (path : Path) (key : EventId) : Bool :=
  match key.asStr.dropPrefix? path.str with
  | some remaining => remaining.head? == some '.'
  | none => false

def eventsAt (path : Path) (keys : List EventId) : MayPanic (List EventKind) :=
  MayPanic.filterMap (fun key => do
    if isAt path key then
      let kind ← key.eventKind
      return some kind
    else return none) keys

/-- The dates map after one more event. -/
def addDate (parseDate : Str → Option NaiveDate) (path : Path)
    (dates : AList (fun _ : NaiveDate => Finset Str)) (eventId : EventId) :
    MayPanic (AList (fun _ : NaiveDate => Finset Str)) := do
  let eventPath ← eventId.path
  if path.str.isPrefixOf eventPath.str then
    let stripped ← (eventId.stripPrefixPath path).path
    match stripped.segments with
    | date :: next :: _ =>
      match parseDate date with
      | some date => return dates.insert date (insert next ((dates.lookup date).getD ∅))
      | none => return dates
    | _ => return dates
  else return dates

/-- The children as a node of a kind shows them. -/
def childDesc (parseDate : Str → Option NaiveDate) (path : Path) (keys : List EventId) (children : List Child)
    (nextUnattested : Option Str) : NodeKind → MayPanic ChildDesc
  | .list => return .list children
  | .range rangeKind =>
    if children.isEmpty then return .list []
    else return .range rangeKind (children.head?.map Child.name) nextUnattested (children.getLast?.map Child.name)
  | .dateMap => do
    let dates ← keys.foldlM (addDate parseDate path) ∅
    return .dateMap dates

variable (walk : Walk C)

def nextUnattested (path : Path) (s : InMemory C) : MayPanic (Except DbError (Option Str)) := do
  match ← InMemory.queryEvent walk.toIteration { path := some path, attested := some false } s with
  | .error e => return .error e
  | .ok none => return .ok none
  | .ok (some event) =>
    let eventPath ← event.id.path
    return .ok (eventPath.stripPrefixPath path).first

def getNode (path : Path) (s : NodeDb C) : MayPanic (Except DbError (Option GetPath)) := do
  match ← nextUnattested walk path s.toInMemory with
  | .error e => return .error e
  | .ok next =>
    let keys := walk.keys s.toInMemory
    let children ← childrenList s.nodeKinds path keys
    let events ← eventsAt path keys
    let childDesc ← childDesc walk.parseDate path keys children next (kindOf s.nodeKinds path)
    if events.isEmpty && children.isEmpty then return .ok none
    else return .ok (some ⟨events,childDesc⟩)

variable {walk} {path : Path} {s : NodeDb C} {g : GetPath} {ops : List (NodeOp C)}

/-- A node is put together from its parts, and not there without events and children. -/
theorem getNode_eq {next : Option Str} {children : List Child} {events : List EventKind} {desc : ChildDesc}
    (hnext : nextUnattested walk path s.toInMemory = .ok (.ok next))
    (hchildren : childrenList s.nodeKinds path (walk.keys s.toInMemory) = .ok children)
    (hevents : eventsAt path (walk.keys s.toInMemory) = .ok events)
    (hdesc : childDesc walk.parseDate path (walk.keys s.toInMemory) children next (kindOf s.nodeKinds path) =
      .ok desc) :
    getNode walk path s =
      .ok (.ok (if events.isEmpty && children.isEmpty then none else some ⟨events,desc⟩)) := by
  simp only [getNode,hnext,hchildren,hevents,hdesc,MayPanic.ok_bind,MayPanic.pure_eq]
  split <;> rfl

/-- What a node that is shown is made of. -/
theorem getNode_eq_ok (h : getNode walk path s = .ok (.ok (some g))) : ∃ next children,
    nextUnattested walk path s.toInMemory = .ok (.ok next) ∧
      childrenList s.nodeKinds path (walk.keys s.toInMemory) = .ok children ∧
      eventsAt path (walk.keys s.toInMemory) = .ok g.events ∧
      childDesc walk.parseDate path (walk.keys s.toInMemory) children next (kindOf s.nodeKinds path) =
        .ok g.childDesc := by
  obtain ⟨next,hnext,h⟩ := MayPanic.bind_eq_ok.mp h
  cases next with
  | error e => simp at h
  | ok next =>
    obtain ⟨children,hchildren,h⟩ := MayPanic.bind_eq_ok.mp h
    obtain ⟨events,hevents,h⟩ := MayPanic.bind_eq_ok.mp h
    obtain ⟨childDesc,hdesc,h⟩ := MayPanic.bind_eq_ok.mp h
    split at h
    next => simp at h
    next =>
      obtain rfl : (⟨events,childDesc⟩ : GetPath) = g := by simpa using h
      exact ⟨next,children,hnext,hchildren,hevents,hdesc⟩

/-- A node that is shown has its events and, as a list, its children. -/
theorem getNode_eq_some (h : getNode walk path s = .ok (.ok (some g))) :
    eventsAt path (walk.keys s.toInMemory) = .ok g.events ∧
      ∃ children, childrenList s.nodeKinds path (walk.keys s.toInMemory) = .ok children ∧
        (kindOf s.nodeKinds path = .list → g.childDesc = .list children) := by
  obtain ⟨next,children,_,hchildren,hevents,hdesc⟩ := getNode_eq_ok h
  refine ⟨hevents,children,hchildren,?_⟩
  intro hkind
  rw [hkind] at hdesc
  exact (Except.ok.inj hdesc).symm

theorem mem_keys (walk : Walk C) {s : InMemory C} {id : EventId} : id ∈ walk.keys s ↔ id ∈ s.inner :=
  (walk.keysPerm s).mem_iff

/-- The kind that was set last for a path. -/
def lastSet : List (NodeOp C) → Path → Option NodeKind
  | [],_ => none
  | .write _ :: ops,path => lastSet ops path
  | .setNode node :: ops,path => (lastSet ops path).or (if node.path = path then some node.kind else none)

/-- The kind that was set last for a path, or inferred where none was set. -/
def kindAfter (ops : List (NodeOp C)) (path : Path) : NodeKind := (lastSet ops path).getD (inferNodeKind path)

/-- A write leaves the kinds alone, and a set kind replaces one. -/
theorem lookup_nodeKinds_foldl (ops : List (NodeOp C)) (s : NodeDb C) (path : Path) :
    (ops.foldl (fun s op => (apply op s).2) s).nodeKinds.lookup path =
      (lastSet ops path).or (s.nodeKinds.lookup path) := by
  induction ops generalizing s with
  | nil => rfl
  | cons op ops ih =>
    rw [List.foldl_cons,ih]
    cases op with
    | write op => rfl
    | setNode node =>
      simp only [apply,setNode,lastSet,lookup_insert,eq_comm (a := path)]
      split
      next => cases lastSet ops path <;> rfl
      next => cases lastSet ops path <;> rfl

theorem kindOf_run (ops : List (NodeOp C)) (path : Path) : kindOf (run ops).nodeKinds path = kindAfter ops path := by
  rw [kindOf,run,lookup_nodeKinds_foldl,kindAfter]
  cases lastSet ops path <;> rfl

/-- Every event is stored under its own id. -/
theorem keyed_run (ops : List (NodeOp C)) : (run ops).toInMemory.Keyed := by
  refine List.foldlRecOn (motive := fun s : NodeDb C => s.toInMemory.Keyed) _ _ InMemory.keyed_default ?_
  intro s hs op _
  cases op with
  | write op => exact InMemory.keyed_apply hs op
  | setNode node => exact hs

/-- Only ids that were inserted are stored. -/
theorem accepted_run (hops : ∀ announced, .write (.insertEvent announced) ∈ ops → announced.event.id.Accepted) :
    ∀ id ∈ (run ops).inner, id.Accepted := by
  have hevery : (run ops).toInMemory.Every (fun id _ => id.Accepted) := by
    refine List.foldlRecOn (motive := fun s : NodeDb C => s.toInMemory.Every (fun id _ => id.Accepted)) _ _
      (fun _ _ h => nomatch h) ?_
    intro s hs op hop
    cases op with
    | setNode node => exact hs
    | write op =>
      cases op with
      | insertEvent announced => exact InMemory.insertEvent_every hs (hops announced hop)
      | completeEvent eventId attestation => exact InMemory.completeEvent_every hs (fun _ hid => hid)
      | setPublicKeys publicKeys => exact hs
  intro id hid
  obtain ⟨announced,hl⟩ := Option.isSome_iff_exists.mp (AList.lookup_isSome.mpr hid)
  exact hevery id announced hl

section Sampled
open Sample

/-- Insertions of announced events. -/
def inserting (ids : List String) : List (NodeOp (group 10007)) :=
  (ids.filterMap (fun id => announcedEvent id.toList)).map (fun event => .write (.insertEvent event))

theorem accepted_inserting {ids : List String} (h : ∀ id ∈ ids, (⟨⟨id.toList⟩⟩ : EventId).Accepted) :
    ∀ announced, .write (.insertEvent announced) ∈ inserting ids → announced.event.id.Accepted := by
  intro announced hmem
  obtain ⟨event,hevent,hop⟩ := List.mem_map.mp hmem
  obtain rfl : event = announced := DbOp.insertEvent.inj (NodeOp.write.inj hop)
  obtain ⟨id,hid,hsome⟩ := List.mem_filterMap.mp hevent
  obtain ⟨announcement,_,rfl⟩ := Option.map_eq_some_iff.mp hsome
  exact h id hid

theorem shown_of_isSome {r : MayPanic (Except DbError (Option GetPath))}
    (h : ((r.toOption.bind Except.toOption).bind id).isSome) : ∃ g, r = .ok (.ok (some g)) := by
  rcases r with _ | _ | _ | g
  · simp [Except.toOption] at h
  · simp [Except.toOption] at h
  · simp [Except.toOption] at h
  · exact ⟨g,rfl⟩

end Sampled

end NodeDb
end Olivia
