import Olivia.Db.Nodes
import Olivia.Oracle.Lifecycle
import Olivia.Runs.Local

/-! # The service

The loop takes what its sources send in whatever order it arrives, puts it under the path that
the source is mounted at and hands it to the oracle or to the store. A panic ends the loop.
Every message is about one event or one node, and what it does there depends on nothing else.
-/
namespace Olivia

def Node.prefixPath (node : Node) (path : Path) : Node := { node with path := node.path.prefixPath path }

/-- What a source sends. -/
inductive Update
  | event (event : Event)
  | outcome (stamped : StampedOutcome)
  | node (node : Node)

/-- An update and the path that its source is mounted under. -/
structure Sent where
  parent : Path
  update : Update

def OracleReply.isErr : OracleReply → Bool
  | .addEvent (.ok _) => false
  | .addEvent (.error _) => true
  | .completeEvent (.ok _) => false
  | .completeEvent (.error _) => true

structure Service (C : Group) where
  keychain : KeyChain C
  lib : Libraries C

namespace Service
variable {C : Group} (service : Service C)

def oracle : Oracle C (InMemory C) := .inMemory service.keychain service.lib

/-- What the loop does with a message, and whether its source is told of an error. -/
def handle (sent : Sent) (s : NodeDb C) : MayPanic (Bool × NodeDb C) :=
  match sent.update with
  | .event event => do
    let (res,db) := service.oracle.addEvent (event.prefixPath sent.parent) s.toInMemory
    return ((← res).isErr,{ s with toInMemory := db })
  | .outcome stamped => do
    let stamped := stamped.prefixPath sent.parent
    -- the text is made for the logger first
    let _ ← stamped.outcome.outcomeString
    let (res,db) := service.oracle.completeEvent stamped s.toInMemory
    return ((← res).isErr,{ s with toInMemory := db })
  | .node node => do
    let (res,s) := NodeDb.setNode (node.prefixPath sent.parent) s
    return ((← res).toOption.isNone,s)

/-- The store after everything that was sent, unless a panic has ended the loop. -/
def serve (msgs : List Sent) (s : NodeDb C) : MayPanic (NodeDb C) :=
  msgs.foldlM (fun s sent => do
    let (_,s) ← service.handle sent s
    return s) s

end Service

namespace Oracle
variable {C : Group} {keychain : KeyChain C} {lib : Libraries C}

/-- Adding an event to what is stored under its id. -/
def addTo (keychain : KeyChain C) (lib : Libraries C) (event : Event) :
    Option (AnnouncedEvent C) → MayPanic (Option (AnnouncedEvent C))
  | some announced => .ok (some announced)
  | none => do return some ⟨event,← keychain.createAnnouncement lib event,none⟩

/-- Completing what is stored under the id of an outcome. -/
def completeIn (keychain : KeyChain C) (lib : Libraries C) (stamped : StampedOutcome)
    (entry : Option (AnnouncedEvent C)) : MayPanic (Option (AnnouncedEvent C)) := do
  let text ← stamped.outcome.outcomeString
  match entry with
  | none => return none
  | some announced =>
    if announced.attestation.isSome then return some announced
    else
      match ← announced.announcement.verifyAgainstId lib.serdeJson stamped.outcome.id
        keychain.oraclePublicKeys.announcement with
      | none => return some announced
      | some oracleEvent =>
        let attestation ← (inMemory keychain lib).attest stamped text oracleEvent
        return some { announced with attestation := some attestation }

/-- A call that changes one entry in a certain way, and panics where that does. -/
def ChangesEntry (id : EventId) (change : Option (AnnouncedEvent C) → MayPanic (Option (AnnouncedEvent C)))
    (s : InMemory C) (r : MayPanic OracleReply × InMemory C) : Prop :=
  match change (s.inner.lookup id) with
  | .error panic => r = (.error panic,s)
  | .ok entry => (∃ reply, r.1 = .ok reply) ∧ r.2.publicKeys = s.publicKeys ∧
      ∀ id', r.2.inner.lookup id' = if id' = id then entry else s.inner.lookup id'

variable {s : InMemory C}

theorem changesEntry_of_same {id : EventId} {change : Option (AnnouncedEvent C) → MayPanic (Option (AnnouncedEvent C))}
    {reply : OracleReply} (h : change (s.inner.lookup id) = .ok (s.inner.lookup id)) :
    ChangesEntry id change s (.ok reply,s) := by
  rw [ChangesEntry,h]
  refine ⟨⟨reply,rfl⟩,rfl,?_⟩
  intro id'
  split
  next hid => rw [hid]
  next => rfl

theorem addEvent_changes (event : Event) (s : InMemory C) :
    ChangesEntry event.id (addTo keychain lib event) s ((inMemory keychain lib).addEvent event s) := by
  cases hl : s.inner.lookup event.id with
  | some announced =>
    have hread : (inMemory keychain lib).addEvent event s = (.ok (.addEvent (.error
        (if announced.attestation.isSome then .alreadyCompleted else .alreadyExists))),s) := by
      simp [addEvent,Runs.CheckThenAct.run,protocol,read,addEventRead,inMemory,InMemory.db,
        InMemory.getAnnouncedEvent,hl,decided]
    rw [hread]
    exact changesEntry_of_same (by rw [hl,addTo])
  | none =>
    cases hann : keychain.createAnnouncement lib event with
    | error panic =>
      simp [ChangesEntry,addTo,addEvent,Runs.CheckThenAct.run,protocol,read,addEventRead,inMemory,InMemory.db,
        InMemory.getAnnouncedEvent,hl,hann,decided]
    | ok announcement =>
      have hinsert : InMemory.insertEvent ⟨event,announcement,none⟩ s =
        (.ok (.ok ()),{ s with inner := s.inner.insert event.id ⟨event,announcement,none⟩ }) :=
          InMemory.insertEvent_of_none hl
      have hadd : (inMemory keychain lib).addEvent event s = (.ok (.addEvent (.ok ())),
          { s with inner := s.inner.insert event.id ⟨event,announcement,none⟩ }) := by
        simp [addEvent,Runs.CheckThenAct.run,protocol,read,addEventRead,inMemory,InMemory.db,
          InMemory.getAnnouncedEvent,hl,hann,decided,write,hinsert,Except.map,Except.mapError]
      rw [hadd,ChangesEntry]
      simp only [hl,addTo,hann,MayPanic.ok_bind,MayPanic.pure_eq]
      exact ⟨⟨_,rfl⟩,trivial,fun id' => lookup_insert _ _ _ _⟩

section Complete
variable {σ : Type} {oracle : Oracle C σ} {stamped : StampedOutcome} {db : σ}

theorem completeEvent_of_panic {panic : Panic} (h : oracle.completeEventRead stamped db = .error panic) :
    oracle.completeEvent stamped db = (.error panic,db) := by
  simp [completeEvent,Runs.CheckThenAct.run,protocol,read,h,decided]

theorem completeEvent_of_refused {e : OutcomeResult} (h : oracle.completeEventRead stamped db = .ok (.error e)) :
    oracle.completeEvent stamped db = (.ok (.completeEvent (.error e)),db) := by
  simp [completeEvent,Runs.CheckThenAct.run,protocol,read,h,decided]

theorem completeEvent_of_decided {id : EventId} {attestation : Attestation C}
    (h : oracle.completeEventRead stamped db = .ok (.ok (id,attestation))) :
    oracle.completeEvent stamped db = oracle.write (.completeEvent id attestation) db := by
  simp [completeEvent,Runs.CheckThenAct.run,protocol,read,h,decided]

end Complete

/-- An attestation that is written to an event found without one. -/
theorem write_completeEvent_of_none {id : EventId} {announced : AnnouncedEvent C} (attestation : Attestation C)
    (hl : s.inner.lookup id = some announced) (ha : announced.attestation = none) :
    (inMemory keychain lib).write (.completeEvent id attestation) s = (.ok (.completeEvent (.ok ())),
      { s with inner := s.inner.insert id { announced with attestation := some attestation } }) := by
  simp only [write,inMemory,InMemory.db,InMemory.completeEvent,hl,ha]
  rfl

theorem completeEvent_changes (hs : s.Keyed) (stamped : StampedOutcome) :
    ChangesEntry stamped.outcome.id (completeIn keychain lib stamped) s
      ((inMemory keychain lib).completeEvent stamped s) := by
  have hget : (inMemory keychain lib).db.getAnnouncedEvent stamped.outcome.id s =
      .ok (.ok (s.inner.lookup stamped.outcome.id)) := rfl
  have hown : (inMemory keychain lib).lib = lib ∧ (inMemory keychain lib).keychain = keychain := ⟨rfl,rfl⟩
  cases ht : stamped.outcome.outcomeString with
  | error panic =>
    have hread : (inMemory keychain lib).completeEventRead stamped s = .error panic := by
      simp [completeEventRead,hget,ht]
    rw [completeEvent_of_panic hread]
    simp [ChangesEntry,completeIn,ht]
  | ok text =>
    cases hl : s.inner.lookup stamped.outcome.id with
    | none =>
      have hread : (inMemory keychain lib).completeEventRead stamped s = .ok (.error .eventNotExist) := by
        simp [completeEventRead,hget,ht,hl]
      rw [completeEvent_of_refused hread]
      exact changesEntry_of_same (by simp [completeIn,ht,hl])
    | some announced =>
      cases ha : announced.attestation with
      | some attestation =>
        have hread : (inMemory keychain lib).completeEventRead stamped s = .ok (.error
            (if attestation.outcome = text then .alreadyCompleted else .outcomeChanged attestation.outcome text)) := by
          simp [completeEventRead,hget,ht,hl,ha]
        rw [completeEvent_of_refused hread]
        exact changesEntry_of_same (by simp [completeIn,ht,hl,ha])
      | none =>
        cases hv : announced.announcement.verifyAgainstId lib.serdeJson stamped.outcome.id
            keychain.oraclePublicKeys.announcement with
        | error panic =>
          have hread : (inMemory keychain lib).completeEventRead stamped s = .error panic := by
            simp [completeEventRead,hget,ht,hl,ha,hown,hv]
          rw [completeEvent_of_panic hread]
          simp [ChangesEntry,completeIn,ht,hl,ha,hv]
        | ok verified =>
          cases verified with
          | none =>
            have hread : (inMemory keychain lib).completeEventRead stamped s =
                .ok (.error .announcementWasBogus) := by
              simp [completeEventRead,hget,ht,hl,ha,hown,hv]
            rw [completeEvent_of_refused hread]
            exact changesEntry_of_same (by simp [completeIn,ht,hl,ha,hv])
          | some oracleEvent =>
            cases hatt : (inMemory keychain lib).attest stamped text oracleEvent with
            | error panic =>
              have hread : (inMemory keychain lib).completeEventRead stamped s = .error panic := by
                simp [completeEventRead,hget,ht,hl,ha,hown,hv,hatt]
              rw [completeEvent_of_panic hread]
              simp [ChangesEntry,completeIn,ht,hl,ha,hv,hatt]
            | ok attestation =>
              have hread : (inMemory keychain lib).completeEventRead stamped s =
                  .ok (.ok (announced.event.id,attestation)) := by
                simp [completeEventRead,hget,ht,hl,ha,hown,hv,hatt]
              rw [completeEvent_of_decided hread,hs _ _ hl,write_completeEvent_of_none attestation hl ha]
              simp [ChangesEntry,completeIn,ht,hl,ha,hv,hatt,lookup_insert]

theorem addEvent_keyed (hs : s.Keyed) (event : Event) : ((inMemory keychain lib).addEvent event s).2.Keyed :=
  addEvent_every hs (fun _ _ => rfl) event

theorem completeEvent_keyed (hs : s.Keyed) (stamped : StampedOutcome) :
    ((inMemory keychain lib).completeEvent stamped s).2.Keyed := by
  rcases completeEvent_inMemory hs stamped with h | ⟨announced,attestation,hl,_,_,h⟩
  · rwa [h]
  · rw [h]
    intro id found hf
    rw [lookup_insert] at hf
    split at hf
    next hid => exact Option.some.inj hf ▸ hid ▸ hs _ announced hl
    next => exact hs id found hf

end Oracle

namespace Service
variable {C : Group} (service : Service C)

/-- What is seen of an event or of a node. -/
inductive Seen (C : Group)
  | event (entry : Option (AnnouncedEvent C))
  | node (kind : Option NodeKind)

/-- The event or the node that a message is about. -/
def subject (sent : Sent) : EventId ⊕ Path :=
  match sent.update with
  | .event event => .inl (event.prefixPath sent.parent).id
  | .outcome stamped => .inl (stamped.prefixPath sent.parent).outcome.id
  | .node node => .inr (node.prefixPath sent.parent).path

def seen (s : NodeDb C) : EventId ⊕ Path → Seen C
  | .inl id => .event (s.inner.lookup id)
  | .inr path => .node (s.nodeKinds.lookup path)

/-- What a message makes of what is seen. -/
def effect (sent : Sent) : Seen C → MayPanic (Seen C)
  | .event entry =>
    match sent.update with
    | .event event => (Oracle.addTo service.keychain service.lib (event.prefixPath sent.parent) entry).map .event
    | .outcome stamped =>
      (Oracle.completeIn service.keychain service.lib (stamped.prefixPath sent.parent) entry).map .event
    | .node _ => .ok (.event entry)
  | .node kind =>
    match sent.update with
    | .node node => .ok (.node (some node.kind))
    | _ => .ok (.node kind)

variable {service} {sent : Sent} {s t : NodeDb C} {msgs msgs' : List Sent}

/-- Handling a message has panicked like its effect, or it has had this effect and no other. -/
def HandledAs (service : Service C) (sent : Sent) (s : NodeDb C) : Prop :=
  (∃ panic, service.effect sent (seen s (subject sent)) = .error panic ∧ service.handle sent s = .error panic) ∨
  ∃ failed t, service.handle sent s = .ok (failed,t) ∧
    service.effect sent (seen s (subject sent)) = .ok (seen t (subject sent)) ∧
    t.publicKeys = s.publicKeys ∧ t.toInMemory.Keyed ∧ ∀ k, k ≠ subject sent → seen t k = seen s k

/-- A call of the oracle that changes one entry is an effect on this entry. -/
theorem handledAs_of_changes {id : EventId} {change : Option (AnnouncedEvent C) → MayPanic (Option (AnnouncedEvent C))}
    {r : MayPanic OracleReply × InMemory C} (hr : Oracle.ChangesEntry id change s.toInMemory r) (hkeyed : r.2.Keyed)
    (hsubject : subject sent = .inl id)
    (heffect : ∀ entry, service.effect sent (.event entry) = (change entry).map .event)
    (hhandle : service.handle sent s = (do return ((← r.1).isErr,{ s with toInMemory := r.2 }))) :
    service.HandledAs sent s := by
  unfold Oracle.ChangesEntry at hr
  split at hr
  next panic hpanic =>
    refine Or.inl ⟨panic,?_,?_⟩
    · rw [hsubject,seen,heffect,hpanic]
      rfl
    · rw [hhandle,hr]
      rfl
  next entry hentry =>
    obtain ⟨⟨reply,hreply⟩,hkeys,hlookup⟩ := hr
    refine Or.inr ⟨reply.isErr,{ s with toInMemory := r.2 },?_,?_,hkeys,hkeyed,?_⟩
    · rw [hhandle,hreply]
      rfl
    · rw [hsubject,seen,heffect,hentry,seen,hlookup,if_pos rfl]
      rfl
    · rw [hsubject]
      rintro (id' | path) hne
      · have hid : id' ≠ id := fun h => hne (congrArg Sum.inl h)
        rw [seen,hlookup,if_neg hid,seen]
      · rfl

theorem handledAs (sent : Sent) (hs : s.toInMemory.Keyed) : service.HandledAs sent s := by
  obtain ⟨parent,update⟩ := sent
  cases update with
  | event event =>
    exact handledAs_of_changes (Oracle.addEvent_changes (event.prefixPath parent) s.toInMemory)
      (Oracle.addEvent_keyed hs _) rfl (fun _ => rfl) rfl
  | outcome stamped =>
    cases ht : (stamped.prefixPath parent).outcome.outcomeString with
    | error panic =>
      refine Or.inl ⟨panic,?_,?_⟩
      · simp [effect,seen,subject,Oracle.completeIn,ht,Except.map]
      · simp [handle,ht]
    | ok text =>
      refine handledAs_of_changes (Oracle.completeEvent_changes hs (stamped.prefixPath parent))
        (Oracle.completeEvent_keyed hs _) rfl (fun _ => rfl) ?_
      simp only [handle,ht,MayPanic.ok_bind]
      rfl
  | node node =>
    refine Or.inr ⟨_,_,rfl,?_,rfl,hs,?_⟩
    · simp [effect,seen,subject,Node.prefixPath]
    · rintro (id | path) hne
      · rfl
      · have hpath : path ≠ (node.prefixPath parent).path := fun h => hne (congrArg Sum.inr h)
        simp [seen,hpath]

/-- The service as a machine whose messages are about one event or one node each. -/
def machine (service : Service C) : Runs.Local (NodeDb C) Sent (EventId ⊕ Path) (Seen C) Panic where
  step sent s := (service.handle sent s).map Prod.snd
  key := subject
  view := seen
  effect := service.effect
  Inv s := s.toInMemory.Keyed
  keeps {sent s t} hs h := by
    obtain ⟨⟨failed,u⟩,hu,rfl⟩ := MayPanic.map_eq_ok h
    rcases service.handledAs sent hs with ⟨_,_,he⟩ | ⟨_,v,hv,_,_,hkeyed,_⟩
    · cases hu.symm.trans he
    · cases hu.symm.trans hv
      exact hkeyed
  own {sent s} hs := by
    rcases service.handledAs sent hs with ⟨_,heffect,he⟩ | ⟨_,v,hv,heffect,_⟩
    · rw [he,heffect]
      rfl
    · rw [hv,heffect]
      rfl
  others {sent s t k} hs h hk := by
    obtain ⟨⟨failed,u⟩,hu,rfl⟩ := MayPanic.map_eq_ok h
    rcases service.handledAs sent hs with ⟨_,_,he⟩ | ⟨_,v,hv,_,_,_,hothers⟩
    · cases hu.symm.trans he
    · cases hu.symm.trans hv
      exact hothers k hk

theorem serve_eq_run : service.serve msgs s = service.machine.run msgs s := by
  unfold serve Runs.Local.run
  congr 1


/-- The messages about one event or one node. -/
def about (k : EventId ⊕ Path) (msgs : List Sent) : List Sent := msgs.filter (fun sent => subject sent = k)

theorem seen_event {id : EventId} : seen s (.inl id) = seen t (.inl id) ↔ s.inner.lookup id = t.inner.lookup id := by
  simp [seen]

theorem seen_node {path : Path} :
    seen s (.inr path) = seen t (.inr path) ↔ s.nodeKinds.lookup path = t.nodeKinds.lookup path := by
  simp [seen]

/-- Whether the loop gets through its messages and what it leaves of every event and node is
decided by the order of the messages about that event or node. -/
theorem order_independent (hs : s.toInMemory.Keyed) (h : service.serve msgs s = .ok t)
    (habout : ∀ k, about k msgs = about k msgs') : ∃ t', service.serve msgs' s = .ok t' ∧
      (∀ id, t'.inner.lookup id = t.inner.lookup id) ∧
      ∀ path, NodeDb.kindOf t'.nodeKinds path = NodeDb.kindOf t.nodeKinds path := by
  rw [serve_eq_run] at h
  obtain ⟨t',ht',hviews⟩ := Runs.Local.run_of_about_eq (P := service.machine) hs hs (fun _ => rfl) habout h
  refine ⟨t',by rw [serve_eq_run,ht'],?_,?_⟩
  · intro id
    exact (seen_event.mp (hviews (.inl id))).symm
  · intro path
    rw [NodeDb.kindOf,← seen_node.mp (hviews (.inr path)),NodeDb.kindOf]

/-- A message from a valid mount, about a path that begins with a slash. A source that sends ids as its
database cut them may send others, which a mount does not keep below it. -/
def Placed (sent : Sent) : Prop := Path.fromStr sent.parent.str = .ok sent.parent ∧
  match sent.update with
  | .event event => ∃ path, event.id.path = .ok path ∧ path.str.head? = some '/'
  | .outcome stamped => ∃ path, stamped.outcome.id.path = .ok path ∧ path.str.head? = some '/'
  | .node node => node.path.str.head? = some '/'

/-- The path of an event, or of a node. -/
def Lies (path : Path) : EventId ⊕ Path → Prop
  | .inl id => id.path = .ok path
  | .inr node => node = path

/-- What a message is about lies below the mount of its source. -/
theorem below_parent_of_placed {sent : Sent} (h : Placed sent) {path : Path} (hpath : Lies path (subject sent)) :
    sent.parent.isParentOf path = true := by
  obtain ⟨parent,update⟩ := sent
  obtain ⟨hvalid,hupdate⟩ := h
  obtain ⟨rest,hrest⟩ := Path.exists_of_fromStr hvalid
  have hevent : ∀ {id : EventId} {p : Path}, id.path = .ok p → p.str.head? = some '/' →
      (id.prefixPath parent).path = .ok path → parent.isParentOf path = true := by
    intro id p hp hhead hmounted
    obtain rfl := Except.ok.inj ((EventId.path_prefixPath hp parent).symm.trans hmounted)
    exact Path.isParentOf_under hhead hrest
  cases update with
  | event event =>
    obtain ⟨p,hp,hhead⟩ := hupdate
    exact hevent hp hhead hpath
  | outcome stamped =>
    obtain ⟨p,hp,hhead⟩ := hupdate
    exact hevent hp hhead hpath
  | node node =>
    obtain rfl : (node.prefixPath parent).path = path := hpath
    by_cases hroot : node.path.isRoot
    · rw [Node.prefixPath,Path.prefixPath,if_pos hroot]
      exact Path.isParentOf_self parent
    · rw [Node.prefixPath,Path.prefixPath_eq_under hroot]
      exact Path.isParentOf_under hupdate hrest

/-- Whether the source is mounted above or below a path. -/
def isNear (p : Path) (sent : Sent) : Bool := p.isParentOf sent.parent || sent.parent.isParentOf p

def near (p : Path) (msgs : List Sent) : List Sent := msgs.filter (isNear p)

theorem about_near {p path : Path} {k : EventId ⊕ Path} (hplaced : ∀ sent ∈ msgs, Placed sent)
    (hpath : Lies path k) (hbelow : p.isParentOf path = true) : about k (near p msgs) = about k msgs := by
  rw [about,about,near,List.filter_filter]
  refine List.filter_congr ?_
  intro sent hmem
  by_cases hk : subject sent = k
  · have hparent := below_parent_of_placed (hplaced sent hmem) (hk ▸ hpath)
    have hnear := Path.isParentOf_or_of_isParentOf hbelow hparent
    simpa [hk,isNear] using hnear
  · simp [hk]

/-- As long as messages are about paths that begin with a slash, sources mounted apart from a path have no
say in what is stored below it. -/
theorem isolated {p : Path} {t' : NodeDb C} (hs : s.toInMemory.Keyed) (h : service.serve msgs s = .ok t)
    (h' : service.serve msgs' s = .ok t') (hplaced : ∀ sent ∈ msgs, Placed sent)
    (hplaced' : ∀ sent ∈ msgs', Placed sent) (hnear : near p msgs = near p msgs') :
    (∀ id path, id.path = .ok path → p.isParentOf path = true → t'.inner.lookup id = t.inner.lookup id) ∧
    ∀ path, p.isParentOf path = true → NodeDb.kindOf t'.nodeKinds path = NodeDb.kindOf t.nodeKinds path := by
  rw [serve_eq_run] at h h'
  have hview : ∀ {k path}, Lies path k → p.isParentOf path = true → seen t k = seen t' k := by
    intro k path hpath hbelow
    refine Runs.Local.view_eq_of_about (P := service.machine) hs hs h h' rfl ?_
    have habout := about_near hplaced hpath hbelow
    rw [hnear,about_near hplaced' hpath hbelow] at habout
    exact habout.symm
  constructor
  · intro id path hpath hbelow
    exact (seen_event.mp (hview (k := .inl id) hpath hbelow)).symm
  · intro path hbelow
    rw [NodeDb.kindOf,← seen_node.mp (hview (k := .inr path) rfl hbelow),NodeDb.kindOf]

section Sampled

def sampleService : Service (Sample.group 10007) := ⟨Sample.keychain,Sample.libraries 10007⟩

/-- An event of a source under a path. -/
def sampleEvent (parent id : String) : Sent := ⟨⟨parent.toList⟩,.event ⟨⟨⟨id.toList⟩⟩,none⟩⟩
def sampleOutcome (parent id : String) (value : UInt64) : Sent :=
  ⟨⟨parent.toList⟩,.outcome ⟨⟨⟨⟨id.toList⟩⟩,value⟩,⟨0,0⟩⟩⟩

theorem order_independent_occur : ∃ t t' : NodeDb (Sample.group 10007),
    sampleService.serve [sampleEvent "/foo" "/a.occur",sampleOutcome "/foo" "/a.occur" 0,
      sampleEvent "/bar" "/b.occur"] .default = .ok t ∧
    sampleService.serve [sampleEvent "/bar" "/b.occur",sampleEvent "/foo" "/a.occur",
      sampleOutcome "/foo" "/a.occur" 0] .default = .ok t' ∧
    ∀ id, t'.inner.lookup id = t.inner.lookup id := by
  obtain ⟨t,ht⟩ : ∃ t, sampleService.serve [sampleEvent "/foo" "/a.occur",sampleOutcome "/foo" "/a.occur" 0,
      sampleEvent "/bar" "/b.occur"] .default = .ok t := MayPanic.isOk_of_toOption (by decide +kernel)
  have hevent : subject (sampleEvent "/foo" "/a.occur") ≠ subject (sampleEvent "/bar" "/b.occur") := by decide
  have houtcome : subject (sampleOutcome "/foo" "/a.occur" 0) ≠ subject (sampleEvent "/bar" "/b.occur") := by decide
  have habout : ∀ k, about k [sampleEvent "/foo" "/a.occur",sampleOutcome "/foo" "/a.occur" 0,
      sampleEvent "/bar" "/b.occur"] = about k [sampleEvent "/bar" "/b.occur",sampleEvent "/foo" "/a.occur",
      sampleOutcome "/foo" "/a.occur" 0] := by
    intro k
    by_cases hk : subject (sampleEvent "/bar" "/b.occur") = k
    · subst hk
      simp [about,hevent,houtcome]
    · simp [about,List.filter_cons,hk]
  obtain ⟨t',ht',hevents,_⟩ := order_independent InMemory.keyed_default ht habout
  exact ⟨t,t',ht,ht',hevents⟩

/-- What a source under "/bar" sends does not show below "/foo". -/
theorem isolated_occur : ∃ t t' : NodeDb (Sample.group 10007),
    sampleService.serve [sampleEvent "/foo" "/a.occur",sampleEvent "/bar" "/a.occur"] .default = .ok t ∧
    sampleService.serve [sampleEvent "/foo" "/a.occur"] .default = .ok t' ∧
    t'.inner.lookup ⟨⟨"/foo/a.occur".toList⟩⟩ = t.inner.lookup ⟨⟨"/foo/a.occur".toList⟩⟩ := by
  obtain ⟨t,ht⟩ : ∃ t, sampleService.serve [sampleEvent "/foo" "/a.occur",sampleEvent "/bar" "/a.occur"] .default =
      .ok t := MayPanic.isOk_of_toOption (by decide +kernel)
  obtain ⟨t',ht'⟩ : ∃ t, sampleService.serve [sampleEvent "/foo" "/a.occur"] .default = .ok t :=
    MayPanic.isOk_of_toOption (by decide +kernel)
  have hpath : EventId.path ⟨⟨"/a.occur".toList⟩⟩ = .ok ⟨"/a".toList⟩ := by decide
  have hfoo : Placed (sampleEvent "/foo" "/a.occur") := ⟨by decide,_,hpath,rfl⟩
  have hbar : Placed (sampleEvent "/bar" "/a.occur") := ⟨by decide,_,hpath,rfl⟩
  have hkept : isNear ⟨"/foo".toList⟩ (sampleEvent "/foo" "/a.occur") = true := by decide +kernel
  have hleft : isNear ⟨"/foo".toList⟩ (sampleEvent "/bar" "/a.occur") = false := by decide +kernel
  have hnear : near ⟨"/foo".toList⟩ [sampleEvent "/foo" "/a.occur",sampleEvent "/bar" "/a.occur"] =
      near ⟨"/foo".toList⟩ [sampleEvent "/foo" "/a.occur"] := by
    rw [near,near,List.filter_cons_of_pos hkept,List.filter_cons_of_pos hkept,
      List.filter_cons_of_neg (by rw [hleft]; decide)]
  obtain ⟨hevents,_⟩ := isolated InMemory.keyed_default ht ht' (by simp [hfoo,hbar]) (by simp [hfoo]) hnear
  exact ⟨t,t',ht,ht',hevents _ ⟨"/foo/a".toList⟩ (by decide) (by decide +kernel)⟩

end Sampled

end Service
end Olivia
