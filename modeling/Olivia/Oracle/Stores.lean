import Olivia.Db.Agreement
import Olivia.Db.PgNodes
import Olivia.Oracle.Service

/-! # The loop on either store

The loop runs on any database. On the two stores it answers its sources alike and leaves the
same events and kinds exactly as long as the server takes what memory takes: the ids and the
paths of new events, the texts of outcomes that are attested, and the paths of nodes.
-/
namespace Olivia
variable {C : Group} {σ τ : Type}

/-- A database that is a part of a larger state. -/
def Db.within (db : Db C σ) (get : τ → σ) (put : σ → τ → τ) : Db C τ where
  getAnnouncedEvent id t := db.getAnnouncedEvent id (get t)
  getPublicKeys t := db.getPublicKeys (get t)
  insertEvent announced t := (db.insertEvent announced (get t)).map id (fun s => put s t)
  completeEvent eventId attestation t := (db.completeEvent eventId attestation (get t)).map id (fun s => put s t)
  setPublicKeys publicKeys t := (db.setPublicKeys publicKeys (get t)).map id (fun s => put s t)

/-- What the loop writes to. -/
structure LoopDb (C : Group) (σ : Type) where
  db : Db C σ
  setNode : Node → σ → DbResult Unit × σ

/-- The loop's reaction to a message, on any store. -/
def LoopDb.handle (store : LoopDb C σ) (service : Service C) (sent : Sent) (s : σ) : MayPanic (Bool × σ) :=
  let oracle : Oracle C σ := ⟨store.db,service.keychain,service.lib⟩
  match sent.update with
  | .event event => do
    let (res,s) := oracle.addEvent (event.prefixPath sent.parent) s
    return ((← res).isErr,s)
  | .outcome stamped => do
    let stamped := stamped.prefixPath sent.parent
    let _ ← stamped.outcome.outcomeString
    let (res,s) := oracle.completeEvent stamped s
    return ((← res).isErr,s)
  | .node node => do
    let (res,s) := store.setNode (node.prefixPath sent.parent) s
    return ((← res).toOption.isNone,s)

def NodeDb.loopDb : LoopDb C (NodeDb C) :=
  ⟨InMemory.db.within NodeDb.toInMemory (fun db s => { s with toInMemory := db }),NodeDb.setNode⟩

def PgBackend.loopDb (server : Server) : LoopDb C (PgBackend C) :=
  ⟨(Postgres.db server).within PgBackend.toPostgres (fun db s => { s with toPostgres := db }),PgBackend.setNode server⟩

/-- The event that a call is about. -/
def OracleCall.id : OracleCall → EventId
  | .addEvent newEvent => newEvent.id
  | .completeEvent stamped => stamped.outcome.id

def OracleWrite.op : OracleWrite C → DbOp C
  | .insertEvent announced => .insertEvent announced
  | .completeEvent eventId attestation => .completeEvent eventId attestation

namespace Oracle
variable {keychain : KeyChain C} {lib : Libraries C} {db : Db C σ} {db' : Db C τ} {s : σ} {t : τ} {call : OracleCall}

/-- A call as the loop sees it: whether there was an error, and the store. -/
def answered (r : MayPanic OracleReply × σ) : MayPanic (Bool × σ) := r.1.map (fun reply => (reply.isErr,r.2))

/-- An oracle on a part of a state leaves the rest. -/
theorem run_within {get : τ → σ} {put : σ → τ → τ} (hput : ∀ t, put (get t) t = t) (call : OracleCall) (t : τ) :
    answered ((⟨db.within get put,keychain,lib⟩ : Oracle C τ).protocol.run call t) =
      (answered ((⟨db,keychain,lib⟩ : Oracle C σ).protocol.run call (get t))).map (Prod.map id (fun s => put s t)) := by
  have hread : (⟨db.within get put,keychain,lib⟩ : Oracle C τ).read call t =
      (⟨db,keychain,lib⟩ : Oracle C σ).read call (get t) := by
    cases call <;> rfl
  have hwrite : ∀ w, (⟨db.within get put,keychain,lib⟩ : Oracle C τ).write w t =
      ((⟨db,keychain,lib⟩ : Oracle C σ).write w (get t)).map id (fun s => put s t) := by
    intro w
    cases w <;> rfl
  simp only [Runs.CheckThenAct.run,protocol,hread]
  cases (⟨db,keychain,lib⟩ : Oracle C σ).read call (get t) with
  | inl r => cases r <;> simp [answered,Except.map,hput]
  | inr w =>
    dsimp only
    rw [hwrite]
    rcases (⟨db,keychain,lib⟩ : Oracle C σ).write w (get t) with ⟨panic | reply,s⟩ <;> rfl

/-- What a call decides depends on what is announced under its id. -/
theorem read_congr (h : db'.getAnnouncedEvent call.id t = db.getAnnouncedEvent call.id s) :
    (⟨db',keychain,lib⟩ : Oracle C τ).read call t = (⟨db,keychain,lib⟩ : Oracle C σ).read call s := by
  cases call with
  | addEvent newEvent =>
    have hget : db'.getAnnouncedEvent newEvent.id t = db.getAnnouncedEvent newEvent.id s := h
    have hread : (⟨db',keychain,lib⟩ : Oracle C τ).addEventRead newEvent t =
        (⟨db,keychain,lib⟩ : Oracle C σ).addEventRead newEvent s := by
      rw [addEventRead,addEventRead,hget]
    rw [read,read,hread]
  | completeEvent stamped =>
    have hget : db'.getAnnouncedEvent stamped.outcome.id t = db.getAnnouncedEvent stamped.outcome.id s := h
    have hread : (⟨db',keychain,lib⟩ : Oracle C τ).completeEventRead stamped t =
        (⟨db,keychain,lib⟩ : Oracle C σ).completeEventRead stamped s := by
      unfold completeEventRead
      rw [hget]
      rfl
    rw [read,read,hread]

theorem answered_write (oracle : Oracle C σ) (w : OracleWrite C) (s : σ) :
    answered (oracle.write w s) = (oracle.db.apply w.op s).1.map (fun r => (!r.isOk,(oracle.db.apply w.op s).2)) := by
  cases w with
  | insertEvent announced =>
    simp only [write,OracleWrite.op,Db.apply]
    rcases oracle.db.insertEvent announced s with ⟨panic | (e | u),s'⟩ <;> rfl
  | completeEvent eventId attestation =>
    simp only [write,OracleWrite.op,Db.apply]
    rcases oracle.db.completeEvent eventId attestation s with ⟨panic | (e | u),s'⟩ <;> rfl

end Oracle

namespace Agreement
variable {server : Server} {keychain : KeyChain C} {lib : Libraries C} {s : InMemory C} {t : Postgres C}
variable {R : InMemory C → Postgres C → Prop} {w : OracleWrite C} {call : OracleCall}

/-- One oracle on both stores. -/
def Alike (server : Server) (keychain : KeyChain C) (lib : Libraries C) (R : InMemory C → Postgres C → Prop)
    (call : OracleCall) (s : InMemory C) (t : Postgres C) : Prop :=
  Runs.StepAlike R (Oracle.answered ((⟨InMemory.db,keychain,lib⟩ : Oracle C (InMemory C)).protocol.run call s))
    (Oracle.answered ((⟨Postgres.db server,keychain,lib⟩ : Oracle C (Postgres C)).protocol.run call t))

/-- A call that the server can take where memory takes it. -/
def Taken (server : Server) (keychain : KeyChain C) (lib : Libraries C) : OracleCall → InMemory C → Prop
  | .addEvent newEvent,s => s.inner.lookup newEvent.id = none → server.text newEvent.id.asStr = true ∧
      ∀ announcement, keychain.createAnnouncement lib newEvent = .ok announcement →
        Storable server ⟨newEvent,announcement,none⟩
  | .completeEvent stamped,s => ∀ id attestation,
      (Oracle.inMemory keychain lib).completeEventRead stamped s = .ok (.ok (id,attestation)) →
        server.text attestation.outcome = true

theorem alike_of_inl {r : MayPanic OracleReply} (hR : R s t)
    (hread : (Oracle.inMemory keychain lib).read call s = .inl r)
    (hread' : (⟨Postgres.db server,keychain,lib⟩ : Oracle C (Postgres C)).read call t = .inl r) :
    Alike server keychain lib R call s t := by
  have hread : (⟨InMemory.db,keychain,lib⟩ : Oracle C (InMemory C)).read call s = .inl r := hread
  simp only [Alike,Oracle.answered,Oracle.protocol,Runs.CheckThenAct.run,hread,hread']
  cases r with
  | error panic => exact Or.inl ⟨panic,rfl,rfl⟩
  | ok reply => exact Or.inr ⟨reply.isErr,s,t,rfl,rfl,hR⟩

/-- A write that both decide on is answered alike where the results are the same. -/
theorem alike_iff_of_inr (hread : (Oracle.inMemory keychain lib).read call s = .inr w)
    (hread' : (⟨Postgres.db server,keychain,lib⟩ : Oracle C (Postgres C)).read call t = .inr w) :
    Alike server keychain lib R call s t ↔
      SameResult (InMemory.db.apply w.op s).1 ((Postgres.db server).apply w.op t).1 ∧
        ((InMemory.db.apply w.op s).1.toOption.isSome →
          R (InMemory.db.apply w.op s).2 ((Postgres.db server).apply w.op t).2) := by
  have hread : (⟨InMemory.db,keychain,lib⟩ : Oracle C (InMemory C)).read call s = .inr w := hread
  simp only [Alike,Oracle.protocol,Runs.CheckThenAct.run,hread,hread',Oracle.answered_write,SameResult]
  rcases (InMemory.db.apply w.op s).1 with panic | r <;> rcases ((Postgres.db server).apply w.op t).1 with panic' | r' <;>
    simp [Runs.StepAlike,Except.map,Except.toOption,eq_comm]

/-- What an outcome is decided to be written to. -/
theorem found_of_decided (h : Related server s t) {stamped : StampedOutcome} {id : EventId} {attestation : Attestation C}
    (hread : (Oracle.inMemory keychain lib).completeEventRead stamped s = .ok (.ok (id,attestation))) :
    id = stamped.outcome.id ∧ server.text id.asStr = true ∧
      ∃ announced, s.inner.lookup id = some announced ∧ announced.attestation = none := by
  obtain ⟨text,_,⟨_,_,he⟩ | ⟨_,he⟩ | ⟨announced,hfinds,hrest⟩⟩ := Oracle.completeEventRead_eq_ok hread
  · cases he
  · cases he
  · have hl : s.inner.lookup stamped.outcome.id = some announced := Except.ok.inj (Except.ok.inj hfinds)
    obtain ⟨hid,_,htext⟩ := h.storable _ announced hl
    rcases hrest with ⟨_,_,he⟩ | ⟨hnone,_,_,⟨_,he⟩ | ⟨_,_,_,_,he⟩⟩
    · cases he
    · cases he
    · obtain ⟨rfl,rfl⟩ := Prod.mk.inj (Except.ok.inj he)
      exact ⟨hid,hid ▸ htext,announced,hid ▸ hl,hnone⟩

theorem matched_of_taken (h : Related server s t) (hc : Taken server keychain lib call s)
    (hread : (Oracle.inMemory keychain lib).read call s = .inr w) : Matched server w.op s := by
  cases call with
  | addEvent newEvent =>
    obtain ⟨hget,announcement,hann,rfl⟩ := Oracle.read_addEvent hread
    exact fun hnone => (hc hnone).2 announcement hann
  | completeEvent stamped =>
    obtain ⟨⟨id,attestation⟩,hdecided,rfl⟩ := Oracle.decided_eq_inr hread
    obtain ⟨_,htext,hfound⟩ := found_of_decided h hdecided
    exact iff_of_true ⟨htext,hc id attestation hdecided⟩ hfound

/-- What the oracle on Postgres reads under an id that the server takes. -/
theorem read_eq (keychain : KeyChain C) (lib : Libraries C) (call : OracleCall) (h : Related server s t)
    (htext : server.text call.id.asStr = true) :
    (⟨Postgres.db server,keychain,lib⟩ : Oracle C (Postgres C)).read call t =
      (Oracle.inMemory keychain lib).read call s :=
  Oracle.read_congr (h.event call.id htext)

/-- Under an id that the server refuses there is nothing in memory, and both refuse an outcome. -/
theorem alike_of_refused (h : Related server s t) {stamped : StampedOutcome}
    (htext : ¬ server.text stamped.outcome.id.asStr = true) :
    Alike server keychain lib (Related server) (.completeEvent stamped) s t := by
  have hnone : s.inner.lookup stamped.outcome.id = none := by
    by_contra hne
    obtain ⟨announced,hl⟩ := Option.ne_none_iff_exists'.mp hne
    exact htext (h.storable _ announced hl).2.2
  have hget : InMemory.db.getAnnouncedEvent stamped.outcome.id s = .ok (.ok none) := by
    rw [← hnone]
    rfl
  have hget' : (Postgres.db server).getAnnouncedEvent stamped.outcome.id t = .ok (.error .statementFailed) := by
    simp [Postgres.db,Postgres.getAnnouncedEvent,htext]
  simp only [Alike,Oracle.protocol,Runs.CheckThenAct.run,Oracle.read,Oracle.completeEventRead,hget,hget']
  cases stamped.outcome.outcomeString with
  | error panic => exact Or.inl ⟨panic,rfl,rfl⟩
  | ok text => exact Or.inr ⟨true,s,t,rfl,rfl,h⟩

/-- A call is answered alike where it is taken. -/
theorem alike_of_taken (h : Related server s t) (hc : Taken server keychain lib call s) :
    Alike server keychain lib (Related server) call s t := by
  by_cases htext : server.text call.id.asStr = true
  · have hread' := read_eq keychain lib call h htext
    cases hread : (Oracle.inMemory keychain lib).read call s with
    | inl r => exact alike_of_inl h hread (hread'.trans hread)
    | inr w =>
      have hm := matched_of_taken h hc hread
      have hafter := lockstep.keeps h hm
      exact (alike_iff_of_inr hread (hread'.trans hread)).mpr ⟨hafter.1,fun _ => hafter.2⟩
  · cases call with
    | addEvent newEvent =>
      refine absurd (hc ?_).1 htext
      by_contra hne
      obtain ⟨announced,hl⟩ := Option.ne_none_iff_exists'.mp hne
      exact htext (h.storable _ announced hl).2.2
    | completeEvent stamped => exact alike_of_refused h htext

/-- A new event under an id that the server refuses is an error on the server only. -/
theorem text_of_alike {newEvent : Event} (hnone : s.inner.lookup newEvent.id = none)
    (ha : Alike server keychain lib R (.addEvent newEvent) s t) : server.text newEvent.id.asStr = true := by
  by_contra htext
  have hget : InMemory.db.getAnnouncedEvent newEvent.id s = .ok (.ok none) := by
    rw [← hnone]
    rfl
  have hget' : (Postgres.db server).getAnnouncedEvent newEvent.id t = .ok (.error .statementFailed) := by
    simp [Postgres.db,Postgres.getAnnouncedEvent,htext]
  simp only [Alike,Oracle.protocol,Runs.CheckThenAct.run,Oracle.read,Oracle.addEventRead,hget,hget'] at ha
  cases hann : keychain.createAnnouncement lib newEvent with
  | error panic => simp [hann,Oracle.decided,Oracle.answered,Runs.StepAlike,Except.map] at ha
  | ok announcement =>
    have hinsert : InMemory.insertEvent ⟨newEvent,announcement,none⟩ s = _ := InMemory.insertEvent_of_none hnone
    simp [hann,Oracle.decided,Oracle.answered,Oracle.write,InMemory.db,hinsert,Runs.StepAlike,Except.map,
      Except.mapError,OracleReply.isErr] at ha

/-- A call is taken where it is answered alike. -/
theorem taken_of_alike (h : Related server s t) (ha : Alike server keychain lib (ReadsAgree server) call s t) :
    Taken server keychain lib call s := by
  cases call with
  | addEvent newEvent =>
    intro hnone
    have htext := text_of_alike hnone ha
    refine ⟨htext,fun announcement hann => ?_⟩
    have hread : (Oracle.inMemory keychain lib).read (.addEvent newEvent) s =
        .inr (.insertEvent ⟨newEvent,announcement,none⟩) := by
      simp [Oracle.read,Oracle.addEventRead,Oracle.inMemory,InMemory.db,InMemory.getAnnouncedEvent,hnone,hann,
        Oracle.decided]
    have hread' := (read_eq keychain lib (.addEvent newEvent) h htext).trans hread
    obtain ⟨hsame,halike⟩ := (alike_iff_of_inr hread hread').mp ha
    have hinsert : InMemory.insertEvent ⟨newEvent,announcement,none⟩ s = _ := InMemory.insertEvent_of_none hnone
    exact matched_insertEvent hsame (halike (by simp [OracleWrite.op,Db.apply,InMemory.db,hinsert,Except.toOption])) hnone
  | completeEvent stamped =>
    intro id attestation hdecided
    obtain ⟨rfl,htext,hfound⟩ := found_of_decided h hdecided
    have hread : (Oracle.inMemory keychain lib).read (.completeEvent stamped) s =
        .inr (.completeEvent stamped.outcome.id attestation) := by
      rw [Oracle.read,hdecided]
      rfl
    have hread' := (read_eq keychain lib (.completeEvent stamped) h htext).trans hread
    obtain ⟨hsame,_⟩ := (alike_iff_of_inr hread hread').mp ha
    exact ((matched_completeEvent hsame).mpr hfound).2

end Agreement
namespace Service
variable {service : Service C} {server : Server} {s : NodeDb C} {t : PgBackend C} {sent : Sent} {parent : Path}

/-- A message that the server can take where memory takes it. -/
def Takes (service : Service C) (server : Server) (sent : Sent) (s : NodeDb C) : Prop :=
  match sent.update with
  | .event event =>
    Agreement.Taken server service.keychain service.lib (.addEvent (event.prefixPath sent.parent)) s.toInMemory
  | .outcome stamped =>
    Agreement.Taken server service.keychain service.lib (.completeEvent (stamped.prefixPath sent.parent)) s.toInMemory
  | .node node => ∀ q ∈ ancestors (node.prefixPath sent.parent).path, server.text q.str = true

/-- The stores answer reads of events and of the keys alike, and a node is of one kind in both. -/
def StoresAlike (server : Server) (s : NodeDb C) (t : PgBackend C) : Prop :=
  Agreement.ReadsAgree server s.toInMemory t.toPostgres ∧ ∀ path, t.kindOf path = NodeDb.kindOf s.nodeKinds path

def StoresRelated (server : Server) (s : NodeDb C) (t : PgBackend C) : Prop :=
  Agreement.Related server s.toInMemory t.toPostgres ∧
    ∀ path : Path, t.kinds.lookup path.str = s.nodeKinds.lookup path

theorem StoresRelated.start : Runs.Both (StoresRelated server) (.ok (.default : NodeDb C) : MayPanic (NodeDb C))
    (.ok (.empty : PgBackend C)) :=
  ⟨Agreement.Related.start,fun _ => rfl⟩

theorem StoresRelated.alike (h : StoresRelated server s t) : StoresAlike server s t :=
  ⟨h.1.readsAgree,fun path => by rw [PgBackend.kindOf,NodeDb.kindOf,h.2]⟩

section Calls
variable {store : LoopDb C σ} {state : σ}

theorem handle_event (event : Event) : store.handle service ⟨parent,.event event⟩ state =
    Oracle.answered ((⟨store.db,service.keychain,service.lib⟩ : Oracle C σ).protocol.run
      (.addEvent (event.prefixPath parent)) state) := by
  simp only [LoopDb.handle,Oracle.addEvent]
  rcases (⟨store.db,service.keychain,service.lib⟩ : Oracle C σ).protocol.run (.addEvent (event.prefixPath parent))
    state with ⟨panic | reply,s⟩ <;> rfl

theorem handle_outcome {stamped : StampedOutcome} {text : Str}
    (h : (stamped.prefixPath parent).outcome.outcomeString = .ok text) :
    store.handle service ⟨parent,.outcome stamped⟩ state =
      Oracle.answered ((⟨store.db,service.keychain,service.lib⟩ : Oracle C σ).protocol.run
        (.completeEvent (stamped.prefixPath parent)) state) := by
  simp only [LoopDb.handle,Oracle.completeEvent,h,MayPanic.ok_bind]
  rcases (⟨store.db,service.keychain,service.lib⟩ : Oracle C σ).protocol.run
    (.completeEvent (stamped.prefixPath parent)) state with ⟨panic | reply,s⟩ <;> rfl

/-- A call of the loop is a call of the oracle on the part of the state that it works on. -/
theorem answered_alike_iff {R : InMemory C → Postgres C → Prop} {R' : NodeDb C → PgBackend C → Prop} {call : OracleCall}
    (hR : ∀ a b, R' { s with toInMemory := a } { t with toPostgres := b } ↔ R a b) :
    Runs.StepAlike R'
        (Oracle.answered ((⟨NodeDb.loopDb.db,service.keychain,service.lib⟩ : Oracle C (NodeDb C)).protocol.run call s))
        (Oracle.answered ((⟨(PgBackend.loopDb server).db,service.keychain,service.lib⟩ :
          Oracle C (PgBackend C)).protocol.run call t)) ↔
      Agreement.Alike server service.keychain service.lib R call s.toInMemory t.toPostgres := by
  rw [NodeDb.loopDb,PgBackend.loopDb,Oracle.run_within (fun _ => rfl),Oracle.run_within (fun _ => rfl),
    Runs.StepAlike.map_iff hR,Agreement.Alike]

end Calls

/-- The loop on memory is the loop of the service. -/
theorem handle_inMemory (sent : Sent) (s : NodeDb C) : NodeDb.loopDb.handle service sent s = service.handle sent s := by
  obtain ⟨parent,update⟩ := sent
  cases update with
  | event event =>
    rw [handle_event,NodeDb.loopDb,Oracle.run_within (fun _ => rfl)]
    simp only [handle,oracle,Oracle.inMemory,Oracle.addEvent]
    rcases (⟨InMemory.db,service.keychain,service.lib⟩ : Oracle C (InMemory C)).protocol.run
      (.addEvent (event.prefixPath parent)) s.toInMemory with ⟨panic | reply,s'⟩ <;> rfl
  | outcome stamped =>
    cases htext : (stamped.prefixPath parent).outcome.outcomeString with
    | error panic => simp only [LoopDb.handle,handle,htext]; rfl
    | ok text =>
      rw [handle_outcome htext,NodeDb.loopDb,Oracle.run_within (fun _ => rfl)]
      simp only [handle,oracle,Oracle.inMemory,Oracle.completeEvent,htext,MayPanic.ok_bind]
      rcases (⟨InMemory.db,service.keychain,service.lib⟩ : Oracle C (InMemory C)).protocol.run
        (.completeEvent (stamped.prefixPath parent)) s.toInMemory with ⟨panic | reply,s'⟩ <;> rfl
  | node node => rfl

section Nodes
variable {node : Node}

/-- A node is set where the server takes its path and every parent of it. -/
theorem setNodeTransaction_isOk_iff (s : PgBackend C) : (∃ t, PgBackend.setNodeTransaction server node s = .ok t) ↔
    ∀ q ∈ ancestors node.path, server.text q.str = true := by
  constructor
  · rintro ⟨t,h⟩
    obtain ⟨u,hu,_⟩ := PgBackend.setNodeTransaction_eq_ok h
    exact Postgres.setNodeParents_isOk_iff.mp ⟨u,hu⟩
  · intro h
    obtain ⟨u,hu⟩ := Postgres.setNodeParents_isOk_iff (s := s.toPostgres).mpr h
    have htext : server.text node.path.str = true := h node.path ((mem_ancestors node.path node.path).mpr
      (Path.isParentOf_self _))
    simp only [PgBackend.setNodeTransaction,hu,PgBackend.updateKind,htext,if_true]
    exact ⟨_,rfl⟩

theorem setNode_related {t' : PgBackend C} (h : StoresRelated server s t)
    (ht : PgBackend.setNodeTransaction server node t = .ok t') : StoresRelated server (NodeDb.setNode node s).2 t' := by
  obtain ⟨u,hu,rfl⟩ := PgBackend.setNodeTransaction_eq_ok ht
  have hevent : u.event = t.event := Postgres.setNodeParents_event hu
  have hget : ∀ id, (Postgres.db server).getAnnouncedEvent id u = (Postgres.db server).getAnnouncedEvent id t.toPostgres := by
    intro id
    simp only [Postgres.db,Postgres.getAnnouncedEvent,hevent]
  have hkeys := (Postgres.setNodeParents_sameBut hu ⟨node.path⟩).1
  refine ⟨⟨h.1.keys.trans hkeys.symm,?_,h.1.storable⟩,?_⟩
  · intro id htext
    exact (hget id).trans (h.1.event id htext)
  · intro path
    simp only [NodeDb.setNode,lookup_insert,h.2]
    by_cases hpath : path = node.path
    · rw [hpath,if_pos rfl,if_pos rfl]
    · rw [if_neg hpath,if_neg (fun hstr => hpath (Path.ext hstr))]

/-- Setting a node is refused by the server only. -/
theorem handle_node (service : Service C) (parent : Path) (node : Node) (h : StoresRelated server s t) :
    ((∀ q ∈ ancestors (node.prefixPath parent).path, server.text q.str = true) ∧
      Runs.StepAlike (StoresRelated server) (NodeDb.loopDb.handle service ⟨parent,.node node⟩ s)
        ((PgBackend.loopDb server).handle service ⟨parent,.node node⟩ t)) ∨
    (¬ ∀ q ∈ ancestors (node.prefixPath parent).path, server.text q.str = true) ∧
      NodeDb.loopDb.handle service ⟨parent,.node node⟩ s = .ok (false,(NodeDb.setNode (node.prefixPath parent) s).2) ∧
      (PgBackend.loopDb server).handle service ⟨parent,.node node⟩ t = .ok (true,t) := by
  simp only [LoopDb.handle,NodeDb.loopDb,PgBackend.loopDb,PgBackend.setNode]
  cases ht : PgBackend.setNodeTransaction server (node.prefixPath parent) t with
  | ok t' => exact Or.inl ⟨(setNodeTransaction_isOk_iff t).mp ⟨t',ht⟩,Or.inr ⟨false,_,t',rfl,rfl,setNode_related h ht⟩⟩
  | error e =>
    refine Or.inr ⟨fun htexts => ?_,rfl,rfl⟩
    obtain ⟨t',ht'⟩ := (setNodeTransaction_isOk_iff t).mpr htexts
    cases ht.symm.trans ht'

end Nodes

/-- One message is handled alike on both stores where the server takes it. -/
theorem handle_alike (h : StoresRelated server s t) (htakes : service.Takes server sent s) :
    Runs.StepAlike (StoresRelated server) (NodeDb.loopDb.handle service sent s)
      ((PgBackend.loopDb server).handle service sent t) := by
  have hR : ∀ (a : InMemory C) (b : Postgres C), StoresRelated server { s with toInMemory := a } { t with toPostgres := b } ↔
      Agreement.Related server a b := fun a b => and_iff_left h.2
  obtain ⟨parent,update⟩ := sent
  cases update with
  | event event =>
    rw [handle_event,handle_event,answered_alike_iff hR]
    exact Agreement.alike_of_taken h.1 htakes
  | outcome stamped =>
    cases htext : (stamped.prefixPath parent).outcome.outcomeString with
    | error panic => exact Or.inl ⟨panic,by simp [LoopDb.handle,htext],by simp [LoopDb.handle,htext]⟩
    | ok text =>
      rw [handle_outcome htext,handle_outcome htext,answered_alike_iff hR]
      exact Agreement.alike_of_taken h.1 htakes
  | node node =>
    rcases handle_node service parent node h with ⟨_,halike⟩ | ⟨hrefused,_⟩
    · exact halike
    · exact absurd htakes hrefused

/-- One message is taken by the server where it is handled alike on both stores. -/
theorem takes_of_alike (h : StoresRelated server s t)
    (halike : Runs.StepAlike (StoresAlike server) (NodeDb.loopDb.handle service sent s)
      ((PgBackend.loopDb server).handle service sent t)) : service.Takes server sent s := by
  have hR : ∀ (a : InMemory C) (b : Postgres C), StoresAlike server { s with toInMemory := a } { t with toPostgres := b } ↔
      Agreement.ReadsAgree server a b := fun a b => and_iff_left h.alike.2
  obtain ⟨parent,update⟩ := sent
  cases update with
  | event event =>
    rw [handle_event,handle_event,answered_alike_iff hR] at halike
    exact Agreement.taken_of_alike h.1 halike
  | outcome stamped =>
    cases htext : (stamped.prefixPath parent).outcome.outcomeString with
    | error panic =>
      rintro id attestation hdecided
      obtain ⟨text,hok,_⟩ := Oracle.completeEventRead_eq_ok hdecided
      cases htext.symm.trans hok
    | ok text =>
      rw [handle_outcome htext,handle_outcome htext,answered_alike_iff hR] at halike
      exact Agreement.taken_of_alike h.1 halike
  | node node =>
    rcases handle_node service parent node h with ⟨htakes,_⟩ | ⟨_,hs,ht⟩
    · exact htakes
    · simp [hs,ht,Runs.StepAlike] at halike

theorem stores_lockstep (service : Service C) (server : Server) :
    Runs.LockstepWhen (Runs.untilError (NodeDb.loopDb.handle service))
      (Runs.untilError ((PgBackend.loopDb server).handle service)) Eq (Runs.Both (StoresAlike server))
      (Runs.Ongoing (service.Takes server)) (Runs.Both (StoresRelated server)) :=
  Runs.lockstep_untilError StoresRelated.alike handle_alike takes_of_alike

/-- The loop on memory and the loop on Postgres notify the sources alike, panic alike and leave
the same events and kinds after every message exactly when every message is one that the server
takes where memory takes it. -/
theorem stores_serve_alike (service : Service C) (server : Server) (msgs : List Sent) :
    Runs.AgreeOn (Runs.untilError (NodeDb.loopDb.handle service))
      (Runs.untilError ((PgBackend.loopDb server).handle service)) Eq (Runs.Both (StoresAlike server)) msgs
      (.ok .default) (.ok .empty) ↔
    Runs.Along (Runs.untilError (NodeDb.loopDb.handle service)) (Runs.Ongoing (service.Takes server)) msgs
      (.ok .default) :=
  (stores_lockstep service server).agreeOn_iff StoresRelated.start

/-- A message that the server can take whatever memory holds: the id of an event is one that the
parser returns, and the texts pass the types of their columns. -/
def Storable (server : Server) (sent : Sent) : Prop :=
  match sent.update with
  | .event event => (event.prefixPath sent.parent).id.Accepted ∧
      server.text (event.prefixPath sent.parent).id.asStr = true ∧
      Postgres.TakesPath server (event.prefixPath sent.parent).id
  | .outcome stamped => ∀ text, (stamped.prefixPath sent.parent).outcome.outcomeString = .ok text →
      server.text text = true
  | .node node => ∀ q ∈ ancestors (node.prefixPath sent.parent).path, server.text q.str = true

theorem takes_of_storable (h : Storable server sent) (s : NodeDb C) : service.Takes server sent s := by
  obtain ⟨parent,update⟩ := sent
  cases update with
  | event event =>
    obtain ⟨haccepted,htext,hpath⟩ := h
    exact fun _ => ⟨htext,fun _ _ => ⟨haccepted,htext,hpath,fun _ hnone => nomatch hnone⟩⟩
  | outcome stamped =>
    intro id attestation hdecided
    obtain ⟨text,htext,⟨_,_,he⟩ | ⟨_,he⟩ | ⟨_,_,⟨_,_,he⟩ | ⟨_,_,_,⟨_,he⟩ | ⟨_,_,_,hattest,he⟩⟩⟩⟩ :=
      Oracle.completeEventRead_eq_ok hdecided
    case inr.inr.inr.inr =>
      obtain ⟨rfl,rfl⟩ := Prod.mk.inj (Except.ok.inj he)
      rw [(Oracle.attest_eq_ok hattest).1]
      exact h text htext
    all_goals cases he
  | node node => exact h

/-- Messages that the server can take leave the stores alike in the end. -/
theorem stores_alike_of_storable {msgs : List Sent} (h : ∀ sent ∈ msgs, Storable server sent) :
    Runs.AgreeOn (Runs.untilError (NodeDb.loopDb.handle service))
      (Runs.untilError ((PgBackend.loopDb server).handle service)) Eq (Runs.Both (StoresAlike server)) msgs
      (.ok .default) (.ok .empty) := by
  refine ((stores_lockstep service server).agreeOn_iff StoresRelated.start).mpr (Runs.Along.of_forall (fun sent hmem state => ?_) _)
  cases state with
  | error panic => trivial
  | ok s => exact takes_of_storable (h sent hmem) s

end Service
end Olivia
