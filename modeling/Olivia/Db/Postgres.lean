import Olivia.Db.Basic

/-! # The Postgres store

The tables are maps from their primary keys, so an insertion can fail and an update reaches
at most one row. Every statement is atomic and the statements of a transaction take effect
together or not at all. Reading a row parses its id and its announcement again.
-/
namespace Olivia

/-- Which values the server takes for its `text` and `ltree` types. -/
structure Server where
  text : Str → Bool
  ltree : Str → Bool

/-- The composite column of an attestation, null in every field until there is one. -/
structure AttestationColumn (C : Group) where
  outcome : Option Str := none
  time : Option NaiveDateTime := none
  oliviaV1Scalars : Option (List C.AttestScalar) := none
  ecdsaV1Signature : Option C.EcdsaSignature := none

/-- A row of the event table, without its key. -/
structure EventRow (C : Group) where
  expectedOutcomeTime : Option NaiveDateTime
  oracleEvent : List UInt8
  signature : C.Signature
  att : AttestationColumn C
  path : Str

structure TreeRow where
  parent : Option Str

structure Postgres (C : Group) where
  /-- The row of the meta table under `public_keys`. -/
  publicKeys : Option (OracleKeys C)
  tree : AList (fun _ : Str => TreeRow)
  event : AList (fun _ : Str => EventRow C)

/-- The ltree of a path: its segments as labels, every other character written `__`. -/
def ltree (path : Path) : MayPanic Str :=
  match path.str with
  | [] => .error .outOfBounds
  | c :: rest =>
    if c.utf8Size ≠ 1 then .error .outOfBounds
    else .ok (rest.flatMap (fun c =>
      if c.isAlphanum then [c] else if c = '/' then ['.'] else "__".toList))

/-- A path and its parents up to the root. -/
def ancestors (node : Path) : List Path :=
  node :: match _h : node.parent with
    | some parent => ancestors parent
    | none => []
termination_by node.str.length
decreasing_by exact Path.parent_length_lt _h

/-- The parameters of the insertion into the tree, each child before its parent. -/
def params (rows : List (Str × Option Str)) : List (Option Str) :=
  rows.flatMap (fun (child,parent) => [some child,parent])

/-- The numbers of the parameters in its values, two for each row. -/
def placeholders (n : ℕ) : List (ℕ × ℕ) := (List.range' 1 n).map (fun i => (i*2-1,i*2))

/-- The rows that the server makes of the values, parameters being numbered from one on. -/
def boundRows (values : List (ℕ × ℕ)) (params : List (Option Str)) : List (Str × Option Str) :=
  (values.map (fun (child,parent) => (params[child-1]?,params[parent-1]?))).filterMap
    (fun (child,parent) => do return (← child.join,← parent))

theorem params_getElem? (rows : List (Str × Option Str)) (i : ℕ) :
    (params rows)[2*i]? = rows[i]?.map (fun row => some row.1) ∧ (params rows)[2*i+1]? = rows[i]?.map Prod.snd := by
  induction rows generalizing i with
  | nil => simp [params]
  | cons row rows ih =>
    cases i with
    | zero => exact ⟨rfl,rfl⟩
    | succ i => exact ih i

theorem placeholders_bind (rows : List (Str × Option Str)) :
    (placeholders rows.length).map (fun (child,parent) => ((params rows)[child-1]?,(params rows)[parent-1]?)) =
      rows.map (fun (child,parent) => (some (some child),some parent)) := by
  refine List.ext_getElem (by simp [placeholders]) (fun i hi _ => ?_)
  have hlt : i < rows.length := by simpa [placeholders] using hi
  obtain ⟨hchild,hparent⟩ := params_getElem? rows i
  have hsecond : (1+i)*2-1 = 2*i+1 := by omega
  simp [placeholders,hsecond,hchild,hparent,hlt]

/-- The numbers bind every child beside its parent. -/
theorem boundRows_params (rows : List (Str × Option Str)) :
    boundRows (placeholders rows.length) (params rows) = rows := by
  rw [boundRows,placeholders_bind,List.filterMap_map]
  exact List.filterMap_some

variable {C : Group}

def attestationColumn (attestation : Attestation C) : AttestationColumn C where
  outcome := some attestation.outcome
  time := some attestation.time
  oliviaV1Scalars := attestation.schemes.oliviaV1.map Attest.OliviaV1.scalars
  ecdsaV1Signature := attestation.schemes.ecdsaV1.map Attest.EcdsaV1.signature

def AttestationColumn.read (att : AttestationColumn C) : MayPanic (Option (Attestation C)) :=
  match att.outcome with
  | none => .ok none
  | some outcome => do
    let time ← MayPanic.expect "error retrieving column time" att.time
    return some ⟨outcome,⟨att.oliviaV1Scalars.map Attest.OliviaV1.mk,
      att.ecdsaV1Signature.map Attest.EcdsaV1.mk⟩,time⟩

def EventRow.read (id : Str) (row : EventRow C) : MayPanic (AnnouncedEvent C) := do
  let attestation ← row.att.read
  let id ← MayPanic.expect "error retrieving column id" (← EventId.fromStr id).toOption
  let oracleEvent ← RawOracleEvent.fromJsonBytes row.oracleEvent
  return ⟨⟨id,row.expectedOutcomeTime⟩,⟨oracleEvent,row.signature⟩,attestation⟩

namespace Postgres
variable (server : Server)

def empty : Postgres C := ⟨none,∅,∅⟩

def getAnnouncedEvent (id : EventId) (s : Postgres C) :
    MayPanic (Except DbError (Option (AnnouncedEvent C))) := do
  if server.text id.asStr then
    match s.event.lookup id.asStr with
    | none => return .ok none
    | some row => return .ok (some (← row.read id.asStr))
  else return .error .statementFailed

/-- One insertion of a path and its parents; rows that exist are left alone. -/
def setNodeParents (node : Path) (s : Postgres C) : Except DbError (Postgres C) :=
  let children := (ancestors node).map Path.str
  let parents := children.tail.map some ++ [none]
  let values := boundRows (placeholders children.length) (params (children.zip parents))
  if children.all server.text then
    .ok { s with tree := values.foldl (fun tree (child,parent) =>
      if child ∈ tree then tree else tree.insert child ⟨parent⟩) s.tree }
  else .error .statementFailed

/-- The update of `_complete_event`, which looks at the id and at nothing else of the row. -/
def updateAttestation (eventId : EventId) (attestation : Attestation C) (s : Postgres C) :
    Except DbError (Postgres C) :=
  if server.text eventId.asStr && server.text attestation.outcome then
    match s.event.lookup eventId.asStr with
    | none => .ok s
    | some row => .ok { s with
        event := s.event.insert eventId.asStr { row with att := attestationColumn attestation } }
  else .error .statementFailed

def insertRow (event : AnnouncedEvent C) (path : Str) (s : Postgres C) : Except DbError (Postgres C) :=
  if server.text event.event.id.asStr && server.ltree path && (s.event.lookup event.event.id.asStr).isNone then
    let row : EventRow C := {
      expectedOutcomeTime := event.event.expectedOutcomeTime
      oracleEvent := event.announcement.oracleEvent.asBytes
      signature := event.announcement.signature
      att := {}
      path := path }
    .ok { s with event := s.event.insert event.event.id.asStr row }
  else .error .statementFailed

/-- The transaction of `insert_event`. -/
def insertTransaction (event : AnnouncedEvent C) (s : Postgres C) :
    MayPanic (Except DbError (Postgres C)) := do
  let node ← event.event.id.path
  match setNodeParents server node s with
  | .error e => return .error e
  | .ok s =>
    match insertRow server event (← ltree node) s with
    | .error e => return .error e
    | .ok s =>
      match event.attestation with
      | none => return .ok s
      | some attestation => return updateAttestation server event.event.id attestation s

/-- The state that a statement or a transaction leaves: the old one unless it succeeded. -/
def commit (s : Postgres C) : DbResult (Postgres C) → DbResult Unit × Postgres C
  | .ok (.ok t) => (.ok (.ok ()),t)
  | .ok (.error e) => (.ok (.error e),s)
  | .error panic => (.error panic,s)

def insertEvent (event : AnnouncedEvent C) (s : Postgres C) : DbResult Unit × Postgres C :=
  commit s (insertTransaction server event s)

def completeEvent (eventId : EventId) (attestation : Attestation C) (s : Postgres C) :
    DbResult Unit × Postgres C :=
  commit s (.ok (updateAttestation server eventId attestation s))

def setPublicKeys (publicKeys : OracleKeys C) (s : Postgres C) : DbResult Unit × Postgres C :=
  match s.publicKeys with
  | some _ => (.ok (.error .statementFailed),s)
  | none => (.ok (.ok ()),{ s with publicKeys := some publicKeys })

def db : Db C (Postgres C) where
  getAnnouncedEvent := getAnnouncedEvent server
  getPublicKeys s := .ok (.ok s.publicKeys)
  insertEvent := insertEvent server
  completeEvent := completeEvent server
  setPublicKeys := setPublicKeys

variable {server} {s t : Postgres C} {id : EventId} {announced : AnnouncedEvent C}

theorem finds_iff : (db server).Finds s id announced ↔
    server.text id.asStr = true ∧ ∃ row, s.event.lookup id.asStr = some row ∧
      row.read id.asStr = .ok announced := by
  simp only [Db.Finds,db,getAnnouncedEvent]
  split
  next ht =>
    cases hl : s.event.lookup id.asStr with
    | none => simp
    | some row => cases hr : row.read id.asStr <;> simp [ht,hr]
  next ht => simp [ht]

theorem read_eq_ok {row : EventRow C} {text : Str} (h : row.read text = .ok announced) :
    ∃ attestation id oracleEvent, row.att.read = .ok attestation ∧ EventId.fromStr text = .ok (.ok id) ∧
      RawOracleEvent.fromJsonBytes row.oracleEvent = .ok oracleEvent ∧
      announced = ⟨⟨id,row.expectedOutcomeTime⟩,⟨oracleEvent,row.signature⟩,attestation⟩ := by
  obtain ⟨attestation,ha,h⟩ := MayPanic.bind_eq_ok.mp h
  obtain ⟨r,hr,h⟩ := MayPanic.bind_eq_ok.mp h
  cases r with
  | error e => simp [Except.toOption,MayPanic.expect] at h
  | ok id =>
    obtain ⟨_,hid,h⟩ := MayPanic.bind_eq_ok.mp h
    obtain rfl := Except.ok.inj hid
    obtain ⟨oracleEvent,ho,h⟩ := MayPanic.bind_eq_ok.mp h
    exact ⟨attestation,id,oracleEvent,ha,hr,ho,(Except.ok.inj h).symm⟩

/-- A row found under an id holds that id. -/
theorem id_of_finds (hf : (db server).Finds s id announced) : announced.event.id = id := by
  obtain ⟨_,row,_,hread⟩ := finds_iff.mp hf
  obtain ⟨_,id',_,_,hid,_,rfl⟩ := read_eq_ok hread
  exact EventId.ext (Path.ext (EventId.accepted_of_fromStr hid).2)

theorem read_attestationColumn (attestation : Attestation C) :
    (attestationColumn attestation).read = .ok (some attestation) := by
  obtain ⟨outcome,⟨oliviaV1,ecdsaV1⟩,time⟩ := attestation
  cases oliviaV1 <;> cases ecdsaV1 <;> rfl

/-- A row read back after the update has the new attestation and nothing else new. -/
theorem read_update {row : EventRow C} {text : Str} (hread : row.read text = .ok announced)
    (attestation : Attestation C) : { row with att := attestationColumn attestation }.read text =
      .ok { announced with attestation := some attestation } := by
  obtain ⟨old,id,oracleEvent,_,hid,ho,rfl⟩ := read_eq_ok hread
  simp [EventRow.read,read_attestationColumn,hid,ho,Except.toOption]

theorem setNodeParents_event {node : Path} (h : setNodeParents server node s = .ok t) :
    t.event = s.event := by
  simp only [setNodeParents] at h
  split at h
  next => exact (Except.ok.inj h) ▸ rfl
  next => simp at h

theorem updateAttestation_finds {attestation : Attestation C}
    (h : updateAttestation server id attestation s = .ok t) (hf : (db server).Finds s id announced) :
    (db server).Finds t id { announced with attestation := some attestation } := by
  obtain ⟨ht,row,hl,hread⟩ := finds_iff.mp hf
  simp only [updateAttestation,hl] at h
  split at h
  next =>
    obtain rfl := Except.ok.inj h
    exact finds_iff.mpr ⟨ht,_,by rw [lookup_insert,if_pos rfl],read_update hread attestation⟩
  next => simp at h

theorem updateAttestation_ne {attestation : Attestation C} {id' : EventId}
    (h : updateAttestation server id' attestation s = .ok t) (hne : id ≠ id')
    (hf : (db server).Finds s id announced) : (db server).Finds t id announced := by
  obtain ⟨ht,row,hl,hread⟩ := finds_iff.mp hf
  have hstr : id.asStr ≠ id'.asStr := fun he => hne (EventId.ext (Path.ext he))
  simp only [updateAttestation] at h
  split at h
  next =>
    split at h
    next =>
      obtain rfl := Except.ok.inj h
      exact hf
    next =>
      obtain rfl := Except.ok.inj h
      exact finds_iff.mpr ⟨ht,row,by rw [lookup_insert,if_neg hstr,hl],hread⟩
  next => simp at h

theorem insertRow_keeps {path : Str} {event : AnnouncedEvent C} (h : insertRow server event path s = .ok t)
    (hf : (db server).Finds s id announced) : (db server).Finds t id announced := by
  obtain ⟨ht,row,hl,hread⟩ := finds_iff.mp hf
  simp only [insertRow] at h
  split at h
  next hc =>
    obtain rfl := Except.ok.inj h
    have hne : id.asStr ≠ event.event.id.asStr := by
      intro he
      rw [he] at hl
      simp [hl] at hc
    exact finds_iff.mpr ⟨ht,row,by rw [lookup_insert,if_neg hne,hl],hread⟩
  next => simp at h

theorem insertRow_finds {path : Str} (hid : announced.event.id.Accepted)
    (h : insertRow server announced path s = .ok t) :
    (db server).Finds t announced.event.id { announced with attestation := none } := by
  simp only [insertRow] at h
  split at h
  next hc =>
    obtain rfl := Except.ok.inj h
    simp only [Bool.and_eq_true] at hc
    refine finds_iff.mpr ⟨hc.1.1,_,by rw [lookup_insert,if_pos rfl],?_⟩
    have hparse : EventId.fromStr announced.event.id.asStr = .ok (.ok announced.event.id) := hid
    simp [EventRow.read,AttestationColumn.read,hparse,Except.toOption,RawOracleEvent.fromJsonBytes,
      RawOracleEvent.asBytes]
  next => simp at h

/-- What a committed insertion went through. -/
theorem insertTransaction_eq_ok {event : AnnouncedEvent C}
    (h : insertTransaction server event s = .ok (.ok t)) : ∃ node path u v,
      event.event.id.path = .ok node ∧ ltree node = .ok path ∧ setNodeParents server node s = .ok u ∧
      insertRow server event path u = .ok v ∧
      (event.attestation = none ∧ v = t ∨ ∃ attestation, event.attestation = some attestation ∧
        updateAttestation server event.event.id attestation v = .ok t) := by
  obtain ⟨node,hnode,h⟩ := MayPanic.bind_eq_ok.mp h
  split at h
  next => simp at h
  next u hu =>
    obtain ⟨path,hpath,h⟩ := MayPanic.bind_eq_ok.mp h
    split at h
    next => simp at h
    next v hv =>
      refine ⟨node,path,u,v,hnode,hpath,hu,hv,?_⟩
      split at h
      next ha => exact Or.inl ⟨ha,Except.ok.inj (Except.ok.inj h)⟩
      next attestation ha => exact Or.inr ⟨attestation,ha,Except.ok.inj h⟩

theorem commit_eq {r : DbResult (Postgres C)} {w : DbResult Unit} (h : commit s r = (w,t)) :
    (∃ u, r = .ok (.ok u) ∧ w = .ok (.ok ()) ∧ u = t) ∨ t = s ∧ w ≠ .ok (.ok ()) := by
  unfold commit at h
  split at h
  next u =>
    obtain ⟨rfl,rfl⟩ := Prod.mk.inj h
    exact Or.inl ⟨u,rfl,rfl,rfl⟩
  next =>
    obtain ⟨rfl,rfl⟩ := Prod.mk.inj h
    exact Or.inr ⟨rfl,by simp⟩
  next =>
    obtain ⟨rfl,rfl⟩ := Prod.mk.inj h
    exact Or.inr ⟨rfl,by simp⟩

theorem finds_of_event_eq (h : t.event = s.event) (hf : (db server).Finds s id announced) :
    (db server).Finds t id announced := by
  obtain ⟨ht,row,hl,hread⟩ := finds_iff.mp hf
  exact finds_iff.mpr ⟨ht,row,by rw [h,hl],hread⟩

theorem db_lawful : (db server : Db C (Postgres C)).Lawful where
  insert_finds {s t announced} hid hw := by
    rcases commit_eq hw with ⟨u,hu,_,rfl⟩ | ⟨_,hne⟩
    · obtain ⟨_,_,_,v,_,_,_,hrow,hatt⟩ := insertTransaction_eq_ok hu
      have hv := insertRow_finds hid hrow
      rcases hatt with ⟨ha,rfl⟩ | ⟨attestation,ha,hup⟩
      · rwa [← ha] at hv
      · have hf := updateAttestation_finds hup hv
        rwa [← ha] at hf
    · exact absurd rfl hne
  insert_keeps {s t announced found r id} hw hf := by
    rcases commit_eq hw with ⟨u,hu,_,rfl⟩ | ⟨rfl,_⟩
    · obtain ⟨_,_,_,v,_,_,hparents,hrow,hatt⟩ := insertTransaction_eq_ok hu
      have hu' := finds_of_event_eq (setNodeParents_event hparents) hf
      have hv := insertRow_keeps hrow hu'
      rcases hatt with ⟨_,rfl⟩ | ⟨attestation,_,hup⟩
      · exact hv
      · refine updateAttestation_ne hup ?_ hv
        rintro rfl
        obtain ⟨_,row,hl,_⟩ := finds_iff.mp hu'
        simp [insertRow,hl] at hrow
    · exact hf
  complete_finds {s t attestation found id} hw hf := by
    rcases commit_eq hw with ⟨u,hu,_,rfl⟩ | ⟨_,hne⟩
    · exact updateAttestation_finds (Except.ok.inj hu) hf
    · exact absurd rfl hne
  complete_keeps {s t attestation found r id id'} hw hf := by
    rcases commit_eq hw with ⟨u,hu,_,rfl⟩ | ⟨rfl,_⟩
    · by_cases h : id' = id
      · subst h
        exact Or.inr ⟨rfl,updateAttestation_finds (Except.ok.inj hu) hf⟩
      · exact Or.inl (updateAttestation_ne (Except.ok.inj hu) (Ne.symm h) hf)
    · exact Or.inl hf

end Postgres
end Olivia
