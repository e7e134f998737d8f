import Olivia.Runs.Lockstep
import Olivia.Db.InMemory
import Olivia.Db.Postgres
import Olivia.Secp256k1.Sample

/-! # Where the two stores agree

The same writes are applied to an empty in-memory store and to an empty Postgres database.
An insertion is refused by both where the id is taken. Completions and key sets are guarded
in one of them only: memory refuses to complete an event that is absent or attested, and
the database refuses a second key set.
-/
namespace Olivia
variable {C : Group}

/-- Both return `Ok`, or both return `Err`, or both panic alike. -/
def SameResult (r r' : DbResult Unit) : Prop := r.map Except.isOk = r'.map Except.isOk

namespace Postgres
variable {server : Server} {s t u : Postgres C} {id : EventId} {announced : AnnouncedEvent C}

/-- Nothing but the row of `id` and the tree has changed. -/
def SameBut (id : EventId) (s t : Postgres C) : Prop :=
  t.publicKeys = s.publicKeys ∧ ∀ text, text ≠ id.asStr → t.event.lookup text = s.event.lookup text

theorem SameBut.trans (hst : s.SameBut id t) (htu : t.SameBut id u) : s.SameBut id u :=
  ⟨htu.1.trans hst.1,fun text hne => (htu.2 text hne).trans (hst.2 text hne)⟩

theorem setNodeParents_sameBut {node : Path} (h : setNodeParents server node s = .ok t) (id : EventId) :
    s.SameBut id t := by
  simp only [setNodeParents] at h
  split at h
  next =>
    obtain rfl := Except.ok.inj h
    exact ⟨rfl,fun _ _ => rfl⟩
  next => simp at h

theorem insertRow_sameBut {path : Str} (h : insertRow server announced path s = .ok t) :
    s.SameBut announced.event.id t := by
  simp only [insertRow] at h
  split at h
  next =>
    obtain rfl := Except.ok.inj h
    exact ⟨rfl,fun _ hne => by rw [lookup_insert,if_neg hne]⟩
  next => simp at h

theorem updateAttestation_sameBut {attestation : Attestation C}
    (h : updateAttestation server id attestation s = .ok t) : s.SameBut id t := by
  simp only [updateAttestation] at h
  split at h
  next =>
    split at h
    next =>
      obtain rfl := Except.ok.inj h
      exact ⟨rfl,fun _ _ => rfl⟩
    next =>
      obtain rfl := Except.ok.inj h
      exact ⟨rfl,fun _ hne => by rw [lookup_insert,if_neg hne]⟩
  next => simp at h

theorem insertTransaction_sameBut (h : insertTransaction server announced s = .ok (.ok t)) :
    s.SameBut announced.event.id t := by
  obtain ⟨_,_,_,v,_,_,hparents,hrow,hatt⟩ := insertTransaction_eq_ok h
  have hv := (setNodeParents_sameBut hparents announced.event.id).trans (insertRow_sameBut hrow)
  rcases hatt with ⟨_,rfl⟩ | ⟨attestation,_,hupdate⟩
  · exact hv
  · exact hv.trans (updateAttestation_sameBut hupdate)

theorem SameBut.getAnnouncedEvent {id' : EventId} (h : s.SameBut id t) (hne : id' ≠ id) :
    getAnnouncedEvent server id' t = getAnnouncedEvent server id' s := by
  have hstr : id'.asStr ≠ id.asStr := fun he => hne (EventId.ext (Path.ext he))
  rw [Postgres.getAnnouncedEvent,Postgres.getAnnouncedEvent,h.2 _ hstr]

theorem setNodeParents_isOk_iff {node : Path} : (∃ t, setNodeParents server node s = .ok t) ↔
    ∀ child ∈ ancestors node, server.text child.str = true := by
  simp only [setNodeParents]
  split
  next h => exact iff_of_true ⟨_,rfl⟩ (by simpa using h)
  next h => exact iff_of_false (by simp) (by simpa using h)

theorem insertRow_isOk_iff {path : Str} : (∃ t, insertRow server announced path s = .ok t) ↔
    server.text announced.event.id.asStr = true ∧ server.ltree path = true ∧
      s.event.lookup announced.event.id.asStr = none := by
  simp only [insertRow]
  split
  next h => exact iff_of_true ⟨_,rfl⟩ (by simpa [and_assoc] using h)
  next h => exact iff_of_false (by simp) (by simpa [and_assoc] using h)

theorem updateAttestation_isOk_iff {attestation : Attestation C} :
    (∃ t, updateAttestation server id attestation s = .ok t) ↔
      server.text id.asStr = true ∧ server.text attestation.outcome = true := by
  simp only [updateAttestation]
  split
  next h =>
    refine iff_of_true ?_ (by simpa using h)
    cases s.event.lookup id.asStr with
    | none => exact ⟨_,rfl⟩
    | some row => exact ⟨_,rfl⟩
  next h => exact iff_of_false (by simp) (by simpa using h)

theorem ltree_isOk {path : Path} (h : path.str.head? = some '/') : ∃ label, ltree path = .ok label := by
  unfold ltree
  split
  next hnil => simp [hnil] at h
  next c rest hcons =>
    obtain rfl : c = '/' := by simpa [hcons] using h
    rw [if_neg (by decide)]
    exact ⟨_,rfl⟩

/-- The path and the parents of an event pass the types of their columns. -/
def TakesPath (server : Server) (id : EventId) : Prop :=
  ∃ path label, id.path = .ok path ∧ ltree path = .ok label ∧ server.ltree label = true ∧
    ∀ node ∈ ancestors path, server.text node.str = true

/-- When a row is inserted, and its attestation with it. -/
theorem insertTransaction_isOk_iff : (∃ t, insertTransaction server announced s = .ok (.ok t)) ↔
    TakesPath server announced.event.id ∧ server.text announced.event.id.asStr = true ∧
      s.event.lookup announced.event.id.asStr = none ∧
      ∀ attestation, announced.attestation = some attestation → server.text attestation.outcome = true := by
  constructor
  · rintro ⟨t,h⟩
    obtain ⟨path,label,u,v,hpath,hlabel,hparents,hrow,hatt⟩ := insertTransaction_eq_ok h
    obtain ⟨htext,hltree,hnone⟩ := insertRow_isOk_iff.mp ⟨v,hrow⟩
    rw [setNodeParents_event hparents] at hnone
    refine ⟨⟨path,label,hpath,hlabel,hltree,setNodeParents_isOk_iff.mp ⟨u,hparents⟩⟩,htext,hnone,?_⟩
    intro attestation hsome
    rcases hatt with ⟨hno,_⟩ | ⟨attestation',hsome',hupdate⟩
    · cases hno.symm.trans hsome
    · cases hsome.symm.trans hsome'
      exact (updateAttestation_isOk_iff.mp ⟨t,hupdate⟩).2
  · rintro ⟨⟨path,label,hpath,hlabel,hltree,hnodes⟩,htext,hnone,hatt⟩
    obtain ⟨u,hparents⟩ := setNodeParents_isOk_iff (s := s).mpr hnodes
    rw [← setNodeParents_event hparents] at hnone
    obtain ⟨v,hrow⟩ := insertRow_isOk_iff.mpr ⟨htext,hltree,hnone⟩
    cases hsome : announced.attestation with
    | none => exact ⟨v,by simp [insertTransaction,hpath,hparents,hlabel,hrow,hsome]⟩
    | some attestation =>
      obtain ⟨t,hupdate⟩ := updateAttestation_isOk_iff (s := v).mpr ⟨htext,hatt attestation hsome⟩
      exact ⟨t,by simp [insertTransaction,hpath,hparents,hlabel,hrow,hsome,hupdate]⟩

/-- A second row under an id is refused, after whatever the transaction did before. -/
theorem insertTransaction_stored (hid : announced.event.id.Accepted)
    (hrow : s.event.lookup announced.event.id.asStr ≠ none) :
    ∃ e, insertTransaction server announced s = .ok (.error e) := by
  obtain ⟨path,_,_,hs,_,_⟩ := hid.fits
  have hpath := EventId.path_eq hs
  obtain ⟨label,hlabel⟩ := ltree_isOk (hid.head_path hpath)
  simp only [insertTransaction,hpath,MayPanic.ok_bind]
  cases hparents : setNodeParents server path s with
  | error e => exact ⟨e,rfl⟩
  | ok u =>
    rw [← setNodeParents_event hparents] at hrow
    cases hinsert : insertRow server announced label u with
    | error e => exact ⟨e,by simp [hlabel,hinsert]⟩
    | ok v => exact absurd (insertRow_isOk_iff.mp ⟨v,hinsert⟩).2.2 hrow

end Postgres

namespace Agreement
variable (server : Server)

/-- The reads of both stores agree, on every id whose text the server takes. -/
def ReadsAgree (s : InMemory C) (t : Postgres C) : Prop :=
  InMemory.db.getPublicKeys s = (Postgres.db server).getPublicKeys t ∧
  ∀ id : EventId, server.text id.asStr = true →
    InMemory.db.getAnnouncedEvent id s = (Postgres.db server).getAnnouncedEvent id t

/-- An event that the server can take: its id is one that the parser returns, and every text
of its row and of its parents passes the types of their columns. -/
def Storable (announced : AnnouncedEvent C) : Prop :=
  announced.event.id.Accepted ∧ server.text announced.event.id.asStr = true ∧
  Postgres.TakesPath server announced.event.id ∧
  ∀ attestation, announced.attestation = some attestation → server.text attestation.outcome = true

/-- What an operation has to meet in memory for both stores to treat it alike. -/
def Matched : DbOp C → InMemory C → Prop
  | .insertEvent announced,s => s.inner.lookup announced.event.id = none → Storable server announced
  | .completeEvent eventId attestation,s =>
    (server.text eventId.asStr = true ∧ server.text attestation.outcome = true) ↔
      ∃ announced, s.inner.lookup eventId = some announced ∧ announced.attestation = none
  | .setPublicKeys _,s => s.publicKeys = none

/-- The relation of the stores: they answer reads alike, and memory holds nothing that the
database could not. -/
structure Related (s : InMemory C) (t : Postgres C) : Prop where
  keys : s.publicKeys = t.publicKeys
  event : ∀ id : EventId, server.text id.asStr = true →
    (Postgres.db server).getAnnouncedEvent id t = .ok (.ok (s.inner.lookup id))
  storable : ∀ id announced, s.inner.lookup id = some announced →
    announced.event.id = id ∧ id.Accepted ∧ server.text id.asStr = true

variable {server} {s s' : InMemory C} {t t' : Postgres C} {id : EventId} {announced : AnnouncedEvent C}

theorem Related.start : Related server (.default : InMemory C) .empty where
  keys := rfl
  event id ht := by simp [Postgres.db,Postgres.getAnnouncedEvent,ht,Postgres.empty,InMemory.default]
  storable id announced h := by cases h

theorem Related.readsAgree (h : Related server s t) : ReadsAgree server s t := by
  refine ⟨congrArg (fun keys => Except.ok (Except.ok keys)) h.keys,?_⟩
  intro id ht
  exact (h.event id ht).symm

/-- Both stores hold the same ids among those the server takes. -/
theorem Related.row_iff (h : Related server s t) (ht : server.text id.asStr = true) :
    t.event.lookup id.asStr = none ↔ s.inner.lookup id = none := by
  have hread := h.event id ht
  simp only [Postgres.db,Postgres.getAnnouncedEvent,ht,if_true] at hread
  cases hrow : t.event.lookup id.asStr with
  | none =>
    have hnone : s.inner.lookup id = none := by simpa [hrow] using hread.symm
    simp [hnone]
  | some row =>
    rw [hrow] at hread
    obtain ⟨announced,_,hsome⟩ := MayPanic.bind_eq_ok.mp hread
    have hsome : some announced = s.inner.lookup id := Except.ok.inj (Except.ok.inj hsome)
    simp [← hsome]

/-- One event is changed in both stores, to what the database then reads. -/
theorem Related.update (h : Related server s t)
    (htext : server.text id.asStr = true) (hid : announced.event.id = id) (haccepted : id.Accepted)
    (hbut : t.SameBut id t') (hfinds : (Postgres.db server).Finds t' id announced) :
    Related server { s with inner := s.inner.insert id announced } t' where
  keys := h.keys.trans hbut.1.symm
  event id' ht := by
    rw [lookup_insert]
    by_cases he : id' = id
    · rw [if_pos he,he]
      exact hfinds
    · rw [if_neg he]
      exact (hbut.getAnnouncedEvent he).trans (h.event id' ht)
  storable id' announced' hl := by
    rw [lookup_insert] at hl
    split at hl
    next he =>
      obtain rfl := Option.some.inj hl
      exact he ▸ ⟨hid,haccepted,htext⟩
    next => exact h.storable id' announced' hl

/-- What one operation leaves in both stores. -/
def After (server : Server) (op : DbOp C) (s : InMemory C) (t : Postgres C) : Prop :=
  SameResult (InMemory.db.apply op s).1 ((Postgres.db server).apply op t).1 ∧
    Related server (InMemory.db.apply op s).2 ((Postgres.db server).apply op t).2

theorem insertEvent_after (h : Related server s t) (hm : Matched server (.insertEvent announced) s) :
    After server (.insertEvent announced) s t := by
  cases hl : s.inner.lookup announced.event.id with
  | some found =>
    obtain ⟨_,haccepted,htext⟩ := h.storable _ found hl
    have hrow : t.event.lookup announced.event.id.asStr ≠ none := by
      rw [Ne,h.row_iff htext,hl]
      simp
    obtain ⟨e,herror⟩ : ∃ e, Postgres.insertTransaction server announced t = .ok (.error e) := by
      obtain ⟨hid,_⟩ := h.storable _ found hl
      exact Postgres.insertTransaction_stored haccepted hrow
    have hpostgres : Postgres.insertEvent server announced t = (.ok (.error e),t) := by
      rw [Postgres.insertEvent,herror,Postgres.commit]
    have hmemory : ∃ e, InMemory.insertEvent announced s = (.ok (.error e),s) := by
      rcases InMemory.insertEvent_cases announced s with ⟨hnone,_⟩ | hrefused
      · cases hl.symm.trans hnone
      · exact hrefused
    obtain ⟨_,hmemory⟩ := hmemory
    simp only [After,Db.apply,InMemory.db,Postgres.db,hmemory,hpostgres]
    exact ⟨rfl,h⟩
  | none =>
    obtain ⟨haccepted,htext,hpath,hatt⟩ := hm hl
    have hrow : t.event.lookup announced.event.id.asStr = none := (h.row_iff htext).mpr hl
    obtain ⟨t',ht'⟩ := Postgres.insertTransaction_isOk_iff.mpr ⟨hpath,htext,hrow,hatt⟩
    have hmemory := InMemory.insertEvent_of_none hl
    have hpostgres : Postgres.insertEvent server announced t = (.ok (.ok ()),t') := by
      rw [Postgres.insertEvent,ht',Postgres.commit]
    have hfinds := Postgres.db_lawful.insert_finds haccepted hpostgres
    have hkept := h.update htext rfl haccepted (Postgres.insertTransaction_sameBut ht') hfinds
    simp only [After,Db.apply,InMemory.db,Postgres.db,hmemory,hpostgres]
    exact ⟨rfl,hkept⟩

theorem completeEvent_after {attestation : Attestation C} (h : Related server s t)
    (hm : Matched server (.completeEvent id attestation) s) :
    After server (.completeEvent id attestation) s t := by
  rcases InMemory.completeEvent_cases id attestation s with ⟨found,hfound,hnone,hmemory⟩ | ⟨e,hmemory⟩
  · obtain ⟨htext,houtcome⟩ := hm.mpr ⟨found,hfound,hnone⟩
    obtain ⟨hid,haccepted,_⟩ := h.storable id found hfound
    obtain ⟨t',hupdate⟩ := Postgres.updateAttestation_isOk_iff (s := t).mpr ⟨htext,houtcome⟩
    have hpostgres : Postgres.completeEvent server id attestation t = (.ok (.ok ()),t') := by
      rw [Postgres.completeEvent,hupdate,Postgres.commit]
    have hread : (Postgres.db server).Finds t id found := (h.event id htext).trans (by rw [hfound])
    have hfinds := Postgres.updateAttestation_finds hupdate hread
    have hid : { found with attestation := some attestation }.event.id = id := hid
    have hkept := h.update htext hid haccepted (Postgres.updateAttestation_sameBut hupdate) hfinds
    simp only [After,Db.apply,InMemory.db,Postgres.db,hmemory,hpostgres]
    exact ⟨rfl,hkept⟩
  · have hrefused : ¬ ∃ announced, s.inner.lookup id = some announced ∧ announced.attestation = none := by
      rintro ⟨found,hfound,hnone⟩
      simp [InMemory.completeEvent,hfound,hnone] at hmemory
    cases hupdate : Postgres.updateAttestation server id attestation t with
    | ok t' => exact absurd (hm.mp (Postgres.updateAttestation_isOk_iff.mp ⟨t',hupdate⟩)) hrefused
    | error e' =>
      have hpostgres : Postgres.completeEvent server id attestation t = (.ok (.error e'),t) := by
        rw [Postgres.completeEvent,hupdate,Postgres.commit]
      simp only [After,Db.apply,InMemory.db,Postgres.db,hmemory,hpostgres]
      exact ⟨rfl,h⟩

theorem setPublicKeys_after {publicKeys : OracleKeys C} (h : Related server s t)
    (hm : Matched server (.setPublicKeys publicKeys) s) : After server (.setPublicKeys publicKeys) s t := by
  have hnone : t.publicKeys = none := h.keys.symm.trans hm
  simp only [After,Db.apply,InMemory.db,Postgres.db,Postgres.setPublicKeys,hnone]
  exact ⟨rfl,rfl,h.event,h.storable⟩

/-- Postgres answers `Ok` where memory does and the results are the same. -/
theorem eq_ok_of_same {r : DbResult Unit} (h : SameResult (.ok (.ok ())) r) : r = .ok (.ok ()) := by
  rcases r with panic | (e | u)
  · cases h
  · cases h
  · rfl

theorem commit_eq_ok {r : DbResult (Postgres C)} (h : (Postgres.commit t r).1 = .ok (.ok ())) :
    ∃ t', r = .ok (.ok t') ∧ Postgres.commit t r = (.ok (.ok ()),t') := by
  rcases r with panic | (e | t')
  · cases h
  · cases h
  · exact ⟨t',rfl,rfl⟩

/-- An event that is only read back in memory is not read back from the database. -/
theorem matched_insertEvent
    (hsame : SameResult (InMemory.insertEvent announced s).1 (Postgres.insertEvent server announced t).1)
    (halike : ReadsAgree server (InMemory.insertEvent announced s).2 (Postgres.insertEvent server announced t).2) :
    Matched server (.insertEvent announced) s := by
  intro hl
  rw [InMemory.insertEvent_of_none hl] at hsame halike
  obtain ⟨t',ht',hcommit⟩ := commit_eq_ok (eq_ok_of_same hsame)
  obtain ⟨hpath,htext,_,hatt⟩ := Postgres.insertTransaction_isOk_iff.mp ⟨t',ht'⟩
  refine ⟨?_,htext,hpath,hatt⟩
  have hread := halike.2 announced.event.id htext
  rw [Postgres.insertEvent,hcommit] at hread
  have hfinds : (Postgres.db server).Finds t' announced.event.id announced := by
    refine hread.symm.trans ?_
    simp [InMemory.db,InMemory.getAnnouncedEvent]
  obtain ⟨_,row,_,hrow⟩ := Postgres.finds_iff.mp hfinds
  obtain ⟨_,id,_,_,hparse,_,he⟩ := Postgres.read_eq_ok hrow
  have hid : announced.event.id = id := by rw [he]
  rw [← hid] at hparse
  exact hparse

theorem matched_completeEvent {attestation : Attestation C}
    (hsame : SameResult (InMemory.completeEvent id attestation s).1 (Postgres.completeEvent server id attestation t).1) :
    Matched server (.completeEvent id attestation) s := by
  constructor
  · intro htexts
    rcases InMemory.completeEvent_cases id attestation s with ⟨found,hfound,hnone,_⟩ | ⟨e,hmemory⟩
    · exact ⟨found,hfound,hnone⟩
    · obtain ⟨t',ht'⟩ := Postgres.updateAttestation_isOk_iff (s := t).mpr htexts
      rw [hmemory,Postgres.completeEvent,ht'] at hsame
      cases hsame
  · rintro ⟨found,hfound,hnone⟩
    have hmemory : (InMemory.completeEvent id attestation s).1 = .ok (.ok ()) := by
      simp [InMemory.completeEvent,hfound,hnone]
    rw [hmemory] at hsame
    obtain ⟨t',ht',_⟩ := commit_eq_ok (eq_ok_of_same hsame)
    exact Postgres.updateAttestation_isOk_iff.mp ⟨t',Except.ok.inj ht'⟩

theorem matched_setPublicKeys {publicKeys : OracleKeys C} (h : Related server s t)
    (hsame : SameResult (.ok (.ok ())) (Postgres.setPublicKeys publicKeys t).1) :
    Matched server (.setPublicKeys publicKeys) s := by
  have hok := eq_ok_of_same hsame
  cases hkeys : t.publicKeys with
  | none => exact h.keys.trans hkeys
  | some keys => simp [Postgres.setPublicKeys,hkeys] at hok

theorem lockstep : Runs.LockstepWhen (InMemory.db (C := C)).apply (Postgres.db server).apply SameResult
    (ReadsAgree server) (Matched server) (Related server) where
  looks h := h.readsAgree
  keeps {op s t} h hm := by
    cases op with
    | insertEvent announced => exact insertEvent_after h hm
    | completeEvent eventId attestation => exact completeEvent_after h hm
    | setPublicKeys publicKeys => exact setPublicKeys_after h hm
  needs {op s t} h hsame halike := by
    cases op with
    | insertEvent announced => exact matched_insertEvent hsame halike
    | completeEvent eventId attestation => exact matched_completeEvent hsame
    | setPublicKeys publicKeys => exact matched_setPublicKeys h hsame

/-- Both stores agree on a list of operations, after every prefix of it, exactly when every
operation of it is matched where it is applied. -/
theorem stores_agree_iff (server : Server) (ops : List (DbOp C)) :
    Runs.AgreeOn InMemory.db.apply (Postgres.db server).apply SameResult (ReadsAgree server) ops
      .default .empty ↔
    Runs.Along InMemory.db.apply (Matched server) ops .default :=
  lockstep.agreeOn_iff Related.start

/-- On a server that takes every text, completing an event that was never added succeeds in
the database only. -/
theorem absent_completion_disagrees : ¬ ∀ ops : List (DbOp (Sample.group 10007)),
    Runs.AgreeOn InMemory.db.apply (Postgres.db ⟨fun _ => true,fun _ => true⟩).apply SameResult
      (ReadsAgree ⟨fun _ => true,fun _ => true⟩) ops .default .empty := by
  intro h
  obtain ⟨_,hsame,_⟩ := h [.completeEvent ⟨⟨"/foo/bar.occur".toList⟩⟩ ⟨"true".toList,⟨none,none⟩,⟨0,0⟩⟩]
  cases hsame

end Agreement
end Olivia
