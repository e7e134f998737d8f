import Olivia.Db.PgQueries
import Olivia.Oracle.Attesting
import Olivia.Oracle.Linearizable
import Olivia.Oracle.Starting

/-! # Oracles that share a database

Processes start on one database at any time and with any seeds, and then ask their oracle. Their
reads and writes interleave. What is found of an event was made by oracles that have started
on this database, and they all have its keys.
-/
namespace Olivia
namespace Postgres
variable {C : Group} {server : Server} {s t : Postgres C} {id eventId : EventId} {announced found : AnnouncedEvent C}

theorem accepted_of_finds (hf : (db server).Finds s id announced) : id.Accepted := by
  obtain ⟨_,row,_,hread⟩ := finds_iff.mp hf
  obtain ⟨_,id',_,_,hid,_,_⟩ := read_eq_ok hread
  obtain ⟨haccepted,hraw⟩ := EventId.accepted_of_fromStr hid
  obtain rfl : id' = id := EventId.ext (Path.ext hraw)
  exact haccepted

/-- What is found after an insertion was found before, or was inserted. -/
theorem finds_of_insertEvent (hf : (db server).Finds ((db server).insertEvent announced s).2 id found) :
    (db server).Finds s id found ∨ found = announced := by
  have hwrite : ((db server).insertEvent announced s).2 = (commit s (insertTransaction server announced s)).2 := rfl
  rw [hwrite] at hf
  rcases hr : insertTransaction server announced s with panic | (e | t)
  · rw [hr] at hf
    exact Or.inl hf
  · rw [hr] at hf
    exact Or.inl hf
  · rw [hr] at hf
    by_cases hid : id = announced.event.id
    · have hinsert : (db server).insertEvent announced s = (.ok (.ok ()),t) := congrArg (commit s) hr
      have hinserted := db_lawful.insert_finds (hid ▸ accepted_of_finds hf) hinsert
      subst hid
      have hsame : Except.ok (Except.ok (some found)) = Except.ok (Except.ok (some announced)) := hf.symm.trans hinserted
      exact Or.inr (Option.some.inj (Except.ok.inj (Except.ok.inj hsame)))
    · exact Or.inl (((insertTransaction_sameBut hr).getAnnouncedEvent hid).symm.trans hf)

/-- What is found after an update was found before, up to the attestation that was written. -/
theorem finds_of_completeEvent {takes : Str → Bool} {attestation : Attestation C} (hs : Kept takes s)
    (hf : (db server).Finds ((db server).completeEvent eventId attestation s).2 id found) :
    (db server).Finds s id found ∨ id = eventId ∧
      ∃ before, (db server).Finds s id before ∧ found = { before with attestation := some attestation } := by
  have hwrite : ((db server).completeEvent eventId attestation s).2 =
      (commit s (.ok (updateAttestation server eventId attestation s))).2 := rfl
  rw [hwrite] at hf
  rcases hr : updateAttestation server eventId attestation s with e | t
  · rw [hr] at hf
    exact Or.inl hf
  · rw [hr] at hf
    by_cases hid : id = eventId
    · subst hid
      obtain ⟨htext,row,hrow,_⟩ := finds_iff.mp hf
      cases hbefore : s.event.lookup id.asStr with
      | none =>
        simp only [updateAttestation,hbefore] at hr
        split at hr
        next =>
          obtain rfl := Except.ok.inj hr
          exact Or.inl hf
        next => cases hr
      | some row' =>
        obtain ⟨before,hread⟩ := (hs _ row' hbefore).read (accepted_of_finds hf)
        have hfound : (db server).Finds s id before := finds_iff.mpr ⟨htext,row',hbefore,hread⟩
        have hsame : Except.ok (Except.ok (some found)) =
            Except.ok (Except.ok (some { before with attestation := some attestation })) :=
          hf.symm.trans (updateAttestation_finds hr hfound)
        exact Or.inr ⟨rfl,before,hfound,Option.some.inj (Except.ok.inj (Except.ok.inj hsame))⟩
    · exact Or.inl (((updateAttestation_sameBut hr).getAnnouncedEvent hid).symm.trans hf)

end Postgres

/-- A database, and the keychains of the oracles that have started on it. -/
structure Shared (C : Group) where
  database : Postgres C
  running : List (KeyChain C)

/-- A process starts an oracle from a seed, or asks one that has started. -/
inductive SharedCall
  | new (seed : Seed)
  | ask (i : ℕ) (call : OracleCall)

inductive SharedReply
  | new (r : Except StartError Unit)
  | asked (reply : OracleReply)
  | notRunning

inductive SharedWrite (C : Group)
  | joins (keychain : KeyChain C)
  | stores (keychain : KeyChain C)
  | writes (keychain : KeyChain C) (w : OracleWrite C)

namespace Shared
variable {C : Group}

def empty : Shared C := ⟨.empty,[]⟩

section Protocol
variable [DecidableEq C.PublicKey] (server : Server) (lib : Libraries C)

def check : SharedCall → Shared C → MayPanic SharedReply ⊕ SharedWrite C
  | .new seed, s =>
    match Oracle.newRead (Postgres.db server) lib seed s.database with
    | .inl (.error panic) => .inl (.error panic)
    | .inl (.ok (.error e)) => .inl (.ok (.new (.error e)))
    | .inl (.ok (.ok oracle)) => .inr (.joins oracle.keychain)
    | .inr keychain => .inr (.stores keychain)
  | .ask i call, s =>
    match s.running[i]? with
    | none => .inl (.ok .notRunning)
    | some keychain =>
      ((Oracle.postgres server keychain lib).read call s.database).map (Except.map .asked) (.writes keychain)

/-- An oracle that has stored its keys, or has found them stored, is one that can be asked. -/
def act : SharedWrite C → Shared C → MayPanic SharedReply × Shared C
  | .joins keychain, s => (.ok (.new (.ok ())),⟨s.database,s.running ++ [keychain]⟩)
  | .stores keychain, s =>
    match Oracle.newWrite (Postgres.db server) lib keychain s.database with
    | (.ok (.ok oracle),database) => (.ok (.new (.ok ())),⟨database,s.running ++ [oracle.keychain]⟩)
    | (.ok (.error e),database) => (.ok (.new (.error e)),⟨database,s.running⟩)
    | (.error panic,database) => (.error panic,⟨database,s.running⟩)
  | .writes keychain w, s => ((Oracle.postgres server keychain lib).write w s.database).map
      (Except.map .asked) (fun database => ⟨database,s.running⟩)

def protocol : Runs.CheckThenAct (Shared C) SharedCall (SharedWrite C) (MayPanic SharedReply) :=
  ⟨check server lib,act server lib⟩

end Protocol

variable {server : Server} {lib : Libraries C} {s t : Shared C} {id : EventId}
variable {announced : AnnouncedEvent C} {attestation : Attestation C}

/-- An announcement that an oracle has made. -/
def Announced (lib : Libraries C) (running : List (KeyChain C)) (announced : AnnouncedEvent C) : Prop :=
  ∃ keychain ∈ running, keychain.createAnnouncement lib announced.event = .ok announced.announcement

/-- An attestation that an oracle has made to an announcement that it found valid. -/
def Attested (server : Server) (lib : Libraries C) (running : List (KeyChain C)) (id : EventId)
    (announcement : RawAnnouncement C) (attestation : Attestation C) : Prop :=
  ∃ keychain ∈ running, ∃ stamped text oracleEvent, stamped.outcome.id = id ∧
    stamped.outcome.outcomeString = .ok text ∧
    announcement.verifyAgainstId lib.serdeJson id keychain.oraclePublicKeys.announcement = .ok (some oracleEvent) ∧
    (Oracle.postgres server keychain lib).attest stamped text oracleEvent = .ok attestation

/-- Oracles that have started have the stored keys, and what is found was made by some of them. -/
structure Sound (server : Server) (lib : Libraries C) (s : Shared C) : Prop where
  keys : ∀ keychain ∈ s.running, s.database.publicKeys = some keychain.oraclePublicKeys
  kept : s.database.Kept server.text
  announced : ∀ id announced, (Postgres.db server).Finds s.database id announced → Announced lib s.running announced
  attested : ∀ id announced attestation, (Postgres.db server).Finds s.database id announced →
    announced.attestation = some attestation → Attested server lib s.running id announced.announcement attestation

/-- What the check of a call has found, as much of it as stays. -/
def Promised (server : Server) (lib : Libraries C) : SharedWrite C → Shared C → Prop
  | .joins keychain, s => s.database.publicKeys = some keychain.oraclePublicKeys
  | .stores _, _ => True
  | .writes _ (.insertEvent announced), s => announced.attestation = none ∧ Announced lib s.running announced
  | .writes _ (.completeEvent id attestation), s => ∃ announced, (Postgres.db server).Finds s.database id announced ∧
    Attested server lib s.running id announced.announcement attestation

/-- What a shared database keeps: who has started, the keys, and every announcement. -/
structure Extends (server : Server) (s t : Shared C) : Prop where
  running : s.running ⊆ t.running
  keys : ∀ keys, s.database.publicKeys = some keys → t.database.publicKeys = some keys
  finds : ∀ id announced, (Postgres.db server).Finds s.database id announced →
    ∃ later, (Postgres.db server).Finds t.database id later ∧ later.announcement = announced.announcement

theorem Extends.refl (s : Shared C) : Extends server s s :=
  ⟨fun _ h => h,fun _ h => h,fun _ announced h => ⟨announced,h,rfl⟩⟩

theorem Extends.trans {u : Shared C} (hst : Extends server s t) (htu : Extends server t u) : Extends server s u := by
  refine ⟨fun _ h => htu.running (hst.running h),fun _ h => htu.keys _ (hst.keys _ h),?_⟩
  intro id announced h
  obtain ⟨later,hlater,hsame⟩ := hst.finds id announced h
  obtain ⟨last,hlast,hsame'⟩ := htu.finds id later hlater
  exact ⟨last,hlast,hsame'.trans hsame⟩

/-- Keys are stored where there are none, by an oracle that has started then. -/
theorem act_stores (server : Server) (lib : Libraries C) (keychain : KeyChain C) (s : Shared C) :
    (act server lib (.stores keychain) s).2 = s ∨ s.database.publicKeys = none ∧
      (act server lib (.stores keychain) s).2 =
        ⟨{ s.database with publicKeys := some keychain.oraclePublicKeys },s.running ++ [keychain]⟩ := by
  cases hkeys : s.database.publicKeys with
  | some keys =>
    exact Or.inl (by simp [act,Oracle.newWrite,Postgres.db,Postgres.setPublicKeys,hkeys,Except.map,Except.mapError])
  | none =>
    exact Or.inr ⟨rfl,by simp [act,Oracle.newWrite,Postgres.db,Postgres.setPublicKeys,hkeys,Except.map,Except.mapError]⟩

theorem publicKeys_write (server : Server) (lib : Libraries C) (keychain : KeyChain C) (w : OracleWrite C) (s : Postgres C) :
    ((Oracle.postgres server keychain lib).write w s).2.publicKeys = s.publicKeys := by
  cases w with
  | insertEvent announced =>
    have hwrite : ((Oracle.postgres server keychain lib).write (.insertEvent announced) s).2 =
        (Postgres.commit s (Postgres.insertTransaction server announced s)).2 := rfl
    rw [hwrite]
    rcases hr : Postgres.insertTransaction server announced s with panic | (e | t)
    · rfl
    · rfl
    · exact (Postgres.insertTransaction_sameBut hr).1
  | completeEvent eventId attestation =>
    have hwrite : ((Oracle.postgres server keychain lib).write (.completeEvent eventId attestation) s).2 =
        (Postgres.commit s (.ok (Postgres.updateAttestation server eventId attestation s))).2 := rfl
    rw [hwrite]
    rcases hr : Postgres.updateAttestation server eventId attestation s with e | t
    · rfl
    · exact (Postgres.updateAttestation_sameBut hr).1

theorem act_extends (w : SharedWrite C) (s : Shared C) : Extends server s (act server lib w s).2 := by
  cases w with
  | joins keychain => exact ⟨List.subset_append_left ..,fun _ h => h,fun _ announced h => ⟨announced,h,rfl⟩⟩
  | stores keychain =>
    rcases act_stores server lib keychain s with hsame | ⟨hnone,hstored⟩
    · rw [hsame]
      exact .refl s
    · rw [hstored]
      refine ⟨List.subset_append_left ..,fun keys h => ?_,fun _ announced h => ⟨announced,h,rfl⟩⟩
      cases hnone.symm.trans h
  | writes keychain w =>
    have hlawful : (Oracle.postgres server keychain lib).db.Lawful := Postgres.db_lawful
    exact ⟨fun _ h => h,fun _ h => (publicKeys_write server lib keychain w s.database).trans h,
      fun _ _ h => Oracle.write_finds hlawful h w⟩

theorem Announced.mono {running running' : List (KeyChain C)} (h : Announced lib running announced)
    (hsub : running ⊆ running') : Announced lib running' announced := by
  obtain ⟨keychain,hmem,hann⟩ := h
  exact ⟨keychain,hsub hmem,hann⟩

theorem Attested.mono {running running' : List (KeyChain C)} {announcement : RawAnnouncement C}
    (h : Attested server lib running id announcement attestation) (hsub : running ⊆ running') :
    Attested server lib running' id announcement attestation := by
  obtain ⟨keychain,hmem,hatt⟩ := h
  exact ⟨keychain,hsub hmem,hatt⟩

theorem Promised.mono {w : SharedWrite C} (h : Promised server lib w s) (hst : Extends server s t) :
    Promised server lib w t := by
  rcases w with keychain | keychain | ⟨keychain,(inserted | ⟨eventId,attestation⟩)⟩
  · exact hst.keys _ h
  · trivial
  · exact ⟨h.1,h.2.mono hst.running⟩
  · obtain ⟨announced,hf,hatt⟩ := h
    obtain ⟨later,hlater,hsame⟩ := hst.finds _ _ hf
    exact ⟨later,hlater,hsame ▸ hatt.mono hst.running⟩

theorem promised_of_check [DecidableEq C.PublicKey] {c : SharedCall} {w : SharedWrite C}
    (h : check server lib c s = .inr w) : Promised server lib w s := by
  cases c with
  | new seed =>
    simp only [check] at h
    split at h
    next => cases h
    next => cases h
    next oracle hread =>
      obtain rfl := Sum.inr.inj h
      exact Oracle.newRead_eq_ok hread
    next keychain hread =>
      obtain rfl := Sum.inr.inj h
      trivial
  | ask i call =>
    simp only [check] at h
    split at h
    next => cases h
    next keychain hrunning =>
      have hmem := List.mem_of_getElem? hrunning
      rcases hread : (Oracle.postgres server keychain lib).read call s.database with r | written
      · rw [hread] at h
        cases h
      · rw [hread] at h
        obtain rfl := Sum.inr.inj h
        cases call with
        | addEvent newEvent =>
          obtain ⟨_,announcement,hann,rfl⟩ := Oracle.read_addEvent hread
          exact ⟨rfl,keychain,hmem,hann⟩
        | completeEvent stamped =>
          obtain ⟨announced,text,oracleEvent,attestation,hf,_,ht,hverify,hatt,rfl⟩ := Oracle.read_completeEvent hread
          rw [Promised,Postgres.id_of_finds hf]
          exact ⟨announced,hf,keychain,hmem,stamped,text,oracleEvent,rfl,ht,hverify,hatt⟩

theorem sound_empty : Sound server lib (empty : Shared C) where
  keys _ h := by cases h
  kept := Postgres.kept_empty
  announced _ _ hf := by
    obtain ⟨_,_,hrow,_⟩ := Postgres.finds_iff.mp hf
    cases hrow
  attested _ _ _ hf _ := by
    obtain ⟨_,_,hrow,_⟩ := Postgres.finds_iff.mp hf
    cases hrow

/-- More oracles on the same rows. -/
theorem Sound.joined (hs : Sound server lib s) (hrunning : s.running ⊆ t.running)
    (hrows : t.database.event = s.database.event)
    (hkeys : ∀ keychain ∈ t.running, t.database.publicKeys = some keychain.oraclePublicKeys) : Sound server lib t where
  keys := hkeys
  kept := by
    unfold Postgres.Kept
    rw [hrows]
    exact hs.kept
  announced _ _ hf := (hs.announced _ _ (Postgres.finds_of_event_eq hrows.symm hf)).mono hrunning
  attested _ _ _ hf hatt := (hs.attested _ _ _ (Postgres.finds_of_event_eq hrows.symm hf) hatt).mono hrunning

/-- A promised write leaves what oracles that have started have made. -/
theorem Sound.written {keychain : KeyChain C} {w : OracleWrite C} (hs : Sound server lib s)
    (hw : Promised server lib (.writes keychain w) s) : Sound server lib (act server lib (.writes keychain w) s).2 := by
  have hkeys : ∀ keychain' ∈ s.running, ((Oracle.postgres server keychain lib).write w s.database).2.publicKeys =
      some keychain'.oraclePublicKeys := by
    intro keychain' hmem
    rw [publicKeys_write]
    exact hs.keys keychain' hmem
  cases w with
  | insertEvent inserted =>
    obtain ⟨hnone,hann⟩ := hw
    refine ⟨hkeys,Postgres.apply_kept (fun _ h => h) (.insertEvent inserted) s.database hs.kept,?_,?_⟩
    · intro id announced hf
      rcases Postgres.finds_of_insertEvent hf with hf | rfl
      · exact hs.announced id announced hf
      · exact hann
    · intro id announced attestation hf hatt
      rcases Postgres.finds_of_insertEvent hf with hf | rfl
      · exact hs.attested id announced attestation hf hatt
      · cases hnone.symm.trans hatt
  | completeEvent eventId written =>
    obtain ⟨promised,hpromised,hatt⟩ := hw
    refine ⟨hkeys,Postgres.apply_kept (fun _ h => h) (.completeEvent eventId written) s.database hs.kept,?_,?_⟩
    · intro id announced hf
      rcases Postgres.finds_of_completeEvent hs.kept hf with hf | ⟨_,before,hbefore,rfl⟩
      · exact hs.announced id announced hf
      · exact hs.announced id before hbefore
    · intro id announced attestation hf hattested
      rcases Postgres.finds_of_completeEvent hs.kept hf with hf | ⟨rfl,before,hbefore,rfl⟩
      · exact hs.attested id announced attestation hf hattested
      · obtain rfl := Option.some.inj hattested
        have hsame : Except.ok (Except.ok (some before)) = Except.ok (Except.ok (some promised)) :=
          hbefore.symm.trans hpromised
        obtain rfl := Option.some.inj (Except.ok.inj (Except.ok.inj hsame))
        exact hatt

theorem Sound.act {w : SharedWrite C} (hs : Sound server lib s) (hw : Promised server lib w s) :
    Sound server lib (act server lib w s).2 := by
  cases w with
  | joins keychain =>
    refine hs.joined (List.subset_append_left ..) rfl ?_
    intro keychain' hmem
    rcases List.mem_append.mp hmem with hmem | hmem
    · exact hs.keys keychain' hmem
    · obtain rfl := List.mem_singleton.mp hmem
      exact hw
  | stores keychain =>
    rcases act_stores server lib keychain s with hsame | ⟨hnone,hstored⟩
    · rwa [hsame]
    · rw [hstored]
      refine hs.joined (List.subset_append_left ..) rfl ?_
      intro keychain' hmem
      rcases List.mem_append.mp hmem with hmem | hmem
      · cases hnone.symm.trans (hs.keys keychain' hmem)
      · obtain rfl := List.mem_singleton.mp hmem
        rfl
  | writes keychain w => exact hs.written hw

theorem sound_inductive [DecidableEq C.PublicKey] : (protocol server lib : Runs.CheckThenAct (Shared C) ..).Inductive
    (fun _ _ => True) (Sound server lib) (fun _ => Promised server lib) (fun _ _ => True) where
  check _ h := promised_of_check h
  answer _ _ := trivial
  act hs hw _ := hs.act hw
  result _ _ _ := trivial
  stable _ hq _ _ := hq.mono (act_extends _ _)

/-- What is found verifies under the keys of any oracle that has started, its attestation where they
all have one seed. -/
theorem Sound.verifies (hjson : lib.serdeJson.RoundTrips) (hsig : C.AnnouncementsVerify) (hreveal : C.RevealsVerify)
    (hs : Sound server lib s) (hf : (Postgres.db server).Finds s.database id announced) : ∃ keys oracleEvent,
    s.database.publicKeys = some keys ∧
    announced.announcement.verifyAgainstId lib.serdeJson id keys.announcement = .ok (some oracleEvent) ∧
    oracleEvent.event = announced.event ∧ ((∀ a ∈ s.running, ∀ b ∈ s.running, a = b) →
      ∀ attestation, announced.attestation = some attestation →
        attestation.verifyOliviaV1Attestation oracleEvent keys = .ok (.ok ())) := by
  obtain ⟨keychain,hmem,hann⟩ := hs.announced id announced hf
  have hkey : announced.event.id = id := Postgres.id_of_finds hf
  rcases KeyChain.createAnnouncement_spec hjson hsig keychain (hkey ▸ Postgres.accepted_of_finds hf) with
    ⟨nonces,announcement,hnonces,hcreate,hverify⟩ | ⟨_,_,he,_⟩
  · obtain rfl : announced.announcement = announcement := Except.ok.inj (hann.symm.trans hcreate)
    have hverified := (hverify id).trans (by rw [if_pos hkey])
    refine ⟨_,_,hs.keys keychain hmem,hverified,rfl,?_⟩
    intro hsame attestation hatt
    obtain ⟨attester,hattester,⟨⟨_,value⟩,time⟩,text,oracleEvent,rfl,htext,hvalid,hattest⟩ :=
      hs.attested id announced attestation hf hatt
    obtain rfl := hsame attester hattester keychain hmem
    obtain rfl := Option.some.inj (Except.ok.inj (hvalid.symm.trans hverified))
    dsimp only at hkey
    subst hkey
    obtain ⟨p,k,hr⟩ := (Postgres.accepted_of_finds hf).reads
    exact (Oracle.attest_oliviaV1 hreveal hr (hr.admits_of_outcomeString htext) hnonces htext hattest).2
  · cases hann.symm.trans he

section Runs
variable [DecidableEq C.PublicKey]
variable {t u : Runs.Config (Shared C) SharedCall (SharedWrite C) (MayPanic SharedReply)}

/-- However oracles start on one database and are asked, those that run have the stored keys, which stay.
What was found once keeps its announcement, which verifies under these keys. The olivia-v1 scheme of
every attestation verifies too unless there are different oracles of the same keys. -/
theorem shared_verifies (hjson : lib.serdeJson.RoundTrips) (hsig : C.AnnouncementsVerify) (hreveal : C.RevealsVerify)
    (ht : (protocol server lib).Reaches (.start empty) t) (hu : (protocol server lib).Reaches t u) :
    (∀ keychain ∈ u.store.running,
      (Postgres.db server).getPublicKeys u.store.database = .ok (.ok (some keychain.oraclePublicKeys))) ∧
    (∀ keys, (Postgres.db server).getPublicKeys t.store.database = .ok (.ok (some keys)) →
      (Postgres.db server).getPublicKeys u.store.database = .ok (.ok (some keys))) ∧
    ∀ id announced, (Postgres.db server).Finds t.store.database id announced → ∃ keys oracleEvent later,
      (Postgres.db server).getPublicKeys t.store.database = .ok (.ok (some keys)) ∧
      (Postgres.db server).getPublicKeys u.store.database = .ok (.ok (some keys)) ∧
      (Postgres.db server).Finds u.store.database id later ∧ later.announcement = announced.announcement ∧
      announced.announcement.verifyAgainstId lib.serdeJson id keys.announcement = .ok (some oracleEvent) ∧
      oracleEvent.event = announced.event ∧ ((∀ a ∈ u.store.running, ∀ b ∈ u.store.running, a = b) →
        ∀ attestation, later.attestation = some attestation →
          attestation.verifyOliviaV1Attestation oracleEvent keys = .ok (.ok ())) := by
  have hsound := sound_inductive.runs (.start sound_empty) ht
  have hlast := sound_inductive.runs hsound hu
  have hextends : Extends server t.store u.store :=
    sound_inductive.relates Extends.refl Extends.trans (fun _ _ _ => act_extends _ _) hsound hu
  refine ⟨fun keychain hmem => congrArg (fun keys => Except.ok (Except.ok keys)) (hlast.store.keys keychain hmem),?_,?_⟩
  · intro keys hkeys
    have hstored : t.store.database.publicKeys = some keys := Except.ok.inj (Except.ok.inj hkeys)
    exact congrArg (fun keys => Except.ok (Except.ok keys)) (hextends.keys keys hstored)
  intro id announced hf
  obtain ⟨keys,oracleEvent,hkeys,hverify,hevent,_⟩ := hsound.store.verifies hjson hsig hreveal hf
  obtain ⟨later,hlater,hsame⟩ := hextends.finds id announced hf
  obtain ⟨keys',oracleEvent',hkeys',hverify',_,hattested⟩ := hlast.store.verifies hjson hsig hreveal hlater
  obtain rfl := Option.some.inj ((hextends.keys keys hkeys).symm.trans hkeys')
  rw [hsame] at hverify'
  obtain rfl := Option.some.inj (Except.ok.inj (hverify.symm.trans hverify'))
  exact ⟨keys,oracleEvent,later,congrArg (fun keys => Except.ok (Except.ok keys)) hkeys,
    congrArg (fun keys => Except.ok (Except.ok keys)) hkeys',hlater,hsame,hverify,hevent,hattested⟩

end Runs

section Sampled
open Sample

abbrev sampleShared : Runs.CheckThenAct (Shared (group 10007)) SharedCall (SharedWrite (group 10007))
    (MayPanic SharedReply) :=
  protocol Oracle.sampleServer (libraries 10007)

/-- A match that was announced before a restart, and attested after it. -/
theorem shared_verifies_match : ∃ t u : Runs.Config (Shared (group 10007)) SharedCall (SharedWrite (group 10007))
    (MayPanic SharedReply), ∃ keys oracleEvent later attestation,
    sampleShared.Reaches (.start empty) t ∧ sampleShared.Reaches t u ∧ u.store.running.length = 2 ∧
    (Postgres.db Oracle.sampleServer).getPublicKeys t.store.database = .ok (.ok (some keys)) ∧
    (Postgres.db Oracle.sampleServer).getPublicKeys u.store.database = .ok (.ok (some keys)) ∧
    (Postgres.db Oracle.sampleServer).Finds u.store.database Oracle.sampleMatch later ∧
    later.attestation = some attestation ∧
    later.announcement.verifyAgainstId (libraries 10007).serdeJson Oracle.sampleMatch keys.announcement =
      .ok (some oracleEvent) ∧
    attestation.verifyOliviaV1Attestation oracleEvent keys = .ok (.ok ()) := by
  let s := sampleShared.ran 0 (.new Sample.seed) (.start empty)
  let t := sampleShared.ran 1 (.ask 0 (.addEvent ⟨Oracle.sampleMatch,none⟩)) s
  let v := sampleShared.ran 2 (.new Sample.seed) t
  let u := sampleShared.ran 3 (.ask 1 (.completeEvent ⟨⟨Oracle.sampleMatch,0⟩,⟨0,0⟩⟩)) v
  have hs : sampleShared.Reaches (.start empty) s := Runs.CheckThenAct.reaches_ran _ rfl
  have ht : sampleShared.Reaches s t := Runs.CheckThenAct.reaches_ran _ rfl
  have hv : sampleShared.Reaches t v := Runs.CheckThenAct.reaches_ran _ rfl
  have hu : sampleShared.Reaches v u := Runs.CheckThenAct.reaches_ran _ rfl
  have hrunning : u.store.running = [Sample.keychain,Sample.keychain] := by decide +kernel
  have hfound : ((Postgres.db Oracle.sampleServer).getAnnouncedEvent Oracle.sampleMatch t.store.database).toOption.any
      (fun r => r.toOption.any Option.isSome) = true := by decide +kernel
  have hattested : ((Postgres.db Oracle.sampleServer).getAnnouncedEvent Oracle.sampleMatch u.store.database).toOption.any
      (fun r => r.toOption.any (fun found => found.any (fun announced => announced.attestation.isSome))) = true := by
    decide +kernel
  obtain ⟨r,hget,hfound⟩ := MayPanic.of_toOption_any hfound
  obtain ⟨found,rfl,hfound⟩ := MayPanic.of_toOption_any hfound
  obtain ⟨announced,rfl⟩ := Option.isSome_iff_exists.mp hfound
  obtain ⟨_,hstay,hfinds⟩ := shared_verifies (roundTrips 10007) (announcementsVerify 10007)
    (Secp256k1.revealsVerify (library 10007)) (hs.trans ht) (hv.trans hu)
  obtain ⟨keys,oracleEvent,later,hkeys,_,hlater,hsame,hverify,_,hvalid⟩ := hfinds _ _ hget
  obtain ⟨r',hget',hattested⟩ := MayPanic.of_toOption_any hattested
  obtain ⟨found',rfl,hattested⟩ := MayPanic.of_toOption_any hattested
  obtain rfl : some later = found' := Except.ok.inj (Except.ok.inj (hlater.symm.trans hget'))
  obtain ⟨attestation,hatt⟩ := Option.isSome_iff_exists.mp hattested
  refine ⟨t,u,keys,oracleEvent,later,attestation,hs.trans ht,hv.trans hu,by rw [hrunning]; rfl,hkeys,hstay keys hkeys,
    hlater,hatt,hsame ▸ hverify,hvalid ?_ attestation hatt⟩
  intro a ha b hb
  rw [hrunning] at ha hb
  simp only [List.mem_cons,List.not_mem_nil,or_self,or_false] at ha hb
  exact ha.trans hb.symm

end Sampled

end Shared
end Olivia
