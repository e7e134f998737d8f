import Olivia.Oracle.KeyChain
import Olivia.Db.Basic
import Olivia.Runs.CheckThenAct

/-! # The oracle

Adding an event and completing one both read the announced event first and then write,
in two accesses to the database. The decision is a function of what was read; the write is
made whatever the database holds by then.
-/
namespace Olivia

inductive EventResult
  | alreadyExists
  | alreadyCompleted
  | changed
  | dbReadErr (e : DbError)
  | dbWriteErr (e : DbError)
  deriving DecidableEq

inductive OutcomeResult
  | alreadyCompleted
  | outcomeChanged (existing new : Str)
  | eventNotExist
  | dbReadErr (e : DbError)
  | dbWriteErr (e : DbError)
  | announcementWasBogus
  deriving DecidableEq

inductive OracleCall
  | addEvent (newEvent : Event)
  | completeEvent (stamped : StampedOutcome)

inductive OracleWrite (C : Group)
  | insertEvent (announced : AnnouncedEvent C)
  | completeEvent (eventId : EventId) (attestation : Attestation C)

inductive OracleReply
  | addEvent (r : Except EventResult Unit)
  | completeEvent (r : Except OutcomeResult Unit)
  deriving DecidableEq

structure Oracle (C : Group) (σ : Type) where
  db : Db C σ
  keychain : KeyChain C
  lib : Libraries C

namespace Oracle
variable {C : Group} {σ : Type} (oracle : Oracle C σ)

/-- The read of `add_event` and what it decides. -/
def addEventRead (newEvent : Event) (s : σ) : MayPanic (Except EventResult (AnnouncedEvent C)) := do
  match ← oracle.db.getAnnouncedEvent newEvent.id s with
  | .ok (some announced) =>
    return .error (if announced.attestation.isSome then .alreadyCompleted else .alreadyExists)
  | .ok none =>
    let announcement ← oracle.keychain.createAnnouncement oracle.lib newEvent
    return .ok ⟨newEvent,announcement,none⟩
  | .error e => return .error (.dbReadErr e)

/-- What is attested of an outcome: every scheme that was announced. -/
def attest (stamped : StampedOutcome) (outcomeValStr : Str) (oracleEvent : OracleEvent C) :
    MayPanic (Attestation C) := do
  let oliviaV1 ← match oracleEvent.schemes.oliviaV1 with
    | some _ => do
      let scalars ← oracle.keychain.oliviaV1ScalarsForEventOutcome oracle.lib stamped
      pure (some ⟨scalars⟩)
    | none => pure none
  let ecdsaV1 := oracleEvent.schemes.ecdsaV1.map (fun _ =>
    ⟨oracle.keychain.ecdsaSignOutcome stamped.outcome⟩)
  Attestation.new outcomeValStr stamped.time ⟨oliviaV1,ecdsaV1⟩

/-- The read of `complete_event` and what it decides. -/
def completeEventRead (stamped : StampedOutcome) (s : σ) :
    MayPanic (Except OutcomeResult (EventId × Attestation C)) := do
  let existing ← oracle.db.getAnnouncedEvent stamped.outcome.id s
  let outcomeValStr ← stamped.outcome.outcomeString
  match existing with
  | .ok none => return .error .eventNotExist
  | .ok (some announced) =>
    match announced.attestation with
    | some attestation =>
      return .error (if attestation.outcome = outcomeValStr then .alreadyCompleted
        else .outcomeChanged attestation.outcome outcomeValStr)
    | none =>
      match ← announced.announcement.verifyAgainstId oracle.lib.serdeJson stamped.outcome.id
        oracle.keychain.oraclePublicKeys.announcement with
      | some oracleEvent =>
        let attestation ← oracle.attest stamped outcomeValStr oracleEvent
        return .ok (announced.event.id,attestation)
      | none => return .error .announcementWasBogus
  | .error e => return .error (.dbReadErr e)

/-- A read ends the call unless it decides to write. -/
def decided {ε α : Type} (reply : ε → OracleReply) (write : α → OracleWrite C) :
    MayPanic (Except ε α) → MayPanic OracleReply ⊕ OracleWrite C
  | .error panic => .inl (.error panic)
  | .ok (.error e) => .inl (.ok (reply e))
  | .ok (.ok a) => .inr (write a)

def read : OracleCall → σ → MayPanic OracleReply ⊕ OracleWrite C
  | .addEvent newEvent, s =>
    decided (fun e => .addEvent (.error e)) .insertEvent (oracle.addEventRead newEvent s)
  | .completeEvent stamped, s =>
    decided (fun e => .completeEvent (.error e)) (fun (id,attestation) => .completeEvent id attestation)
      (oracle.completeEventRead stamped s)

def write : OracleWrite C → σ → MayPanic OracleReply × σ
  | .insertEvent announced, s => (oracle.db.insertEvent announced s).map
      (fun r => r.map (fun r => .addEvent (r.mapError .dbWriteErr))) id
  | .completeEvent eventId attestation, s => (oracle.db.completeEvent eventId attestation s).map
      (fun r => r.map (fun r => .completeEvent (r.mapError .dbWriteErr))) id

/-- The oracle as calls that interleave on their database. -/
def protocol : Runs.CheckThenAct σ OracleCall (OracleWrite C) (MayPanic OracleReply) :=
  ⟨oracle.read,oracle.write⟩

/-- A call of `add_event` that nothing comes between. -/
def addEvent (newEvent : Event) (s : σ) : MayPanic OracleReply × σ := oracle.protocol.run (.addEvent newEvent) s
def completeEvent (stamped : StampedOutcome) (s : σ) : MayPanic OracleReply × σ :=
  oracle.protocol.run (.completeEvent stamped) s

variable {oracle} {s t : σ}

theorem decided_eq_inr {ε α : Type} {reply : ε → OracleReply} {write : α → OracleWrite C}
    {r : MayPanic (Except ε α)} {w : OracleWrite C} (h : decided reply write r = .inr w) :
    ∃ a, r = .ok (.ok a) ∧ write a = w := by
  cases r with
  | error panic => simp [decided] at h
  | ok r =>
    cases r with
    | error e => simp [decided] at h
    | ok a => exact ⟨a,rfl,Sum.inr.inj h⟩

/-- An insertion is decided on an unknown id, of the announcement made for it. -/
theorem read_addEvent {newEvent : Event} {w : OracleWrite C} (h : oracle.read (.addEvent newEvent) s = .inr w) :
    oracle.db.getAnnouncedEvent newEvent.id s = .ok (.ok none) ∧ ∃ announcement,
      oracle.keychain.createAnnouncement oracle.lib newEvent = .ok announcement ∧
      w = .insertEvent ⟨newEvent,announcement,none⟩ := by
  obtain ⟨announced,hr,rfl⟩ := decided_eq_inr h
  obtain ⟨existing,he,hr⟩ := MayPanic.bind_eq_ok.mp hr
  split at hr
  next => simp at hr
  next =>
    obtain ⟨announcement,ha,hr⟩ := MayPanic.bind_eq_ok.mp hr
    obtain rfl := Except.ok.inj (Except.ok.inj hr)
    exact ⟨he,announcement,ha,rfl⟩
  next => simp at hr

/-- The parts of an attestation. -/
theorem attest_eq_ok {stamped : StampedOutcome} {text : Str} {oracleEvent : OracleEvent C}
    {attestation : Attestation C} (h : oracle.attest stamped text oracleEvent = .ok attestation) :
    attestation.outcome = text ∧
    (oracleEvent.schemes.oliviaV1 = none ∧ attestation.schemes.oliviaV1 = none ∨
      ∃ oliviaV1 scalars, oracleEvent.schemes.oliviaV1 = some oliviaV1 ∧
        oracle.keychain.oliviaV1ScalarsForEventOutcome oracle.lib stamped = .ok scalars ∧
        attestation.schemes.oliviaV1 = some ⟨scalars⟩) ∧
    attestation.schemes.ecdsaV1 = oracleEvent.schemes.ecdsaV1.map (fun _ =>
      ⟨oracle.keychain.ecdsaSignOutcome stamped.outcome⟩) := by
  have hnew : ∀ schemes, Attestation.new text stamped.time schemes = .ok attestation →
      attestation.outcome = text ∧ attestation.schemes = schemes := by
    intro schemes hn
    obtain ⟨time,_,hn⟩ := MayPanic.bind_eq_ok.mp hn
    obtain rfl := Except.ok.inj hn
    exact ⟨rfl,rfl⟩
  cases ho : oracleEvent.schemes.oliviaV1 with
  | none =>
    simp only [attest,ho,MayPanic.pure_eq,MayPanic.ok_bind] at h
    obtain ⟨houtcome,hschemes⟩ := hnew _ h
    exact ⟨houtcome,Or.inl ⟨rfl,by rw [hschemes]⟩,by rw [hschemes]⟩
  | some oliviaV1 =>
    simp only [attest,ho] at h
    obtain ⟨scalars,hscalars,h⟩ := MayPanic.bind_eq_ok.mp h
    simp only [MayPanic.pure_eq,MayPanic.ok_bind] at h
    obtain ⟨houtcome,hschemes⟩ := hnew _ h
    exact ⟨houtcome,Or.inr ⟨oliviaV1,scalars,rfl,hscalars,by rw [hschemes]⟩,by rw [hschemes]⟩

/-- Everything the read of `complete_event` can decide. -/
theorem completeEventRead_eq_ok {stamped : StampedOutcome} {r : Except OutcomeResult (EventId × Attestation C)}
    (h : oracle.completeEventRead stamped s = .ok r) : ∃ text, stamped.outcome.outcomeString = .ok text ∧
      ((∃ e, oracle.db.getAnnouncedEvent stamped.outcome.id s = .ok (.error e) ∧ r = .error (.dbReadErr e)) ∨
      (oracle.db.getAnnouncedEvent stamped.outcome.id s = .ok (.ok none) ∧ r = .error .eventNotExist) ∨
      ∃ announced, oracle.db.Finds s stamped.outcome.id announced ∧
        ((∃ attestation, announced.attestation = some attestation ∧
          r = .error (if attestation.outcome = text then .alreadyCompleted
            else .outcomeChanged attestation.outcome text)) ∨
        announced.attestation = none ∧ ∃ verified,
          announced.announcement.verifyAgainstId oracle.lib.serdeJson stamped.outcome.id
            oracle.keychain.oraclePublicKeys.announcement = .ok verified ∧
          (verified = none ∧ r = .error .announcementWasBogus ∨ ∃ oracleEvent attestation,
            verified = some oracleEvent ∧ oracle.attest stamped text oracleEvent = .ok attestation ∧
            r = .ok (announced.event.id,attestation)))) := by
  obtain ⟨existing,he,h⟩ := MayPanic.bind_eq_ok.mp h
  obtain ⟨text,ht,h⟩ := MayPanic.bind_eq_ok.mp h
  refine ⟨text,ht,?_⟩
  rcases existing with e | (_ | announced)
  · exact Or.inl ⟨e,he,(Except.ok.inj h).symm⟩
  · exact Or.inr (Or.inl ⟨he,(Except.ok.inj h).symm⟩)
  · refine Or.inr (Or.inr ⟨announced,he,?_⟩)
    dsimp only at h
    cases ha : announced.attestation with
    | some attestation =>
      simp only [ha] at h
      exact Or.inl ⟨attestation,rfl,(Except.ok.inj h).symm⟩
    | none =>
      simp only [ha] at h
      obtain ⟨verified,hv,h⟩ := MayPanic.bind_eq_ok.mp h
      refine Or.inr ⟨rfl,verified,hv,?_⟩
      cases verified with
      | none => exact Or.inl ⟨rfl,(Except.ok.inj h).symm⟩
      | some oracleEvent =>
        obtain ⟨attestation,hatt,h⟩ := MayPanic.bind_eq_ok.mp h
        exact Or.inr ⟨oracleEvent,attestation,rfl,hatt,(Except.ok.inj h).symm⟩

/-- A completion is decided on an event found unattested, whose announcement still verifies. -/
theorem read_completeEvent {stamped : StampedOutcome} {w : OracleWrite C}
    (h : oracle.read (.completeEvent stamped) s = .inr w) : ∃ announced text oracleEvent attestation,
      oracle.db.Finds s stamped.outcome.id announced ∧ announced.attestation = none ∧
      stamped.outcome.outcomeString = .ok text ∧
      announced.announcement.verifyAgainstId oracle.lib.serdeJson stamped.outcome.id
        oracle.keychain.oraclePublicKeys.announcement = .ok (some oracleEvent) ∧
      oracle.attest stamped text oracleEvent = .ok attestation ∧
      w = .completeEvent announced.event.id attestation := by
  obtain ⟨written,hr,rfl⟩ := decided_eq_inr h
  obtain ⟨text,ht,⟨_,_,he⟩ | ⟨_,he⟩ | ⟨announced,hf,⟨_,_,he⟩ | ⟨hnone,verified,hv,⟨_,he⟩ | hok⟩⟩⟩ :=
    completeEventRead_eq_ok hr
  · cases he
  · cases he
  · cases he
  · cases he
  · obtain ⟨oracleEvent,attestation,rfl,hatt,he⟩ := hok
    obtain rfl := Except.ok.inj he
    exact ⟨announced,text,oracleEvent,attestation,hf,hnone,ht,hv,hatt,rfl⟩

/-- An announcement is found bogus when it fails to verify against the id asked for. -/
theorem completeEventRead_bogus {stamped : StampedOutcome}
    (h : oracle.completeEventRead stamped s = .ok (.error .announcementWasBogus)) : ∃ announced,
      oracle.db.Finds s stamped.outcome.id announced ∧
      announced.announcement.verifyAgainstId oracle.lib.serdeJson stamped.outcome.id
        oracle.keychain.oraclePublicKeys.announcement = .ok none := by
  obtain ⟨text,_,⟨_,_,he⟩ | ⟨_,he⟩ | ⟨announced,hf,⟨_,_,he⟩ | ⟨_,verified,hv,⟨rfl,_⟩ | hok⟩⟩⟩ :=
    completeEventRead_eq_ok h
  · cases he
  · cases he
  · split at he <;> cases he
  · exact ⟨announced,hf,hv⟩
  · obtain ⟨_,_,_,_,he⟩ := hok
    cases he

/-- A call that ends with its read has not succeeded. -/
theorem read_eq_inl {c : OracleCall} {r : MayPanic OracleReply} (h : oracle.read c s = .inl r) :
    r ≠ .ok (.addEvent (.ok ())) ∧ r ≠ .ok (.completeEvent (.ok ())) := by
  cases c with
  | addEvent newEvent =>
    rcases hd : oracle.addEventRead newEvent s with panic | (e | announced) <;>
      simp [read,hd,decided] at h <;> simp [← h]
  | completeEvent stamped =>
    rcases hd : oracle.completeEventRead stamped s with panic | (e | written) <;>
      simp [read,hd,decided] at h <;> simp [← h]

theorem write_insertEvent {announced : AnnouncedEvent C}
    (h : oracle.write (.insertEvent announced) s = (.ok (.addEvent (.ok ())),t)) :
    oracle.db.insertEvent announced s = (.ok (.ok ()),t) := by
  obtain ⟨hr,ht⟩ := Prod.mk.inj h
  refine Prod.ext ?_ ht
  rcases hd : (oracle.db.insertEvent announced s).1 with panic | (e | u)
  · simp [hd,Except.map] at hr
  · simp [hd,Except.map,Except.mapError] at hr
  · rfl

theorem write_completeEvent {eventId : EventId} {attestation : Attestation C}
    (h : oracle.write (.completeEvent eventId attestation) s = (.ok (.completeEvent (.ok ())),t)) :
    oracle.db.completeEvent eventId attestation s = (.ok (.ok ()),t) := by
  obtain ⟨hr,ht⟩ := Prod.mk.inj h
  refine Prod.ext ?_ ht
  rcases hd : (oracle.db.completeEvent eventId attestation s).1 with panic | (e | u)
  · simp [hd,Except.map] at hr
  · simp [hd,Except.map,Except.mapError] at hr
  · rfl

/-- A call that succeeds has decided on a write, and the write has succeeded. -/
theorem addEvent_eq_ok {newEvent : Event} (h : oracle.addEvent newEvent s = (.ok (.addEvent (.ok ())),t)) :
    ∃ announcement, oracle.keychain.createAnnouncement oracle.lib newEvent = .ok announcement ∧
      oracle.db.insertEvent ⟨newEvent,announcement,none⟩ s = (.ok (.ok ()),t) := by
  simp only [addEvent,Runs.CheckThenAct.run,protocol] at h
  cases hr : oracle.read (.addEvent newEvent) s with
  | inl r =>
    simp only [hr,Prod.mk.injEq] at h
    exact absurd h.1 (read_eq_inl hr).1
  | inr w =>
    obtain ⟨_,announcement,ha,rfl⟩ := read_addEvent hr
    simp only [hr] at h
    exact ⟨announcement,ha,write_insertEvent h⟩

theorem completeEvent_eq_ok {stamped : StampedOutcome}
    (h : oracle.completeEvent stamped s = (.ok (.completeEvent (.ok ())),t)) :
    ∃ announced text oracleEvent attestation, oracle.db.Finds s stamped.outcome.id announced ∧
      announced.attestation = none ∧ stamped.outcome.outcomeString = .ok text ∧
      announced.announcement.verifyAgainstId oracle.lib.serdeJson stamped.outcome.id
        oracle.keychain.oraclePublicKeys.announcement = .ok (some oracleEvent) ∧
      oracle.attest stamped text oracleEvent = .ok attestation ∧
      oracle.db.completeEvent announced.event.id attestation s = (.ok (.ok ()),t) := by
  simp only [completeEvent,Runs.CheckThenAct.run,protocol] at h
  cases hr : oracle.read (.completeEvent stamped) s with
  | inl r =>
    simp only [hr,Prod.mk.injEq] at h
    exact absurd h.1 (read_eq_inl hr).2
  | inr w =>
    obtain ⟨announced,text,oracleEvent,attestation,hf,hnone,ht,hv,ha,rfl⟩ := read_completeEvent hr
    simp only [hr] at h
    exact ⟨announced,text,oracleEvent,attestation,hf,hnone,ht,hv,ha,write_completeEvent h⟩

end Oracle
end Olivia
