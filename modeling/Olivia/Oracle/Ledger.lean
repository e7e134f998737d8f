import Olivia.Oracle.Attesting
import Olivia.Oracle.Service

/-! # The ledger

What the messages tell of an event is the first one that adds it and the first outcome that
is sent for it afterwards. The store holds exactly this: later events under the same id, later
outcomes and outcomes that come before their event leave no trace.
-/
namespace Olivia
namespace Service
variable {C : Group} (service : Service C)

/-- The event that a message adds under an id. -/
def adds (id : EventId) (sent : Sent) : Option Event :=
  match sent.update with
  | .event event =>
    if (event.prefixPath sent.parent).id = id then some (event.prefixPath sent.parent) else none
  | _ => none

/-- The outcome that a message has for an id. -/
def completes (id : EventId) (sent : Sent) : Option StampedOutcome :=
  match sent.update with
  | .outcome stamped =>
    if (stamped.prefixPath sent.parent).outcome.id = id then some (stamped.prefixPath sent.parent) else none
  | _ => none

/-- The first event under an id, and the first outcome for it that comes after. -/
def told (id : EventId) : List Sent → Option (Event × Option StampedOutcome)
  | [] => none
  | sent :: msgs =>
    match adds id sent with
    | some event => some (event,msgs.findSome? (completes id))
    | none => told id msgs

/-- An entry is the record of an event: its announcement, and the attestation of its outcome. -/
structure Records (event : Event) (completed : Option StampedOutcome) (announced : AnnouncedEvent C) : Prop where
  event_eq : announced.event = event
  announcement_eq : service.keychain.createAnnouncement service.lib event = .ok announced.announcement
  unattested : completed = none → announced.attestation = none
  attested : ∀ stamped, completed = some stamped → stamped.outcome.id = event.id ∧ ∃ nonces text attestation,
    service.keychain.noncesForEvent service.lib event.id = .ok nonces ∧
    stamped.outcome.outcomeString = .ok text ∧
    service.oracle.attest stamped text ⟨event,KeyChain.announcedSchemes nonces⟩ = .ok attestation ∧
    announced.attestation = some attestation

/-- An entry holds what was told, nothing where nothing was told. -/
def Holds : Option (Event × Option StampedOutcome) → Option (AnnouncedEvent C) → Prop
  | none,entry => entry = none
  | some (event,completed),entry => ∃ announced, entry = some announced ∧ service.Records event completed announced

/-- The kind that a message sets for a node. -/
def setsKind (path : Path) (sent : Sent) : Option NodeKind :=
  match sent.update with
  | .node node => if (node.prefixPath sent.parent).path = path then some node.kind else none
  | _ => none

/-- What a message does to the entry under an id. -/
def entryEffect (id : EventId) (sent : Sent) (entry : Option (AnnouncedEvent C)) :
    MayPanic (Option (AnnouncedEvent C)) :=
  match adds id sent,completes id sent with
  | some event,_ => Oracle.addTo service.keychain service.lib event entry
  | none,some stamped => Oracle.completeIn service.keychain service.lib stamped entry
  | none,none => .ok entry

variable {service} {id : EventId} {sent : Sent} {s t : NodeDb C} {msgs : List Sent}

theorem completes_eq_some {stamped : StampedOutcome} (h : completes id sent = some stamped) :
    stamped.outcome.id = id := by
  unfold completes at h
  split at h
  next =>
    split at h
    next hid => exact Option.some.inj h ▸ hid
    next => cases h
  next => cases h

theorem adds_of_subject_ne (h : subject sent ≠ .inl id) : adds id sent = none ∧ completes id sent = none := by
  obtain ⟨parent,update⟩ := sent
  cases update with
  | event event =>
    have hid : (event.prefixPath parent).id ≠ id := fun hid => h (congrArg Sum.inl hid)
    simp [adds,completes,hid]
  | outcome stamped =>
    have hid : (stamped.prefixPath parent).outcome.id ≠ id := fun hid => h (congrArg Sum.inl hid)
    simp [adds,completes,hid]
  | node node => exact ⟨rfl,rfl⟩

theorem effect_event (entry : Option (AnnouncedEvent C)) (h : subject sent = .inl id) :
    service.effect sent (.event entry) = (service.entryEffect id sent entry).map .event := by
  obtain ⟨parent,update⟩ := sent
  cases update with
  | event event =>
    have hid : (event.prefixPath parent).id = id := Sum.inl.inj h
    simp [effect,entryEffect,adds,hid]
  | outcome stamped =>
    have hid : (stamped.prefixPath parent).outcome.id = id := Sum.inl.inj h
    simp [effect,entryEffect,adds,completes,hid]
  | node node => cases h

/-- The step of the loop, seen from one event. -/
theorem step_entry (id : EventId) (hs : s.toInMemory.Keyed) (h : service.machine.step sent s = .ok t) :
    service.entryEffect id sent (s.inner.lookup id) = .ok (t.inner.lookup id) := by
  by_cases hsubject : subject sent = .inl id
  · have heffect : service.effect sent (seen s (subject sent)) = .ok (seen t (subject sent)) :=
      Runs.Local.effect_of_step (P := service.machine) hs h
    rw [hsubject,seen,effect_event _ hsubject] at heffect
    obtain ⟨entry,hentry,hseen⟩ := MayPanic.map_eq_ok heffect
    rw [hentry,Seen.event.inj hseen]
  · obtain ⟨hadds,hcompletes⟩ := adds_of_subject_ne hsubject
    have hsame := seen_event.mp (service.machine.others hs h (Ne.symm hsubject))
    rw [entryEffect,hadds,hcompletes,hsame]

section Phases
variable {announced : AnnouncedEvent C}

/-- An attested event stays as it is. -/
theorem lookup_of_attested (hs : s.toInMemory.Keyed) (h : service.machine.run msgs s = .ok t)
    (hl : s.inner.lookup id = some announced) (ha : announced.attestation.isSome) :
    t.inner.lookup id = some announced := by
  induction msgs generalizing s with
  | nil =>
    obtain rfl := Except.ok.inj h
    exact hl
  | cons sent msgs ih =>
    obtain ⟨u,hstep,hrest⟩ := Runs.Local.run_cons_eq_ok.mp h
    refine ih (service.machine.keeps hs hstep) hrest ?_
    have hentry := step_entry id hs hstep
    rw [hl] at hentry
    unfold entryEffect at hentry
    split at hentry
    next => exact (Except.ok.inj hentry).symm
    next stamped _ =>
      obtain ⟨text,_,hentry⟩ := MayPanic.bind_eq_ok.mp hentry
      simpa [ha,eq_comm] using hentry
    next => exact (Except.ok.inj hentry).symm

/-- The first outcome that reaches an announced event is attested. -/
theorem completeIn_announced (hjson : service.lib.serdeJson.RoundTrips) (hsig : C.AnnouncementsVerify)
    {stamped : StampedOutcome} {entry : Option (AnnouncedEvent C)} (hid : announced.event.id.Accepted)
    (hrecords : service.Records announced.event none announced) (hstamped : stamped.outcome.id = announced.event.id)
    (h : Oracle.completeIn service.keychain service.lib stamped (some announced) = .ok entry) :
    ∃ attested, entry = some attested ∧ attested.attestation.isSome ∧
      service.Records announced.event (some stamped) attested := by
  have hnone := hrecords.unattested rfl
  rcases KeyChain.createAnnouncement_spec hjson hsig service.keychain hid with
    ⟨nonces,announcement,hnonces,hcreate,hverify⟩ | ⟨_,_,he,_⟩
  · obtain rfl : announced.announcement = announcement := Except.ok.inj (hrecords.announcement_eq.symm.trans hcreate)
    obtain ⟨text,ht,h⟩ := MayPanic.bind_eq_ok.mp h
    have hverified := hverify stamped.outcome.id
    rw [hstamped,if_pos rfl] at hverified
    simp only [hnone,Option.isSome_none,Bool.false_eq_true,if_false,hstamped,hverified,MayPanic.ok_bind] at h
    obtain ⟨attestation,hatt,h⟩ := MayPanic.bind_eq_ok.mp h
    obtain rfl := Except.ok.inj h
    refine ⟨_,rfl,rfl,rfl,hrecords.announcement_eq,(fun h => nomatch h),?_⟩
    intro stamped' hsome
    obtain rfl := Option.some.inj hsome
    exact ⟨hstamped,nonces,text,attestation,hnonces,ht,hatt,rfl⟩
  · cases hrecords.announcement_eq.symm.trans he

theorem lookup_of_announced (hjson : service.lib.serdeJson.RoundTrips) (hsig : C.AnnouncementsVerify)
    (hs : s.toInMemory.Keyed) (hid : id.Accepted) (h : service.machine.run msgs s = .ok t)
    (hl : s.inner.lookup id = some announced) (hrecords : service.Records announced.event none announced) :
    ∃ later, t.inner.lookup id = some later ∧
      service.Records announced.event (msgs.findSome? (completes id)) later := by
  have hkey : announced.event.id = id := hs id announced hl
  induction msgs generalizing s with
  | nil =>
    obtain rfl := Except.ok.inj h
    exact ⟨announced,hl,hrecords⟩
  | cons sent msgs ih =>
    obtain ⟨u,hstep,hrest⟩ := Runs.Local.run_cons_eq_ok.mp h
    have hu := service.machine.keeps hs hstep
    have hentry := step_entry id hs hstep
    rw [hl] at hentry
    cases hcompletes : completes id sent with
    | none =>
      rw [List.findSome?_cons,hcompletes]
      refine ih hu hrest ?_
      unfold entryEffect at hentry
      cases hadds : adds id sent with
      | none =>
        rw [hadds,hcompletes] at hentry
        exact (Except.ok.inj hentry).symm
      | some event =>
        rw [hadds] at hentry
        exact (Except.ok.inj hentry).symm
    | some stamped =>
      rw [List.findSome?_cons,hcompletes]
      have hadds : adds id sent = none := by
        obtain ⟨parent,update⟩ := sent
        cases update with
        | outcome _ => rfl
        | event _ => cases hcompletes
        | node _ => rfl
      rw [entryEffect,hadds,hcompletes] at hentry
      obtain ⟨attested,he,hsome,hrecorded⟩ := completeIn_announced hjson hsig (hkey ▸ hid) hrecords
        ((completes_eq_some hcompletes).trans hkey.symm) hentry
      exact ⟨attested,lookup_of_attested hu hrest he hsome,hrecorded⟩

theorem lookup_of_unknown (hjson : service.lib.serdeJson.RoundTrips) (hsig : C.AnnouncementsVerify)
    (hs : s.toInMemory.Keyed) (hid : id.Accepted) (h : service.machine.run msgs s = .ok t)
    (hl : s.inner.lookup id = none) : service.Holds (told id msgs) (t.inner.lookup id) := by
  induction msgs generalizing s with
  | nil =>
    obtain rfl := Except.ok.inj h
    exact hl
  | cons sent msgs ih =>
    obtain ⟨u,hstep,hrest⟩ := Runs.Local.run_cons_eq_ok.mp h
    have hu := service.machine.keeps hs hstep
    have hentry := step_entry id hs hstep
    rw [hl] at hentry
    cases hadds : adds id sent with
    | none =>
      rw [told,hadds]
      refine ih hu hrest ?_
      rw [entryEffect,hadds] at hentry
      cases hcompletes : completes id sent with
      | none =>
        rw [hcompletes] at hentry
        exact (Except.ok.inj hentry).symm
      | some stamped =>
        rw [hcompletes] at hentry
        obtain ⟨text,_,hentry⟩ := MayPanic.bind_eq_ok.mp hentry
        exact (Except.ok.inj hentry).symm
    | some event =>
      rw [told,hadds]
      rw [entryEffect,hadds] at hentry
      obtain ⟨announcement,hann,hentry⟩ := MayPanic.bind_eq_ok.mp hentry
      have hrecords : service.Records event none ⟨event,announcement,none⟩ :=
        ⟨rfl,hann,fun _ => rfl,fun _ h => nomatch h⟩
      obtain ⟨later,hlater,hrecorded⟩ := lookup_of_announced hjson hsig hu hid hrest
        (Except.ok.inj hentry).symm hrecords
      exact ⟨later,hlater,hrecorded⟩

end Phases

/-- The kind that was sent last for a node stays. -/
theorem lookup_nodeKinds (hs : s.toInMemory.Keyed) (h : service.machine.run msgs s = .ok t) (path : Path) :
    t.nodeKinds.lookup path = (msgs.filterMap (setsKind path)).getLast?.or (s.nodeKinds.lookup path) := by
  induction msgs generalizing s with
  | nil =>
    obtain rfl := Except.ok.inj h
    rfl
  | cons sent msgs ih =>
    obtain ⟨u,hstep,hrest⟩ := Runs.Local.run_cons_eq_ok.mp h
    rw [ih (service.machine.keeps hs hstep) hrest]
    by_cases hsubject : subject sent = .inr path
    · have heffect : service.effect sent (seen s (subject sent)) = .ok (seen u (subject sent)) :=
        Runs.Local.effect_of_step (P := service.machine) hs hstep
      obtain ⟨parent,update⟩ := sent
      cases update with
      | event _ => cases hsubject
      | outcome _ => cases hsubject
      | node node =>
        obtain rfl : (node.prefixPath parent).path = path := Sum.inr.inj hsubject
        have hset : u.nodeKinds.lookup (node.prefixPath parent).path = some node.kind :=
          (Seen.node.inj (Except.ok.inj heffect)).symm
        have hsets : setsKind (node.prefixPath parent).path ⟨parent,.node node⟩ = some node.kind := if_pos rfl
        rw [hset,List.filterMap_cons_some hsets,List.getLast?_cons]
        cases (msgs.filterMap (setsKind (node.prefixPath parent).path)).getLast? <;> rfl
    · have hsets : setsKind path sent = none := by
        obtain ⟨parent,update⟩ := sent
        cases update with
        | event _ => rfl
        | outcome _ => rfl
        | node node =>
          have hpath : (node.prefixPath parent).path ≠ path := fun hpath => hsubject (congrArg Sum.inr hpath)
          exact if_neg hpath
      have hsame := seen_node.mp (service.machine.others hs hstep (Ne.symm hsubject))
      rw [List.filterMap_cons_none hsets,hsame]

/-- The loop does not touch the published keys. -/
theorem serve_publicKeys (hs : s.toInMemory.Keyed) (h : service.machine.run msgs s = .ok t) :
    t.publicKeys = s.publicKeys := by
  induction msgs generalizing s with
  | nil => exact Except.ok.inj h ▸ rfl
  | cons sent msgs ih =>
    obtain ⟨u,hstep,hrest⟩ := Runs.Local.run_cons_eq_ok.mp h
    rw [ih (service.machine.keeps hs hstep) hrest]
    obtain ⟨⟨failed,v⟩,hv,rfl⟩ := MayPanic.map_eq_ok hstep
    rcases service.handledAs sent hs with ⟨_,_,he⟩ | ⟨_,w,hw,_,hkeys,_⟩
    · cases hv.symm.trans he
    · cases hv.symm.trans hw
      exact hkeys

/-- Of every event with an accepted id the store holds what the messages told: nothing, or the record of the first
event under its id and of the first outcome after it. A node has the kind that was sent last. -/
theorem serve_ledger (hjson : service.lib.serdeJson.RoundTrips) (hsig : C.AnnouncementsVerify)
    (h : service.serve msgs .default = .ok s) :
    (∀ id, id.Accepted → service.Holds (told id msgs) (s.inner.lookup id)) ∧
    ∀ path, NodeDb.kindOf s.nodeKinds path =
      (msgs.filterMap (setsKind path)).getLast?.getD (inferNodeKind path) := by
  rw [serve_eq_run] at h
  refine ⟨fun id hid => lookup_of_unknown hjson hsig InMemory.keyed_default hid h rfl,?_⟩
  intro path
  rw [NodeDb.kindOf,lookup_nodeKinds InMemory.keyed_default h path]
  cases (msgs.filterMap (setsKind path)).getLast? <;> rfl

/-- A recorded announcement verifies under the published keys, and its attestation against it. -/
theorem Records.verifies (hjson : service.lib.serdeJson.RoundTrips) (hsig : C.AnnouncementsVerify)
    (hreveal : C.RevealsVerify) {event : Event} {completed : Option StampedOutcome} {announced : AnnouncedEvent C}
    (h : service.Records event completed announced) (hid : event.id.Accepted) : ∃ oracleEvent,
      announced.announcement.verifyAgainstId service.lib.serdeJson event.id
        service.keychain.oraclePublicKeys.announcement = .ok (some oracleEvent) ∧ oracleEvent.event = event ∧
      ∀ attestation, announced.attestation = some attestation →
        attestation.verifyOliviaV1Attestation oracleEvent service.keychain.oraclePublicKeys = .ok (.ok ()) := by
  rcases KeyChain.createAnnouncement_spec hjson hsig service.keychain hid with
    ⟨nonces,announcement,hnonces,hcreate,hverify⟩ | ⟨_,_,he,_⟩
  · obtain rfl : announced.announcement = announcement := Except.ok.inj (h.announcement_eq.symm.trans hcreate)
    refine ⟨_,(hverify event.id).trans (by rw [if_pos rfl]),rfl,?_⟩
    intro attestation hatt
    cases completed with
    | none => cases (h.unattested rfl).symm.trans hatt
    | some stamped =>
      obtain ⟨hstamped,nonces',text,attestation',hnonces',htext,hattest,hsome⟩ := h.attested stamped rfl
      obtain rfl : attestation = attestation' := Option.some.inj (hatt.symm.trans hsome)
      obtain rfl : nonces = nonces' := Except.ok.inj (hnonces.symm.trans hnonces')
      obtain ⟨⟨_,value⟩,time⟩ := stamped
      obtain rfl := hstamped
      obtain ⟨p,k,hr⟩ := hid.reads
      exact (Oracle.attest_oliviaV1 hreveal hr (hr.admits_of_outcomeString htext) hnonces htext hattest).2
  · cases h.announcement_eq.symm.trans he

section Recorded
variable {announced : AnnouncedEvent C} {later : List Sent}

/-- What is stored of an event is the record of it. -/
def Recorded (service : Service C) (s : NodeDb C) : Prop := ∀ id announced, id.Accepted →
  s.inner.lookup id = some announced → ∃ event completed, event.id = id ∧ service.Records event completed announced

theorem recorded_of_run (hjson : service.lib.serdeJson.RoundTrips) (hsig : C.AnnouncementsVerify)
    (hempty : s.inner = ∅) (h : service.machine.run msgs s = .ok t) : service.Recorded t := by
  have hkeyed : s.toInMemory.Keyed := by
    intro id announced hl
    rw [hempty] at hl
    cases hl
  intro id announced hid hl
  have hholds := lookup_of_unknown hjson hsig hkeyed hid h (by rw [hempty]; rfl)
  have hkey : announced.event.id = id := service.machine.run_keeps hkeyed h id announced hl
  cases htold : told id msgs with
  | none =>
    rw [htold] at hholds
    cases hl.symm.trans hholds
  | some tale =>
    rw [htold] at hholds
    obtain ⟨announced',hl',hrecords⟩ := hholds
    obtain rfl := Option.some.inj (hl.symm.trans hl')
    exact ⟨tale.1,tale.2,hrecords.event_eq ▸ hkey,hrecords⟩

/-- A recorded event is announced and attested as before after any more messages. -/
theorem lookup_later (hjson : service.lib.serdeJson.RoundTrips) (hsig : C.AnnouncementsVerify)
    (hs : s.toInMemory.Keyed) (hrecorded : service.Recorded s) (hid : id.Accepted)
    (hl : s.inner.lookup id = some announced) (h : service.machine.run later s = .ok t) :
    ∃ announced', t.inner.lookup id = some announced' ∧ announced'.announcement = announced.announcement ∧
      ∀ attestation, announced.attestation = some attestation → announced'.attestation = some attestation := by
  obtain ⟨event,completed,_,hrecords⟩ := hrecorded id announced hid hl
  cases completed with
  | some stamped =>
    obtain ⟨_,_,_,attestation,_,_,_,hatt⟩ := hrecords.attested stamped rfl
    exact ⟨announced,lookup_of_attested hs h hl (by rw [hatt]; rfl),rfl,fun _ h => h⟩
  | none =>
    obtain rfl := hrecords.event_eq
    obtain ⟨announced',hl',hrecords'⟩ := lookup_of_announced hjson hsig hs hid h hl hrecords
    refine ⟨announced',hl',Except.ok.inj (hrecords'.announcement_eq.symm.trans hrecords.announcement_eq),?_⟩
    intro attestation hatt
    cases (hrecords.unattested rfl).symm.trans hatt

end Recorded

section Sampled

/-- An outcome that comes too early, and one that comes too late. -/
def sampleMessages : List Sent := [sampleOutcome "/foo" "/A_B.vs" 1,sampleEvent "/foo" "/A_B.vs",
  sampleOutcome "/foo" "/A_B.vs" 0,sampleOutcome "/foo" "/A_B.vs" 1]

theorem serve_ledger_vs : ∃ s : NodeDb (Sample.group 10007), ∃ announced attestation,
    sampleService.serve sampleMessages .default = .ok s ∧
    s.inner.lookup ⟨⟨"/foo/A_B.vs".toList⟩⟩ = some announced ∧ announced.attestation = some attestation ∧
    attestation.outcome = "A_win".toList := by
  obtain ⟨s,hs⟩ : ∃ s, sampleService.serve sampleMessages .default = .ok s :=
    MayPanic.isOk_of_toOption (by decide +kernel)
  have htold : told ⟨⟨"/foo/A_B.vs".toList⟩⟩ sampleMessages =
      some (⟨⟨⟨"/foo/A_B.vs".toList⟩⟩,none⟩,some ⟨⟨⟨⟨"/foo/A_B.vs".toList⟩⟩,0⟩,⟨0,0⟩⟩) := by decide +kernel
  have hholds := (serve_ledger (Sample.roundTrips 10007) (Sample.announcementsVerify 10007) hs).1
    ⟨⟨"/foo/A_B.vs".toList⟩⟩ (by decide +kernel)
  rw [htold] at hholds
  obtain ⟨announced,hl,hrecords⟩ := hholds
  obtain ⟨_,nonces,text,attestation,_,htext,hatt,hsome⟩ := hrecords.attested _ rfl
  have hprinted : Outcome.outcomeString ⟨⟨⟨"/foo/A_B.vs".toList⟩⟩,0⟩ = .ok "A_win".toList := by decide +kernel
  obtain rfl := Except.ok.inj (htext.symm.trans hprinted)
  exact ⟨s,announced,attestation,hs,hl,hsome,(Oracle.attest_eq_ok hatt).1⟩

end Sampled

end Service
end Olivia
