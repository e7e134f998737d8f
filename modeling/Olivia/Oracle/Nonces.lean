import Olivia.Oracle.Lifecycle

/-! # Nonces in a run

An attestation derives its nonces again, from the id of its event and the index of every
digit. A second scalar under one nonce would reveal the key: none is ever shown, because
the derivation separates the digits of all events and the store keeps one attestation of
each. The hashes of the library are assumed to have no collision among the messages that
are hashed for the digits of a run.
-/
namespace Olivia

/-- Of the given tags and messages, the first hash keeps the tags apart under the key, the
second one keeps the messages apart under the hashes of their tags, and no two of the
results make one nonce. -/
structure CollisionFree (C : Group) (blake2b : Blake2b) (key : Vector UInt8 64)
    (hashed : Set (List UInt8 × List UInt8)) : Prop where
  mac : Set.InjOn (blake2b.mac key) {tag | ∃ message, (tag,message) ∈ hashed}
  varMac : Set.InjOn (fun input : Vector UInt8 64 × List UInt8 => blake2b.varMac input.1 C.keyMaterialLen input.2)
    {input | ∃ tag, (tag,input.2) ∈ hashed ∧ input.1 = blake2b.mac key tag}
  nonce : Set.InjOn C.nonceKeypairFromSecretBytes {bytes |
    (∃ tag message, (tag,message) ∈ hashed ∧ bytes = blake2b.varMac (blake2b.mac key tag) C.keyMaterialLen message) ∧
      ∃ nonce, C.nonceKeypairFromSecretBytes bytes = .ok nonce}

/-- Messages that make one nonce are one message under one tag. -/
theorem CollisionFree.eq_of_nonce {C : Group} {blake2b : Blake2b} {key : Vector UInt8 64}
    {hashed : Set (List UInt8 × List UInt8)} (hfree : CollisionFree C blake2b key hashed)
    {tag tag' message message' : List UInt8} (h : (tag,message) ∈ hashed) (h' : (tag',message') ∈ hashed)
    {nonce : C.NonceKeyPair}
    (hn : C.nonceKeypairFromSecretBytes (blake2b.varMac (blake2b.mac key tag) C.keyMaterialLen message) = .ok nonce)
    (hn' : C.nonceKeypairFromSecretBytes (blake2b.varMac (blake2b.mac key tag') C.keyMaterialLen message') =
      .ok nonce) : tag = tag' ∧ message = message' := by
  have hbytes := hfree.nonce ⟨⟨tag,message,h,rfl⟩,nonce,hn⟩ ⟨⟨tag',message',h',rfl⟩,nonce,hn'⟩ (hn.trans hn'.symm)
  have hinput : (blake2b.mac key tag,message) = (blake2b.mac key tag',message') :=
    hfree.varMac ⟨tag,h,rfl⟩ ⟨tag',h',rfl⟩ hbytes
  obtain ⟨hkey,hmessage⟩ := Prod.mk.inj hinput
  exact ⟨hfree.mac ⟨message,h⟩ ⟨message',h'⟩ hkey,hmessage⟩

/-- The digits of the events in a store. -/
def InMemory.Digit {C : Group} (s : InMemory C) (id : EventId) (i : ℕ) : Prop :=
  (s.inner.lookup id).isSome ∧ ∃ n, id.nNonces = .ok n ∧ i < n.toNat

namespace InMemory
variable {C : Group} {s t : InMemory C} {id : EventId} {i : ℕ}

/-- What is hashed for the digits of the stored events: the id as a tag, and the digit's
index as a message of one byte. -/
def hashed (s : InMemory C) : Set (List UInt8 × List UInt8) :=
  {input | ∃ id i, s.Digit id i ∧ input = (id.asBytes,[UInt8.ofNat i])}

theorem Evolves.digit (h : s.Evolves t) (hd : s.Digit id i) : t.Digit id i := by
  obtain ⟨hsome,hn⟩ := hd
  obtain ⟨announced,hl⟩ := Option.isSome_iff_exists.mp hsome
  obtain ⟨later,hlater,_⟩ := h _ _ hl
  exact ⟨by simp [hlater],hn⟩

theorem Digit.lt (h : s.Digit id i) : i < 64 := by
  obtain ⟨_,n,hn,hlt⟩ := h
  obtain ⟨k,hk,hn⟩ := MayPanic.bind_eq_ok.mp hn
  obtain rfl := Except.ok.inj hn
  exact Nat.lt_of_lt_of_le hlt (UInt8.le_iff_toNat_le.mp (EventId.nNonces_le hk))

end InMemory

namespace Oracle
variable {C : Group} (keychain : KeyChain C) (lib : Libraries C)

/-- An attestation made of an outcome of the event, against what was announced for it. -/
def AttestedFrom (announcement : RawAnnouncement C) (id : EventId) (attestation : Attestation C) : Prop :=
  ∃ stamped oracleEvent, stamped.outcome.id = id ∧ stamped.outcome.outcomeString = .ok attestation.outcome ∧
    announcement.verifyAgainstId lib.serdeJson id keychain.oraclePublicKeys.announcement =
      .ok (some oracleEvent) ∧
    (inMemory keychain lib).attest stamped attestation.outcome oracleEvent = .ok attestation

variable {keychain lib} in
theorem AttestedFrom.accepted {announcement : RawAnnouncement C} {id : EventId} {attestation : Attestation C}
    (h : AttestedFrom keychain lib announcement id attestation) : id.Accepted := by
  obtain ⟨_,oracleEvent,_,_,hverify,_⟩ := h
  obtain ⟨hdecode,rfl⟩ := RawAnnouncement.verifyAgainstId_eq_some hverify
  exact (RawOracleEvent.decode_eq_some hdecode).1

/-- An entry was announced by the oracle, and attested by it if it was. -/
def Authored (id : EventId) (announced : AnnouncedEvent C) : Prop :=
  Announces keychain lib id announced ∧ ∀ attestation, announced.attestation = some attestation →
    AttestedFrom keychain lib announced.announcement id attestation

/-- What a pending write will keep: an insertion is unattested, and a completion is of a
stored event. -/
def WillAuthor : OracleWrite C → InMemory C → Prop
  | .insertEvent announced,_ =>
    Announces keychain lib announced.event.id announced ∧ announced.attestation = none
  | .completeEvent id attestation,s => ∃ announced, s.inner.lookup id = some announced ∧
    AttestedFrom keychain lib announced.announcement id attestation

variable {keychain lib}

theorem authored_inductive : (inMemory keychain lib).protocol.Inductive (fun _ _ => True)
    (InMemory.Every (Authored keychain lib)) (fun _ w s => WillAuthor keychain lib w s) (fun _ _ => True) where
  check {c w s} hs h := by
    cases c with
    | addEvent newEvent =>
      obtain ⟨_,announcement,hann,rfl⟩ := read_addEvent h
      exact ⟨⟨rfl,hann⟩,rfl⟩
    | completeEvent stamped =>
      obtain ⟨announced,text,oracleEvent,attestation,hf,_,ht,hverify,hatt,rfl⟩ := read_completeEvent h
      have hl := InMemory.finds_iff.mp hf
      have hkey := (hs _ _ hl).1.1
      obtain ⟨rfl,_⟩ := attest_eq_ok hatt
      rw [← hkey] at hl hverify
      exact ⟨announced,hl,stamped,oracleEvent,hkey.symm,ht,hverify,hatt⟩
  answer _ _ := trivial
  act {c w s} hs hq _ := by
    cases w with
    | insertEvent announced =>
      obtain ⟨hann,hnone⟩ := hq
      refine InMemory.insertEvent_every hs ⟨hann,?_⟩
      intro attestation hsome
      cases hnone.symm.trans hsome
    | completeEvent id attestation =>
      obtain ⟨announced,hl,hatt⟩ := hq
      refine InMemory.completeEvent_every hs ?_
      intro found hfound hauthored
      obtain rfl := Option.some.inj (hl.symm.trans hfound)
      refine ⟨hauthored.1,?_⟩
      intro attestation' hsome
      obtain rfl := Option.some.inj hsome
      exact hatt
  result _ _ _ := trivial
  stable {c w c' w' s} _ hq _ _ := by
    cases w with
    | insertEvent announced => exact hq
    | completeEvent id attestation =>
      obtain ⟨announced,hl,hatt⟩ := hq
      have hevolves : s.Evolves ((inMemory keychain lib).write w' s).2 := write_inMemory_evolves w' s
      obtain ⟨later,hlater,_,hann,_⟩ := hevolves _ _ hl
      exact ⟨later,hlater,hann ▸ hatt⟩

/-- A scalar for olivia-v1 that the store shows, at a digit of an event. -/
def Shows (s : InMemory C) (id : EventId) (i : ℕ) (scalar : C.AttestScalar) : Prop :=
  ∃ announced attestation oliviaV1, s.inner.lookup id = some announced ∧
    announced.attestation = some attestation ∧ attestation.schemes.oliviaV1 = some oliviaV1 ∧
    oliviaV1.scalars[i]? = some scalar

theorem shows_of_isSome {s : InMemory C} {id : EventId} {i : ℕ}
    (h : ((s.inner.lookup id).bind (fun announced => announced.attestation.bind (fun attestation =>
      attestation.schemes.oliviaV1.bind (fun oliviaV1 => oliviaV1.scalars[i]?)))).isSome = true) :
    ∃ scalar, Shows s id i scalar := by
  obtain ⟨scalar,h⟩ := Option.isSome_iff_exists.mp h
  obtain ⟨announced,hl,h⟩ := Option.bind_eq_some_iff.mp h
  obtain ⟨attestation,hatt,h⟩ := Option.bind_eq_some_iff.mp h
  obtain ⟨oliviaV1,holivia,h⟩ := Option.bind_eq_some_iff.mp h
  exact ⟨scalar,announced,attestation,oliviaV1,hl,hatt,holivia,h⟩

/-- The nonce and the index that a shown scalar was computed with: the attested outcome has
the index at this digit, and the nonce is the one derived for the digit. -/
def ComputedWith (keychain : KeyChain C) (lib : Libraries C) (s : InMemory C) (id : EventId) (i : ℕ)
    (nonce : C.NonceKeyPair) (index : UInt32) : Prop :=
  ∃ announced attestation stamped scalars indexes, s.inner.lookup id = some announced ∧
    announced.attestation = some attestation ∧ attestation.schemes.oliviaV1 = some ⟨scalars⟩ ∧
    stamped.outcome.id = id ∧ stamped.outcome.outcomeString = .ok attestation.outcome ∧
    keychain.oliviaV1ScalarsForEventOutcome lib stamped = .ok scalars ∧
    stamped.outcome.attestationIndexes = .ok indexes ∧ indexes[i]? = some index ∧
    C.nonceKeypairFromSecretBytes (keychain.nonceBytes lib id i) = .ok nonce ∧
    scalars[i]? = some (C.revealAttestScalar keychain.oliviaV1Keypair nonce index)

/-- The nonce that the stored announcement commits to at a digit. -/
def AnnouncedAt (lib : Libraries C) (s : InMemory C) (id : EventId) (i : ℕ) (publicNonce : C.PublicNonce) : Prop :=
  ∃ announced oracleEvent oliviaV1, s.inner.lookup id = some announced ∧
    announced.announcement.oracleEvent.decode lib.serdeJson = .ok (some oracleEvent) ∧
    oracleEvent.schemes.oliviaV1 = some oliviaV1 ∧ oliviaV1.nonces[i]? = some publicNonce

/-- What the store shows at a digit was computed with the nonce announced there. -/
theorem computedWith_of_shows (hjson : lib.serdeJson.RoundTrips) {s : InMemory C}
    (hs : InMemory.Every (Authored keychain lib) s) {id : EventId} {i : ℕ} {scalar : C.AttestScalar}
    (hshows : Shows s id i scalar) : ∃ nonce index, ComputedWith keychain lib s id i nonce index ∧
      scalar = C.revealAttestScalar keychain.oliviaV1Keypair nonce index ∧
      AnnouncedAt lib s id i (C.publicNonce nonce) := by
  obtain ⟨announced,attestation,oliviaV1,hl,hatt,holivia,hscalar⟩ := hshows
  obtain ⟨⟨hkey,hann⟩,hauthored⟩ := hs id announced hl
  have haccepted := (hauthored attestation hatt).accepted
  obtain ⟨p,k,hr⟩ := haccepted.reads
  obtain ⟨stamped,oracleEvent,hid,htext,hverify,hattest⟩ := hauthored attestation hatt
  obtain ⟨hdecode,_⟩ := RawAnnouncement.verifyAgainstId_eq_some hverify
  obtain ⟨nonces,hnonces,hdecode'⟩ := KeyChain.createAnnouncement_decode hjson (hkey ▸ haccepted) hann
  obtain rfl := Option.some.inj (Except.ok.inj (hdecode'.symm.trans hdecode))
  rw [hkey] at hnonces
  obtain ⟨⟨_,value⟩,time⟩ := stamped
  obtain rfl : _ = id := hid
  rcases (attest_eq_ok hattest).2.1 with ⟨_,hnone⟩ | ⟨_,scalars,_,hscalars,hsome⟩
  · cases hnone.symm.trans holivia
  · obtain rfl : ⟨scalars⟩ = oliviaV1 := Option.some.inj (hsome.symm.trans holivia)
    have hadmits := hr.admits_of_outcomeString htext
    obtain ⟨_,hsl,hdigit⟩ := KeyChain.scalars_of_nonces hr hnonces hadmits hscalars
    have hlt : i < (k.indexes value).length := by
      rw [EventId.Reads.length_indexes,← hsl]
      exact (List.getElem?_eq_some_iff.mp hscalar).1
    have hindex := List.getElem?_eq_getElem hlt
    obtain ⟨nonce,hnonce,hderived,hcomputed⟩ := hdigit i _ hindex
    have hne : nonces ≠ [] := fun he => by simp [he] at hnonce
    refine ⟨nonce,_,⟨announced,attestation,⟨⟨_,value⟩,time⟩,scalars,_,hl,hatt,holivia,rfl,htext,hscalars,
      hr.attestationIndexes hadmits,hindex,hderived,hcomputed⟩,?_,?_⟩
    · exact Option.some.inj (hscalar.symm.trans hcomputed)
    · refine ⟨announced,_,⟨nonces.map C.publicNonce⟩,hl,hdecode,by simp [KeyChain.announcedSchemes,hne],?_⟩
      rw [List.getElem?_map,hnonce,Option.map_some]

theorem ComputedWith.nonce {s : InMemory C} {id : EventId} {i : ℕ} {nonce : C.NonceKeyPair} {index : UInt32}
    (h : ComputedWith keychain lib s id i nonce index) :
    C.nonceKeypairFromSecretBytes (keychain.nonceBytes lib id i) = .ok nonce := by
  obtain ⟨_,_,_,_,_,_,_,_,_,_,_,_,_,hnonce,_⟩ := h
  exact hnonce

/-- A scalar is computed at a digit of an accepted event. -/
theorem ComputedWith.digit {s : InMemory C} (hs : InMemory.Every (Authored keychain lib) s) {id : EventId}
    {i : ℕ} {nonce : C.NonceKeyPair} {index : UInt32} (h : ComputedWith keychain lib s id i nonce index) :
    id.Accepted ∧ s.Digit id i := by
  obtain ⟨announced,attestation,⟨⟨_,value⟩,time⟩,scalars,indexes,hl,hatt,_,rfl,htext,_,hindexes,hindex,_⟩ := h
  have haccepted := ((hs _ announced hl).2 attestation hatt).accepted
  obtain ⟨p,k,hr⟩ := haccepted.reads
  obtain rfl := Except.ok.inj ((hr.attestationIndexes (hr.admits_of_outcomeString htext)).symm.trans hindexes)
  have hlt := (List.getElem?_eq_some_iff.mp hindex).1
  rw [EventId.Reads.length_indexes] at hlt
  exact ⟨haccepted,by simp [hl],k.nNonces,hr.nNonces,hlt⟩

/-- Of one attestation, a digit reveals one index. -/
theorem ComputedWith.index_eq {s₁ s₂ t : InMemory C} {id : EventId} {i : ℕ} {nonce₁ nonce₂ : C.NonceKeyPair}
    {index₁ index₂ : UInt32} (hc₁ : ComputedWith keychain lib s₁ id i nonce₁ index₁) (h₁ : s₁.Evolves t)
    (h₂ : s₂.Evolves t) (haccepted : id.Accepted)
    (hc₂ : ComputedWith keychain lib s₂ id i nonce₂ index₂) : index₁ = index₂ := by
  obtain ⟨p,k,hr⟩ := haccepted.reads
  obtain ⟨_,attestation₁,⟨⟨_,value₁⟩,_⟩,_,_,hl₁,hatt₁,_,rfl,htext₁,_,hindexes₁,hindex₁,_⟩ := hc₁
  obtain ⟨_,attestation₂,⟨⟨_,value₂⟩,_⟩,_,_,hl₂,hatt₂,_,rfl,htext₂,_,hindexes₂,hindex₂,_⟩ := hc₂
  have hsame : attestation₁ = attestation₂ := by
    obtain ⟨later₁,hlater₁,_,_,hkept₁⟩ := h₁ _ _ hl₁
    obtain ⟨later₂,hlater₂,_,_,hkept₂⟩ := h₂ _ _ hl₂
    obtain rfl := Option.some.inj (hlater₁.symm.trans hlater₂)
    exact Option.some.inj ((hkept₁ _ hatt₁).symm.trans (hkept₂ _ hatt₂))
  subst hsame
  obtain rfl : value₁ = value₂ := hr.outcomeString_injective htext₁ htext₂
  obtain rfl := Except.ok.inj (hindexes₁.symm.trans hindexes₂)
  exact Option.some.inj (hindex₁.symm.trans hindex₂)

/-- The digits that one nonce was derived for are one digit. -/
theorem digit_eq_of_nonce {s : InMemory C}
    (hfree : CollisionFree C lib.blake2b keychain.eventSeed.bytes s.hashed) {id₁ id₂ : EventId} {i₁ i₂ : ℕ}
    (h₁ : s.Digit id₁ i₁) (h₂ : s.Digit id₂ i₂) {nonce : C.NonceKeyPair}
    (hn₁ : C.nonceKeypairFromSecretBytes (keychain.nonceBytes lib id₁ i₁) = .ok nonce)
    (hn₂ : C.nonceKeypairFromSecretBytes (keychain.nonceBytes lib id₂ i₂) = .ok nonce) : id₁ = id₂ ∧ i₁ = i₂ := by
  rw [KeyChain.nonceBytes_eq] at hn₁ hn₂
  obtain ⟨hid,hbyte⟩ := hfree.eq_of_nonce ⟨id₁,i₁,h₁,rfl⟩ ⟨id₂,i₂,h₂,rfl⟩ hn₁ hn₂
  refine ⟨EventId.asBytes_injective hid,?_⟩
  -- the index is cut to a byte, which sixty-four digits do not fill
  have hmod : i₁ % 256 = i₂ % 256 := by simpa using congrArg (List.map UInt8.toNat) hbyte
  have hlt₁ := h₁.lt
  have hlt₂ := h₂.lt
  omega

section Runs
variable {s₁ s₂ t : Runs.Config (InMemory C) OracleCall (OracleWrite C) (MayPanic OracleReply)}

theorem authored_holds (hr : (inMemory keychain lib).protocol.Reaches (.start .default) t) :
    InMemory.Every (Authored keychain lib) t.store :=
  (authored_inductive.runs (.start (fun _ _ h => by cases h)) hr).store

/-- In every run, what is shown was computed with the nonce announced for its digit, and two
scalars that were shown under one nonce are of one digit of one event and reveal one index. -/
theorem nonce_never_reused (hjson : lib.serdeJson.RoundTrips)
    (hs₁ : (inMemory keychain lib).protocol.Reaches (.start .default) s₁)
    (hs₂ : (inMemory keychain lib).protocol.Reaches (.start .default) s₂)
    (ht₁ : (inMemory keychain lib).protocol.Reaches s₁ t) (ht₂ : (inMemory keychain lib).protocol.Reaches s₂ t)
    (hfree : CollisionFree C lib.blake2b keychain.eventSeed.bytes t.store.hashed) :
    (∀ id i scalar, Shows s₁.store id i scalar → ∃ nonce index,
      ComputedWith keychain lib s₁.store id i nonce index ∧
      scalar = C.revealAttestScalar keychain.oliviaV1Keypair nonce index ∧
      AnnouncedAt lib s₁.store id i (C.publicNonce nonce)) ∧
    ∀ id₁ i₁ index₁ id₂ i₂ index₂ nonce, ComputedWith keychain lib s₁.store id₁ i₁ nonce index₁ →
      ComputedWith keychain lib s₂.store id₂ i₂ nonce index₂ → id₁ = id₂ ∧ i₁ = i₂ ∧ index₁ = index₂ := by
  refine ⟨fun id i scalar h => computedWith_of_shows hjson (authored_holds hs₁) h,?_⟩
  intro id₁ i₁ index₁ id₂ i₂ index₂ nonce hc₁ hc₂
  obtain ⟨haccepted,hdigit₁⟩ := hc₁.digit (authored_holds hs₁)
  obtain ⟨_,hdigit₂⟩ := hc₂.digit (authored_holds hs₂)
  have hnonce₁ := hc₁.nonce
  have hnonce₂ := hc₂.nonce
  obtain ⟨rfl,rfl⟩ := digit_eq_of_nonce hfree ((reaches_evolves ht₁).digit hdigit₁)
    ((reaches_evolves ht₂).digit hdigit₂) hnonce₁ hnonce₂
  exact ⟨rfl,rfl,hc₁.index_eq (reaches_evolves ht₁) (reaches_evolves ht₂) haccepted hc₂⟩

/-- A matchup beside the price, so that two events are stored. -/
def sampleMatchup : EventId := ⟨⟨"/foo/bar_baz.vs".toList⟩⟩

/-- The price is announced and attested after the matchup is announced. -/
def sampleFirst : Runs.Config (InMemory (Sample.group 10007)) OracleCall
    (OracleWrite (Sample.group 10007)) (MayPanic OracleReply) :=
  let protocol := (inMemory Sample.keychain (Sample.libraries 10007)).protocol
  protocol.ran 2 (.completeEvent ⟨⟨Sample.priceEvent.id,2⟩,⟨0,0⟩⟩)
    (protocol.ran 1 (.addEvent Sample.priceEvent) (protocol.ran 0 (.addEvent ⟨sampleMatchup,none⟩) (.start .default)))

/-- Then the matchup is attested too. -/
def sampleBoth : Runs.Config (InMemory (Sample.group 10007)) OracleCall
    (OracleWrite (Sample.group 10007)) (MayPanic OracleReply) :=
  (inMemory Sample.keychain (Sample.libraries 10007)).protocol.ran 3 (.completeEvent ⟨⟨sampleMatchup,1⟩,⟨0,0⟩⟩)
    sampleFirst

theorem sampleFirst_reaches :
    (inMemory Sample.keychain (Sample.libraries 10007)).protocol.Reaches (.start .default) sampleFirst := by
  refine .trans (.trans (Runs.CheckThenAct.reaches_ran _ rfl) (Runs.CheckThenAct.reaches_ran _ rfl))
    (Runs.CheckThenAct.reaches_ran _ rfl)

theorem sampleBoth_reaches :
    (inMemory Sample.keychain (Sample.libraries 10007)).protocol.Reaches sampleFirst sampleBoth :=
  Runs.CheckThenAct.reaches_ran _ rfl

/-- What is hashed for the three digits of the two events. -/
def sampleHashed : List (List UInt8 × List UInt8) :=
  [(Sample.priceEvent.id.asBytes,[0]),(Sample.priceEvent.id.asBytes,[1]),(sampleMatchup.asBytes,[0])]

theorem mem_sampleHashed {input : List UInt8 × List UInt8} (h : input ∈ sampleBoth.store.hashed) :
    input ∈ sampleHashed := by
  have hkeys : ∀ id ∈ sampleBoth.store.inner.keys, id = Sample.priceEvent.id ∨ id = sampleMatchup := by
    decide +kernel
  have hprice : Sample.priceEvent.id.nNonces = .ok 2 := by decide +kernel
  have hmatchup : sampleMatchup.nNonces = .ok 1 := by decide +kernel
  obtain ⟨id,i,⟨hsome,n,hn,hlt⟩,rfl⟩ := h
  rcases hkeys id (AList.mem_keys.mp (AList.lookup_isSome.mp hsome)) with rfl | rfl
  · obtain rfl := Except.ok.inj (hprice.symm.trans hn)
    have hlt : i < 2 := hlt
    rcases Nat.le_one_iff_eq_zero_or_eq_one.mp (Nat.le_of_lt_succ hlt) with rfl | rfl
    · simp [sampleHashed]
    · simp [sampleHashed]
  · obtain rfl := Except.ok.inj (hmatchup.symm.trans hn)
    obtain rfl := Nat.lt_one_iff.mp (show i < 1 from hlt)
    simp [sampleHashed]

/-- The ids have different hashes, and the three digits have different nonces. -/
theorem sampleBoth_collisionFree : CollisionFree (Sample.group 10007) (Sample.libraries 10007).blake2b
    Sample.keychain.eventSeed.bytes sampleBoth.store.hashed := by
  have hmac : ∀ p ∈ sampleHashed, ∀ q ∈ sampleHashed, Sample.blake2b.mac Sample.keychain.eventSeed.bytes p.1 =
      Sample.blake2b.mac Sample.keychain.eventSeed.bytes q.1 → p.1 = q.1 := by decide +kernel
  have hnonce : ∀ p ∈ sampleHashed, ∀ q ∈ sampleHashed, (Sample.group 10007).nonceKeypairFromSecretBytes
      (Sample.blake2b.varMac (Sample.blake2b.mac Sample.keychain.eventSeed.bytes p.1) 32 p.2) =
        (Sample.group 10007).nonceKeypairFromSecretBytes
          (Sample.blake2b.varMac (Sample.blake2b.mac Sample.keychain.eventSeed.bytes q.1) 32 q.2) → p = q := by
    decide +kernel
  constructor
  · rintro tag ⟨message,h⟩ tag' ⟨message',h'⟩ he
    exact hmac _ (mem_sampleHashed h) _ (mem_sampleHashed h') he
  · rintro ⟨_,message⟩ ⟨tag,h,rfl⟩ ⟨_,message'⟩ ⟨tag',h',rfl⟩ he
    obtain ⟨rfl,rfl⟩ := Prod.mk.inj (hnonce _ (mem_sampleHashed h) _ (mem_sampleHashed h') (congrArg _ he))
    rfl
  · rintro _ ⟨⟨tag,message,h,rfl⟩,_⟩ _ ⟨⟨tag',message',h',rfl⟩,_⟩ he
    obtain ⟨rfl,rfl⟩ := Prod.mk.inj (hnonce _ (mem_sampleHashed h) _ (mem_sampleHashed h') he)
    rfl

theorem nonce_never_reused_price_vs : ∃ scalar scalar' nonce nonce' index index',
    Shows sampleFirst.store Sample.priceEvent.id 1 scalar ∧ Shows sampleBoth.store sampleMatchup 0 scalar' ∧
    ComputedWith Sample.keychain (Sample.libraries 10007) sampleFirst.store Sample.priceEvent.id 1 nonce index ∧
    ComputedWith Sample.keychain (Sample.libraries 10007) sampleBoth.store sampleMatchup 0 nonce' index' ∧
    AnnouncedAt (Sample.libraries 10007) sampleFirst.store Sample.priceEvent.id 1
      ((Sample.group 10007).publicNonce nonce) ∧ nonce ≠ nonce' ∧
    ∀ id i index'', ComputedWith Sample.keychain (Sample.libraries 10007) sampleBoth.store id i nonce index'' →
      id = Sample.priceEvent.id ∧ i = 1 ∧ index'' = index := by
  have hfirst : ((sampleFirst.store.inner.lookup Sample.priceEvent.id).bind (fun announced =>
      announced.attestation.bind (fun attestation => attestation.schemes.oliviaV1.bind (fun oliviaV1 =>
        oliviaV1.scalars[1]?)))).isSome = true := by decide +kernel
  have hboth : ((sampleBoth.store.inner.lookup sampleMatchup).bind (fun announced =>
      announced.attestation.bind (fun attestation => attestation.schemes.oliviaV1.bind (fun oliviaV1 =>
        oliviaV1.scalars[0]?)))).isSome = true := by decide +kernel
  obtain ⟨scalar,hshows⟩ := shows_of_isSome hfirst
  obtain ⟨scalar',hshows'⟩ := shows_of_isSome hboth
  obtain ⟨hcomputed,honce⟩ := nonce_never_reused (Sample.roundTrips 10007) sampleFirst_reaches
    (sampleFirst_reaches.trans sampleBoth_reaches) sampleBoth_reaches .refl sampleBoth_collisionFree
  obtain ⟨hcomputed',_⟩ := nonce_never_reused (Sample.roundTrips 10007)
    (sampleFirst_reaches.trans sampleBoth_reaches) (sampleFirst_reaches.trans sampleBoth_reaches) .refl .refl
    sampleBoth_collisionFree
  obtain ⟨nonce,index,hwith,_,hann⟩ := hcomputed _ _ _ hshows
  obtain ⟨nonce',index',hwith',_,_⟩ := hcomputed' _ _ _ hshows'
  refine ⟨scalar,scalar',nonce,nonce',index,index',hshows,hshows',hwith,hwith',hann,?_,?_⟩
  · rintro rfl
    exact absurd (honce _ _ _ _ _ _ _ hwith hwith').1 (by decide)
  · intro id i index'' h
    obtain ⟨hid,hi,hindex⟩ := honce _ _ _ _ _ _ _ hwith h
    exact ⟨hid.symm,hi.symm,hindex.symm⟩

end Runs

end Oracle
end Olivia
