import Olivia.Core.Attestation
import Olivia.Core.PriceDigits
import Olivia.Secp256k1.Sample

/-! # What an accepted attestation has been checked for

The verifier compares the number of scalars with the number of announced nonces and then
checks one scalar for every digit of the outcome. The decoder lets an announcement through
that has more nonces than digits, or none where there are no digits, and then a scalar is
accepted unseen, or none at all.
-/
namespace Olivia
variable {C : Group} {json : SerdeJson C} {raw : RawOracleEvent C} {oracleEvent : OracleEvent C}
variable {attestation : Attestation C} {oracleKeys : OracleKeys C} {ann : Announce.OliviaV1 C}

/-- There are scalars, one for every announced nonce, and each verifies for a digit of the
claimed outcome under the key for olivia-v1. -/
def Attestation.Vouches (attestation : Attestation C) (oracleEvent : OracleEvent C) (oracleKeys : OracleKeys C) :
    Prop :=
  ∃ ann att key outcome indexes, oracleEvent.schemes.oliviaV1 = some ann ∧
    attestation.schemes.oliviaV1 = some att ∧ oracleKeys.oliviaV1 = some key ∧
    Outcome.tryFromIdAndOutcome oracleEvent.event.id attestation.outcome = .ok (.ok outcome) ∧
    outcome.attestationIndexes = .ok indexes ∧
    att.scalars ≠ [] ∧ att.scalars.length = ann.nonces.length ∧
    ∀ (j : ℕ) nonce, ann.nonces[j]? = some nonce → ∃ index scalar, indexes[j]? = some index ∧
      att.scalars[j]? = some scalar ∧ C.verifyAttestScalar key nonce index scalar = true

/-- As many nonces as the event has digits, and some. -/
def OracleEvent.ExactNonces (oracleEvent : OracleEvent C) : Prop :=
  ∃ ann n, oracleEvent.schemes.oliviaV1 = some ann ∧ oracleEvent.event.id.nNonces = .ok n ∧
    ann.nonces.length = n.toNat ∧ 0 < n

/-- An outcome that was read has an index for every nonce the event needs. -/
theorem length_indexes_of_read {id : EventId} (h : id.Accepted) {text : Str} {outcome : Outcome}
    {indexes : List UInt32} (hread : Outcome.tryFromIdAndOutcome id text = .ok (.ok outcome))
    (hindexes : outcome.attestationIndexes = .ok indexes) :
    ∃ n, id.nNonces = .ok n ∧ indexes.length = n.toNat := by
  obtain ⟨p,k,hr⟩ := h.reads
  obtain rfl := Except.ok.inj (hindexes.symm.trans (hr.attestationIndexes_of_read hread))
  exact ⟨k.nNonces,hr.nNonces,EventId.Reads.length_indexes k outcome.value⟩

/-- An accepted attestation vouches for what was announced exactly where the announcement
has one nonce for every digit of the event, and the event has digits. -/
theorem vouches_iff_exactNonces (hdecode : raw.decode json = .ok (some oracleEvent))
    (hann : oracleEvent.schemes.oliviaV1 = some ann)
    (hverify : attestation.verifyOliviaV1Attestation oracleEvent oracleKeys = .ok (.ok ())) :
    attestation.Vouches oracleEvent oracleKeys ↔ oracleEvent.ExactNonces := by
  obtain ⟨haccepted,henough⟩ := RawOracleEvent.decode_eq_some hdecode
  obtain ⟨outcome,key,att,indexes,hread,hkey,hatt,hlength,hindexes,hloop⟩ :=
    Attestation.verifyOliviaV1Attestation_eq_ok hann hverify
  obtain ⟨n,hn,hdigits⟩ := length_indexes_of_read haccepted hread hindexes
  have hle : n.toNat ≤ ann.nonces.length := henough ann hann n hn
  constructor
  · rintro ⟨ann',att',_,outcome',indexes',hann',hatt',_,hread',hindexes',hsome,_,hall⟩
    obtain rfl : ann = ann' := Option.some.inj (hann.symm.trans hann')
    obtain rfl : att = att' := Option.some.inj (hatt.symm.trans hatt')
    obtain rfl : outcome = outcome' := Except.ok.inj (Except.ok.inj (hread.symm.trans hread'))
    obtain rfl : indexes = indexes' := Except.ok.inj (hindexes.symm.trans hindexes')
    have hpos : 0 < ann.nonces.length := hlength ▸ List.length_pos_iff.mpr hsome
    have hlast : ann.nonces.length-1 < indexes.length := by
      have hget := List.getElem?_eq_getElem (Nat.sub_lt hpos Nat.one_pos)
      obtain ⟨index,_,hindex,_⟩ := hall _ _ hget
      exact (List.getElem?_eq_some_iff.mp hindex).1
    refine ⟨ann,n,hann,hn,by omega,?_⟩
    rw [UInt8.lt_iff_toNat_lt]
    change 0 < n.toNat
    omega
  · rintro ⟨ann',m,hann',hm,hexact,hpos⟩
    obtain rfl : ann = ann' := Option.some.inj (hann.symm.trans hann')
    obtain rfl : n = m := Except.ok.inj (hn.symm.trans hm)
    have hpos : 0 < n.toNat := UInt8.lt_iff_toNat_lt.mp hpos
    have hsome : att.scalars ≠ [] := List.ne_nil_of_length_pos (by omega)
    refine ⟨ann,att,key,outcome,indexes,hann,hatt,hkey,hread,hindexes,hsome,hlength.symm,?_⟩
    intro j nonce hj
    have hlt : j < indexes.length := by
      have := (List.getElem?_eq_some_iff.mp hj).1
      omega
    obtain ⟨nonce',scalar,hnonce,hscalar,hcheck⟩ :=
      verifyScalars_sound hloop j _ (List.getElem?_eq_getElem hlt)
    rw [Nat.zero_add] at hnonce hscalar
    obtain rfl : nonce = nonce' := Option.some.inj (hj.symm.trans hnonce)
    exact ⟨_,scalar,List.getElem?_eq_getElem hlt,hscalar,hcheck⟩

/-- Whatever an attestation carries, verifying it against a decoded announcement returns: the
text is read or rejected, there is a nonce and a scalar for every digit, and no digit overflows. -/
theorem verifyOliviaV1Attestation_isOk (hdecode : raw.decode json = .ok (some oracleEvent))
    (attestation : Attestation C) (oracleKeys : OracleKeys C) :
    (∃ verdict, attestation.verifyOliviaV1Attestation oracleEvent oracleKeys = .ok verdict) ∧
    ∀ nDigits value, oracleEvent.event.id.eventKind = .ok (.price nDigits) →
      checkedPriceIndexes nDigits value = some (priceIndexes nDigits value) := by
  obtain ⟨haccepted,henough⟩ := RawOracleEvent.decode_eq_some hdecode
  refine ⟨?_,fun nDigits value hk => checkedPriceIndexes_eq (EventId.nNonces_le hk) value⟩
  obtain ⟨p,k,hr⟩ := haccepted.reads
  obtain ⟨read,hread⟩ := hr.tryFromIdAndOutcome_isOk attestation.outcome
  cases read with
  | error e => exact ⟨.error .outcome,by simp [Attestation.verifyOliviaV1Attestation,hread]⟩
  | ok outcome =>
    have hindexes := hr.attestationIndexes_of_read hread
    have hdigits := EventId.Reads.length_indexes k outcome.value
    simp only [Attestation.verifyOliviaV1Attestation,hread,MayPanic.ok_bind,hindexes]
    cases oracleKeys.oliviaV1 with
    | none => exact ⟨_,rfl⟩
    | some key =>
      cases hann : oracleEvent.schemes.oliviaV1 with
      | none => exact ⟨_,rfl⟩
      | some ann =>
        cases attestation.schemes.oliviaV1 with
        | none => exact ⟨_,rfl⟩
        | some att =>
          have hnonces : k.nNonces.toNat ≤ ann.nonces.length := henough ann hann _ hr.nNonces
          by_cases hlength : ann.nonces.length = att.scalars.length
          · obtain ⟨verdict,hverdict⟩ : ∃ verdict, verifyScalars key ann.nonces att.scalars 0
                (k.indexes outcome.value) = .ok verdict := verifyScalars_isOk key (by omega) (by omega)
            exact ⟨verdict,by simpa [hlength] using hverdict⟩
          · exact ⟨.error .oliviaV1,by simp [hlength]⟩

section Sampled

/-- An occurrence under nonces of any number, all of them residues. -/
def occurAnnounced (nonces : List (ZMod 10007)) : OracleEvent (Sample.group 10007) :=
  ⟨⟨⟨⟨"/foo/bar.occur".toList⟩⟩,none⟩,⟨some ⟨nonces⟩,none⟩⟩

def occurAttested (scalars : List (ZMod 10007)) : Attestation (Sample.group 10007) :=
  ⟨"true".toList,⟨some ⟨scalars⟩,none⟩,⟨0,0⟩⟩

def sampleKeys : OracleKeys (Sample.group 10007) where
  oliviaV1 := some (3 : ZMod 10007)
  ecdsaV1 := none
  announcement := (3 : ZMod 10007)

/-- The decoder accepts every announcement of the occurrence with a nonce. -/
theorem occurAnnounced_decodes (nonce : ZMod 10007) (surplus : List (ZMod 10007)) :
    ∃ raw : RawOracleEvent (Sample.group 10007), raw.decode (Sample.libraries 10007).serdeJson =
      .ok (some (occurAnnounced (nonce :: surplus))) := by
  have haccepted : EventId.Accepted ⟨⟨"/foo/bar.occur".toList⟩⟩ := by decide +kernel
  have hnonces : EventId.nNonces ⟨⟨"/foo/bar.occur".toList⟩⟩ = .ok 1 := by decide +kernel
  have henough : (occurAnnounced (nonce :: surplus)).schemes.EnoughNonces ⟨⟨"/foo/bar.occur".toList⟩⟩ := by
    intro oliviaV1 hsome n hn
    obtain rfl := Option.some.inj hsome
    obtain rfl := Except.ok.inj (hnonces.symm.trans hn)
    exact Nat.succ_le_of_lt (List.length_pos_of_mem List.mem_cons_self)
  obtain ⟨raw,_,hdecode⟩ := RawOracleEvent.decode_encodeJson (occurAnnounced (nonce :: surplus))
    (Sample.roundTrips 10007) haccepted henough
  exact ⟨raw,hdecode⟩

theorem vouches_iff_exactNonces_occur :
    (occurAttested [8]).Vouches (occurAnnounced [5]) sampleKeys ↔ (occurAnnounced [5]).ExactNonces := by
  obtain ⟨raw,hdecode⟩ := occurAnnounced_decodes 5 []
  exact vouches_iff_exactNonces hdecode rfl (by decide +kernel : (occurAttested [8]).verifyOliviaV1Attestation
    (occurAnnounced [5]) sampleKeys = .ok (.ok ()))

/-- A scalar that was not revealed, for an outcome that the occurrence has. -/
theorem verifyOliviaV1Attestation_isOk_occur : ∃ verdict,
    (occurAttested [0]).verifyOliviaV1Attestation (occurAnnounced [5]) sampleKeys = .ok verdict := by
  obtain ⟨raw,hdecode⟩ := occurAnnounced_decodes 5 []
  exact (verifyOliviaV1Attestation_isOk hdecode (occurAttested [0]) sampleKeys).1

/-- Under one nonce more than the occurrence needs, any second scalar is accepted. -/
theorem surplus_scalar_accepted : ¬ ∀ (raw : RawOracleEvent (Sample.group 10007))
    (oracleEvent : OracleEvent (Sample.group 10007)) (oracleKeys : OracleKeys (Sample.group 10007))
    (attestation : Attestation (Sample.group 10007)),
    raw.decode (Sample.libraries 10007).serdeJson = .ok (some oracleEvent) →
    oracleEvent.schemes.oliviaV1.isSome →
    attestation.verifyOliviaV1Attestation oracleEvent oracleKeys = .ok (.ok ()) →
      attestation.Vouches oracleEvent oracleKeys := by
  intro h
  obtain ⟨raw,hdecode⟩ := occurAnnounced_decodes 5 [5]
  obtain ⟨ann,_,_,outcome,indexes,hann,_,_,hread,hindexes,_,_,hall⟩ :=
    h raw _ sampleKeys (occurAttested [8,0]) hdecode rfl (by decide +kernel)
  have hoccurred : Outcome.tryFromIdAndOutcome ⟨⟨"/foo/bar.occur".toList⟩⟩ "true".toList =
      .ok (.ok ⟨⟨⟨"/foo/bar.occur".toList⟩⟩,0⟩) := by decide +kernel
  have hdigits : Outcome.attestationIndexes ⟨⟨⟨"/foo/bar.occur".toList⟩⟩,0⟩ = .ok [0] := by decide +kernel
  obtain rfl := Option.some.inj hann
  obtain rfl := Except.ok.inj (Except.ok.inj (hoccurred.symm.trans hread))
  obtain rfl := Except.ok.inj (hdigits.symm.trans hindexes)
  obtain ⟨index,_,hindex,_⟩ := hall 1 _ rfl
  simp at hindex

end Sampled
end Olivia
