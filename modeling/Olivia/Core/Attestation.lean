import Olivia.Core.Announcement

/-! # Attestations

An attestation carries the outcome text and what each scheme reveals for it. A verifier
reads the text against the announced event and checks the scheme with the published keys;
an announced scheme has to be attested, an unannounced one is not looked at.
-/
namespace Olivia

namespace Attest

structure OliviaV1 (C : Group) where
  scalars : List C.AttestScalar

structure EcdsaV1 (C : Group) where
  signature : C.EcdsaSignature

end Attest

structure AttestationSchemes (C : Group) where
  oliviaV1 : Option (Attest.OliviaV1 C)
  ecdsaV1 : Option (Attest.EcdsaV1 C)

structure Attestation (C : Group) where
  outcome : Str
  schemes : AttestationSchemes C
  time : NaiveDateTime

inductive AttestationInvalid
  | oliviaV1
  | ecdsaV1
  | outcome
  | missing
  | missingKey
  deriving DecidableEq

structure AnnouncedEvent (C : Group) where
  event : Event
  announcement : RawAnnouncement C
  attestation : Option (Attestation C)

variable {C : Group}

/-- The digits of the outcome, each against the nonce and the scalar at its position. -/
def verifyScalars (attestationKey : C.PublicKey) (nonces : List C.PublicNonce)
    (scalars : List C.AttestScalar) : ℕ → List UInt32 → MayPanic (Except AttestationInvalid Unit)
  | _, [] => .ok (.ok ())
  | fragIndex, index :: indexes => do
    let nonce ← MayPanic.index nonces fragIndex
    let scalar ← MayPanic.index scalars fragIndex
    if C.verifyAttestScalar attestationKey nonce index scalar then
      verifyScalars attestationKey nonces scalars (fragIndex+1) indexes
    else return .error .oliviaV1

namespace Attestation

def new (outcome : Str) (time : NaiveDateTime) (schemes : AttestationSchemes C) :
    MayPanic (Attestation C) := do
  let time ← MayPanic.expect "0 is valid" (time.withNanosecond 0)
  return ⟨outcome,schemes,time⟩

def verifyOliviaV1Attestation (attestation : Attestation C) (oracleEvent : OracleEvent C)
    (oracleKeys : OracleKeys C) : MayPanic (Except AttestationInvalid Unit) := do
  match ← Outcome.tryFromIdAndOutcome oracleEvent.event.id attestation.outcome with
  | .error _ => return .error .outcome
  | .ok outcome =>
    match oracleKeys.oliviaV1 with
    | none => return .error .missingKey
    | some attestationKey =>
      match oracleEvent.schemes.oliviaV1,attestation.schemes.oliviaV1 with
      | some annOliviaV1,some attOliviaV1 =>
        if annOliviaV1.nonces.length ≠ attOliviaV1.scalars.length then return .error .oliviaV1
        else
          let indexes ← outcome.attestationIndexes
          verifyScalars attestationKey annOliviaV1.nonces attOliviaV1.scalars 0 indexes
      | some _,none => return .error .missing
      | none,_ => return .ok ()

def verifyEcdsaV1Attestation (attestation : Attestation C) (oracleEvent : OracleEvent C)
    (oracleKeys : OracleKeys C) : MayPanic (Except AttestationInvalid Unit) := do
  match ← Outcome.tryFromIdAndOutcome oracleEvent.event.id attestation.outcome with
  | .error _ => return .error .outcome
  | .ok outcome =>
    match oracleKeys.ecdsaV1 with
    | none => return .error .missingKey
    | some attestationKey =>
      match oracleEvent.schemes.ecdsaV1,attestation.schemes.ecdsaV1 with
      | some _,some ecdsaV1 =>
        if !C.ecdsaVerify attestationKey outcome.attestationString ecdsaV1.signature then
          return .error .ecdsaV1
        else return .ok ()
      | some _,none => return .error .missing
      | none,_ => return .ok ()

end Attestation

/-- Positions that verify one by one verify as a whole. -/
theorem verifyScalars_eq_ok {key : C.PublicKey} {nonces : List C.PublicNonce}
    {scalars : List C.AttestScalar} {indexes : List UInt32} {start : ℕ}
    (h : ∀ j index, indexes[j]? = some index → ∃ nonce scalar, nonces[start+j]? = some nonce ∧
      scalars[start+j]? = some scalar ∧ C.verifyAttestScalar key nonce index scalar = true) :
    verifyScalars key nonces scalars start indexes = .ok (.ok ()) := by
  induction indexes generalizing start with
  | nil => rfl
  | cons index indexes ih =>
    obtain ⟨nonce,scalar,hnonce,hscalar,hverify⟩ := h 0 index rfl
    have hrest : verifyScalars key nonces scalars (start+1) indexes = .ok (.ok ()) := by
      refine ih ?_
      intro j i hi
      rw [Nat.add_assoc,Nat.add_comm 1 j]
      exact h (j+1) i hi
    rw [Nat.add_zero] at hnonce hscalar
    simp [verifyScalars,MayPanic.index,hnonce,hscalar,hverify,hrest]

/-- Where no digit is past the nonces and the scalars, the loop returns whatever they are. -/
theorem verifyScalars_isOk (key : C.PublicKey) {nonces : List C.PublicNonce} {scalars : List C.AttestScalar}
    {indexes : List UInt32} {start : ℕ} (hnonces : start+indexes.length ≤ nonces.length)
    (hscalars : start+indexes.length ≤ scalars.length) :
    ∃ verdict, verifyScalars key nonces scalars start indexes = .ok verdict := by
  induction indexes generalizing start with
  | nil => exact ⟨.ok (),rfl⟩
  | cons index indexes ih =>
    rw [List.length_cons] at hnonces hscalars
    obtain ⟨nonce,hnonce⟩ : ∃ nonce, nonces[start]? = some nonce :=
      ⟨_,List.getElem?_eq_getElem (by omega : start < nonces.length)⟩
    obtain ⟨scalar,hscalar⟩ : ∃ scalar, scalars[start]? = some scalar :=
      ⟨_,List.getElem?_eq_getElem (by omega : start < scalars.length)⟩
    simp only [verifyScalars,MayPanic.index_eq_ok.mpr hnonce,MayPanic.index_eq_ok.mpr hscalar,MayPanic.ok_bind]
    split
    next => exact ih (by omega) (by omega)
    next => exact ⟨_,rfl⟩

/-- Where the loop accepts, it has looked at every digit. -/
theorem verifyScalars_sound {key : C.PublicKey} {nonces : List C.PublicNonce}
    {scalars : List C.AttestScalar} {indexes : List UInt32} {start : ℕ}
    (h : verifyScalars key nonces scalars start indexes = .ok (.ok ())) :
    ∀ j index, indexes[j]? = some index → ∃ nonce scalar, nonces[start+j]? = some nonce ∧
      scalars[start+j]? = some scalar ∧ C.verifyAttestScalar key nonce index scalar = true := by
  induction indexes generalizing start with
  | nil => simp
  | cons first indexes ih =>
    obtain ⟨nonce,hnonce,h⟩ := MayPanic.bind_eq_ok.mp h
    obtain ⟨scalar,hscalar,h⟩ := MayPanic.bind_eq_ok.mp h
    split at h
    next hverify =>
      intro j index hj
      cases j with
      | zero =>
        obtain rfl := Option.some.inj hj
        exact ⟨nonce,scalar,MayPanic.index_eq_ok.mp hnonce,MayPanic.index_eq_ok.mp hscalar,hverify⟩
      | succ j =>
        obtain ⟨nonce,scalar,hall⟩ := ih h j index hj
        rw [Nat.add_assoc,Nat.add_comm 1 j] at hall
        exact ⟨nonce,scalar,hall⟩
    next => simp at h

namespace Attestation
variable {attestation : Attestation C} {oracleEvent : OracleEvent C} {oracleKeys : OracleKeys C}

/-- What the verifier has seen where it accepts against announced nonces. -/
theorem verifyOliviaV1Attestation_eq_ok {ann : Announce.OliviaV1 C} (hann : oracleEvent.schemes.oliviaV1 = some ann)
    (h : attestation.verifyOliviaV1Attestation oracleEvent oracleKeys = .ok (.ok ())) :
    ∃ outcome key att indexes,
      Outcome.tryFromIdAndOutcome oracleEvent.event.id attestation.outcome = .ok (.ok outcome) ∧
      oracleKeys.oliviaV1 = some key ∧ attestation.schemes.oliviaV1 = some att ∧
      ann.nonces.length = att.scalars.length ∧ outcome.attestationIndexes = .ok indexes ∧
      verifyScalars key ann.nonces att.scalars 0 indexes = .ok (.ok ()) := by
  obtain ⟨r,hread,h⟩ := MayPanic.bind_eq_ok.mp h
  cases r with
  | error e => simp at h
  | ok outcome =>
    cases hkey : oracleKeys.oliviaV1 with
    | none => simp [hkey] at h
    | some key =>
      cases hatt : attestation.schemes.oliviaV1 with
      | none => simp [hkey,hann,hatt] at h
      | some att =>
        simp only [hkey,hann,hatt] at h
        split at h
        next => simp at h
        next hlength =>
          push Not at hlength
          obtain ⟨indexes,hindexes,hverify⟩ := MayPanic.bind_eq_ok.mp h
          exact ⟨outcome,key,att,indexes,hread,rfl,rfl,hlength,hindexes,hverify⟩

end Attestation
end Olivia
