import Olivia.Core.PredicateEvent
import Olivia.Oracle.KeyChain
import Olivia.Sources.Siblings

/-! # Outcome creators

A random source draws the outcome of an event below the number of its outcomes, or below a
cap where that is smaller; the zero source needs no draw. Drawing below zero is a panic, so
a cap of zero is the one configuration that never gives an outcome.
-/
namespace Olivia

/-- The generator of the `rand` crate, seeded with the bytes it is given. -/
structure Rng where
  genRange : List UInt8 → UInt64 → UInt64 → MayPanic UInt64

/-- `gen_range(a..b)` panics unless the range has a value, and returns one of it. -/
structure Rng.InRange (rng : Rng) : Prop where
  lt {bytes : List UInt8} {a b : UInt64} (h : a < b) : ∃ v, rng.genRange bytes a b = .ok v ∧ a ≤ v ∧ v < b
  empty {bytes : List UInt8} {a b : UInt64} (h : ¬ a < b) : ∃ panic, rng.genRange bytes a b = .error panic

structure RandomOutcomeCreator where
  seed : Seed
  max : Option UInt64
  deriving DecidableEq

inductive OutcomeCreator
  | random (creator : RandomOutcomeCreator)
  | zero

variable {C : Group}

def RandomOutcomeCreator.createOutcome (lib : Libraries C) (rng : Rng) (creator : RandomOutcomeCreator)
    (id : EventId) : MayPanic UInt64 := do
  let eventRandomness := creator.seed.child lib id.asBytes
  let chachaBytes := eventRandomness.bytes.toList.take 32
  let nOutcomes ← id.nOutcomes
  let max := min (creator.max.getD nOutcomes) nOutcomes
  rng.genRange chachaBytes 0 max

def OutcomeCreator.createOutcome (lib : Libraries C) (rng : Rng) (id : EventId) :
    OutcomeCreator → MayPanic UInt64
  | .random creator => creator.createOutcome lib rng id
  | .zero => .ok 0

/-- The printer and the index reader of an outcome return. -/
def Outcome.Usable (o : Outcome) : Prop :=
  (∃ text, o.outcomeString = .ok text) ∧ ∃ indexes, o.attestationIndexes = .ok indexes

namespace EventId
variable {id : EventId} {p : Path} {k : EventKind} {v n : UInt64}

theorem Reads.usable (h : id.Reads p k) (hv : k.Admits v) : Outcome.Usable ⟨id,v⟩ := by
  obtain ⟨text,htext,_⟩ := h.printed hv
  exact ⟨⟨text,htext⟩,⟨_,h.attestationIndexes hv⟩⟩

/-- Only a match has to read its path to print an outcome. -/
theorem usable_of_eventKind (hk : id.eventKind = .ok k) (hne : ∀ kind, k ≠ .vsMatch kind) (hv : k.Admits v) :
    Outcome.Usable ⟨id,v⟩ := by
  cases k with
  | vsMatch kind => exact absurd rfl (hne kind)
  | singleOccurrence =>
    obtain rfl := EventKind.admits_singleOccurrence.mp hv
    exact ⟨⟨"true".toList,by simp [Outcome.outcomeString,hk,Occur.tryFrom]⟩,
      ⟨[0],by simp [Outcome.attestationIndexes,hk]⟩⟩
  | predicate inner predicate =>
    have hlt : v < 2 := hv
    have hsmall : v.toNat < UInt32.size := Nat.lt_trans (UInt64.lt_iff_toNat_lt.mp hlt) (by decide)
    exact ⟨⟨displayBool (v ≠ 0),by simp [Outcome.outcomeString,hk,hlt]⟩,
      ⟨[v.toUInt32],by simp [Outcome.attestationIndexes,hk,hsmall]⟩⟩
  | price nDigits =>
    exact ⟨⟨displayU64 v,by simp [Outcome.outcomeString,hk]⟩,
      ⟨priceIndexes nDigits v,by simp [Outcome.attestationIndexes,hk]⟩⟩

theorem admits_zero (k : EventKind) : k.Admits 0 := by
  cases k with
  | vsMatch kind => exact kind.admits_sides.1
  | singleOccurrence => exact EventKind.admits_singleOccurrence.mpr rfl
  | predicate inner predicate => exact EventKind.admits_predicate.mpr (Or.inl rfl)
  | price nDigits => trivial

/-- Every event has an outcome, and what is below the number of its outcomes is one of them. -/
theorem nOutcomes_pos (hk : id.eventKind = .ok k) (hn : id.nOutcomes = .ok n) :
    0 < n ∧ ∀ v < n, k.Admits v := by
  cases k with
  | price nDigits =>
    obtain rfl : 18446744073709551615 = n := by simpa [nOutcomes,hk] using hn
    exact ⟨by decide,fun _ _ => trivial⟩
  | _ =>
    obtain ⟨m,hm,hadmits⟩ := nOutcomes_eq hk (by simp)
    obtain rfl := Except.ok.inj (hn.symm.trans hm)
    exact ⟨(hadmits 0).mpr (admits_zero _),fun v hv => (hadmits v).mp hv⟩

end EventId

namespace CompleteRelated
variable {σ : Type} {source : CompleteRelated σ} {s : σ} {outcome : Outcome} {rs : List Outcome}

theorem predicateOutcome_le {predicate : Predicate} {text : Str} {value : UInt64}
    (h : predicate.predicateOutcome text = .ok value) : value = 0 ∨ value = 1 := by
  cases predicate with
  | eq target =>
    obtain rfl := Except.ok.inj h
    split
    · exact Or.inr rfl
    · exact Or.inl rfl
  | bound boundKind target =>
    cases boundKind
    obtain ⟨v,_,h⟩ := MayPanic.bind_eq_ok.mp h
    obtain rfl := Except.ok.inj h
    split
    · exact Or.inr rfl
    · exact Or.inl rfl

/-- What is derived from an outcome is usable, whichever events the query found: a predicate is
zero or one, and any number is a price. -/
theorem completeRelated_usable (h : source.completeRelated outcome s = .ok (.ok rs)) : ∀ r ∈ rs, r.Usable := by
  obtain ⟨_,_,⟨_,rfl⟩ | ⟨_,kind,_,found,_,_,_,hrelated⟩⟩ := completeRelated_eq_ok_iff.mp h
  · simp
  · intro r hr
    obtain ⟨related,_,hr⟩ := ((MayPanic.filterMap_eq_ok hrelated).2 r).mp hr
    obtain ⟨k,hk,⟨_,hnone⟩ | ⟨hrel,value,hdecides,hsome⟩⟩ := relatedOutcome_eq_ok hr
    · cases hnone
    obtain rfl := Option.some.inj hsome
    have hadmits : k.Admits value := by
      cases k with
      | predicate inner predicate =>
        obtain ⟨text,_,hvalue⟩ := hdecides
        exact EventKind.admits_predicate.mpr (predicateOutcome_le hvalue)
      | price nDigits => trivial
      | _ => exact hrel.elim
    refine EventId.usable_of_eventKind hk ?_ hadmits
    rintro kind rfl
    exact hrel.elim

end CompleteRelated

namespace OutcomeCreator
variable {lib : Libraries C} {rng : Rng} {creator : OutcomeCreator} {id : EventId} {p : Path} {k : EventKind}

/-- The creator gives an outcome that is usable, and so is all that is derived from it, whatever
the database answers to the query. -/
def CreatesUsable (lib : Libraries C) (rng : Rng) (creator : OutcomeCreator) (id : EventId) : Prop :=
  ∃ v, creator.createOutcome lib rng id = .ok v ∧ Outcome.Usable ⟨id,v⟩ ∧
    ∀ (σ : Type) (source : CompleteRelated σ) (s : σ) (rs : List Outcome),
      source.completeRelated ⟨id,v⟩ s = .ok (.ok rs) → ∀ r ∈ rs, r.Usable

theorem min_eq (a b : UInt64) : min a b = if a ≤ b then a else b := rfl

/-- A random outcome is drawn, and admitted, exactly where the cap leaves something to draw. -/
theorem createOutcome_random_isOk_iff (hrng : rng.InRange) (hk : id.eventKind = .ok k)
    {creator : RandomOutcomeCreator} :
    (∃ v, creator.createOutcome lib rng id = .ok v ∧ k.Admits v) ↔ creator.max ≠ some 0 := by
  obtain ⟨n,hn⟩ := EventId.nOutcomes_isOk hk
  obtain ⟨hpos,hadmits⟩ := EventId.nOutcomes_pos hk hn
  simp only [RandomOutcomeCreator.createOutcome,hn,MayPanic.ok_bind]
  constructor
  · rintro ⟨v,hv,_⟩ hmax
    have hempty : min (creator.max.getD n) n = 0 := by
      rw [hmax,Option.getD_some,min_eq,if_pos (UInt64.zero_le)]
    rw [hempty] at hv
    obtain ⟨panic,hpanic⟩ := hrng.empty (by decide : ¬ (0 : UInt64) < 0)
    cases hv.symm.trans hpanic
  · intro hmax
    have hbound : 0 < min (creator.max.getD n) n := by
      have hcap : 0 < creator.max.getD n := by
        cases hcap : creator.max with
        | none => exact hpos
        | some cap =>
          have hne : cap ≠ 0 := fun h => hmax (h ▸ hcap)
          exact UInt64.pos_iff_ne_zero.mpr hne
      rw [min_eq]
      split
      · exact hcap
      · exact hpos
    obtain ⟨v,hv,_,hlt⟩ := hrng.lt hbound
    refine ⟨v,hv,hadmits v ?_⟩
    rw [min_eq] at hlt
    split at hlt
    next hle => exact UInt64.lt_of_lt_of_le hlt hle
    next => exact hlt

/-- On every accepted event a source gives a usable outcome, and usable ones are derived from
it, exactly where it is not a random source with a cap of zero. -/
theorem createsUsable_iff (hrng : rng.InRange) (h : id.Accepted) :
    creator.CreatesUsable lib rng id ↔ ∀ seed, creator ≠ .random ⟨seed,some 0⟩ := by
  obtain ⟨p,k,hr⟩ := h.reads
  have hcreates : creator.CreatesUsable lib rng id ↔
      ∃ v, creator.createOutcome lib rng id = .ok v ∧ k.Admits v := by
    constructor
    · rintro ⟨v,hv,⟨⟨text,htext⟩,_⟩,_⟩
      exact ⟨v,hv,hr.admits_of_outcomeString htext⟩
    · rintro ⟨v,hv,hadmits⟩
      exact ⟨v,hv,hr.usable hadmits,fun _ _ _ _ hrelated => CompleteRelated.completeRelated_usable hrelated⟩
  rw [hcreates]
  cases creator with
  | zero => exact iff_of_true ⟨0,rfl,EventId.admits_zero k⟩ (by simp)
  | random creator =>
    obtain ⟨seed,max⟩ := creator
    rw [createOutcome,createOutcome_random_isOk_iff hrng hr.eventKind]
    simp

section Sampled

/-- A generator that always draws the lowest value, as the seeded one does for the first event
of the repository's test. -/
def sampleRng : Rng := ⟨fun _ a b => if a < b then .ok a else .error .assertion⟩

theorem sampleRng_inRange : sampleRng.InRange where
  lt {_ a _} h := ⟨a,if_pos h,UInt64.le_refl a,h⟩
  empty h := ⟨.assertion,if_neg h⟩

theorem createsUsable_at_match :
    CreatesUsable (Sample.libraries 10007) sampleRng (.random ⟨Sample.seed,none⟩) ⟨⟨"/0/foo_bar.vs".toList⟩⟩ ↔
      ∀ seed, OutcomeCreator.random ⟨Sample.seed,none⟩ ≠ .random ⟨seed,some 0⟩ :=
  createsUsable_iff sampleRng_inRange (by decide +kernel)

/-- A cap of zero leaves nothing to draw. -/
theorem zero_cap_panics : ¬ ∀ (creator : OutcomeCreator) (id : EventId), id.Accepted →
    creator.CreatesUsable (Sample.libraries 10007) sampleRng id := by
  intro h
  obtain ⟨v,hv,_⟩ := h (.random ⟨Sample.seed,some 0⟩) ⟨⟨"/0/foo_bar.vs".toList⟩⟩ (by decide +kernel)
  have hpanic : createOutcome (Sample.libraries 10007) sampleRng ⟨⟨"/0/foo_bar.vs".toList⟩⟩
      (.random ⟨Sample.seed,some 0⟩) = .error .assertion := by decide +kernel
  cases hv.symm.trans hpanic

end Sampled

end OutcomeCreator
end Olivia
