import Olivia.Core.Event

/-! # Outcomes

An outcome is a number. The kind of its event says which texts it is read from, which text
it is printed as and which index it reveals for every nonce of the event.
-/
namespace Olivia

structure Outcome where
  id : EventId
  value : UInt64
  deriving DecidableEq

structure StampedOutcome where
  outcome : Outcome
  time : NaiveDateTime
  deriving DecidableEq

inductive Win
  | left
  | right

inductive WinOrDraw
  | left
  | right
  | draw

inductive Occur
  | occurred

def Win.toU64 : Win → UInt64
  | .left => 0
  | .right => 1

def WinOrDraw.toU64 : WinOrDraw → UInt64
  | .left => 0
  | .right => 1
  | .draw => 2

def Win.tryFrom (value : UInt64) : Option Win :=
  if value = 0 then some .left else if value = 1 then some .right else none

def WinOrDraw.tryFrom (value : UInt64) : Option WinOrDraw :=
  if value = 0 then some .left else if value = 1 then some .right
  else if value = 2 then some .draw else none

def Occur.tryFrom (value : UInt64) : Option Occur := if value = 0 then some .occurred else none

/-- The value a text has as the result of a match. -/
def VsMatchKind.outcomeValue (kind : VsMatchKind) (left right outcome : Str) :
    Except OutcomeError UInt64 :=
  match kind with
  | .winOrDraw =>
    if outcome = "draw".toList then .ok WinOrDraw.draw.toU64
    else match outcome.dropSuffix? "_win".toList with
      | some winner =>
        if winner = left then .ok WinOrDraw.left.toU64
        else if winner = right then .ok WinOrDraw.right.toU64
        else .error (.invalid winner)
      | none => .error (.invalid outcome)
  | .win =>
    if outcome = left then .ok Win.left.toU64
    else if outcome = right then .ok Win.right.toU64
    else .error (.invalid outcome)

/-- The text of a result of a match. The parties are asked for only where one is named. -/
def VsMatchKind.outcomeString (kind : VsMatchKind) (parties : MayPanic (Str × Str)) (value : UInt64) : MayPanic Str :=
  match kind with
  | .winOrDraw => do
    match ← MayPanic.expect "outcome value should be less than 3" (WinOrDraw.tryFrom value) with
    | .left => return (← parties).1 ++ "_win".toList
    | .right => return (← parties).2 ++ "_win".toList
    | .draw => return "draw".toList
  | .win => do
    match ← MayPanic.expect "outcome should be less than 2" (Win.tryFrom value) with
    | .left => return (← parties).1
    | .right => return (← parties).2

/-- The base-two digits of a price, highest first, the price capped at what they can spell. -/
def priceIndexes (nDigits : UInt8) (value : UInt64) : List UInt32 :=
  let cap := (checkedShr 18446744073709551615 (64-nDigits.toNat)).getD 0
  let value := min value cap
  ((List.range nDigits.toNat).map
    (fun i => if value &&& (1 <<< UInt64.ofNat i) ≠ 0 then 1 else 0)).reverse

namespace Outcome

/-- The value a text has as an outcome of the event. -/
def valueFromIdAndOutcome (id : EventId) (outcome : Str) : MayPanic (Except OutcomeError UInt64) := do
  match ← id.eventKind with
  | .singleOccurrence => return if outcome = "true".toList then .ok 0 else .error (.invalid outcome)
  | .vsMatch kind =>
    let (left,right) ← MayPanic.expect "it's a vs kind" (← id.parties)
    return kind.outcomeValue left right outcome
  | .predicate _ _ =>
    return match parseBool outcome with
      | some truth => .ok (if truth then 1 else 0)
      | none => .error (.invalid outcome)
  | .price _ =>
    return match parseU64 outcome with
      | some value => .ok value
      | none => .error (.invalid outcome)

def tryFromIdAndOutcome (id : EventId) (outcome : Str) : MayPanic (Except OutcomeError Outcome) := do
  return (← valueFromIdAndOutcome id outcome).map (fun value => ⟨id,value⟩)

theorem tryFromIdAndOutcome_eq_ok {id : EventId} {text : Str} {o : Outcome} :
    tryFromIdAndOutcome id text = .ok (.ok o) ↔ o.id = id ∧ valueFromIdAndOutcome id text = .ok (.ok o.value) := by
  constructor
  · intro h
    obtain ⟨read,hread,h⟩ := MayPanic.bind_eq_ok.mp h
    obtain ⟨value,rfl,rfl⟩ := MayPanic.map_eq_ok (Except.ok.inj h)
    exact ⟨rfl,hread⟩
  · rintro ⟨rfl,hvalue⟩
    exact MayPanic.bind_eq_ok.mpr ⟨_,hvalue,rfl⟩

def outcomeString (o : Outcome) : MayPanic Str := do
  match ← o.id.eventKind with
  | .singleOccurrence =>
    match ← MayPanic.expect "outcome value should be less than 1" (Occur.tryFrom o.value) with
    | .occurred => return "true".toList
  | .vsMatch kind => kind.outcomeString (o.id.parties >>= MayPanic.unwrap) o.value
  | .predicate _ _ => if o.value < 2 then return displayBool (o.value ≠ 0) else .error .assertion
  | .price _ => return displayU64 o.value

def attestationIndexes (o : Outcome) : MayPanic (List UInt32) := do
  match ← o.id.eventKind with
  | .price nDigits => return priceIndexes nDigits o.value
  | _ => if o.value.toNat < UInt32.size then return [o.value.toUInt32] else .error .unwrap

def attestationString (o : Outcome) : List UInt8 :=
  o.id.asBytes ++ '!'.toNat.toUInt8 :: toBeBytes o.value

def prefixPath (o : Outcome) (path : Path) : Outcome := { o with id := o.id.prefixPath path }

/-- A prefix is not part of the text of an outcome. -/
theorem outcomeString_prefixPath {o : Outcome} {k : EventKind} (h : o.id.eventKind = .ok k) (mount : Path) :
    (o.prefixPath mount).outcomeString = o.outcomeString := by
  simp only [outcomeString,prefixPath,EventId.eventKind_prefixPath h,h,EventId.parties_prefixPath h]
  rfl

end Outcome

def StampedOutcome.prefixPath (stamped : StampedOutcome) (path : Path) : StampedOutcome :=
  { stamped with outcome := stamped.outcome.prefixPath path }

end Olivia
