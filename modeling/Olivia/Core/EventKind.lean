import Olivia.Core.Primitives

/-! # Event kinds

The kind of an event is the text after the first dot of its id. `fromStr` cuts arguments off
at the first question mark and recurses on the part before the first `=`, or before the
first `_` where there is no `=`; `toStr` prints the kind back.
-/
namespace Olivia

inductive VsMatchKind
  | winOrDraw
  | win
  deriving DecidableEq

inductive BoundKind
  | gt
  deriving DecidableEq

inductive Predicate
  | eq (value : Str)
  | bound (boundKind : BoundKind) (target : UInt64)
  deriving DecidableEq

inductive EventKind
  | vsMatch (kind : VsMatchKind)
  | singleOccurrence
  | predicate (inner : EventKind) (predicate : Predicate)
  | price (nDigits : UInt8)
  deriving DecidableEq

inductive OutcomeError
  | invalid (outcome : Str)
  deriving DecidableEq

inductive EventKindError
  | unknown (kind : Str)
  | argsBadFormat
  | unexpectedArgs
  | predEqToInvalidOutcome (error : OutcomeError)
  | predBoundWithNonNumericRhs
  | predBoundOnNonNumericEvent
  deriving DecidableEq

def VsMatchKind.toStr : VsMatchKind → Str
  | .win => "winner".toList
  | .winOrDraw => "vs".toList

/-- What a predicate prints after its inner kind. -/
def Predicate.toStr : Predicate → Str
  | .eq value => '=' :: value
  | .bound .gt target => '_' :: displayU64 target

/-- The value of a predicate on an outcome text; a bound needs a numeric one. -/
def Predicate.predicateOutcome (p : Predicate) (outcome : Str) : MayPanic UInt64 :=
  match p with
  | .eq target => .ok (if outcome = target then 1 else 0)
  | .bound .gt target => do
    let value ← MayPanic.expect "can't get predicate outcome for outcome that wasn't numeric"
      (parseU64 outcome)
    return if target < value then 1 else 0

namespace EventKind

/-- If you know the outcome of one of the two, you know the outcome of the other. -/
def eqFuzzy : EventKind → EventKind → Prop
  | price _, price _ => True
  | k, l => k = l

instance : DecidableRel eqFuzzy
  | price _, price _ => isTrue trivial
  | vsMatch k, l => inferInstanceAs (Decidable (vsMatch k = l))
  | singleOccurrence, l => inferInstanceAs (Decidable (singleOccurrence = l))
  | predicate k p, l => inferInstanceAs (Decidable (predicate k p = l))
  | price n, vsMatch k => inferInstanceAs (Decidable (price n = vsMatch k))
  | price n, singleOccurrence => inferInstanceAs (Decidable (price n = singleOccurrence))
  | price n, predicate k p => inferInstanceAs (Decidable (price n = predicate k p))

theorem eqFuzzy_refl (k : EventKind) : k.eqFuzzy k := by cases k <;> simp [eqFuzzy]

theorem eqFuzzy.symm {k l : EventKind} (h : k.eqFuzzy l) : l.eqFuzzy k := by
  cases k <;> cases l <;> simp_all [eqFuzzy]

theorem eqFuzzy.trans {k l m : EventKind} (h : k.eqFuzzy l) (h' : l.eqFuzzy m) : k.eqFuzzy m := by
  cases k <;> cases l <;> cases m <;> simp_all [eqFuzzy]

def IsPredicate : EventKind → Prop
  | predicate _ _ => True
  | _ => False

def nNonces : EventKind → UInt8
  | price nDigits => nDigits
  | _ => 1

def priceStr (nDigits : UInt8) : Str :=
  "price".toList ++ if 0 < nDigits then "?n=".toList ++ displayU8 nDigits else []

def toStr : EventKind → Str
  | vsMatch kind => kind.toStr
  | singleOccurrence => "occur".toList
  | predicate inner kind => inner.toStr ++ kind.toStr
  | price nDigits => priceStr nDigits

/-- The part before the first question mark. -/
def name (text : Str) : Str :=
  match Text.splitOnce '?' text with
  | some (name,_) => name
  | none => text

/-- The `&`-separated arguments after the first question mark. -/
def args (text : Str) : List (Str × Str) :=
  match Text.splitOnce '?' text with
  | some (_,rest) => (rest.splitOn '&').map (fun arg => (Text.splitOnce '=' arg).getD (arg,[]))
  | none => []

def checkNoArgs (args : List (Str × Str)) : Except EventKindError Unit :=
  if args.isEmpty then .ok () else .error .unexpectedArgs

/-- The digit count a price is given, zero when it is given none. -/
def priceDigits : List (Str × Str) → Except EventKindError UInt8
  | [] => .ok 0
  | [(['n'],nDigits)] =>
    match parseU8 nDigits with
    | none => .error .argsBadFormat
    | some nDigits => if nDigits = 0 ∨ 64 < nDigits then .error .argsBadFormat else .ok nDigits
  | _ => .error .unexpectedArgs

theorem length_name_le (text : Str) : (name text).length ≤ text.length := by
  unfold name
  split
  next a b h =>
    obtain ⟨rfl,_⟩ := Text.splitOnce_eq_some.mp h
    simp
  next => exact Nat.le_refl _

theorem splitOnce_name_lt {sep : Char} {text lhs rhs : Str}
    (h : Text.splitOnce sep (name text) = some (lhs,rhs)) : lhs.length < text.length := by
  have hl := length_name_le text
  rw [(Text.splitOnce_eq_some.mp h).1] at hl
  simp only [List.length_append,List.length_cons] at hl
  omega

def fromStr (text : Str) : MayPanic (Except EventKindError EventKind) :=
  if name text = "vs".toList then .ok ((checkNoArgs (args text)).map (fun _ => vsMatch .winOrDraw))
  else if name text = "winner".toList then .ok ((checkNoArgs (args text)).map (fun _ => vsMatch .win))
  else if name text = "occur".toList then .ok ((checkNoArgs (args text)).map (fun _ => singleOccurrence))
  else if name text = "price".toList then .ok ((priceDigits (args text)).map price)
  else if '=' ∈ name text then
    match checkNoArgs (args text) with
    | .error e => .ok (.error e)
    | .ok () =>
      match _h : Text.splitOnce '=' (name text) with
      | none => .error (.expect "we checked this already")
      | some (lhs,rhs) => do
        let inner ← fromStr lhs
        return inner.map (fun inner => predicate inner (.eq rhs))
  else if '_' ∈ name text then
    match checkNoArgs (args text) with
    | .error e => .ok (.error e)
    | .ok () =>
      match _h : Text.splitOnce '_' (name text) with
      | none => .error (.expect "we checked this already")
      | some (lhs,rhs) =>
        match parseU64 rhs with
        | none => .ok (.error .predBoundWithNonNumericRhs)
        | some rhs => do
          match ← fromStr lhs with
          | .error e => return .error e
          | .ok (price nDigits) => return .ok (predicate (price nDigits) (.bound .gt rhs))
          | .ok _ => return .error .predBoundOnNonNumericEvent
  else .ok (.error (.unknown (name text)))
termination_by text.length
decreasing_by
  · exact splitOnce_name_lt _h
  · exact splitOnce_name_lt _h

end EventKind
end Olivia
