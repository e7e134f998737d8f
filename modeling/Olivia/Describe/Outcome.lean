import Olivia.Core.PredicateEvent
import Olivia.Describe.Names

/-! # Descriptions of events and outcomes

An outcome is described by a sentence that says it happened and one that says it did not. A
predicate turns to the description of what it stands on, which turns to the short name of
its event, which for an equality is again the description of an outcome.
-/
namespace Olivia

/-- How many predicates an id is read under. -/
def EventKind.depth : EventKind → ℕ
  | .predicate inner _ => inner.depth+1
  | _ => 0

def EventId.depth (id : EventId) : ℕ :=
  match id.eventKind with
  | .ok kind => kind.depth
  | .error _ => 0

theorem EventId.depth_replaceKind {id base : EventId} {inner : EventKind} {predicate : Predicate}
    (hk : id.eventKind = .ok (.predicate inner predicate)) (hbase : id.replaceKind inner = .ok base) :
    base.depth < id.depth := by
  obtain ⟨p,text,hs,_⟩ := eventKind_eq_ok hk
  obtain ⟨other,hother,_,hkind,_⟩ := replaceKind_reads (path_eq hs) hk
  obtain rfl := Except.ok.inj (hbase.symm.trans hother)
  simp [depth,hk,hkind,EventKind.depth]

namespace Describe

structure OutcomeDesc where
  positive : Str
  negative : Str
  deriving DecidableEq

def OutcomeDesc.maybeNegate (d : OutcomeDesc) (negate : Bool) : OutcomeDesc :=
  if negate then ⟨d.negative,d.positive⟩ else d

/-- `event_short` of a match. -/
def matchShort (id : EventId) (vsKind : VsMatchKind) : MayPanic Str := do
  let path ← id.path
  let (left,right) ← MayPanic.unwrap (← id.parties)
  match matchSegments path.segments with
  | some (competition,date) =>
    let leftLong := lookupTeam competition left
    let rightLong := lookupTeam competition right
    let competition := lookupCompetition competition
    return match vsKind with
      | .winOrDraw => "result of ".toList ++ competition ++ " match ".toList ++ leftLong ++ " vs ".toList ++
          rightLong ++ " on ".toList ++ date
      | .win => "winner of ".toList ++ competition ++ " match ".toList ++ leftLong ++ " vs ".toList ++
          rightLong ++ " on ".toList ++ date
  | none =>
    let parent ← MayPanic.unwrap path.parent
    return match vsKind with
      | .winOrDraw => "result of ".toList ++ left ++ " vs ".toList ++ right ++ " in ".toList ++ parent.str
      | .win => "winner of ".toList ++ left ++ " vs ".toList ++ right ++ " in ".toList ++ parent.str

/-- `event_short` below `/random`, whatever the event but a match. -/
def randomShort (id : EventId) (datetime : Str) : MayPanic Str := do
  return "oracle's randomly selected outcome from ".toList ++ displayU64 (← id.nOutcomes) ++
    " possibilities at ".toList ++ datetime

def occurShort (id : EventId) : MayPanic Str := do
  let path ← id.path
  match timeSegments path.segments with
  | some datetime => return "time ".toList ++ datetime ++ " has passed".toList
  | none =>
    match randomSegments path.segments with
    | some datetime => randomShort id datetime
    | none => return path.str ++ " has transpired".toList

def priceShort (id : EventId) : MayPanic Str := do
  let path ← id.path
  match randomSegments path.segments with
  | some datetime => randomShort id datetime
  | none =>
    match instrumentSegments path.segments with
    | some (exchange,instrument,time) =>
      return "price of ".toList ++ instrument ++ " on ".toList ++ exchange ++ " at ".toList ++ time
    | none => return "price of ".toList ++ path.str

/-- The two sentences on a draw. -/
def drawn (left right competition date : Str) : OutcomeDesc :=
  ⟨left ++ " and ".toList ++ right ++ " draw in their ".toList ++ competition ++ " match on ".toList ++ date,
    left ++ " and ".toList ++ right ++ " do not draw in their ".toList ++ competition ++ " match on ".toList ++ date⟩

/-- The two sentences on a win. -/
def beats (winner loser competition date : Str) : OutcomeDesc :=
  ⟨winner ++ " beats ".toList ++ loser ++ " in their ".toList ++ competition ++ " match on ".toList ++ date,
    winner ++ " does not beat ".toList ++ loser ++ " in their ".toList ++ competition ++ " match on ".toList ++ date⟩

/-- `outcome` of a match of a competition. -/
def matchOutcome (vsKind : VsMatchKind) (competition date left right outcomeStr : Str) : MayPanic OutcomeDesc := do
  let leftLong := lookupTeam competition left
  let rightLong := lookupTeam competition right
  let competition := lookupCompetition competition
  if outcomeStr = "draw".toList then return drawn leftLong rightLong competition date
  let winner ← match vsKind with
    | .win => pure outcomeStr
    | .winOrDraw => MayPanic.unwrap (outcomeStr.dropSuffix? "_win".toList)
  return if winner = left then beats leftLong rightLong competition date
    else beats rightLong leftLong competition date

/-- The two sentences on any other event that is no price and no predicate. -/
def quoted (short outcomeStr : Str) : OutcomeDesc :=
  ⟨"the ".toList ++ short ++ " is \"".toList ++ outcomeStr ++ "\"".toList,
    "the ".toList ++ short ++ " is not \"".toList ++ outcomeStr ++ "\"".toList⟩

mutual

def eventShort (id : EventId) : MayPanic Str := do
  let path ← id.path
  let ⟨kind,hk⟩ ← MayPanic.attach id.eventKind
  match kind,hk with
  | .vsMatch vsKind,_ => matchShort id vsKind
  | .singleOccurrence,_ => occurShort id
  | .price _,_ => priceShort id
  | .predicate inner predicate,_hk =>
    match randomSegments path.segments with
    | some datetime => randomShort id datetime
    | none =>
      let ⟨innerId,_hbase⟩ ← MayPanic.attach (id.replaceKind inner)
      match predicate with
      | .eq value =>
        let ⟨read,hread⟩ ← MayPanic.attach (Outcome.tryFromIdAndOutcome innerId value)
        match read,hread with
        | .error _,_ => .error (.expect "this will be valid since predicate is valid")
        | .ok o,_hread =>
          let described ← outcome o
          return "assertion that ".toList ++ described.positive
      | .bound .gt bound =>
        let short ← eventShort innerId
        return "assertion that the ".toList ++ short ++ " will be greater than ".toList ++ displayU64 bound
termination_by (id.depth,0)
decreasing_by
  · exact Prod.Lex.left _ _ (by rw [Outcome.id_of_read _hread]; exact EventId.depth_replaceKind _hk _hbase)
  · exact Prod.Lex.left _ _ (EventId.depth_replaceKind _hk _hbase)

def outcome (o : Outcome) : MayPanic OutcomeDesc := do
  let path ← o.id.path
  let ⟨kind,hk⟩ ← MayPanic.attach o.id.eventKind
  let outcomeStr ← o.outcomeString
  match kind,hk with
  | .vsMatch vsKind,_ =>
    match matchSegments path.segments with
    | some (competition,date) =>
      let (left,right) ← MayPanic.unwrap (← o.id.parties)
      matchOutcome vsKind competition date left right outcomeStr
    | none => return quoted (← eventShort o.id) outcomeStr
  | .singleOccurrence,_ => return quoted (← eventShort o.id) outcomeStr
  | .price _,_ =>
    let short ← eventShort o.id
    return ⟨"the price of ".toList ++ short ++ " is ".toList ++ outcomeStr,
      "the price of ".toList ++ short ++ " is not ".toList ++ outcomeStr⟩
  | .predicate inner predicate,_hk =>
    let ⟨innerEventId,_hbase⟩ ← MayPanic.attach (o.id.replaceKind inner)
    match predicate with
    | .eq value =>
      let ⟨read,hread⟩ ← MayPanic.attach (Outcome.tryFromIdAndOutcome innerEventId value)
      match read,hread with
      | .error _,_ => .error (.expect "predicate is valid")
      | .ok innerOutcome,_hread =>
        let described ← outcome innerOutcome
        return described.maybeNegate (outcomeStr = "false".toList)
    | .bound .gt upperBound =>
      let short ← eventShort innerEventId
      let described : OutcomeDesc :=
        ⟨"the ".toList ++ short ++ " is above ".toList ++ displayU64 upperBound,
          "the ".toList ++ short ++ " is not above ".toList ++ displayU64 upperBound⟩
      return described.maybeNegate (outcomeStr = "false".toList)
termination_by (o.id.depth,1)
decreasing_by
  · exact Prod.Lex.right _ Nat.one_pos
  · exact Prod.Lex.right _ Nat.one_pos
  · exact Prod.Lex.right _ Nat.one_pos
  · exact Prod.Lex.left _ _ (by rw [Outcome.id_of_read _hread]; exact EventId.depth_replaceKind _hk _hbase)
  · exact Prod.Lex.left _ _ (EventId.depth_replaceKind _hk _hbase)

end

section Equations
variable {id base : EventId} {innerOutcome : Outcome} {p : Path} {inner : EventKind} {text value : Str} {v : UInt64}

theorem eventShort_vsMatch {vsKind : VsMatchKind} (hp : id.path = .ok p)
    (hk : id.eventKind = .ok (.vsMatch vsKind)) : eventShort id = matchShort id vsKind := by
  rw [eventShort,hp,MayPanic.attach_eq_ok hk]
  rfl

theorem eventShort_singleOccurrence (hp : id.path = .ok p) (hk : id.eventKind = .ok .singleOccurrence) :
    eventShort id = occurShort id := by
  rw [eventShort,hp,MayPanic.attach_eq_ok hk]
  rfl

theorem eventShort_price {nDigits : UInt8} (hp : id.path = .ok p) (hk : id.eventKind = .ok (.price nDigits)) :
    eventShort id = priceShort id := by
  rw [eventShort,hp,MayPanic.attach_eq_ok hk]
  rfl

theorem outcome_vsMatch {vsKind : VsMatchKind} {left right : Str} (hp : id.path = .ok p)
    (hk : id.eventKind = .ok (.vsMatch vsKind)) (htext : Outcome.outcomeString ⟨id,v⟩ = .ok text)
    (hparties : id.parties = .ok (some (left,right))) : outcome ⟨id,v⟩ = (
      match matchSegments p.segments with
      | some (competition,date) => matchOutcome vsKind competition date left right text
      | none => do return quoted (← eventShort id) text) := by
  rw [outcome,hp,MayPanic.attach_eq_ok hk,htext]
  simp only [MayPanic.ok_bind,hparties,MayPanic.unwrap_some]

theorem outcome_singleOccurrence (hp : id.path = .ok p) (hk : id.eventKind = .ok .singleOccurrence)
    (htext : Outcome.outcomeString ⟨id,v⟩ = .ok text) : outcome ⟨id,v⟩ = (do return quoted (← eventShort id) text) := by
  rw [outcome,hp,MayPanic.attach_eq_ok hk,htext]
  rfl

theorem outcome_price {nDigits : UInt8} (hp : id.path = .ok p) (hk : id.eventKind = .ok (.price nDigits))
    (htext : Outcome.outcomeString ⟨id,v⟩ = .ok text) : outcome ⟨id,v⟩ = (do
      let short ← eventShort id
      return ⟨"the price of ".toList ++ short ++ " is ".toList ++ text,
        "the price of ".toList ++ short ++ " is not ".toList ++ text⟩) := by
  rw [outcome,hp,MayPanic.attach_eq_ok hk,htext]
  rfl

/-- An equality says what the outcome it compares with says, or the opposite. -/
theorem outcome_eq (hp : id.path = .ok p) (hk : id.eventKind = .ok (.predicate inner (.eq value)))
    (htext : Outcome.outcomeString ⟨id,v⟩ = .ok text) (hbase : id.replaceKind inner = .ok base)
    (hread : Outcome.tryFromIdAndOutcome base value = .ok (.ok innerOutcome)) :
    outcome ⟨id,v⟩ = (do return (← outcome innerOutcome).maybeNegate (text = "false".toList)) := by
  rw [outcome,hp,MayPanic.attach_eq_ok hk,htext]
  simp only [MayPanic.ok_bind,MayPanic.attach_eq_ok hbase,MayPanic.attach_eq_ok hread]

theorem outcome_bound {upperBound : UInt64} (hp : id.path = .ok p)
    (hk : id.eventKind = .ok (.predicate inner (.bound .gt upperBound))) (htext : Outcome.outcomeString ⟨id,v⟩ = .ok text)
    (hbase : id.replaceKind inner = .ok base) : outcome ⟨id,v⟩ = (do
      let short ← eventShort base
      return OutcomeDesc.maybeNegate ⟨"the ".toList ++ short ++ " is above ".toList ++ displayU64 upperBound,
        "the ".toList ++ short ++ " is not above ".toList ++ displayU64 upperBound⟩ (text = "false".toList)) := by
  rw [outcome,hp,MayPanic.attach_eq_ok hk,htext]
  simp only [MayPanic.ok_bind,MayPanic.attach_eq_ok hbase]

end Equations
end Describe
end Olivia
