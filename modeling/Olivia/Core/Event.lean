import Olivia.Core.Path
import Olivia.Core.KindGrammar

/-! # Event ids

An event id is a path whose last segment carries the event kind after its first dot. The
type does not check this: ids are built from prefixes and kinds without a second parse, so
every accessor parses the text again and panics where it is not an event.
-/
namespace Olivia

inductive Descriptor
  | enum (outcomes : List Str)
  | digitDecomposition (isSigned : Bool) (nDigits : UInt8) (unit : Option Str)
  | missingDescriptor
  deriving DecidableEq

@[ext] structure EventId where
  raw : Path
  deriving DecidableEq

/-- Seconds since the epoch and the subsecond part, which a leap second takes past a second. -/
structure NaiveDateTime where
  seconds : Int
  nanosecond : UInt32
  deriving DecidableEq

def NaiveDateTime.withNanosecond (t : NaiveDateTime) (nano : UInt32) : Option NaiveDateTime :=
  if nano < 2000000000 then some { t with nanosecond := nano } else none

structure Event where
  id : EventId
  expectedOutcomeTime : Option NaiveDateTime
  deriving DecidableEq

namespace EventId
variable {id : EventId} {p : Path} {k : EventKind}

def asStr (id : EventId) : Str := id.raw.str
def asBytes (id : EventId) : List UInt8 := Olivia.asBytes id.asStr

def fromPathAndKind (path : Path) (kind : EventKind) : EventId := ⟨⟨path.str ++ '.' :: kind.toStr⟩⟩

def path (id : EventId) : MayPanic Path := do
  let (path,_) ← MayPanic.expect "event must exist" id.raw.stripEvent
  return path

def eventKind (id : EventId) : MayPanic EventKind := do
  let (_,eventKind) ← MayPanic.expect "event must exist" id.raw.stripEvent
  MayPanic.expect "Event kind must be valid since this is a valid event id"
    (← EventKind.fromStr eventKind).toOption

def parties (id : EventId) : MayPanic (Option (Str × Str)) := do
  match ← id.eventKind with
  | .vsMatch _ =>
    let parties := (← id.path).last.splitOn '_'
    let left ← MayPanic.unwrap parties[0]?
    let right ← MayPanic.unwrap parties[1]?
    return some (left,right)
  | _ => return none

def nOutcomesForNonce (id : EventId) (_nonceIndex : ℕ) : MayPanic UInt32 := do
  match ← id.eventKind with
  | .vsMatch .winOrDraw => return 3
  | .vsMatch _ => return 2
  | .singleOccurrence => return 1
  | .predicate _ _ => return 2
  | .price _ => return 2

def nOutcomes (id : EventId) : MayPanic UInt64 := do
  match ← id.eventKind with
  | .price _ => return 18446744073709551615
  | _ => return (← id.nOutcomesForNonce 0).toUInt64

def nNonces (id : EventId) : MayPanic UInt8 := do return (← id.eventKind).nNonces

def descriptor (id : EventId) : MayPanic Descriptor := do
  match ← id.eventKind with
  | .vsMatch kind =>
    let (left,right) ← MayPanic.unwrap (← id.parties)
    match kind with
    | .win => return .enum [left,right]
    | .winOrDraw => return .enum [left ++ "_win".toList,right ++ "_win".toList,"draw".toList]
  | .singleOccurrence => return .enum ["true".toList]
  | .price nDigits =>
    return if nDigits = 0 then .missingDescriptor else .digitDecomposition false nDigits none
  | .predicate _ _ => return .enum ["true".toList,"false".toList]

def prefixPath (id : EventId) (path : Path) : EventId := ⟨id.raw.prefixPath path⟩
def stripPrefixPath (id : EventId) (path : Path) : EventId := ⟨id.raw.stripPrefixPath path⟩

/-- The bytes of an id determine it. -/
theorem asBytes_injective {id' : EventId} (h : id.asBytes = id'.asBytes) : id = id' := by
  have htext : some id.asStr = some id'.asStr := by
    rw [← fromUtf8_asBytes,← fromUtf8_asBytes]
    exact congrArg fromUtf8 h
  exact EventId.ext (Path.ext (Option.some.inj htext))

/-- The two readings of a text that spells an event. -/
theorem path_eq {text : Str} (h : id.raw.stripEvent = some (p,text)) : id.path = .ok p := by
  simp [path,h]

theorem eventKind_eq {text : Str} (h : id.raw.stripEvent = some (p,text))
    (hk : EventKind.KindText k text) : id.eventKind = .ok k := by
  simp [eventKind,h,EventKind.fromStr_of_kindText hk,Except.toOption]

/-- An id with a kind is cut like an event, and its kind is one of the grammar. -/
theorem eventKind_eq_ok (h : id.eventKind = .ok k) :
    ∃ p text, id.raw.stripEvent = some (p,text) ∧ EventKind.KindText k text := by
  cases hs : id.raw.stripEvent with
  | none => simp [eventKind,hs,MayPanic.expect] at h
  | some cut =>
    obtain ⟨r,hr⟩ := EventKind.fromStr_total cut.2
    cases r with
    | error e => simp [eventKind,hs,hr,Except.toOption,MayPanic.expect] at h
    | ok kind =>
      obtain rfl : kind = k := by simpa [eventKind,hs,hr,Except.toOption] using h
      exact ⟨cut.1,cut.2,rfl,EventKind.kindText_of_fromStr hr⟩

theorem path_eq_ok (h : id.path = .ok p) : ∃ text, id.raw.stripEvent = some (p,text) := by
  obtain ⟨cut,hcut,h⟩ := MayPanic.bind_eq_ok.mp h
  obtain rfl := Except.ok.inj h
  exact ⟨cut.2,MayPanic.expect_eq_ok.mp hcut⟩

/-- Prefixing an id moves its path and keeps its kind. -/
theorem stripEvent_prefixPath {text : Str} (h : id.raw.stripEvent = some (p,text)) (mount : Path) :
    (id.prefixPath mount).raw.stripEvent = some (p.under mount,text) := by
  rw [prefixPath,Path.prefixPath_of_stripEvent h,Path.stripEvent_under h]

theorem path_prefixPath (h : id.path = .ok p) (mount : Path) :
    (id.prefixPath mount).path = .ok (p.under mount) := by
  obtain ⟨text,hs⟩ := path_eq_ok h
  exact path_eq (stripEvent_prefixPath hs mount)

theorem eventKind_prefixPath (h : id.eventKind = .ok k) (mount : Path) :
    (id.prefixPath mount).eventKind = .ok k := by
  obtain ⟨p,text,hs,hk⟩ := eventKind_eq_ok h
  exact eventKind_eq (stripEvent_prefixPath hs mount) hk

theorem parties_prefixPath (h : id.eventKind = .ok k) (mount : Path) :
    (id.prefixPath mount).parties = id.parties := by
  obtain ⟨p,text,hs,_⟩ := eventKind_eq_ok h
  obtain ⟨init,name,hp,_⟩ := Path.stripEvent_eq_some.mp hs
  have hlast : (p.under mount).last = p.last := Path.last_under (by simp [hp]) mount
  simp only [parties,eventKind_prefixPath h,h,path_prefixPath (path_eq hs),path_eq hs,MayPanic.ok_bind,hlast]

/-- Every kind the accessors can see fits the nonce counter's bound. -/
theorem nNonces_le (h : id.eventKind = .ok k) : k.nNonces ≤ 64 := by
  obtain ⟨p,text,_,hk⟩ := eventKind_eq_ok h
  cases hk with
  | digits _ _ hle => exact hle
  | price => decide
  | _ => exact (by decide : (1 : UInt8) ≤ 64)

theorem nNonces_eq (h : id.eventKind = .ok k) : id.nNonces = .ok k.nNonces := by
  simp [nNonces,h]

/-- An unchecked id over the path of an event is cut behind that path. -/
theorem stripEvent_fromPathAndKind {raw : Path} {text : Str} (hs : raw.stripEvent = some (p,text))
    (hslash : '/' ∉ k.toStr) : (fromPathAndKind p k).raw.stripEvent = some (p,k.toStr) := by
  obtain ⟨init,name,hp,_,hname,hdot,_⟩ := Path.stripEvent_eq_some.mp hs
  exact Path.stripEvent_eq_some.mpr ⟨init,name,hp,rfl,hname,hdot,hslash⟩

theorem parties_vsMatch {kind : VsMatchKind} {left right : Str} (hk : id.eventKind = .ok (.vsMatch kind))
    (hp : id.path = .ok p) (hlast : p.last = left ++ '_' :: right) (hl : '_' ∉ left) (hr : '_' ∉ right) :
    id.parties = .ok (some (left,right)) := by
  simp [parties,hk,hp,Text.splitOn_eq_pair.mpr ⟨hlast,hl,hr⟩]

/-- A match without a separator between its parties has no second party to read. -/
theorem parties_vsMatch_isOk {kind : VsMatchKind} (hk : id.eventKind = .ok (.vsMatch kind))
    (hp : id.path = .ok p) : (∃ parties, id.parties = .ok (some parties)) ↔ '_' ∈ p.last := by
  constructor
  · rintro ⟨parties,h⟩
    by_contra hmem
    simp [EventId.parties,hk,hp,List.splitOn_eq_singleton hmem,MayPanic.unwrap] at h
  · intro hmem
    obtain ⟨a,b,rest,hs⟩ := Text.splitOn_of_mem hmem
    exact ⟨(a,b),by simp [parties,hk,hp,hs]⟩

end EventId

def Event.prefixPath (event : Event) (path : Path) : Event :=
  { event with id := event.id.prefixPath path }

def Event.stripPrefixPath (event : Event) (path : Path) : Event :=
  { event with id := event.id.stripPrefixPath path }

end Olivia
