import Olivia.Core.EventId
import Olivia.Db.Nodes
import Olivia.Text.Percent

/-! # The REST routes

Requests for events and for nodes share one space of URLs. The routes are tried in order: a
handler that rejects leaves the request to the next one, and any reply, also one of an error,
answers it. What looks like an event has a dot in its last segment.
-/
namespace Olivia

/-- What the handlers read of a database. -/
structure DbReadOracle (C : Group) (σ : Type) where
  getAnnouncedEvent : EventId → σ → DbResult (Option (AnnouncedEvent C))
  getPublicKeys : σ → DbResult (Option (OracleKeys C))
  getNode : Path → σ → DbResult (Option GetPath)

def NodeDb.readOracle {C : Group} (walk : Walk C) : DbReadOracle C (NodeDb C) where
  getAnnouncedEvent id s := InMemory.getAnnouncedEvent id s.toInMemory
  getPublicKeys s := .ok (.ok s.publicKeys)
  getNode := getNode walk

def PathError.display : PathError → Str
  | .badFormat => "badly formatted event path".toList

def OutcomeError.display : OutcomeError → Str
  | .invalid outcome => "entity ‘".toList ++ outcome ++ "’ refers to something not part of the event".toList

def EventKindError.display : EventKindError → Str
  | .unknown kind => kind ++ " is an unknown event kind".toList
  | .argsBadFormat => "the argument to the event kind was badly formatted".toList
  | .unexpectedArgs => "the expecting any arguments for this event kind".toList
  | .predEqToInvalidOutcome _ => "the predicate = was applied to was not a valid outcome".toList
  | .predBoundWithNonNumericRhs => "the RHS of the bound predicate wasn't numeric".toList
  | .predBoundOnNonNumericEvent => "a bound predicate cannot be placed on a non-numeric event".toList

def EventIdError.display : EventIdError → Str
  | .notAnEvent => "not an event id".toList
  | .badFormat => "event id is badly formatted".toList
  | .kind error => "event id has a badly formed event kind ".toList ++ error.display
  | .missingEventKind => "event id was missing the event kind".toList

namespace Rest

structure ErrorMessage where
  code : ℕ
  error : Str
  deriving DecidableEq

namespace ErrorMessage

def notFound : ErrorMessage := ⟨404,"Not Found".toList⟩
def internalServerError : ErrorMessage := ⟨500,"Internal Server Error".toList⟩
def badRequest : ErrorMessage := ⟨400,"Bad Request".toList⟩
def withMessage (e : ErrorMessage) (message : Str) : ErrorMessage := ⟨e.code,message⟩

end ErrorMessage

inductive ApiReply (α : Type)
  | ok (value : α)
  | err (error : ErrorMessage)

def ApiReply.map {α β : Type} (f : α → β) : ApiReply α → ApiReply β
  | .ok value => .ok (f value)
  | .err error => .err error

structure EventResponse (C : Group) where
  announcement : RawAnnouncement C
  attestation : Option (Attestation C)

structure RootResponse (C : Group) where
  publicKeys : OracleKeys C
  node : GetPath

structure PathResponse where
  node : GetPath

inductive Response (C : Group)
  | root (response : RootResponse C)
  | event (response : EventResponse C)
  | path (response : PathResponse)

def Response.node {C : Group} : Response C → Option GetPath
  | .root response => some response.node
  | .event _ => none
  | .path response => some response.node

/-- A GET request: the path behind its first slash as it was sent, and the text behind a
question mark. -/
structure Request where
  tail : Str
  query : Option Str

/-- How clients write a text in a URL, and how it is read back. -/
structure PercentEncoding where
  encode : Str → Str
  decode : Str → Option Str
  decode_encode : ∀ text, decode (encode text) = some text
  encode_nil : encode [] = []

variable {C : Group} {σ : Type} (http : PercentEncoding) (db : DbReadOracle C σ)

def percentDecodedTail (request : Request) : ApiReply Str :=
  match http.decode request.tail with
  | some tail => .ok tail
  | none => .err (ErrorMessage.badRequest.withMessage "'\x7b\x7d' was not URL encoded properly".toList)

/-- A rejection is `none`. -/
def getEvent (tail : ApiReply Str) (query : Option Str) (s : σ) : MayPanic (Option (ApiReply (EventResponse C))) :=
  match tail with
  | .err e => .ok (some (.err e))
  | .ok tail =>
    if tail.getLast? = some '/' then .ok none
    else
      let path := match query with
        | some query => '/' :: (tail ++ '?' :: query)
        | none => '/' :: tail
      match Path.fromStr path with
      | .error e => .ok (some (.err (ErrorMessage.badRequest.withMessage
          ("'".toList ++ path ++ "' is not a valid event path: ".toList ++ e.display))))
      | .ok path =>
        -- if we've got a valid path but it doesn't look like an event we should reject
        match path.stripEvent with
        | none => .ok none
        | some _ => do
          match ← EventId.tryFrom path with
          | .error e => return some (.err (ErrorMessage.badRequest.withMessage
              ("'".toList ++ path.str ++ "' is not a valid event id: ".toList ++ e.display)))
          | .ok eventId =>
            match ← db.getAnnouncedEvent eventId s with
            | .ok (some event) => return some (.ok ⟨event.announcement,event.attestation⟩)
            | .ok none => return some (.err ErrorMessage.notFound)
            | .error _ => return some (.err ErrorMessage.internalServerError)

def getRoot (s : σ) : MayPanic (ApiReply (RootResponse C)) := do
  match ← db.getPublicKeys s with
  | .ok (some publicKeys) =>
    match ← db.getNode Path.root s with
    | .ok (some node) => return .ok ⟨publicKeys,node⟩
    | _ => return .err (ErrorMessage.internalServerError.withMessage
        "root node could not be read from the database".toList)
  | _ => return .err (ErrorMessage.internalServerError.withMessage
      "oracle public keys could not be retrieved from the database".toList)

/-- A text without the slash that it ends in. -/
def stripSlash (tail : Str) : Str := if tail.getLast? = some '/' then tail.dropLast else tail

def getPath (tail : ApiReply Str) (s : σ) : MayPanic (ApiReply PathResponse) :=
  match tail with
  | .err e => .ok (.err e)
  | .ok tail =>
    match Path.fromStr ('/' :: stripSlash tail) with
    | .error e => .ok (.err (ErrorMessage.badRequest.withMessage
        ("'/".toList ++ stripSlash tail ++ "' is not a valid event path: ".toList ++ e.display)))
    | .ok path => do
      match ← db.getNode path s with
      | .ok (some node) => return .ok ⟨node⟩
      | .ok none => return .err ErrorMessage.notFound
      | .error _ => return .err ErrorMessage.internalServerError

/-- A route answers a request or rejects it. -/
abbrev Route (C : Group) (σ : Type) := Request → σ → MayPanic (Option (ApiReply (Response C)))

def root : Route C σ := fun request s =>
  if request.tail = [] then do return some ((← getRoot db s).map .root)
  else .ok none

def eventWithQuery : Route C σ := fun request s =>
  match request.query with
  | some query => do return (← getEvent db (percentDecodedTail http request) (some query) s).map (·.map .event)
  | none => .ok none

def event : Route C σ := fun request s => do
  return (← getEvent db (percentDecodedTail http request) none s).map (·.map .event)

def path : Route C σ := fun request s => do
  return some ((← getPath db (percentDecodedTail http request) s).map .path)

def Route.or (first second : Route C σ) : Route C σ := fun request s => do
  match ← first request s with
  | some reply => return some reply
  | none => second request s

def routes : Route C σ := (((root db).or (eventWithQuery http db)).or (event http db)).or (path http db)

/-- The request for a path. -/
def requestFor (path : Path) : Request := ⟨http.encode path.str.tail,none⟩

end Rest
end Olivia
