import Olivia.Rest.Listed

/-! # Which event a request asks for

An id goes into a URL as a whole, or with everything behind a question mark of its own as the
query. Whatever the store holds, the handlers read the same id back from a request, and a
request is answered with an event only under an id that its URL spells.
-/
namespace Olivia
namespace Rest
variable {C : Group} {σ : Type} (http : PercentEncoding) (db : DbReadOracle C σ)

/-- The text that a tail and a query spell. -/
def spelled (tail : Str) : Option Str → Str
  | some query => '/' :: (tail ++ '?' :: query)
  | none => '/' :: tail

/-- The id that the handler of events looks up, if it gets as far. -/
def eventFor (tail : ApiReply Str) (query : Option Str) : MayPanic (Option (ApiReply EventId)) :=
  match tail with
  | .err e => .ok (some (.err e))
  | .ok tail =>
    if tail.getLast? = some '/' then .ok none
    else
      match Path.fromStr (spelled tail query) with
      | .error e => .ok (some (.err (ErrorMessage.badRequest.withMessage
          ("'".toList ++ spelled tail query ++ "' is not a valid event path: ".toList ++ e.display))))
      | .ok path =>
        match path.stripEvent with
        | none => .ok none
        | some _ => do
          match ← EventId.tryFrom path with
          | .error e => return some (.err (ErrorMessage.badRequest.withMessage
              ("'".toList ++ path.str ++ "' is not a valid event id: ".toList ++ e.display)))
          | .ok eventId => return some (.ok eventId)

/-- The reply about an id, which is all that depends on the store. -/
def eventReply (eventId : EventId) (s : σ) : MayPanic (ApiReply (EventResponse C)) := do
  match ← db.getAnnouncedEvent eventId s with
  | .ok (some event) => return .ok ⟨event.announcement,event.attestation⟩
  | .ok none => return .err ErrorMessage.notFound
  | .error _ => return .err ErrorMessage.internalServerError

def replyFor (asked : ApiReply EventId) (s : σ) : MayPanic (ApiReply (EventResponse C)) :=
  match asked with
  | .ok eventId => eventReply db eventId s
  | .err e => .ok (.err e)

/-- The id that a request asks for, with its query and else without. -/
def asks (request : Request) : MayPanic (Option (ApiReply EventId)) := do
  match request.query with
  | some query =>
    match ← eventFor (percentDecodedTail http request) (some query) with
    | some asked => return some asked
    | none => eventFor (percentDecodedTail http request) none
  | none => eventFor (percentDecodedTail http request) none

variable {http} {db} {s t : σ} {request : Request} {id : EventId}

theorem getEvent_eq (tail : ApiReply Str) (query : Option Str) (s : σ) : getEvent db tail query s = (do
    match ← eventFor tail query with
    | some asked => do return some (← replyFor db asked s)
    | none => return none) := by
  cases tail with
  | err e => rfl
  | ok tail =>
    cases query
    all_goals
      unfold getEvent eventFor spelled
      by_cases hlast : tail.getLast? = some '/'
      · simp only [hlast,if_true,MayPanic.ok_bind,MayPanic.pure_eq]
      · simp only [hlast,if_false]
        generalize '/' :: _ = text
        cases Path.fromStr text with
        | error e => rfl
        | ok path =>
          cases hs : path.stripEvent with
          | none => simp only [hs,MayPanic.ok_bind,MayPanic.pure_eq]
          | some cut =>
            simp only [hs]
            cases EventId.tryFrom path with
            | error panic => rfl
            | ok r =>
              cases r with
              | error e => rfl
              | ok eventId =>
                simp only [MayPanic.ok_bind,MayPanic.pure_eq,replyFor,eventReply]
                rcases db.getAnnouncedEvent eventId s with _ | _ | _ | _ <;> rfl

theorem getEvent_map (tail : ApiReply Str) (query : Option Str) (s : σ) :
    (do return (← getEvent db tail query s).map (ApiReply.map Response.event)) = (do
      match ← eventFor tail query with
      | some asked => do return some ((← replyFor db asked s).map Response.event)
      | none => return none) := by
  rw [getEvent_eq]
  rcases eventFor tail query with panic | _ | asked
  · rfl
  · rfl
  · simp only [MayPanic.ok_bind]
    cases replyFor db asked s <;> rfl

theorem routes_of_root (h : request.tail = []) :
    routes http db request s = (do return some ((← getRoot db s).map .root)) := by
  have hroot : root db request s = (do return some ((← getRoot db s).map .root)) := if_pos h
  simp only [routes,Route.or,hroot]
  cases getRoot db s <;> rfl

theorem routes_eq_or (h : root db request s = .ok none) :
    routes http db request s = (eventWithQuery http db).or ((event http db).or (path http db)) request s := by
  simp only [routes,Route.or,h,MayPanic.ok_bind]
  rcases eventWithQuery http db request s with panic | _ | reply
  · rfl
  · rfl
  · rfl

/-- A request that is not for the root is for the event that it asks for, or else for a node. -/
theorem routes_eq (h : request.tail ≠ []) : routes http db request s = (do
    match ← asks http request with
    | some asked => do return some ((← replyFor db asked s).map .event)
    | none => do return some ((← getPath db (percentDecodedTail http request) s).map .path)) := by
  have hroot : root db request s = .ok none := if_neg h
  have hfallback : (event http db).or (path http db) request s = (do
      match ← eventFor (percentDecodedTail http request) none with
      | some asked => do return some ((← replyFor db asked s).map Response.event)
      | none => do return some ((← getPath db (percentDecodedTail http request) s).map .path)) := by
    simp only [Route.or,event,path,getEvent_map]
    rcases eventFor (percentDecodedTail http request) none with panic | _ | asked
    · rfl
    · rfl
    · simp only [MayPanic.ok_bind]
      cases replyFor db asked s <;> rfl
  rw [routes_eq_or hroot]
  cases hquery : request.query with
  | none => simpa only [Route.or,eventWithQuery,asks,hquery,MayPanic.pure_eq,MayPanic.ok_bind] using hfallback
  | some query =>
    simp only [Route.or,eventWithQuery,asks,hquery,getEvent_map] at hfallback ⊢
    rcases eventFor (percentDecodedTail http request) (some query) with panic | _ | asked
    · rfl
    · exact hfallback
    · simp only [MayPanic.ok_bind,MayPanic.pure_eq]
      cases replyFor db asked s <;> rfl

/-- The URL of a request spells an id: with its query, or whatever the query is. -/
def Spells (http : PercentEncoding) (request : Request) (id : EventId) : Prop :=
  ∃ tail, http.decode request.tail = some tail ∧
    (id.raw.str = spelled tail request.query ∨ id.raw.str = spelled tail none)

theorem eventFor_sound {tail : Str} {query : Option Str} (h : eventFor (.ok tail) query = .ok (some (.ok id))) :
    id.raw.str = spelled tail query ∧ id.Accepted := by
  unfold eventFor at h
  dsimp only at h
  split at h
  next => cases h
  next =>
    cases hp : Path.fromStr (spelled tail query) with
    | error e => simp [hp] at h
    | ok path =>
      simp only [hp] at h
      split at h
      next => cases h
      next =>
        obtain ⟨r,hr,h⟩ := MayPanic.bind_eq_ok.mp h
        cases r with
        | error e => cases h
        | ok eventId =>
          obtain rfl : eventId = id := by simpa using h
          obtain ⟨hid,_⟩ := EventId.fits_of_tryFrom hr
          have hraw : eventId.raw.str = spelled tail query := by
            rw [hid]
            exact (Path.fromStr_eq_ok.mp hp).1
          have hparse : EventId.fromStr (spelled tail query) = .ok (.ok eventId) :=
            (EventId.fromStr_path hp).trans hr
          exact ⟨hraw,(EventId.accepted_of_fromStr hparse).1⟩

/-- A text that an accepted id spells is read as this id. -/
theorem eventFor_complete (h : id.Accepted) {tail : Str} {query : Option Str} (hraw : id.raw.str = spelled tail query)
    (hlast : tail.getLast? ≠ some '/') : eventFor (.ok tail) query = .ok (some (.ok id)) := by
  obtain ⟨p,text,k,hstrip,_⟩ := h.fits
  have hpath : Path.fromStr (spelled tail query) = .ok id.raw := hraw ▸ h.fromStr_raw
  have hparse : EventId.tryFrom id.raw = .ok (.ok id) := (EventId.fromStr_path h.fromStr_raw).symm.trans h
  simp only [eventFor,if_neg hlast,hpath,hstrip,hparse,MayPanic.ok_bind,MayPanic.pure_eq]

theorem percentDecodedTail_eq {tail : Str} (h : http.decode request.tail = some tail) :
    percentDecodedTail http request = .ok tail := by rw [percentDecodedTail,h]

/-- The id that is asked for is spelled by the URL. -/
theorem asks_sound (h : asks http request = .ok (some (.ok id))) : Spells http request id ∧ id.Accepted := by
  unfold asks at h
  cases hdecode : http.decode request.tail with
  | none =>
    rw [percentDecodedTail,hdecode] at h
    cases hquery : request.query <;> simp [hquery,eventFor] at h
  | some tail =>
    rw [percentDecodedTail_eq hdecode] at h
    have hwhole : eventFor (.ok tail) none = .ok (some (.ok id)) → Spells http request id ∧ id.Accepted := by
      intro hfor
      obtain ⟨hraw,hid⟩ := eventFor_sound hfor
      exact ⟨⟨tail,hdecode,Or.inr hraw⟩,hid⟩
    cases hquery : request.query with
    | none =>
      simp only [hquery] at h
      exact hwhole h
    | some query =>
      simp only [hquery] at h
      obtain ⟨asked,hasked,h⟩ := MayPanic.bind_eq_ok.mp h
      cases asked with
      | none => exact hwhole h
      | some asked =>
        obtain rfl : asked = .ok id := by simpa using h
        obtain ⟨hraw,hid⟩ := eventFor_sound hasked
        exact ⟨⟨tail,hdecode,Or.inl (hquery ▸ hraw)⟩,hid⟩

theorem asks_complete (h : id.Accepted) {tail : Str} (hdecode : http.decode request.tail = some tail)
    (hraw : id.raw.str = spelled tail request.query) (hlast : tail.getLast? ≠ some '/') :
    asks http request = .ok (some (.ok id)) := by
  have hfor := eventFor_complete h hraw hlast
  unfold asks
  rw [percentDecodedTail_eq hdecode]
  cases hquery : request.query with
  | none =>
    rw [hquery] at hfor
    exact hfor
  | some query =>
    rw [hquery] at hfor
    simp only [hfor,MayPanic.ok_bind,MayPanic.pure_eq]

theorem routes_of_asks (htail : request.tail ≠ []) (h : asks http request = .ok (some (.ok id))) :
    routes http db request s = (do return some ((← eventReply db id s).map .event)) := by
  rw [routes_eq htail,h]
  rfl

/-- A reply with an event is one about the id that was asked for. -/
theorem asks_of_event {response : EventResponse C} (h : routes http db request s = .ok (some (.ok (.event response)))) :
    request.tail ≠ [] ∧ ∃ id, asks http request = .ok (some (.ok id)) ∧ eventReply db id s = .ok (.ok response) := by
  by_cases htail : request.tail = []
  · rw [routes_of_root htail] at h
    obtain ⟨reply,_,h⟩ := MayPanic.bind_eq_ok.mp h
    cases reply <;> cases h
  · refine ⟨htail,?_⟩
    rw [routes_eq htail] at h
    obtain ⟨asked,hasked,h⟩ := MayPanic.bind_eq_ok.mp h
    cases asked with
    | none =>
      obtain ⟨reply,_,h⟩ := MayPanic.bind_eq_ok.mp h
      cases reply <;> cases h
    | some asked =>
      obtain ⟨reply,hreply,h⟩ := MayPanic.bind_eq_ok.mp h
      cases reply with
      | err e => cases h
      | ok value =>
        obtain rfl : value = response := Response.event.inj (ApiReply.ok.inj (Option.some.inj (Except.ok.inj h)))
        cases asked with
        | err e => cases hreply
        | ok id => exact ⟨id,hasked,hreply⟩

theorem eventReply_eq_ok {response : EventResponse C} (h : eventReply db id s = .ok (.ok response)) :
    ∃ event, db.getAnnouncedEvent id s = .ok (.ok (some event)) ∧
      response = ⟨event.announcement,event.attestation⟩ := by
  obtain ⟨found,hfound,h⟩ := MayPanic.bind_eq_ok.mp h
  rcases found with e | _ | event
  · cases h
  · cases h
  · exact ⟨event,hfound,(ApiReply.ok.inj (Except.ok.inj h)).symm⟩

/-- The URL of a whole id asks for the id. -/
theorem routes_of_id (hid : id.Accepted) :
    routes http db (requestFor http id.raw) s = (do return some ((← eventReply db id s).map .event)) := by
  obtain ⟨p,text,k,hstrip,_⟩ := hid.fits
  obtain ⟨hstr,hne,hlast⟩ := tail_of_valid hid.fromStr_raw (Path.not_isRoot_of_stripEvent hstrip)
  exact routes_of_asks (fun h => hne (encode_eq_nil.mp h)) (asks_complete hid (http.decode_encode _) hstr hlast)

/-- An event has a URL for its whole id and one for every question mark in it that follows a path which is
not empty and does not end in a slash. No request is answered with an event that its URL does not spell. -/
theorem event_urls (http : PercentEncoding) (db : DbReadOracle C σ) (s : σ) :
    (∀ id : EventId, id.Accepted →
      routes http db (requestFor http id.raw) s = (do return some ((← eventReply db id s).map .event)) ∧
      ∀ tail query, id.raw.str = '/' :: (tail ++ '?' :: query) → tail ≠ [] → tail.getLast? ≠ some '/' →
        routes http db ⟨http.encode tail,some query⟩ s = (do return some ((← eventReply db id s).map .event))) ∧
    ∀ request response, routes http db request s = .ok (some (.ok (.event response))) → ∃ id event,
      Spells http request id ∧ id.Accepted ∧ db.getAnnouncedEvent id s = .ok (.ok (some event)) ∧
      response = ⟨event.announcement,event.attestation⟩ := by
  refine ⟨?_,?_⟩
  · intro id hid
    refine ⟨routes_of_id hid,?_⟩
    intro tail query hsplit hne hlast
    exact routes_of_asks (fun h => hne (encode_eq_nil.mp h)) (asks_complete hid (http.decode_encode _) hsplit hlast)
  · intro request response h
    obtain ⟨_,id,hasks,hreply⟩ := asks_of_event h
    obtain ⟨hspells,hid⟩ := asks_sound hasks
    obtain ⟨event,hfound,rfl⟩ := eventReply_eq_ok hreply
    exact ⟨id,event,hspells,hid,hfound,rfl⟩

section Sampled
open Sample NodeDb

/-- The number of digits of a stored price is sent as the query, or with the path. -/
theorem event_urls_price : ∃ event : AnnouncedEvent (group 10007),
    routes standard (readOracle Walk.entries) ⟨standard.encode "foo/bar.price".toList,some "n=2".toList⟩
      (run (inserting ["/foo/bar.price?n=2"])) = .ok (some (.ok (.event ⟨event.announcement,event.attestation⟩))) ∧
    routes standard (readOracle Walk.entries) (requestFor standard ⟨"/foo/bar.price?n=2".toList⟩)
      (run (inserting ["/foo/bar.price?n=2"])) = .ok (some (.ok (.event ⟨event.announcement,event.attestation⟩))) ∧
    ∃ id stored, Spells standard ⟨standard.encode "foo/bar.price".toList,some "n=2".toList⟩ id ∧
      (run (inserting ["/foo/bar.price?n=2"])).inner.lookup id = some stored ∧
      stored.announcement = event.announcement := by
  have hid : EventId.Accepted ⟨⟨"/foo/bar.price?n=2".toList⟩⟩ := by decide +kernel
  have hstored : ((run (inserting ["/foo/bar.price?n=2"])).inner.lookup ⟨⟨"/foo/bar.price?n=2".toList⟩⟩).isSome = true := by
    decide +kernel
  obtain ⟨event,hl⟩ := Option.isSome_iff_exists.mp hstored
  obtain ⟨hurls,hspelled⟩ := event_urls standard (readOracle Walk.entries) (run (inserting ["/foo/bar.price?n=2"]))
  obtain ⟨hwhole,hquery⟩ := hurls _ hid
  have hfound : (readOracle Walk.entries).getAnnouncedEvent ⟨⟨"/foo/bar.price?n=2".toList⟩⟩
      (run (inserting ["/foo/bar.price?n=2"])) = .ok (.ok (some event)) := by
    rw [← hl]
    rfl
  have hreply : eventReply (readOracle Walk.entries) ⟨⟨"/foo/bar.price?n=2".toList⟩⟩
      (run (inserting ["/foo/bar.price?n=2"])) = .ok (.ok ⟨event.announcement,event.attestation⟩) := by
    rw [eventReply,hfound]
    rfl
  have hwith : routes standard (readOracle Walk.entries) ⟨standard.encode "foo/bar.price".toList,some "n=2".toList⟩
      (run (inserting ["/foo/bar.price?n=2"])) = .ok (some (.ok (.event ⟨event.announcement,event.attestation⟩))) := by
    rw [hquery "foo/bar.price".toList "n=2".toList rfl (by decide) (by decide),hreply]
    rfl
  obtain ⟨id,stored,hspells,_,hget,hresponse⟩ := hspelled _ _ hwith
  refine ⟨event,hwith,?_,id,stored,hspells,Except.ok.inj (Except.ok.inj hget),?_⟩
  · rw [hwhole,hreply]
    rfl
  · exact (congrArg EventResponse.announcement hresponse).symm

end Sampled

end Rest
end Olivia
