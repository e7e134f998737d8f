import Olivia.Db.ReadEvent
import Olivia.Rest.Listed

/-! # The nodes of events

An id is a valid path as a whole, and the path of its event is what stands before the first dot
of its last segment. Where no name stands there the path ends in a slash, as no valid path but
the root does, and a request for it is read as one for the node above.
-/
namespace Olivia
namespace EventId
variable {id : EventId} {p : Path} {k : EventKind} {text : Str}

/-- The path of an accepted id is valid but for events without a name below the root. -/
theorem fromStr_path_iff (h : id.Accepted) (hs : id.raw.stripEvent = some (p,text)) :
    Path.fromStr p.str = .ok p ↔ (id.raw.last.head? = some '.' → id.asStr = '/' :: id.raw.last) := by
  obtain ⟨init,name,hp,hraw,hname,hdot,htext⟩ := Path.stripEvent_eq_some.mp hs
  have hhead := h.head_path (path_eq hs)
  have hstr : id.raw.str = init ++ '/' :: (name ++ '.' :: text) := by rw [hraw,hp]; simp
  have hlast : id.raw.last = name ++ '.' :: text := Path.last_eq hstr (by simp [hname,htext])
  rw [Path.fromStr_eq_ok,hlast,asStr,hstr]
  simp only [hhead,true_and]
  cases name with
  | nil => simp [hp]
  | cons c name =>
    have hslash : p.str.getLast? ≠ some '/' := by
      rw [hp,List.getLast?_append_of_ne_nil init (by simp),List.getLast?_cons_cons]
      exact fun hlast => hname (List.mem_of_getLast? hlast)
    have hfirst : c ≠ '.' := fun hc => hdot (by simp [hc])
    refine iff_of_true (fun hend => absurd hend hslash) (fun hend => ?_)
    exact absurd (Option.some.inj hend) hfirst

/-- The node of an event: its path is a valid one and the id goes on behind it with a dot and the
kind. A request for it is answered with the node that the database has there, and the event is
among those that a query for it selects. -/
structure NodeAt (id : EventId) (path : Path) (k : EventKind) (text : Str) : Prop where
  path_eq : id.path = .ok path
  valid : Path.fromStr path.str = .ok path
  kind_eq : id.eventKind = .ok k
  spelled : id.asStr = path.str ++ '.' :: text
  parsed : EventKind.fromStr text = .ok (.ok k)
  requested : ∀ {C : Group} {σ : Type} (http : Rest.PercentEncoding) (db : DbReadOracle C σ) (s : σ)
    (publicKeys : OracleKeys C) (node : GetPath), db.getPublicKeys s = .ok (.ok (some publicKeys)) →
      db.getNode path s = .ok (.ok (some node)) → Rest.Answered http db path node s
  queried : ∀ {C : Group} (announced : AnnouncedEvent C), announced.event.id = id →
    ({ path := some path } : EventQuery).selects announced = .ok true

def HasNode (id : EventId) : Prop := ∃ path k text, id.NodeAt path k text

/-- No kind is left in the last segment of the path, so its request is not one for an event. -/
theorem answered_at_path {C : Group} {σ : Type} {http : Rest.PercentEncoding} {db : DbReadOracle C σ} {s : σ}
    {publicKeys : OracleKeys C} {node : GetPath} (hs : id.raw.stripEvent = some (p,text))
    (hvalid : Path.fromStr p.str = .ok p) (hkeys : db.getPublicKeys s = .ok (.ok (some publicKeys)))
    (hnode : db.getNode p s = .ok (.ok (some node))) : Rest.Answered http db p node s := by
  by_cases hroot : p.isRoot
  · rw [hroot] at hnode ⊢
    exact Rest.answered_root.mpr ⟨hnode,publicKeys,hkeys⟩
  · obtain ⟨init,name,hp,_,hname,hdot,_⟩ := Path.stripEvent_eq_some.mp hs
    exact (Rest.answered_iff hvalid hroot).mpr ⟨hnode,(Path.stripEvent_eq_none hp hname).mpr hdot⟩

theorem nodeAt_of_valid (hs : id.raw.stripEvent = some (p,text)) (hk : EventKind.KindText k text)
    (hvalid : Path.fromStr p.str = .ok p) : id.NodeAt p k text where
  path_eq := path_eq hs
  valid := hvalid
  kind_eq := eventKind_eq hs hk
  spelled := by
    obtain ⟨_,_,_,hraw,_⟩ := Path.stripEvent_eq_some.mp hs
    exact hraw
  parsed := EventKind.fromStr_of_kindText hk
  requested _ _ _ _ _ hkeys hnode := answered_at_path hs hvalid hkeys hnode
  queried _ hid := EventQuery.selects_path.mpr ⟨p,hid ▸ path_eq hs,List.prefix_rfl⟩

/-- An event has a node unless its last segment begins with the dot, below the root. -/
theorem hasNode_iff (h : id.Accepted) :
    id.HasNode ↔ (id.raw.last.head? = some '.' → id.asStr = '/' :: id.raw.last) := by
  obtain ⟨p,text,k,hs,hk,_⟩ := h.fits
  rw [← fromStr_path_iff h hs]
  constructor
  · rintro ⟨q,_,_,hnode⟩
    obtain rfl : p = q := Except.ok.inj ((path_eq hs).symm.trans hnode.path_eq)
    exact hnode.valid
  · intro hvalid
    exact ⟨p,k,text,nodeAt_of_valid hs hk hvalid⟩

theorem hasNode_at_root : HasNode ⟨⟨"/.occur".toList⟩⟩ :=
  (hasNode_iff (by decide +kernel)).mpr (fun _ => by decide)

/-- The path "/foo/" of an event is not valid, and a request for it is one for "/foo". -/
theorem nameless_event_without_node : (¬ ∀ id : EventId, id.Accepted → id.HasNode) ∧
    path ⟨⟨"/foo/.occur".toList⟩⟩ = .ok ⟨"/foo/".toList⟩ ∧
    ∀ {C : Group} {σ : Type} (db : DbReadOracle C σ) (s : σ),
      Rest.getPath db (.ok "foo/".toList) s = Rest.getPath db (.ok "foo".toList) s := by
  have hpath : path ⟨⟨"/foo/.occur".toList⟩⟩ = .ok ⟨"/foo/".toList⟩ := by decide
  have hslash : Rest.stripSlash "foo/".toList = Rest.stripSlash "foo".toList := by decide
  refine ⟨fun h => ?_,hpath,fun db s => by simp only [Rest.getPath,hslash]⟩
  obtain ⟨p,_,_,hnode⟩ := h ⟨⟨"/foo/.occur".toList⟩⟩ (by decide +kernel)
  obtain rfl : p = _ := Except.ok.inj (hnode.path_eq.symm.trans hpath)
  exact absurd hnode.valid (by decide)

end EventId
end Olivia
