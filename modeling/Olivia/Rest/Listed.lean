import Olivia.Db.Browsing
import Olivia.Rest.Routes

/-! # Browsing listed children

The children of a node that is listed have URLs of their own. Where the name of a child has a
dot its URL is that of an event, and where the name is empty it is that of the node itself.
-/
namespace Olivia
namespace Rest
variable {C : Group} {σ : Type} {http : PercentEncoding} {db : DbReadOracle C σ} {s : σ} {p : Path}
variable {g : GetPath} {response : Response C}

theorem encode_eq_nil {text : Str} : http.encode text = [] ↔ text = [] := by
  constructor
  · intro h
    have htext := http.decode_encode text
    rw [h,← http.encode_nil,http.decode_encode] at htext
    exact (Option.some.inj htext).symm
  · rintro rfl
    exact http.encode_nil

/-- A valid path but the root goes on behind its slash and does not end in another. -/
theorem tail_of_valid (hp : Path.fromStr p.str = .ok p) (hroot : ¬ p.isRoot) :
    p.str = '/' :: p.str.tail ∧ p.str.tail ≠ [] ∧ p.str.tail.getLast? ≠ some '/' := by
  obtain ⟨_,hhead,hlast⟩ := Path.fromStr_eq_ok.mp hp
  obtain ⟨rest,hrest⟩ := List.head?_eq_some_iff.mp hhead
  have hne : rest ≠ [] := by
    rintro rfl
    exact hroot (Path.ext hrest)
  rw [hrest,List.tail_cons]
  refine ⟨rfl,hne,?_⟩
  intro hslash
  have hend : p.str.getLast? = some '/' := by
    rw [hrest,List.getLast?_cons,hslash]
    rfl
  exact hroot (Path.ext (hlast hend))

theorem routes_root : routes http db (requestFor http Path.root) s =
    (do return some ((← getRoot db s).map .root)) := by
  have htail : (requestFor http Path.root).tail = [] := encode_eq_nil.mpr rfl
  have hroot : root db (requestFor http Path.root) s = (do return some ((← getRoot db s).map .root)) := if_pos htail
  simp only [routes,Route.or,hroot]
  cases getRoot db s with
  | error e => rfl
  | ok reply => rfl

/-- The request for a valid path but the root is for an event, or else for a node. -/
theorem routes_of_valid (hp : Path.fromStr p.str = .ok p) (hroot : ¬ p.isRoot) :
    routes http db (requestFor http p) s = (do
      match ← getEvent db (.ok p.str.tail) none s with
      | some reply => return some (reply.map .event)
      | none => return some ((← getPath db (.ok p.str.tail) s).map .path)) := by
  obtain ⟨_,hne,_⟩ := tail_of_valid hp hroot
  have htail : (requestFor http p).tail ≠ [] := fun h => hne (encode_eq_nil.mp h)
  have hnot : root db (requestFor http p) s = .ok none := if_neg htail
  have hquery : eventWithQuery http db (requestFor http p) s = .ok none := rfl
  have hdecoded : percentDecodedTail http (requestFor http p) = .ok p.str.tail := by
    rw [percentDecodedTail,requestFor,http.decode_encode]
  simp only [routes,Route.or,hnot,hquery,event,path,hdecoded,MayPanic.ok_bind]
  cases getEvent db (.ok p.str.tail) none s with
  | error e => rfl
  | ok reply => cases reply <;> rfl

/-- The handler of events rejects exactly the paths without a kind. -/
theorem getEvent_eq_none_iff (hp : Path.fromStr p.str = .ok p) (hroot : ¬ p.isRoot) :
    getEvent db (.ok p.str.tail) none s = .ok none ↔ p.stripEvent = none := by
  obtain ⟨hstr,_,hlast⟩ := tail_of_valid hp hroot
  simp only [getEvent,if_neg hlast,← hstr,hp]
  cases hs : p.stripEvent with
  | none => simp
  | some cut =>
    refine iff_of_false ?_ (by simp)
    dsimp only
    intro h
    obtain ⟨id,_,h⟩ := MayPanic.bind_eq_ok.mp h
    split at h
    next => cases h
    next =>
      obtain ⟨found,_,h⟩ := MayPanic.bind_eq_ok.mp h
      split at h <;> cases h

theorem getPath_eq_ok (hp : Path.fromStr p.str = .ok p) (hroot : ¬ p.isRoot) :
    getPath db (.ok p.str.tail) s = .ok (.ok ⟨g⟩) ↔ db.getNode p s = .ok (.ok (some g)) := by
  obtain ⟨hstr,_,hlast⟩ := tail_of_valid hp hroot
  have hstrip : stripSlash p.str.tail = p.str.tail := if_neg hlast
  simp only [getPath,hstrip,← hstr,hp]
  rcases db.getNode p s with _ | _ | _ | node <;> simp

/-- A request that is answered with a node. -/
def Answered (http : PercentEncoding) (db : DbReadOracle C σ) (p : Path) (g : GetPath) (s : σ) : Prop :=
  ∃ response, routes http db (requestFor http p) s = .ok (some (.ok response)) ∧ response.node = some g

theorem answered_root : Answered http db Path.root g s ↔
    db.getNode Path.root s = .ok (.ok (some g)) ∧ ∃ publicKeys, db.getPublicKeys s = .ok (.ok (some publicKeys)) := by
  simp only [Answered,routes_root,getRoot]
  rcases db.getPublicKeys s with _ | _ | _ | publicKeys
  · simp
  · simp [ApiReply.map]
  · simp [ApiReply.map]
  · rcases db.getNode Path.root s with _ | _ | _ | node
    · simp
    · simp [ApiReply.map]
    · simp [ApiReply.map]
    · simp [ApiReply.map,Response.node]

/-- A valid path is answered with its node unless it is the path of an event. -/
theorem answered_iff (hp : Path.fromStr p.str = .ok p) (hroot : ¬ p.isRoot) : Answered http db p g s ↔
    db.getNode p s = .ok (.ok (some g)) ∧ p.stripEvent = none := by
  have hevent : getEvent db (.ok p.str.tail) none s = .ok none ↔ p.stripEvent = none := getEvent_eq_none_iff hp hroot
  rw [← getPath_eq_ok hp hroot,← hevent]
  simp only [Answered,routes_of_valid hp hroot]
  constructor
  · rintro ⟨response,h,hnode⟩
    obtain ⟨reply,hreply,h⟩ := MayPanic.bind_eq_ok.mp h
    cases reply with
    | some reply =>
      cases reply with
      | err e => cases h
      | ok event =>
        obtain rfl : Response.event event = response := ApiReply.ok.inj (Option.some.inj (Except.ok.inj h))
        cases hnode
    | none =>
      obtain ⟨found,hfound,h⟩ := MayPanic.bind_eq_ok.mp h
      cases found with
      | err e => cases h
      | ok path =>
        obtain rfl : Response.path path = response := ApiReply.ok.inj (Option.some.inj (Except.ok.inj h))
        obtain rfl : path.node = g := Option.some.inj hnode
        exact ⟨hfound,hreply⟩
  · rintro ⟨hnode,hnone⟩
    exact ⟨.path ⟨g⟩,by rw [hnone,hnode]; rfl,rfl⟩

/-- A path whose request is answered with its node. -/
def Browsable (http : PercentEncoding) (db : DbReadOracle C σ) (p : Path) (s : σ) : Prop :=
  Path.fromStr p.str = .ok p ∧ ∃ g, db.getNode p s = .ok (.ok (some g)) ∧ Answered http db p g s

open NodeDb
variable {walk : Walk C} {ops : List (NodeOp C)} {list : List Child}

/-- What stands in the way of browsing a child: a dot in its name, an empty name, or a node of
dates that cannot be read. -/
def Blocked (ops : List (NodeOp C)) (p : Path) (name : Str) : Prop :=
  '.' ∈ name ∨ name = [] ∧ ¬ p.isRoot ∨
    kindAfter ops (p.joined name) = .dateMap ∧ ¬ DatesApart (p.joined name) (run ops).toInMemory

theorem getNode_of_answered (hp : Path.fromStr p.str = .ok p) (h : Answered http db p g s) :
    db.getNode p s = .ok (.ok (some g)) := by
  by_cases hroot : p.isRoot
  · rw [hroot] at h ⊢
    exact (answered_root.mp h).1
  · exact ((answered_iff hp hroot).mp h).1

/-- The child of a listed node can be browsed unless something is in the way. -/
theorem browsable_child_iff {name : Str} (hids : ∀ id ∈ (run ops).inner, id.Accepted)
    (hp : Path.fromStr p.str = .ok p) (hnode : Answered http (readOracle walk) p g (run ops))
    (hchild : HasChild ops p name) :
    Browsable http (readOracle walk) (p.joined name) (run ops) ↔ ¬ Blocked ops p name := by
  obtain ⟨rest,hrest⟩ := Path.exists_of_fromStr hp
  obtain ⟨id,q,hid,hq,hfollows⟩ := hchild
  obtain ⟨rest',hhead⟩ := List.head?_eq_some_iff.mp ((hids id hid).head_path hq)
  have hname := hfollows.slash_not_mem
  have hvalid := Path.fromStr_joined hrest hname
  by_cases hroot : (p.joined name).isRoot
  · obtain ⟨hp',rfl⟩ := (Path.joined_isRoot hrest).mp hroot
    have hself : p.joined [] = p := hroot.trans hp'.symm
    have hbrowsable : Browsable http (readOracle walk) (p.joined []) (run ops) := by
      rw [hself]
      exact ⟨hp,g,getNode_of_answered hp hnode,hnode⟩
    refine iff_of_true hbrowsable ?_
    rintro (hdot | ⟨_,hnot⟩ | ⟨_,hapart⟩)
    · cases hdot
    · exact hnot hp'
    · exact hapart (fun hnot => absurd hroot hnot)
  · obtain ⟨init,hinit⟩ := Path.joined_str p name
    have hevent := Path.stripEvent_eq_none hinit hname
    have hget : (∃ r, getNode walk (p.joined name) (run ops) = .ok r) ↔ (kindAfter ops (p.joined name) = .dateMap →
        DatesApart (p.joined name) (run ops).toInMemory) := by
      rw [getNode_isOk_iff (keyed_run ops) hids,kindOf_run]
    constructor
    · rintro ⟨hjoined,g',hg',hanswered⟩ (hdot | ⟨hnil,hnot⟩ | ⟨hkind,hapart⟩)
      · exact hevent.mp ((answered_iff hjoined hroot).mp hanswered).2 hdot
      · exact hnot (hvalid.mp hjoined hnil)
      · exact hapart (hget.mp ⟨_,hg'⟩ hkind)
    · intro hfree
      have hjoined := hvalid.mpr (fun hnil => not_not.mp (fun hnot => hfree (Or.inr (Or.inl ⟨hnil,hnot⟩))))
      have hapart : kindOf (run ops).nodeKinds (p.joined name) = .dateMap →
          DatesApart (p.joined name) (run ops).toInMemory := by
        rw [kindOf_run]
        exact fun hkind => not_not.mp (fun hnot => hfree (Or.inr (Or.inr ⟨hkind,hnot⟩)))
      obtain ⟨rest'',hrest''⟩ := Path.exists_of_fromStr hjoined
      obtain ⟨g',hg'⟩ : ∃ g', getNode walk (p.joined name) (run ops) = .ok (.ok (some g')) :=
        getNode_shown (keyed_run ops) hids hrest'' hid hq (hfollows.isParentOf_joined hrest hhead) hapart
      exact ⟨hjoined,g',hg',(answered_iff hjoined hroot).mpr ⟨hg',hevent.mpr (fun hdot => hfree (Or.inl hdot))⟩⟩

/-- The children of a list that is answered can all be browsed exactly where nothing stands in
the way of any segment that follows the node in the path of an event. -/
theorem children_browsable_iff (hids : ∀ id ∈ (run ops).inner, id.Accepted) (hp : Path.fromStr p.str = .ok p)
    (hnode : Answered http (readOracle walk) p g (run ops)) (hlist : g.childDesc = .list list) :
    (∀ child ∈ list, Browsable http (readOracle walk) (p.joined child.name) (run ops)) ↔
      ∀ name, HasChild ops p name → ¬ Blocked ops p name := by
  have hnames := getNode_listed hids hp (getNode_of_answered hp hnode) hlist
  constructor
  · intro h name hchild
    obtain ⟨child,hmem,rfl⟩ := List.mem_map.mp ((hnames name).mpr (Or.inl hchild))
    exact (browsable_child_iff hids hp hnode hchild).mp (h child hmem)
  · intro h child hmem
    rcases (hnames child.name).mp (List.mem_map_of_mem hmem) with hchild | ⟨hroot,hname,_⟩
    · exact (browsable_child_iff hids hp hnode hchild).mpr (h child.name hchild)
    · have hself : p.joined child.name = p := by
        rw [hname,hroot]
        rfl
      rw [hself]
      exact ⟨hp,g,getNode_of_answered hp hnode,hnode⟩

section Sampled
open Sample

/-- Clients that write every byte but letters, digits and slashes with a percent sign. -/
def standard : PercentEncoding where
  encode text := (asBytes text).flatMap Text.Percent.encodeByte
  decode tail := fromUtf8 (Text.Percent.decode tail)
  decode_encode text := by rw [Text.Percent.decode_flatMap_encodeByte,fromUtf8_asBytes]
  encode_nil := rfl

theorem answered_at_foo {ops : List (NodeOp (group 10007))}
    (hids : ∀ id ∈ (run ops).inner, id.Accepted) (hkind : kindAfter ops ⟨"/foo".toList⟩ = .list)
    (hg : ∃ g, getNode Walk.entries ⟨"/foo".toList⟩ (run ops) = .ok (.ok (some g))) :
    ∃ g list, Answered standard (readOracle Walk.entries) ⟨"/foo".toList⟩ g (run ops) ∧ g.childDesc = .list list := by
  obtain ⟨g,hg⟩ := hg
  obtain ⟨list,hlist,_⟩ := getNode_list hids (by decide) hkind hg
  exact ⟨g,list,(answered_iff (by decide) (by decide)).mpr ⟨hg,by decide⟩,hlist⟩

theorem children_browsable_at_foo : ∃ g list,
    Answered standard (readOracle Walk.entries) ⟨"/foo".toList⟩ g (run (inserting ["/foo/a/x.occur"])) ∧
      g.childDesc = .list list ∧
      ((∀ child ∈ list, Browsable standard (readOracle Walk.entries) ((⟨"/foo".toList⟩ : Path).joined child.name)
        (run (inserting ["/foo/a/x.occur"]))) ↔ ∀ name, HasChild (inserting ["/foo/a/x.occur"]) ⟨"/foo".toList⟩ name →
          ¬ Blocked (inserting ["/foo/a/x.occur"]) ⟨"/foo".toList⟩ name) := by
  have hids : ∀ id ∈ (run (inserting ["/foo/a/x.occur"])).inner.keys, id.Accepted := by decide +kernel
  obtain ⟨g,list,hnode,hlist⟩ := answered_at_foo hids (by decide +kernel) (shown_of_isSome (by decide +kernel))
  exact ⟨g,list,hnode,hlist,children_browsable_iff hids (by decide) hnode hlist⟩

/-- The listed child "a.b" of "/foo" is taken for an event. -/
theorem dotted_child_blocked : ¬ ∀ (ops : List (NodeOp (group 10007))) (p : Path) (g : GetPath) (list : List Child),
    (∀ id ∈ (run ops).inner, id.Accepted) → Path.fromStr p.str = .ok p →
      Answered standard (readOracle Walk.entries) p g (run ops) → g.childDesc = .list list →
      ∀ child ∈ list, Browsable standard (readOracle Walk.entries) (p.joined child.name) (run ops) := by
  intro h
  have hids : ∀ id ∈ (run (inserting ["/foo/a.b/x.occur"])).inner.keys, id.Accepted := by decide +kernel
  obtain ⟨g,list,hnode,hlist⟩ := answered_at_foo hids (by decide +kernel) (shown_of_isSome (by decide +kernel))
  have hmem : (⟨⟨"/foo/a.b/x.occur".toList⟩⟩ : EventId) ∈ (run (inserting ["/foo/a.b/x.occur"])).inner.keys := by
    decide +kernel
  have hchild : HasChild (inserting ["/foo/a.b/x.occur"]) ⟨"/foo".toList⟩ "a.b".toList :=
    ⟨_,⟨"/foo/a.b/x".toList⟩,hmem,by decide +kernel,by decide +kernel,by decide,["x".toList],by decide +kernel⟩
  obtain ⟨child,hlisted,hname⟩ := List.mem_map.mp
    ((getNode_listed hids (by decide) (getNode_of_answered (by decide) hnode) hlist _).mpr (Or.inl hchild))
  have hbrowsable := h _ _ g list hids (by decide) hnode hlist child hlisted
  rw [hname,browsable_child_iff hids (by decide) hnode hchild] at hbrowsable
  exact hbrowsable (Or.inl (by decide))

end Sampled

end Rest
end Olivia
