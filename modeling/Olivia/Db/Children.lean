import Olivia.Db.Nodes

/-! # The children of a node

The children of a node are the segments that follow its path in the paths of the stored
events. The path of an event is cut behind the path of the node, which leaves an empty
segment of an event that is stored at the root itself.
-/
namespace Olivia
namespace Path
variable {p q : Path} {name : Str}

/-- The path of a child. -/
def joined (p : Path) (name : Str) : Path := if p.isRoot then ⟨'/' :: name⟩ else ⟨p.str ++ '/' :: name⟩

/-- The next segment of a path that lies strictly below another one; the root has none of its own. -/
def Follows (p q : Path) (name : Str) : Prop := p.isParentOf q = true ∧ q ≠ p ∧
  ∃ rest, q.segments = (if p.isRoot then [] else p.segments) ++ name :: rest

theorem follows_root_iff {rest : Str} (hq : q.str = '/' :: rest) :
    root.Follows q name ↔ ¬ q.isRoot ∧ q.segments.head? = some name := by
  have hbelow : root.isParentOf q = true := isParentOf_of_isRoot rfl hq
  have hroot : root.isRoot := rfl
  simp only [Follows,hbelow,true_and,if_pos hroot,List.nil_append,List.head?_eq_some_iff]
  exact Iff.rfl

/-- What is cut off the path of an event begins with the segment that follows. -/
theorem first_stripPrefixPath {rest rest' : Str} (hp : p.str = '/' :: rest) (hq : q.str = '/' :: rest')
    (hbelow : p.isParentOf q = true) :
    (q.stripPrefixPath p).first = some name ↔ p.Follows q name ∨ p.isRoot ∧ q.isRoot ∧ name = [] := by
  by_cases hroot : p.isRoot
  · obtain rfl : p = root := hroot
    have hroot : root.isRoot := rfl
    have hstrip : q.stripPrefixPath root = q := if_pos hroot
    rw [hstrip,follows_root_iff hq,first]
    by_cases hqroot : q.isRoot
    · obtain rfl : q = root := hqroot
      have hsegments : root.segments = [[]] := by decide
      simp [hsegments,hroot,eq_comm]
    · simp [hqroot]
  · simp only [hroot,false_and,or_false]
    rcases (isParentOf_iff_behind (by simp [hp]) hroot).mp hbelow with rfl | ⟨tail,htail⟩
    · rw [stripPrefixPath_self hroot]
      exact iff_of_false (by simp [first,segments]) (fun h => h.2.1 rfl)
    · have hne : q ≠ p := by
        rintro rfl
        simpa using congrArg List.length htail
      rw [stripPrefixPath_append hroot htail,first,segments_of_head rfl,Follows,segments_append htail,
        if_neg hroot,List.head?_eq_some_iff]
      simp only [hbelow,hne,ne_eq,not_false_eq_true,true_and,List.append_cancel_left_eq]

/-- The name of a child is one segment. -/
theorem Follows.slash_not_mem (h : p.Follows q name) : '/' ∉ name := by
  obtain ⟨_,_,rest,hsegments⟩ := h
  have hmem : name ∈ q.segments := by simp [hsegments]
  exact Text.not_mem_of_mem_splitOn (List.mem_of_mem_tail hmem)

theorem joined_str (p : Path) (name : Str) : ∃ init, (p.joined name).str = init ++ '/' :: name := by
  unfold joined
  split
  · exact ⟨[],rfl⟩
  · exact ⟨p.str,rfl⟩

theorem joined_isRoot {rest : Str} (hp : p.str = '/' :: rest) : (p.joined name).isRoot ↔ p.isRoot ∧ name = [] := by
  unfold joined
  split
  next hroot =>
    rw [and_iff_right hroot]
    simp [isRoot,root]
  next hroot =>
    refine iff_of_false (fun h => ?_) (fun h => hroot h.1)
    have hstr : p.str ++ '/' :: name = "/".toList := congrArg str h
    simp [hp] at hstr

/-- The path of a child is valid where its name is not empty, or it is the root. -/
theorem fromStr_joined {rest : Str} (hp : p.str = '/' :: rest) (hname : '/' ∉ name) :
    fromStr (p.joined name).str = .ok (p.joined name) ↔ (name = [] → p.isRoot) := by
  have hlast : (p.joined name).str.getLast? = some '/' ↔ name = [] := by
    obtain ⟨init,hinit⟩ := joined_str p name
    cases name with
    | nil => simp [hinit]
    | cons c name =>
      refine iff_of_false (fun h => hname ?_) (by simp)
      rw [hinit,List.getLast?_append_cons] at h
      exact List.mem_of_getLast? (by simpa using h)
  have hhead : (p.joined name).str.head? = some '/' := by
    unfold joined
    split
    · rfl
    · simp [hp]
  rw [fromStr_eq_ok,hlast]
  have hroot : (p.joined name).str = "/".toList ↔ p.isRoot ∧ name = [] := by
    rw [← joined_isRoot hp,isRoot,Path.ext_iff]
    rfl
  simp only [hroot,hhead,true_and]
  exact forall_congr' (fun hnil => and_iff_left hnil)

/-- What follows a path is below its child. -/
theorem Follows.isParentOf_joined {rest rest' : Str} (hp : p.str = '/' :: rest) (hq : q.str = '/' :: rest')
    (h : p.Follows q name) : (p.joined name).isParentOf q = true := by
  have hname := h.slash_not_mem
  obtain ⟨_,_,more,hsegments⟩ := h
  by_cases hjoined : (p.joined name).isRoot
  · exact isParentOf_of_isRoot hjoined hq
  · by_cases hroot : p.isRoot
    · have hstr : (p.joined name).str = '/' :: name := by rw [joined,if_pos hroot]
      rw [isParentOf_iff_segments hstr hq hjoined,segments_of_head hstr,List.splitOn_eq_singleton hname,hsegments,
        if_pos hroot]
      exact ⟨more,rfl⟩
    · have hstr : (p.joined name).str = p.str ++ '/' :: name := by rw [joined,if_neg hroot]
      have hhead : (p.joined name).str = '/' :: (rest ++ '/' :: name) := by rw [hstr,hp]; rfl
      rw [isParentOf_iff_segments hhead hq hjoined,segments_append hstr,List.splitOn_eq_singleton hname,hsegments,
        if_neg hroot]
      exact ⟨more,by simp⟩

theorem root_child_prefixPath (p : Path) (name : Str) : (root.child name).prefixPath p = p.child name := by
  have hchild : root.child name = ⟨'/' :: name⟩ := by
    unfold child prefixPath
    split
    next h => exact h.symm
    next => exact if_pos rfl
  rw [hchild]
  rfl

/-- The path of a child with a name goes on with the name. -/
theorem child_eq_joined (h : p.isRoot ∨ name ≠ []) : p.child name = p.joined name := by
  unfold child prefixPath joined
  by_cases hname : name = []
  · obtain rfl : p = root := h.resolve_right (fun hne => hne hname)
    subst hname
    rfl
  · have hne : ¬ (⟨'/' :: name⟩ : Path).isRoot := by simp [isRoot,root,hname]
    rw [if_neg hne]

theorem child_nil (p : Path) : p.child [] = p := by
  unfold child prefixPath
  exact if_pos rfl

end Path

namespace NodeDb
variable {C : Group} {walk : Walk C} {path : Path} {id : EventId} {child : Child}
variable {nodeKinds : AList (fun _ : Path => NodeKind)} {keys : List EventId}

/-- The child that an accepted id makes of a node. -/
theorem childOf_eq_some {rest : Str} (hp : path.str = '/' :: rest) (h : id.Accepted) :
    childOf nodeKinds path id = .ok (some child) ↔ ∃ q, id.path = .ok q ∧ path.isParentOf q = true ∧
      (path.Follows q child.name ∨ path.isRoot ∧ q.isRoot ∧ child.name = []) ∧
      child.kind = kindOf nodeKinds (path.child child.name) := by
  obtain ⟨q,k,hreads⟩ := h.reads
  obtain ⟨rest',hq⟩ := List.head?_eq_some_iff.mp (h.head_path hreads.path)
  simp only [childOf,hreads.path,MayPanic.ok_bind,Except.ok.injEq,exists_eq_left',Path.root_child_prefixPath]
  by_cases hbelow : path.isParentOf q = true
  · simp only [hbelow,if_true,true_and,← Path.first_stripPrefixPath hp hq hbelow,MayPanic.pure_eq,
      Except.ok.injEq,Option.map_eq_some_iff]
    constructor
    · rintro ⟨name,hname,rfl⟩
      exact ⟨hname,rfl⟩
    · rintro ⟨hname,hkind⟩
      exact ⟨child.name,hname,by rw [← hkind]⟩
  · simp [hbelow]

theorem childrenList_isOk (nodeKinds : AList (fun _ : Path => NodeKind)) (path : Path) (hkeys : ∀ id ∈ keys, id.Accepted) :
    ∃ children, childrenList nodeKinds path keys = .ok children := by
  have hfound : ∃ found, MayPanic.filterMap (childOf nodeKinds path) keys = .ok found := by
    refine MayPanic.filterMap_isOk_iff.mpr (fun id hid => ?_)
    obtain ⟨q,_,hreads⟩ := (hkeys id hid).reads
    rw [childOf,hreads.path,MayPanic.ok_bind]
    split
    · exact ⟨_,rfl⟩
    · exact ⟨_,rfl⟩
  obtain ⟨found,hfound⟩ := hfound
  exact ⟨_,by rw [childrenList,hfound,MayPanic.ok_bind,MayPanic.pure_eq]⟩

/-- The children of a node that has been listed, by name in ascending order. -/
theorem childrenList_spec {rest : Str} (hp : path.str = '/' :: rest) (hkeys : ∀ id ∈ keys, id.Accepted)
    {children : List Child} (h : childrenList nodeKinds path keys = .ok children) :
    (children.map Child.name).Pairwise (· < ·) ∧ ∀ child, child ∈ children ↔ ∃ id q, id ∈ keys ∧
      id.path = .ok q ∧ path.isParentOf q = true ∧
      (path.Follows q child.name ∨ path.isRoot ∧ q.isRoot ∧ child.name = []) ∧
      child.kind = kindOf nodeKinds (path.child child.name) := by
  obtain ⟨found,hfound,h⟩ := MayPanic.bind_eq_ok.mp h
  obtain rfl := Except.ok.inj h
  obtain ⟨_,hmem⟩ := MayPanic.filterMap_eq_ok hfound
  have hchild : ∀ child, child ∈ found ↔ ∃ id q, id ∈ keys ∧ id.path = .ok q ∧ path.isParentOf q = true ∧
      (path.Follows q child.name ∨ path.isRoot ∧ q.isRoot ∧ child.name = []) ∧
      child.kind = kindOf nodeKinds (path.child child.name) := by
    intro child
    rw [hmem]
    constructor
    · rintro ⟨id,hid,hchild⟩
      obtain ⟨q,hq⟩ := (childOf_eq_some hp (hkeys id hid)).mp hchild
      exact ⟨id,q,hid,hq⟩
    · rintro ⟨id,q,hid,hq⟩
      exact ⟨id,hid,(childOf_eq_some hp (hkeys id hid)).mpr ⟨q,hq⟩⟩
  constructor
  · refine Text.sortedDedup_pairwise ?_
    intro a ha b hb hname
    obtain ⟨_,_,_,_,_,_,hakind⟩ := (hchild a).mp ha
    obtain ⟨_,_,_,_,_,_,hbkind⟩ := (hchild b).mp hb
    obtain ⟨_,_⟩ := a
    obtain ⟨_,_⟩ := b
    simp_all
  · intro child
    rw [Text.mem_sortedDedup,hchild]

variable {ops : List (NodeOp C)} {g : GetPath} {name : Str}

/-- An event that is stored under a child of a node. -/
def HasChild (ops : List (NodeOp C)) (path : Path) (name : Str) : Prop :=
  ∃ id q, id ∈ (run ops).inner ∧ id.path = .ok q ∧ path.Follows q name

/-- A list of the children of a node, by name, each with the kind set last for it. -/
def ListsChildren (ops : List (NodeOp C)) (path : Path) (g : GetPath) : Prop :=
  ∃ list, g.childDesc = .list list ∧ (list.map Child.name).Pairwise (· < ·) ∧
    (∀ name, name ∈ list.map Child.name ↔ HasChild ops path name) ∧
    ∀ child ∈ list, child.kind = kindAfter ops (path.joined child.name)

/-- An event at the root itself has the empty name of a child that is there. -/
def RootShared (ops : List (NodeOp C)) (path : Path) : Prop :=
  path.isRoot → (∃ id ∈ (run ops).inner, id.path = .ok Path.root) → HasChild ops path []

/-- A child without a name has not been made another kind than a list. -/
def NamelessList (ops : List (NodeOp C)) (path : Path) : Prop :=
  ¬ path.isRoot → HasChild ops path [] → kindAfter ops (path.joined []) = .list

/-- The names of the children: those of the events below the node, and one more of an event
that is stored at the root. -/
theorem childrenList_names (hids : ∀ id ∈ (run ops).inner, id.Accepted) (hp : Path.fromStr path.str = .ok path)
    {children : List Child}
    (h : childrenList (run ops).nodeKinds path (walk.keys (run ops).toInMemory) = .ok children) :
    (children.map Child.name).Pairwise (· < ·) ∧
      (∀ name, name ∈ children.map Child.name ↔ HasChild ops path name ∨
        path.isRoot ∧ name = [] ∧ ∃ id ∈ (run ops).inner, id.path = .ok Path.root) ∧
      ∀ child ∈ children, child.kind = kindAfter ops (path.child child.name) := by
  obtain ⟨rest,hrest⟩ := Path.exists_of_fromStr hp
  have hkeys : ∀ id ∈ walk.keys (run ops).toInMemory, id.Accepted :=
    fun id hid => hids id ((mem_keys walk).mp hid)
  obtain ⟨hsorted,hmem⟩ := childrenList_spec hrest hkeys h
  simp only [mem_keys,kindOf_run] at hmem
  refine ⟨hsorted,?_,?_⟩
  · intro name
    rw [List.mem_map]
    constructor
    · rintro ⟨child,hchild,rfl⟩
      obtain ⟨id,q,hid,hq,_,hfollows | ⟨hroot,hqroot,hname⟩,_⟩ := (hmem child).mp hchild
      · exact Or.inl ⟨id,q,hid,hq,hfollows⟩
      · exact Or.inr ⟨hroot,hname,id,hid,by rw [hq,hqroot]⟩
    · rintro (⟨id,q,hid,hq,hfollows⟩ | ⟨hroot,rfl,id,hid,hq⟩)
      · exact ⟨⟨name,kindAfter ops (path.child name)⟩,
          (hmem _).mpr ⟨id,q,hid,hq,hfollows.1,Or.inl hfollows,rfl⟩,rfl⟩
      · have hself : path.isParentOf Path.root = true := by
          rw [hroot]
          exact Path.isParentOf_self _
        exact ⟨⟨[],kindAfter ops (path.child [])⟩,
          (hmem _).mpr ⟨id,_,hid,hq,hself,Or.inr ⟨hroot,rfl,rfl⟩,rfl⟩,rfl⟩
  · intro child hchild
    obtain ⟨_,_,_,_,_,_,hchildkind⟩ := (hmem child).mp hchild
    exact hchildkind

/-- What a shown list node has for its children. -/
theorem getNode_list (hids : ∀ id ∈ (run ops).inner, id.Accepted) (hp : Path.fromStr path.str = .ok path)
    (hkind : kindAfter ops path = .list) (hg : getNode walk path (run ops) = .ok (.ok (some g))) :
    ∃ list, g.childDesc = .list list ∧ (list.map Child.name).Pairwise (· < ·) ∧
      (∀ name, name ∈ list.map Child.name ↔ HasChild ops path name ∨
        path.isRoot ∧ name = [] ∧ ∃ id ∈ (run ops).inner, id.path = .ok Path.root) ∧
      ∀ child ∈ list, child.kind = kindAfter ops (path.child child.name) := by
  obtain ⟨_,children,hchildren,hdesc⟩ := getNode_eq_some hg
  exact ⟨children,hdesc ((kindOf_run ops path).trans hkind),childrenList_names hids hp hchildren⟩

/-- The children of a node are listed exactly, but for the event of the root and for a kind
that was set for a child without a name. -/
theorem listsChildren_iff (hids : ∀ id ∈ (run ops).inner, id.Accepted) (hp : Path.fromStr path.str = .ok path)
    (hkind : kindAfter ops path = .list) (hg : getNode walk path (run ops) = .ok (.ok (some g))) :
    ListsChildren ops path g ↔ RootShared ops path ∧ NamelessList ops path := by
  obtain ⟨list,hlist,hsorted,hnames,hkinds⟩ := getNode_list hids hp hkind hg
  constructor
  · rintro ⟨list',hlist',_,hexact,hexactKinds⟩
    obtain rfl : list = list' := ChildDesc.list.inj (hlist.symm.trans hlist')
    constructor
    · rintro hroot hid
      exact (hexact []).mp ((hnames []).mpr (Or.inr ⟨hroot,rfl,hid⟩))
    · intro _ hchild
      obtain ⟨child,hmem,hname⟩ := List.mem_map.mp ((hexact []).mpr hchild)
      have hsame := (hkinds child hmem).symm.trans (hexactKinds child hmem)
      rw [hname,Path.child_nil,hkind] at hsame
      exact hsame.symm
  · rintro ⟨hshared,hnameless⟩
    have hexact : ∀ name, name ∈ list.map Child.name ↔ HasChild ops path name := by
      intro name
      rw [hnames]
      constructor
      · rintro (hchild | ⟨hroot,rfl,hid⟩)
        · exact hchild
        · exact hshared hroot hid
      · exact Or.inl
    refine ⟨list,hlist,hsorted,hexact,?_⟩
    intro child hmem
    rw [hkinds child hmem]
    by_cases hname : path.isRoot ∨ child.name ≠ []
    · rw [Path.child_eq_joined hname]
    · push Not at hname
      have hempty := (hexact child.name).mp (List.mem_map_of_mem hmem)
      rw [hname.2] at hempty ⊢
      rw [Path.child_nil,hkind,hnameless hname.1 hempty]

section Sampled
open Sample

theorem listsChildren_iff_at_foo : ∃ g,
    getNode Walk.entries ⟨"/foo".toList⟩ (run (inserting ["/foo/bar.occur","/foo/a/b.occur"])) = .ok (.ok (some g)) ∧
      (ListsChildren (inserting ["/foo/bar.occur","/foo/a/b.occur"]) ⟨"/foo".toList⟩ g ↔
        RootShared (inserting ["/foo/bar.occur","/foo/a/b.occur"]) ⟨"/foo".toList⟩ ∧
          NamelessList (inserting ["/foo/bar.occur","/foo/a/b.occur"]) ⟨"/foo".toList⟩) := by
  obtain ⟨g,hg⟩ : ∃ g, getNode Walk.entries ⟨"/foo".toList⟩
      (run (inserting ["/foo/bar.occur","/foo/a/b.occur"])) = .ok (.ok (some g)) :=
    shown_of_isSome (by decide +kernel)
  have hids : ∀ id ∈ (run (inserting ["/foo/bar.occur","/foo/a/b.occur"])).inner.keys, id.Accepted := by
    decide +kernel
  exact ⟨g,hg,listsChildren_iff hids (by decide +kernel) (by decide +kernel) hg⟩

/-- The event of the root is listed as a child of the root. -/
theorem root_event_listed : ¬ ∀ (ops : List (NodeOp (group 10007))) (path : Path) (g : GetPath),
    (∀ id ∈ (run ops).inner, id.Accepted) → Path.fromStr path.str = .ok path → kindAfter ops path = .list →
      getNode Walk.entries path (run ops) = .ok (.ok (some g)) → ListsChildren ops path g := by
  intro h
  obtain ⟨g,hg⟩ : ∃ g, getNode Walk.entries Path.root (run (inserting ["/.occur"])) = .ok (.ok (some g)) :=
    shown_of_isSome (by decide +kernel)
  have hids : ∀ id ∈ (run (inserting ["/.occur"])).inner.keys, id.Accepted := by decide +kernel
  have hkind : kindAfter (inserting ["/.occur"]) Path.root = .list := by decide +kernel
  obtain ⟨list,hlist,_,hnames,_⟩ := h _ _ g hids (by decide +kernel) hkind hg
  obtain ⟨_,children,hchildren,hdesc⟩ := getNode_eq_some hg
  have hrun : childrenList (run (inserting ["/.occur"])).nodeKinds Path.root
      (Walk.entries.keys (run (inserting ["/.occur"])).toInMemory) = .ok [⟨[],.list⟩] := by decide +kernel
  obtain rfl := Except.ok.inj (hrun.symm.trans hchildren)
  obtain rfl := ChildDesc.list.inj ((hdesc ((kindOf_run _ _).trans hkind)).symm.trans hlist)
  obtain ⟨id,q,hid,hq,hfollows⟩ := (hnames []).mp (by simp)
  have hpaths : ∀ id ∈ (run (inserting ["/.occur"])).inner.keys, id.path = .ok Path.root := by decide +kernel
  exact hfollows.2.1 (Except.ok.inj (hq.symm.trans (hpaths id hid)))

end Sampled

end NodeDb
end Olivia
