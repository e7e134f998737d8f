import Olivia.Db.Children

/-! # The dates of a node

A node of dates shows, for each date that follows its path in the path of an event, the
segments that follow the date. The events are found by their texts: the path of an event that
begins with the text of the node is cut behind it, whatever it goes on with.
-/
namespace Olivia
namespace NodeDb
variable {C : Group} {walk : Walk C} {path : Path} {s : NodeDb C} {g : GetPath} {id : EventId}
variable {parseDate : Str → Option NaiveDate} {dates dates' : AList (fun _ : NaiveDate => Finset Str)}
variable {date : NaiveDate} {name : Str} {keys : List EventId} {q : Path}

/-- What an accepted id is cut to behind the text of a path. -/
theorem path_stripPrefixPath (hq : id.path = .ok q) (hbegins : path.str <+: q.str) :
    (id.stripPrefixPath path).path = if path.isRoot ∨ '/' ∈ (q.stripPrefixPath path).str then
      .ok (q.stripPrefixPath path) else .error (.expect "event must exist") := by
  obtain ⟨text,hs⟩ := EventId.path_eq_ok hq
  by_cases hroot : path.isRoot
  · have hstrip : ∀ p : Path, p.stripPrefixPath path = p := fun p => if_pos hroot
    rw [EventId.stripPrefixPath,hstrip,hstrip,if_pos (Or.inl hroot)]
    exact hq
  · obtain ⟨rest,hrest⟩ := hbegins
    have hcut := Path.stripEvent_stripPrefixPath hs hroot hrest.symm
    rw [Path.stripPrefixPath_append hroot hrest.symm,EventId.path,EventId.stripPrefixPath,hcut]
    by_cases hslash : '/' ∈ rest
    · simp [hslash]
    · simp [hslash,hroot,MayPanic.expect]

/-- The event of a path gives a name to a date of a node. -/
def Dates (parseDate : Str → Option NaiveDate) (path q : Path) (date : NaiveDate) (name : Str) : Prop :=
  ∃ text names, parseDate text = some date ∧ path.isParentOf q = true ∧
    q.segments = (if path.isRoot then [] else path.segments) ++ text :: name :: names

/-- So does one that goes on beside the node. -/
def DatesBeside (parseDate : Str → Option NaiveDate) (path q : Path) (date : NaiveDate) (name : Str) : Prop :=
  ∃ text names, parseDate text = some date ∧ path.Beside q (text :: name :: names)

/-- The names of each date, and no date without a name. -/
def Shows (dates : AList (fun _ : NaiveDate => Finset Str)) (names : NaiveDate → Str → Prop) : Prop :=
  ∀ date, (date ∈ dates ↔ ∃ name, names date name) ∧ ∀ name, name ∈ (dates.lookup date).getD ∅ ↔ names date name

theorem shows_empty : Shows ∅ (fun _ _ => False) := by simp [Shows]

theorem Shows.congr {names names' : NaiveDate → Str → Prop} (h : Shows dates names)
    (hsame : ∀ date name, names date name ↔ names' date name) : Shows dates names' := by
  intro date
  simpa only [hsame] using h date

/-- A date with one more name. -/
theorem Shows.insert {names : NaiveDate → Str → Prop} (h : Shows dates names) (date : NaiveDate) (name : Str) :
    Shows (dates.insert date (insert name ((dates.lookup date).getD ∅)))
      (fun date' name' => names date' name' ∨ date' = date ∧ name' = name) := by
  intro date'
  rw [AList.mem_insert,lookup_insert,(h date').1]
  by_cases hdate : date' = date
  · subst hdate
    refine ⟨iff_of_true (Or.inl rfl) ⟨name,Or.inr ⟨rfl,rfl⟩⟩,fun name' => ?_⟩
    rw [if_pos rfl,Option.getD_some,Finset.mem_insert,(h date').2]
    simp [or_comm]
  · simp [hdate,(h date').2]

theorem dates_iff {rest rest' : Str} (hp : path.str = '/' :: rest) (hq : q.str = '/' :: rest') :
    Dates parseDate path q date name ∨ DatesBeside parseDate path q date name ↔
      ∃ text names, parseDate text = some date ∧ path.str <+: q.str ∧
        (q.stripPrefixPath path).segments = text :: name :: names := by
  simp only [Dates,DatesBeside,Path.segments_stripPrefixPath hp hq,← exists_or,← and_or_left]

/-- One more event adds what it says of its date, below the node and beside it. -/
theorem addDate_shows {rest rest' : Str} {names : NaiveDate → Str → Prop} (hp : path.str = '/' :: rest)
    (hq : id.path = .ok q) (hhead : q.str = '/' :: rest') (hshows : Shows dates names)
    (h : addDate parseDate path dates id = .ok dates') :
    Shows dates' (fun date name => names date name ∨ Dates parseDate path q date name ∨
      DatesBeside parseDate path q date name) := by
  simp only [dates_iff hp hhead]
  simp only [addDate,hq,MayPanic.ok_bind,List.isPrefixOf_iff_prefix] at h
  split at h
  next hbegins =>
    obtain ⟨stripped,hstripped,h⟩ := MayPanic.bind_eq_ok.mp h
    rw [path_stripPrefixPath hq hbegins] at hstripped
    split at hstripped
    next =>
      obtain rfl := Except.ok.inj hstripped
      split at h
      next text name names' hsegments =>
        split at h
        next date hdate =>
          obtain rfl := Except.ok.inj h
          refine (hshows.insert date name).congr (fun date' name' => or_congr_right ?_)
          simp [hsegments,hdate,hbegins,eq_comm]
        next hnone =>
          obtain rfl := Except.ok.inj h
          refine hshows.congr (fun date' name' => ?_)
          simp [hsegments,hbegins,hnone]
      next hsegments =>
        obtain rfl := Except.ok.inj h
        refine hshows.congr (fun date' name' => (or_iff_left ?_).symm)
        rintro ⟨text,names',_,_,htext⟩
        exact hsegments text name' names' htext
    next => cases hstripped
  next hbegins =>
    obtain rfl := Except.ok.inj h
    exact hshows.congr (fun date' name' => by simp [hbegins])

/-- What the events of a list say, by induction over the list with the dates before it. -/
theorem foldlM_addDate_shows {rest : Str} {names : NaiveDate → Str → Prop} (hp : path.str = '/' :: rest)
    (hkeys : ∀ id ∈ keys, id.Accepted) (hshows : Shows dates names)
    (h : keys.foldlM (addDate parseDate path) dates = .ok dates') :
    Shows dates' (fun date name => names date name ∨ ∃ id q, id ∈ keys ∧ id.path = .ok q ∧
      (Dates parseDate path q date name ∨ DatesBeside parseDate path q date name)) := by
  induction keys generalizing dates names with
  | nil =>
    obtain rfl := Except.ok.inj h
    exact hshows.congr (fun date name => by simp)
  | cons id keys ih =>
    rw [List.foldlM_cons] at h
    obtain ⟨next,hnext,h⟩ := MayPanic.bind_eq_ok.mp h
    have hid := hkeys id List.mem_cons_self
    obtain ⟨q,_,hreads⟩ := hid.reads
    obtain ⟨_,hhead⟩ := List.head?_eq_some_iff.mp (hid.head_path hreads.path)
    have hstep := addDate_shows hp hreads.path hhead hshows hnext
    refine (ih (fun id hmem => hkeys id (List.mem_cons_of_mem _ hmem)) hstep h).congr (fun date name => ?_)
    simp [or_and_right,exists_or,hreads.path,or_assoc]

/-- The dates of a node are those of the events below it. -/
def ShowsDates (parseDate : Str → Option NaiveDate) (path : Path) (s : NodeDb C) (g : GetPath) : Prop :=
  ∃ dates, g.childDesc = .dateMap dates ∧
    Shows dates (fun date name => ∃ id q, id ∈ s.inner ∧ id.path = .ok q ∧ Dates parseDate path q date name)

/-- The dates that a node of dates shows, with those of the events beside it. -/
theorem getNode_dates (hids : ∀ id ∈ s.inner, id.Accepted) (hp : Path.fromStr path.str = .ok path)
    (hkind : kindOf s.nodeKinds path = .dateMap) (hg : getNode walk path s = .ok (.ok (some g))) :
    ∃ dates, g.childDesc = .dateMap dates ∧ Shows dates (fun date name => ∃ id q, id ∈ s.inner ∧ id.path = .ok q ∧
      (Dates walk.parseDate path q date name ∨ DatesBeside walk.parseDate path q date name)) := by
  obtain ⟨rest,hrest⟩ := Path.exists_of_fromStr hp
  obtain ⟨_,_,_,_,_,hdesc⟩ := getNode_eq_ok hg
  rw [hkind] at hdesc
  obtain ⟨dates,hdates,hdesc⟩ := MayPanic.bind_eq_ok.mp hdesc
  have hkeys : ∀ id ∈ walk.keys s.toInMemory, id.Accepted := fun id hid => hids id ((mem_keys walk).mp hid)
  refine ⟨dates,(Except.ok.inj hdesc).symm,?_⟩
  refine (foldlM_addDate_shows hrest hkeys shows_empty hdates).congr (fun date name => ?_)
  simp only [false_or,mem_keys]

theorem Shows.unique {names names' : NaiveDate → Str → Prop} (h : Shows dates names) (h' : Shows dates names') :
    names date name ↔ names' date name := ((h date).2 name).symm.trans ((h' date).2 name)

/-- A node shows the dates of the events below it exactly where every date and name of an event
beside it is also one of an event below it. -/
theorem showsDates_iff (hids : ∀ id ∈ s.inner, id.Accepted) (hp : Path.fromStr path.str = .ok path)
    (hkind : kindOf s.nodeKinds path = .dateMap) (hg : getNode walk path s = .ok (.ok (some g))) :
    ShowsDates walk.parseDate path s g ↔ ∀ id q date name, id ∈ s.inner → id.path = .ok q →
      DatesBeside walk.parseDate path q date name →
      ∃ id' q', id' ∈ s.inner ∧ id'.path = .ok q' ∧ Dates walk.parseDate path q' date name := by
  obtain ⟨dates,hdates,hshows⟩ := getNode_dates hids hp hkind hg
  constructor
  · rintro ⟨dates',hdates',hexact⟩ id q date name hid hq hbeside
    obtain rfl : dates = dates' := ChildDesc.dateMap.inj (hdates.symm.trans hdates')
    exact (hexact.unique hshows).mpr ⟨id,q,hid,hq,Or.inr hbeside⟩
  · intro hbelow
    refine ⟨dates,hdates,hshows.congr (fun date name => ⟨?_,?_⟩)⟩
    · rintro ⟨id,q,hid,hq,hdates | hbeside⟩
      · exact ⟨id,q,hid,hq,hdates⟩
      · exact hbelow id q date name hid hq hbeside
    · rintro ⟨id,q,hid,hq,hdates⟩
      exact ⟨id,q,hid,hq,Or.inl hdates⟩

section Sampled
open Sample

/-- A walk that knows two dates. -/
def datedWalk : Walk (group 10007) :=
  { Walk.entries with
    parseDate := fun text => if text = "2021-10-04".toList then some ⟨18904⟩
      else if text = "2021-10-05".toList then some ⟨18905⟩ else none }

theorem showsDates_iff_at_match : ∃ g, getNode datedWalk ⟨"/s/EPL/match".toList⟩
      (run (inserting ["/s/EPL/match/2021-10-04/A_B.vs","/s/EPL/match2/2021-10-04/A_B.vs"])) = .ok (.ok (some g)) ∧
    (ShowsDates datedWalk.parseDate ⟨"/s/EPL/match".toList⟩
      (run (inserting ["/s/EPL/match/2021-10-04/A_B.vs","/s/EPL/match2/2021-10-04/A_B.vs"])) g ↔
      ∀ id q date name, id ∈ (run (inserting ["/s/EPL/match/2021-10-04/A_B.vs","/s/EPL/match2/2021-10-04/A_B.vs"])).inner →
        id.path = .ok q → DatesBeside datedWalk.parseDate ⟨"/s/EPL/match".toList⟩ q date name →
          ∃ id' q', id' ∈ (run (inserting ["/s/EPL/match/2021-10-04/A_B.vs","/s/EPL/match2/2021-10-04/A_B.vs"])).inner ∧
            id'.path = .ok q' ∧ Dates datedWalk.parseDate ⟨"/s/EPL/match".toList⟩ q' date name) := by
  obtain ⟨g,hg⟩ : ∃ g, getNode datedWalk ⟨"/s/EPL/match".toList⟩
      (run (inserting ["/s/EPL/match/2021-10-04/A_B.vs","/s/EPL/match2/2021-10-04/A_B.vs"])) = .ok (.ok (some g)) :=
    shown_of_isSome (by decide +kernel)
  have hids : ∀ id ∈ (run (inserting ["/s/EPL/match/2021-10-04/A_B.vs","/s/EPL/match2/2021-10-04/A_B.vs"])).inner.keys,
      id.Accepted := by decide +kernel
  exact ⟨g,hg,showsDates_iff hids (by decide +kernel) (by decide +kernel) hg⟩

/-- A match of "match2" is shown among the dates of "match". -/
theorem date_beside_shown : ¬ ∀ (s : NodeDb (group 10007)) (path : Path) (g : GetPath),
    (∀ id ∈ s.inner, id.Accepted) → Path.fromStr path.str = .ok path → kindOf s.nodeKinds path = .dateMap →
      getNode datedWalk path s = .ok (.ok (some g)) → ShowsDates datedWalk.parseDate path s g := by
  intro h
  let ids := ["/s/EPL/match/2021-10-04/A_B.vs","/s/EPL/match2/2021-10-05/C_D.vs"]
  let path : Path := ⟨"/s/EPL/match".toList⟩
  let here : Path := ⟨"/s/EPL/match/2021-10-04/A_B".toList⟩
  let beside : Path := ⟨"/s/EPL/match2/2021-10-05/C_D".toList⟩
  obtain ⟨g,hg⟩ : ∃ g, getNode datedWalk path (run (inserting ids)) = .ok (.ok (some g)) :=
    shown_of_isSome (by decide +kernel)
  have hids : ∀ id ∈ (run (inserting ids)).inner.keys, id.Accepted := by decide +kernel
  have hkind : kindOf (run (inserting ids)).nodeKinds path = .dateMap := by decide +kernel
  have hpath : Path.fromStr path.str = .ok path := by decide +kernel
  obtain ⟨dates,hdates,hexact⟩ := h _ _ g hids hpath hkind hg
  obtain ⟨dates',hdates',hshows⟩ := getNode_dates hids hpath hkind hg
  obtain rfl := ChildDesc.dateMap.inj (hdates.symm.trans hdates')
  have hmem : (⟨⟨"/s/EPL/match2/2021-10-05/C_D.vs".toList⟩⟩ : EventId) ∈ (run (inserting ids)).inner.keys := by
    decide +kernel
  have hbeside : DatesBeside datedWalk.parseDate path beside ⟨18905⟩ "C_D".toList :=
    ⟨"2021-10-05".toList,[],by decide +kernel,by decide,"2".toList,"2021-10-05/C_D".toList,by decide,by decide,
      by decide,by decide⟩
  obtain ⟨id,q,hid,hq,text,names,htext,hbelow,hsegments⟩ :=
    (hexact.unique hshows).mpr ⟨_,beside,hmem,by decide +kernel,Or.inr hbeside⟩
  have hpaths : ∀ id ∈ (run (inserting ids)).inner.keys, id.path = .ok here ∨ id.path = .ok beside := by
    decide +kernel
  rcases hpaths id hid with hhere | hbeside
  · obtain rfl := Except.ok.inj (hq.symm.trans hhere)
    have hhere : here.segments = path.segments ++ ["2021-10-04".toList,"A_B".toList] := by decide +kernel
    rw [if_neg (by decide),hhere] at hsegments
    obtain ⟨rfl,_⟩ := List.cons.inj (List.append_cancel_left hsegments)
    revert htext
    decide
  · obtain rfl := Except.ok.inj (hq.symm.trans hbeside)
    have hnot : path.isParentOf beside = false := by decide +kernel
    rw [hnot] at hbelow
    cases hbelow

end Sampled

end NodeDb
end Olivia
