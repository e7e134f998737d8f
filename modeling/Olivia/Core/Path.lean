import Olivia.Core.Primitives

/-! # Paths

`Path` and its borrowed form `PathRef` are one type here: a text that the constructor does
not check. `fromStr` is the check, and `stripEvent` cuts the event kind off the last segment.
-/
namespace Olivia

@[ext] structure Path where
  str : Str
  deriving DecidableEq

inductive PathError
  | badFormat
  deriving DecidableEq

namespace Path

def root : Path := ⟨"/".toList⟩
def isRoot (p : Path) : Prop := p = root
instance (p : Path) : Decidable p.isRoot := inferInstanceAs (Decidable (p = root))

def fromStr (string : Str) : Except PathError Path :=
  if string.head? ≠ some '/' ∨ (string.getLast? = some '/' ∧ string ≠ "/".toList) then
    .error .badFormat
  else .ok ⟨string⟩

/-- The path and the event kind text of an event id. -/
def stripEvent (p : Path) : Option (Path × Str) :=
  (Text.rsplitOnce '/' p.str).bind (fun (init,lastSegment) =>
    (Text.splitOnce '.' lastSegment).map (fun (name,event) => (⟨init ++ '/' :: name⟩,event)))

def last (p : Path) : Str :=
  match Text.rsplitOnce '/' p.str with
  | some (_,lastSegment) => lastSegment
  | none => p.str

def parent (p : Path) : Option Path :=
  if p.isRoot then none
  else (Text.rsplitOnce '/' p.str).map (fun (init,_) => if init = [] then root else ⟨init⟩)

def prefixPath (p path : Path) : Path :=
  if p.isRoot then path else if path.isRoot then p else ⟨path.str ++ p.str⟩

def stripPrefixPath (p path : Path) : Path :=
  if path.isRoot then p else
    match p.str.dropPrefix? path.str with
    | some rest => ⟨rest⟩
    | none => p

theorem fromStr_eq_ok {s : Str} {p : Path} : fromStr s = .ok p ↔
    p.str = s ∧ s.head? = some '/' ∧ (s.getLast? = some '/' → s = "/".toList) := by
  unfold fromStr
  split
  next h =>
    simp only [reduceCtorEq,false_iff,not_and]
    rintro rfl hhead hlast
    rcases h with h | ⟨hl,hne⟩
    · exact h hhead
    · exact hne (hlast hl)
  next h =>
    push Not at h
    simp only [Except.ok.injEq,Path.ext_iff]
    exact ⟨fun he => ⟨he.symm,h⟩,fun he => he.1.symm⟩

theorem exists_of_fromStr {p : Path} (h : fromStr p.str = .ok p) : ∃ rest, p.str = '/' :: rest := by
  obtain ⟨_,hhead,_⟩ := fromStr_eq_ok.mp h
  exact List.head?_eq_some_iff.mp hhead

/-- An event's path ends at the first dot of the last segment. -/
theorem stripEvent_eq_some {p q : Path} {event : Str} : p.stripEvent = some (q,event) ↔
    ∃ init name, q.str = init ++ '/' :: name ∧ p.str = q.str ++ '.' :: event ∧
      '/' ∉ name ∧ '.' ∉ name ∧ '/' ∉ event := by
  simp only [stripEvent,Option.bind_eq_some_iff,Option.map_eq_some_iff,Prod.exists,Prod.mk.injEq]
  constructor
  · rintro ⟨init,lastSegment,hr,name,event,hs,rfl,rfl⟩
    obtain ⟨hp,hlast⟩ := Text.rsplitOnce_eq_some.mp hr
    obtain ⟨rfl,hdot⟩ := Text.splitOnce_eq_some.mp hs
    simp only [List.mem_append,List.mem_cons,not_or] at hlast
    exact ⟨init,name,rfl,by simp [hp],hlast.1,hdot,hlast.2.2⟩
  · rintro ⟨init,name,hq,hp,hname,hdot,hevent⟩
    refine ⟨init,name ++ '.' :: event,Text.rsplitOnce_eq_some.mpr ⟨by simp [hp,hq],by simp [hname,hevent]⟩,
      name,event,Text.splitOnce_append hdot event,Path.ext hq.symm,rfl⟩

/-- A last segment without a dot is not that of an event. -/
theorem stripEvent_eq_none {p : Path} {init name : Str} (h : p.str = init ++ '/' :: name) (hn : '/' ∉ name) :
    p.stripEvent = none ↔ '.' ∉ name := by
  rw [stripEvent,h,Text.rsplitOnce_append init hn]
  simp [Text.splitOnce_eq_none]

theorem last_eq {p : Path} {init name : Str} (h : p.str = init ++ '/' :: name) (hn : '/' ∉ name) :
    p.last = name := by
  simp [last,h,Text.rsplitOnce_append init hn]

/-- What prefixing does to every path but the root. -/
def under (p mount : Path) : Path := if mount.isRoot then p else ⟨mount.str ++ p.str⟩

theorem prefixPath_eq_under {p : Path} (h : ¬ p.isRoot) (mount : Path) : p.prefixPath mount = p.under mount := by
  rw [prefixPath,if_neg h,under]

/-- The root leaves a path as it is, the root as well. -/
theorem prefixPath_of_isRoot {p : Path} (hroot : p.isRoot) (q : Path) : q.prefixPath p = q := by
  by_cases hq : q.isRoot
  · exact (if_pos hq).trans (hroot.trans hq.symm)
  · exact (if_neg hq).trans (if_pos hroot)

theorem under_injective {p q mount : Path} (h : p.under mount = q.under mount) : p = q := by
  unfold under at h
  split at h
  · exact h
  · exact Path.ext (List.append_cancel_left (congrArg Path.str h))

/-- The last segment stays last. -/
theorem last_under {p : Path} (h : '/' ∈ p.str) (mount : Path) : (p.under mount).last = p.last := by
  obtain ⟨init,name,hcut⟩ := Text.rsplitOnce_isSome h
  obtain ⟨hp,hslash⟩ := Text.rsplitOnce_eq_some.mp hcut
  unfold under
  split
  · rfl
  · have hstr : mount.str ++ p.str = (mount.str ++ init) ++ '/' :: name := by rw [hp,List.append_assoc]
    rw [last_eq hstr hslash,last_eq hp hslash]

theorem stripEvent_under {p q : Path} {event : Str} (h : p.stripEvent = some (q,event)) (mount : Path) :
    (p.under mount).stripEvent = some (q.under mount,event) := by
  unfold under
  split
  · exact h
  · obtain ⟨init,name,hq,hp,hname,hdot,hevent⟩ := stripEvent_eq_some.mp h
    exact stripEvent_eq_some.mpr ⟨mount.str ++ init,name,by simp [hq],by simp [hp],hname,hdot,hevent⟩

theorem stripPrefixPath_append {p q : Path} {rest : Str} (hroot : ¬ p.isRoot) (h : q.str = p.str ++ rest) :
    q.stripPrefixPath p = ⟨rest⟩ := by
  have hdrop : q.str.dropPrefix? p.str = some rest :=
    h ▸ List.dropPrefix?_append_of_beq rest (beq_self_eq_true p.str)
  rw [stripPrefixPath,if_neg hroot,hdrop]

theorem stripPrefixPath_self {p : Path} (hroot : ¬ p.isRoot) : p.stripPrefixPath p = ⟨[]⟩ :=
  stripPrefixPath_append hroot (List.append_nil p.str).symm

theorem stripPrefixPath_of_not_begins {p q : Path} (h : ¬ p.str <+: q.str) : q.stripPrefixPath p = q := by
  unfold stripPrefixPath
  split
  next => rfl
  next =>
    split
    next rest hdrop =>
      obtain ⟨front,hq,hfront⟩ := List.dropPrefix?_eq_some_iff.mp hdrop
      rw [eq_of_beq hfront] at hq
      exact absurd ⟨rest,hq.symm⟩ h
    next => rfl

/-- What stripping a path leaves of an event is one where a slash is left of its path. -/
theorem stripEvent_stripPrefixPath {p q mount : Path} {rest event : Str} (h : p.stripEvent = some (q,event))
    (hroot : ¬ mount.isRoot) (hq : q.str = mount.str ++ rest) :
    (p.stripPrefixPath mount).stripEvent = if '/' ∈ rest then some (⟨rest⟩,event) else none := by
  obtain ⟨init,name,hinit,hp,hname,hdot,hevent⟩ := stripEvent_eq_some.mp h
  have hstr : p.str = mount.str ++ (rest ++ '.' :: event) := by rw [hp,hq,List.append_assoc]
  rw [stripPrefixPath_append hroot hstr]
  split
  next hslash =>
    obtain ⟨before,last,hsplit⟩ := Text.rsplitOnce_isSome hslash
    obtain ⟨rfl,hlast⟩ := Text.rsplitOnce_eq_some.mp hsplit
    have hcut : q.str = (mount.str ++ before) ++ '/' :: last := by rw [hq,List.append_assoc]
    have hsame := Text.rsplitOnce_append (mount.str ++ before) hlast
    rw [← hcut,hinit,Text.rsplitOnce_append init hname] at hsame
    obtain ⟨_,rfl⟩ := Prod.mk.inj (Option.some.inj hsame)
    exact stripEvent_eq_some.mpr ⟨before,name,rfl,rfl,hname,hdot,hevent⟩
  next hslash =>
    have hnone : '/' ∉ rest ++ '.' :: event := by simp [hslash,hevent]
    rw [stripEvent,Text.rsplitOnce_eq_none.mpr hnone]
    rfl

theorem not_isRoot_of_dot {p : Path} (h : '.' ∈ p.str) : ¬ p.isRoot := by
  intro hroot
  rw [hroot] at h
  simp [root] at h

theorem not_isRoot_of_stripEvent {p q : Path} {event : Str} (h : p.stripEvent = some (q,event)) : ¬ p.isRoot := by
  obtain ⟨_,_,_,hp,_⟩ := stripEvent_eq_some.mp h
  exact not_isRoot_of_dot (by simp [hp])

/-- An event is never the root, and prefixed as a text. -/
theorem prefixPath_of_stripEvent {p q : Path} {event : Str} (h : p.stripEvent = some (q,event)) (mount : Path) :
    p.prefixPath mount = p.under mount := prefixPath_eq_under (not_isRoot_of_stripEvent h) mount

/-- A path under a mount is one, unless it is the root and all of the mount that is left. -/
theorem fromStr_under {p mount : Path} (hp : fromStr p.str = .ok p) (hm : fromStr mount.str = .ok mount)
    (hroot : ¬ p.isRoot) : fromStr (p.under mount).str = .ok (p.under mount) := by
  obtain ⟨_,hhead,hlast⟩ := fromStr_eq_ok.mp hp
  obtain ⟨_,hmhead,_⟩ := fromStr_eq_ok.mp hm
  unfold under
  split
  · exact hp
  · obtain ⟨rest,hrest⟩ := List.head?_eq_some_iff.mp hhead
    obtain ⟨mrest,hmrest⟩ := List.head?_eq_some_iff.mp hmhead
    have hend : (mount.str ++ p.str).getLast? = p.str.getLast? :=
      List.getLast?_append_of_ne_nil mount.str (by simp [hrest])
    refine fromStr_eq_ok.mpr ⟨rfl,by simp [hmrest],?_⟩
    intro hslash
    exact absurd (Path.ext (hlast (hend ▸ hslash))) hroot

theorem fromStr_prefixPath {p q : Path} (hq : fromStr q.str = .ok q) (hp : fromStr p.str = .ok p) :
    fromStr (q.prefixPath p).str = .ok (q.prefixPath p) := by
  by_cases hroot : q.isRoot
  · rw [prefixPath,if_pos hroot]
    exact hp
  · rw [prefixPath_eq_under hroot]
    exact fromStr_under hq hp hroot

/-- What stands behind a slash inside a valid path is one. -/
theorem fromStr_behind {q : Path} {s tail : Str} (hq : fromStr q.str = .ok q) (hs : s ≠ []) (h : q.str = s ++ '/' :: tail) :
    fromStr ('/' :: tail) = .ok ⟨'/' :: tail⟩ ∧ tail ≠ [] := by
  obtain ⟨_,_,hlast⟩ := fromStr_eq_ok.mp hq
  have hend : q.str.getLast? = ('/' :: tail).getLast? := by
    rw [h]
    exact List.getLast?_append_of_ne_nil s (by simp)
  have hnot : ('/' :: tail).getLast? ≠ some '/' := by
    intro hslash
    have hlength := congrArg List.length (h.symm.trans (hlast (hend.trans hslash)))
    have hpos := List.length_pos_of_ne_nil hs
    simp at hlength
    omega
  refine ⟨fromStr_eq_ok.mpr ⟨rfl,rfl,fun hslash => absurd hslash hnot⟩,?_⟩
  rintro rfl
  exact hnot rfl

theorem stripPrefixPath_under (p mount : Path) : (p.under mount).stripPrefixPath mount = p := by
  unfold under
  split
  next hroot => exact if_pos hroot
  next hroot => exact stripPrefixPath_append hroot rfl

/-- Stripping undoes prefixing on every text that begins with the prefix. -/
theorem under_stripPrefixPath {p mount : Path} (h : mount.isRoot ∨ mount.str <+: p.str) :
    (p.stripPrefixPath mount).under mount = p := by
  unfold under
  split
  next hroot => exact if_pos hroot
  next hroot =>
    obtain ⟨rest,hrest⟩ := h.resolve_left hroot
    rw [stripPrefixPath_append hroot hrest.symm]
    exact Path.ext hrest

theorem parent_length_lt {p q : Path} (h : p.parent = some q) : q.str.length < p.str.length := by
  unfold parent at h
  split at h
  · simp at h
  next hroot =>
    simp only [Option.map_eq_some_iff,Prod.exists] at h
    obtain ⟨init,name,hr,rfl⟩ := h
    obtain ⟨hp,_⟩ := Text.rsplitOnce_eq_some.mp hr
    split
    next hi =>
      subst hi
      cases name with
      | nil => exact absurd (Path.ext hp) hroot
      | cons c name => simp [root,hp]
    next => simp [hp]

end Path
end Olivia
