import Olivia.Core.Path

/-! # Segments and parents

A path is a parent of another when it is reached by cutting segments off its end, down to
the root. On texts this is a prefix that ends before a slash, and the root before any text
that begins with one.
-/
namespace Olivia
namespace Path

def segments (p : Path) : List Str := (p.str.splitOn '/').tail
def first (p : Path) : Option Str := p.segments.head?

def isParentOf (p path : Path) : Bool :=
  if path = p then true
  else match _h : path.parent with
    | some parent => p.isParentOf parent
    | none => false
termination_by path.str.length
decreasing_by exact parent_length_lt _h

def child (p : Path) (name : Str) : Path := (⟨'/' :: name⟩ : Path).prefixPath p

variable {p q : Path}

theorem isParentOf_self (p : Path) : p.isParentOf p = true := by rw [isParentOf,if_pos rfl]

theorem isParentOf_of_parent {r : Path} (h : q.parent = some r) (hne : q ≠ p) :
    p.isParentOf q = p.isParentOf r := by
  rw [isParentOf,if_neg hne]
  split
  next parent hparent =>
    obtain rfl := Option.some.inj (hparent.symm.trans h)
    rfl
  next hnone => cases hnone.symm.trans h

theorem parent_eq_some {r : Path} (h : q.parent = some r) : ∃ init name, q.str = init ++ '/' :: name ∧
    '/' ∉ name ∧ r = if init = [] then root else ⟨init⟩ := by
  unfold parent at h
  split at h
  next => cases h
  next =>
    obtain ⟨⟨init,name⟩,hr,rfl⟩ := Option.map_eq_some_iff.mp h
    obtain ⟨hq,hslash⟩ := Text.rsplitOnce_eq_some.mp hr
    exact ⟨init,name,hq,hslash,rfl⟩

theorem parent_eq_none (h : q.parent = none) : q.isRoot ∨ '/' ∉ q.str := by
  by_cases hroot : q.isRoot
  · exact Or.inl hroot
  · refine Or.inr (fun hmem => ?_)
    cases hs : Text.rsplitOnce '/' q.str with
    | none => exact absurd hmem (Text.rsplitOnce_eq_none.mp hs)
    | some cut => simp [parent,hroot,hs] at h

/-- What is below a path in the text: itself, all that begins with a slash below the root, and
what goes on with a slash behind any other path. -/
def Below (p q : Path) : Prop :=
  q = p ∨ p.isRoot ∧ q.str.head? = some '/' ∨ p.str ≠ [] ∧ p.str ++ ['/'] <+: q.str

/-- The text of the root goes on behind nothing with a slash. -/
theorem not_slash_root (hp : p.str ≠ []) : ¬ p.str ++ ['/'] <+: root.str := by
  intro hpre
  have hlength := hpre.length_le
  simp only [root,List.length_append] at hlength
  exact hp (List.length_eq_zero_iff.mp (by simpa using hlength))

theorem below_root {name : Str} (hslash : '/' ∉ name) (hne : (⟨'/' :: name⟩ : Path) ≠ p) :
    p.Below root ↔ p.Below ⟨'/' :: name⟩ := by
  have hname : ¬ (p.str ≠ [] ∧ p.str ++ ['/'] <+: '/' :: name) := by
    rintro ⟨hpne,hpre⟩
    rcases (Text.append_sep_prefix_iff (b := []) hslash).mp hpre with hnil | hnil
    · exact hpne hnil
    · simp at hnil
  have hroot : ¬ (p.str ≠ [] ∧ p.str ++ ['/'] <+: root.str) := fun ⟨hpne,hpre⟩ => not_slash_root hpne hpre
  simp only [Below,hname,hroot,hne,or_false,false_or]
  simp [root,isRoot,eq_comm]

theorem below_parent {init name : Str} (hinit : init ≠ []) (hslash : '/' ∉ name)
    (hne : (⟨init ++ '/' :: name⟩ : Path) ≠ p) : p.Below ⟨init⟩ ↔ p.Below ⟨init ++ '/' :: name⟩ := by
  simp only [Below,hne,false_or,List.head?_append_of_ne_nil init hinit,Text.append_sep_prefix_iff hslash]
  constructor
  · rintro (rfl | hroot | ⟨hp,hpre⟩)
    · exact Or.inr ⟨hinit,Or.inl rfl⟩
    · exact Or.inl hroot
    · exact Or.inr ⟨hp,Or.inr hpre⟩
  · rintro (hroot | ⟨_,hp | hpre⟩)
    · exact Or.inr (Or.inl hroot)
    · exact Or.inl (Path.ext hp.symm)
    · exact Or.inr (Or.inr ⟨by assumption,hpre⟩)

/-- The recursion over parents finds what is below in the text, by induction over the cuts. -/
theorem isParentOf_iff_below (p q : Path) : p.isParentOf q = true ↔ p.Below q := by
  by_cases hqp : q = p
  · subst hqp
    exact iff_of_true (isParentOf_self q) (Or.inl rfl)
  · cases hparent : q.parent with
    | none =>
      have hfalse : p.isParentOf q = false := by
        rw [isParentOf,if_neg hqp]
        split
        next parent hsome => cases hparent.symm.trans hsome
        next => rfl
      rw [hfalse]
      refine iff_of_false (by simp) ?_
      rintro (hq | ⟨hp,hhead⟩ | ⟨hp,hpre⟩)
      · exact hqp hq
      · rcases parent_eq_none hparent with hroot | hmem
        · exact hqp (hroot.trans hp.symm)
        · exact hmem (List.mem_of_head? hhead)
      · rcases parent_eq_none hparent with hroot | hmem
        · rw [hroot] at hpre
          exact not_slash_root hp hpre
        · exact hmem (hpre.subset (by simp))
    | some r =>
      have hlt := parent_length_lt hparent
      rw [isParentOf_of_parent hparent hqp,isParentOf_iff_below p r]
      obtain ⟨init,name,hq,hslash,hr⟩ := parent_eq_some hparent
      obtain ⟨qstr⟩ := q
      obtain rfl : qstr = init ++ '/' :: name := hq
      rw [hr]
      split
      next hinit =>
        subst hinit
        exact below_root hslash hqp
      next hinit => exact below_parent hinit hslash hqp
termination_by q.str.length

theorem Below.begins (h : p.Below q) : p.str <+: q.str := by
  rcases h with rfl | ⟨hroot,hhead⟩ | ⟨_,hpre⟩
  · exact List.prefix_rfl
  · obtain ⟨rest,hrest⟩ := List.head?_eq_some_iff.mp hhead
    rw [hroot,hrest]
    exact ⟨rest,rfl⟩
  · exact (List.prefix_append _ _).trans hpre

/-- What is below a path begins with a slash only where the path does. -/
theorem Below.head (h : p.Below q) (hq : q.str.head? = some '/') : p.str.head? = some '/' := by
  rcases h with rfl | ⟨rfl,_⟩ | ⟨hne,after,hafter⟩
  · exact hq
  · rfl
  · rwa [← hafter,List.append_assoc,List.head?_append_of_ne_nil _ hne] at hq

/-- Below the root is all that begins with a slash. -/
theorem isParentOf_of_isRoot {rest : Str} (hp : p.isRoot) (hq : q.str = '/' :: rest) : p.isParentOf q = true :=
  (isParentOf_iff_below p q).mpr (Or.inr (Or.inl ⟨hp,by rw [hq]; rfl⟩))

/-- Below any other path is that path and what goes on behind it with a slash. -/
theorem isParentOf_iff_behind (hp : p.str ≠ []) (hroot : ¬ p.isRoot) :
    p.isParentOf q = true ↔ q = p ∨ ∃ tail, q.str = p.str ++ '/' :: tail := by
  have hbehind : p.str ++ ['/'] <+: q.str ↔ ∃ tail, q.str = p.str ++ '/' :: tail := by
    constructor
    · rintro ⟨tail,htail⟩
      exact ⟨tail,by simp [← htail]⟩
    · rintro ⟨tail,htail⟩
      exact ⟨tail,by simp [htail]⟩
  simp only [isParentOf_iff_below,Below,hroot,false_and,false_or,hp,ne_eq,not_false_eq_true,true_and,hbehind]

/-- What is below a path is below all that it is itself below. -/
theorem isParentOf_trans {r : Path} (hpq : p.isParentOf q = true) (hqr : q.isParentOf r = true) :
    p.isParentOf r = true := by
  rw [isParentOf_iff_below] at *
  rcases hqr with rfl | ⟨hroot,hhead⟩ | ⟨hne,hpre⟩
  · exact hpq
  · rcases hpq with rfl | ⟨hp,_⟩ | ⟨hp,hpre⟩
    · exact Or.inr (Or.inl ⟨hroot,hhead⟩)
    · exact Or.inr (Or.inl ⟨hp,hhead⟩)
    · rw [hroot] at hpre
      exact absurd hpre (not_slash_root hp)
  · rcases hpq with rfl | ⟨hp,hhead⟩ | ⟨hp,hpre'⟩
    · exact Or.inr (Or.inr ⟨hne,hpre⟩)
    · obtain ⟨after,hafter⟩ := hpre
      exact Or.inr (Or.inl ⟨hp,by rw [← hafter,List.append_assoc,List.head?_append_of_ne_nil _ hne,hhead]⟩)
    · exact Or.inr (Or.inr ⟨hp,(hpre'.trans (List.prefix_append _ _)).trans hpre⟩)

theorem isParentOf_parent (h : q.parent = some p) : p.isParentOf q = true := by
  have hne : q ≠ p := by
    rintro rfl
    exact absurd (parent_length_lt h) (Nat.lt_irrefl _)
  rw [isParentOf_of_parent h hne,isParentOf_self]

/-- Two paths with something below both are one below the other. -/
theorem isParentOf_or_of_isParentOf {r : Path} (hp : p.isParentOf r = true) (hq : q.isParentOf r = true) :
    p.isParentOf q = true ∨ q.isParentOf p = true := by
  by_cases hrp : r = p
  · exact Or.inr (hrp ▸ hq)
  by_cases hrq : r = q
  · exact Or.inl (hrq ▸ hp)
  cases hparent : r.parent with
  | none =>
    rw [isParentOf,if_neg hrp] at hp
    split at hp
    next parent hsome => cases hparent.symm.trans hsome
    next => cases hp
  | some parent =>
    have hlt := parent_length_lt hparent
    rw [isParentOf_of_parent hparent hrp] at hp
    rw [isParentOf_of_parent hparent hrq] at hq
    exact isParentOf_or_of_isParentOf hp hq
termination_by r.str.length

theorem isParentOf_under {rest : Str} (hq : q.str.head? = some '/') (hp : p.str = '/' :: rest) :
    p.isParentOf (q.under p) = true := by
  obtain ⟨tail,htail⟩ := List.head?_eq_some_iff.mp hq
  unfold under
  split
  next hroot => exact isParentOf_of_isRoot hroot htail
  next hroot => exact (isParentOf_iff_behind (by simp [hp]) hroot).mpr (Or.inr ⟨tail,by rw [htail]⟩)

theorem segments_of_head {s : Path} {rest : Str} (h : s.str = '/' :: rest) : s.segments = rest.splitOn '/' := by
  rw [segments,h]
  simp [List.splitOn_cons_eq_if_modifyHead]

theorem segments_injective {rest rest' : Str} (hp : p.str = '/' :: rest) (hq : q.str = '/' :: rest')
    (h : p.segments = q.segments) : p = q := by
  rw [segments_of_head hp,segments_of_head hq] at h
  exact Path.ext (by rw [hp,hq,Text.splitOn_injective '/' h])

/-- Below any path but the root are those that begin with its segments. -/
theorem isParentOf_iff_segments {rest rest' : Str} (hp : p.str = '/' :: rest) (hq : q.str = '/' :: rest')
    (hroot : ¬ p.isRoot) : p.isParentOf q = true ↔ p.segments <+: q.segments := by
  rw [isParentOf_iff_below,segments_of_head hp,segments_of_head hq,Text.splitOn_prefix_iff]
  simp only [Below,hroot,false_and,false_or,Path.ext_iff,hp,hq,ne_eq,reduceCtorEq,not_false_eq_true,
    true_and,List.cons_append,List.cons_prefix_cons,List.cons.injEq,eq_comm]

/-- Behind a path and a slash the segments of the path go on. -/
theorem segments_append {tail : Str} (h : q.str = p.str ++ '/' :: tail) :
    q.segments = p.segments ++ tail.splitOn '/' := by
  have hsplit : p.str.splitOn '/' ≠ [] := List.splitOn_ne_nil '/' p.str
  rw [segments,h,List.splitOn_append_cons_self,List.tail_append_of_ne_nil hsplit,segments]

/-- A path whose text goes on behind another within the last segment, and then has more. -/
def Beside (p q : Path) (segments : List Str) : Prop := ¬ p.isRoot ∧
  ∃ more tail, more ≠ [] ∧ '/' ∉ more ∧ q.str = p.str ++ more ++ '/' :: tail ∧ tail.splitOn '/' = segments

/-- What stripping leaves of a text that begins with a path: the segments behind the path of
what is below it, and those behind the longer segment of what is beside it. -/
theorem segments_stripPrefixPath {rest rest' name : Str} {names : List Str} (hp : p.str = '/' :: rest)
    (hq : q.str = '/' :: rest') : p.str <+: q.str ∧ (q.stripPrefixPath p).segments = name :: names ↔
      p.isParentOf q = true ∧ q.segments = (if p.isRoot then [] else p.segments) ++ name :: names ∨
        p.Beside q (name :: names) := by
  by_cases hroot : p.isRoot
  · have hstrip : q.stripPrefixPath p = q := if_pos hroot
    have hbelow : p.isParentOf q = true := isParentOf_of_isRoot hroot hq
    have hbegins : p.str <+: q.str := ((isParentOf_iff_below p q).mp hbelow).begins
    simp [Beside,hroot,hstrip,hbelow,hbegins]
  · rw [if_neg hroot]
    have hne : p.str ≠ [] := by simp [hp]
    constructor
    · rintro ⟨⟨tail,htail⟩,hsegments⟩
      rw [stripPrefixPath_append hroot htail.symm,segments] at hsegments
      by_cases hslash : '/' ∈ tail
      · obtain ⟨before,after,rfl,hbefore⟩ := List.eq_append_cons_of_mem hslash
        rw [List.splitOn_append_cons_self_of_not_mem hbefore,List.tail_cons] at hsegments
        by_cases hempty : before = []
        · subst hempty
          have hafter : q.str = p.str ++ '/' :: after := htail.symm
          exact Or.inl ⟨(isParentOf_iff_behind hne hroot).mpr (Or.inr ⟨after,hafter⟩),by
            rw [segments_append hafter,hsegments]⟩
        · exact Or.inr ⟨hroot,before,after,hempty,hbefore,by rw [← htail]; simp,hsegments⟩
      · rw [List.splitOn_eq_singleton hslash] at hsegments
        cases hsegments
    · rintro (⟨hbelow,hsegments⟩ | ⟨_,more,tail,_,hmore,hstr,hsegments⟩)
      · rcases (isParentOf_iff_behind hne hroot).mp hbelow with rfl | ⟨tail,htail⟩
        · simp at hsegments
        · rw [segments_append htail] at hsegments
          refine ⟨⟨_,htail.symm⟩,?_⟩
          rw [stripPrefixPath_append hroot htail,segments_of_head rfl]
          exact List.append_cancel_left hsegments
      · rw [List.append_assoc] at hstr
        refine ⟨⟨_,hstr.symm⟩,?_⟩
        rw [stripPrefixPath_append hroot hstr,segments,List.splitOn_append_cons_self_of_not_mem hmore]
        exact hsegments

/-- A path ends in the segments of another that begins with a slash where its text ends in it. -/
theorem segments_suffix_iff {s : Path} (h : s.str.head? = some '/') :
    s.segments <:+ q.segments ↔ s.str <:+ q.str := by
  obtain ⟨rest,hrest⟩ := List.head?_eq_some_iff.mp h
  rw [segments_of_head hrest,segments,Text.splitOn_suffix_tail_iff,hrest]

end Path
end Olivia
