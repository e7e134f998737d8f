import Olivia.Core.Segments
import Olivia.Trees.Position

/-! # Valid paths

A path that the parser accepts is a position in a tree: its segments, and none for the root.
That one path is a parent of another is the order of these positions, and prefixing hangs one
below the other. Stripping a path off again works on characters and not on segments.
-/
namespace Olivia
open Trees

structure ValidPath where
  path : Path
  valid : Path.fromStr path.str = .ok path

namespace ValidPath

@[ext] theorem ext {p q : ValidPath} (h : p.path = q.path) : p = q := by
  cases p
  cases q
  cases h
  rfl

def root : ValidPath := ⟨Path.root,rfl⟩

def position (p : ValidPath) : Position Str := ⟨if p.path.isRoot then [] else p.path.segments⟩

theorem starts (p : ValidPath) : ∃ rest, p.path.str = '/' :: rest := Path.exists_of_fromStr p.valid

theorem position_of_isRoot {p : ValidPath} (h : p.path.isRoot) : p.position = ⊥ := by
  rw [position,if_pos h]
  rfl

theorem names_of_not_isRoot {p : ValidPath} (h : ¬ p.path.isRoot) : p.position.names = p.path.segments := by
  rw [position,if_neg h]

theorem position_eq_bot {p : ValidPath} : p.position = ⊥ ↔ p.path.isRoot := by
  refine ⟨fun h => ?_,position_of_isRoot⟩
  by_contra hroot
  obtain ⟨rest,hrest⟩ := p.starts
  have hnames : p.path.segments = [] := by rw [← names_of_not_isRoot hroot,h,Position.bot_names]
  rw [Path.segments_of_head hrest] at hnames
  exact List.splitOn_ne_nil '/' rest hnames

theorem position_injective : Function.Injective position := by
  intro p q h
  by_cases hq : q.path.isRoot
  · have hp : p.path.isRoot := position_eq_bot.mp (h.trans (position_of_isRoot hq))
    exact ext (hp.trans hq.symm)
  · have hp : ¬ p.path.isRoot := fun hp => hq (position_eq_bot.mp (h.symm.trans (position_of_isRoot hp)))
    obtain ⟨prest,hprest⟩ := p.starts
    obtain ⟨qrest,hqrest⟩ := q.starts
    have hnames := congrArg Position.names h
    rw [names_of_not_isRoot hp,names_of_not_isRoot hq] at hnames
    exact ext (Path.segments_injective hprest hqrest hnames)

/-- Valid paths are ordered as positions in a tree. -/
instance : PartialOrder ValidPath := PartialOrder.lift position position_injective

theorem le_iff_position {p q : ValidPath} : p ≤ q ↔ p.position ≤ q.position := Iff.rfl

/-- What a path is a parent of, by its text. -/
theorem isParentOf_iff (p q : ValidPath) : p.path.isParentOf q.path = true ↔
    p.path.isRoot ∨ p = q ∨ p.path.str ++ ['/'] <+: q.path.str := by
  obtain ⟨prest,hp⟩ := p.starts
  obtain ⟨qrest,hq⟩ := q.starts
  have hne : p.path.str ≠ [] := by simp [hp]
  have hhead : q.path.str.head? = some '/' := by rw [hq]; rfl
  have heq : p = q ↔ q.path = p.path := ⟨fun h => congrArg path h.symm,fun h => ext h.symm⟩
  rw [Path.isParentOf_iff_below,heq]
  simp only [Path.Below,hhead,hne,ne_eq,not_false_eq_true,true_and,and_true]
  exact or_left_comm

/-- The recursion over parents decides the order of positions. -/
theorem le_iff_isParentOf {p q : ValidPath} : p ≤ q ↔ p.path.isParentOf q.path = true := by
  obtain ⟨prest,hprest⟩ := p.starts
  obtain ⟨qrest,hqrest⟩ := q.starts
  rw [le_iff_position]
  by_cases hp : p.path.isRoot
  · rw [position_of_isRoot hp]
    exact iff_of_true bot_le (Path.isParentOf_of_isRoot hp hqrest)
  by_cases hq : q.path.isRoot
  · rw [position_of_isRoot hq,le_bot_iff,position_eq_bot]
    refine iff_of_false hp (fun h => ?_)
    rcases (isParentOf_iff p q).mp h with hroot | rfl | hslash
    · exact hp hroot
    · exact hp hq
    · rw [hq] at hslash
      exact Path.not_slash_root (by simp [hprest]) hslash
  · rw [Path.isParentOf_iff_segments hprest hqrest hp,Position.le_iff,names_of_not_isRoot hp,names_of_not_isRoot hq]

instance : OrderBot ValidPath where
  bot := root
  bot_le p := by
    rw [le_iff_position,position_of_isRoot (rfl : root.path.isRoot)]
    exact bot_le

def prefixPath (q p : ValidPath) : ValidPath :=
  ⟨q.path.prefixPath p.path,Path.fromStr_prefixPath q.valid p.valid⟩

@[simp] theorem prefixPath_path (q p : ValidPath) : (q.prefixPath p).path = q.path.prefixPath p.path := rfl

theorem prefixPath_of_isRoot {p : ValidPath} (hroot : p.path.isRoot) (q : ValidPath) : q.prefixPath p = q :=
  ext (Path.prefixPath_of_isRoot hroot q.path)

theorem position_prefixPath (q p : ValidPath) : (q.prefixPath p).position = q.position.below p.position := by
  by_cases hq : q.path.isRoot
  · have hp : q.prefixPath p = p := ext (if_pos hq)
    rw [hp,position_of_isRoot hq]
    exact Position.ext (List.append_nil p.position.names).symm
  · by_cases hp : p.path.isRoot
    · rw [prefixPath_of_isRoot hp,position_of_isRoot hp]
      rfl
    · obtain ⟨qrest,hqrest⟩ := q.starts
      have hstr : (q.prefixPath p).path.str = p.path.str ++ '/' :: qrest := by
        rw [prefixPath_path,Path.prefixPath,if_neg hq,if_neg hp,hqrest]
      have hroot : ¬ (q.prefixPath p).path.isRoot := by
        intro hroot
        obtain ⟨prest,hprest⟩ := p.starts
        rw [hroot,hprest] at hstr
        simp [Path.root] at hstr
      refine Position.ext ?_
      rw [Position.below_names,names_of_not_isRoot hroot,names_of_not_isRoot hp,names_of_not_isRoot hq,
        Path.segments_append hstr,Path.segments_of_head hqrest]

theorem le_prefixPath (q p : ValidPath) : p ≤ q.prefixPath p := by
  rw [le_iff_position,position_prefixPath]
  exact Position.le_below q.position p.position

/-- Mounting paths under a path keeps their order as it is. -/
theorem prefixPath_le_prefixPath {p q r : ValidPath} : q.prefixPath p ≤ r.prefixPath p ↔ q ≤ r := by
  rw [le_iff_position,position_prefixPath,position_prefixPath]
  exact Position.below_le_below

/-- A mount under a mount is one mount. -/
theorem prefixPath_prefixPath (r q p : ValidPath) : (r.prefixPath q).prefixPath p = r.prefixPath (q.prefixPath p) := by
  apply position_injective
  simp only [position_prefixPath]
  exact Position.below_below r.position q.position p.position

/-- Strictly below a path, stripping it off leaves what it was put before. -/
theorem stripPrefixPath_of_lt {p q : ValidPath} (h : p < q) :
    ∃ r : ValidPath, q.path.stripPrefixPath p.path = r.path ∧ r.prefixPath p = q := by
  by_cases hroot : p.path.isRoot
  · exact ⟨q,if_pos hroot,prefixPath_of_isRoot hroot q⟩
  · obtain ⟨rest,hrest⟩ := p.starts
    have hnonempty : p.path.str ≠ [] := by simp [hrest]
    rcases (Path.isParentOf_iff_behind hnonempty hroot).mp (le_iff_isParentOf.mp h.le) with heq | ⟨tail,hstr⟩
    · exact absurd (ext heq.symm) h.ne
    · obtain ⟨hvalid,hnil⟩ := Path.fromStr_behind q.valid hnonempty hstr
      have hnot : ¬ (⟨'/' :: tail⟩ : Path).isRoot := by simpa [Path.isRoot,Path.root] using hnil
      refine ⟨⟨⟨'/' :: tail⟩,hvalid⟩,Path.stripPrefixPath_append hroot hstr,ext ?_⟩
      rw [prefixPath_path,Path.prefixPath_eq_under hnot,Path.under,if_neg hroot]
      exact Path.ext hstr.symm

/-- Prefixing with a path and stripping it off undo each other, and what is not below the path
loses nothing. -/
structure PrefixUndone (p q : Path) : Prop where
  prefixed : Path.fromStr (q.prefixPath p).str = .ok (q.prefixPath p) ∧ (q.prefixPath p).stripPrefixPath p = q
  stripped : p.isParentOf q = true → Path.fromStr (q.stripPrefixPath p).str = .ok (q.stripPrefixPath p) ∧
    (q.stripPrefixPath p).prefixPath p = q
  apart : p.isParentOf q = false → q.stripPrefixPath p = q

theorem prefixUndone_of_isRoot {p q : ValidPath} (h : p.path.isRoot) : PrefixUndone p.path q.path := by
  have hstrip : q.path.stripPrefixPath p.path = q.path := if_pos h
  have hmounted : q.path.prefixPath p.path = q.path := Path.prefixPath_of_isRoot h q.path
  constructor
  · rw [hmounted]
    exact ⟨q.valid,hstrip⟩
  · intro _
    rw [hstrip]
    exact ⟨q.valid,hmounted⟩
  · exact fun _ => hstrip

/-- The root is kept as a path of its own by prefixing, and the empty text is left of any other
path that is stripped off itself. -/
theorem not_prefixUndone_root {p q : ValidPath} (hp : ¬ p.path.isRoot) (hq : q.path.isRoot) :
    ¬ PrefixUndone p.path q.path := by
  intro h
  have hmounted : q.path.prefixPath p.path = p.path := if_pos hq
  have hstrip := h.prefixed.2
  rw [hmounted,Path.stripPrefixPath_self hp,hq] at hstrip
  simp [Path.root] at hstrip

/-- Stripping cuts the text, so what begins with the text of a path has to be below it. -/
theorem slash_of_prefixUndone {p q : ValidPath} (hp : ¬ p.path.isRoot) (h : PrefixUndone p.path q.path)
    (hbegins : p.path.str <+: q.path.str) : p.path.str ++ ['/'] <+: q.path.str := by
  cases hparent : p.path.isParentOf q.path with
  | false =>
    obtain ⟨prest,hprest⟩ := p.starts
    obtain ⟨rest,hrest⟩ := hbegins
    have hcut : (⟨rest⟩ : Path) = q.path :=
      (Path.stripPrefixPath_append hp hrest.symm).symm.trans (h.apart hparent)
    have hlength := congrArg List.length (hrest.trans (congrArg Path.str hcut.symm))
    simp only [hprest,List.length_append,List.length_cons] at hlength
    omega
  | true =>
    rcases (isParentOf_iff p q).mp hparent with hroot | rfl | hslash
    · exact absurd hroot hp
    · have hvalid := (h.stripped hparent).1
      rw [Path.stripPrefixPath_self hp] at hvalid
      cases hvalid
    · exact hslash

theorem prefixUndone_of_slash {p q : ValidPath} (hq : ¬ q.path.isRoot)
    (h : p.path.str <+: q.path.str → p.path.str ++ ['/'] <+: q.path.str) : PrefixUndone p.path q.path := by
  have hne : p ≠ q := by
    rintro rfl
    have hlength := (h List.prefix_rfl).length_le
    simp only [List.length_append,List.length_singleton] at hlength
    omega
  constructor
  · rw [Path.prefixPath_eq_under hq]
    exact ⟨Path.fromStr_under q.valid p.valid hq,Path.stripPrefixPath_under q.path p.path⟩
  · intro hparent
    obtain ⟨r,hr,hmounted⟩ := stripPrefixPath_of_lt ((le_iff_isParentOf.mpr hparent).lt_of_ne hne)
    rw [hr]
    exact ⟨r.valid,congrArg path hmounted⟩
  · intro hparent
    refine Path.stripPrefixPath_of_not_begins (fun hbegins => ?_)
    have hbelow := (isParentOf_iff p q).mpr (Or.inr (Or.inr (h hbegins)))
    exact Bool.false_ne_true (hparent.symm.trans hbelow)

/-- Prefixing with the root is undone for every path. For another path it is undone for all but
the root and what begins with its text and does not go on with a slash. -/
theorem prefixUndone_iff (p q : ValidPath) : PrefixUndone p.path q.path ↔
    p.path.isRoot ∨ ¬ q.path.isRoot ∧ (p.path.str <+: q.path.str → p.path.str ++ ['/'] <+: q.path.str) := by
  constructor
  · intro h
    by_cases hp : p.path.isRoot
    · exact Or.inl hp
    · exact Or.inr ⟨fun hq => not_prefixUndone_root hp hq h,slash_of_prefixUndone hp h⟩
  · rintro (hp | ⟨hq,hslash⟩)
    · exact prefixUndone_of_isRoot hp
    · exact prefixUndone_of_slash hq hslash

/-- "/foo" is cut from the text of "/foobar", and from its own. -/
theorem sibling_and_self_cut : (¬ ∀ p q : ValidPath, PrefixUndone p.path q.path) ∧
    (⟨"/foobar".toList⟩ : Path).stripPrefixPath ⟨"/foo".toList⟩ = ⟨"bar".toList⟩ ∧
    (Path.root.prefixPath ⟨"/foo".toList⟩).stripPrefixPath ⟨"/foo".toList⟩ = ⟨[]⟩ := by
  refine ⟨?_,by decide,by decide⟩
  intro h
  have happart := (h ⟨⟨"/foo".toList⟩,by decide⟩ ⟨⟨"/foobar".toList⟩,by decide⟩).apart (by decide +kernel)
  exact absurd happart (by decide)

end ValidPath
end Olivia
