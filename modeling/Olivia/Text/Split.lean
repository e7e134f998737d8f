import Mathlib.Data.List.Basic

/-! # Cutting a list at a separator

The first and the last occurrence of a separator cut a list in two, and both cuts are
determined by the decomposition they produce. Nothing depends on the alphabet.
-/
namespace Text
variable {α : Type*} [DecidableEq α]

/-- The parts before and after the first separator. -/
def splitOnce (sep : α) : List α → Option (List α × List α)
  | [] => none
  | a :: l => if a = sep then some ([],l) else (splitOnce sep l).map (fun p => (a :: p.1,p.2))

/-- The parts before and after the last separator. -/
def rsplitOnce (sep : α) (l : List α) : Option (List α × List α) :=
  (splitOnce sep l.reverse).map (fun p => (p.2.reverse,p.1.reverse))

@[simp] theorem splitOnce_nil (sep : α) : splitOnce sep [] = none := rfl

theorem splitOnce_append {sep : α} {l : List α} (h : sep ∉ l) (r : List α) :
    splitOnce sep (l ++ sep :: r) = some (l,r) := by
  induction l with
  | nil => simp [splitOnce]
  | cons a l ih =>
    obtain ⟨ha,hl⟩ := List.ne_and_not_mem_of_not_mem_cons h
    simp [splitOnce,ha.symm,ih hl]

theorem splitOnce_eq_none {sep : α} {l : List α} : splitOnce sep l = none ↔ sep ∉ l := by
  induction l with
  | nil => simp
  | cons a l ih =>
    by_cases ha : a = sep
    · simp [splitOnce,ha]
    · simp [splitOnce,ha,ih,Ne.symm ha]

/-- The first cut is the only decomposition whose left part avoids the separator. -/
theorem splitOnce_eq_some {sep : α} {l a b : List α} :
    splitOnce sep l = some (a,b) ↔ l = a ++ sep :: b ∧ sep ∉ a := by
  constructor
  · intro h
    induction l generalizing a with
    | nil => simp at h
    | cons x l ih =>
      by_cases hx : x = sep
      · simp only [splitOnce,if_pos hx,Option.some.injEq,Prod.mk.injEq] at h
        obtain ⟨rfl,rfl⟩ := h
        simp [hx]
      · simp only [splitOnce,if_neg hx,Option.map_eq_some_iff,Prod.mk.injEq] at h
        obtain ⟨⟨c,d⟩,hcd,rfl,rfl⟩ := h
        obtain ⟨rfl,hc⟩ := ih hcd
        simp [hc,Ne.symm hx]
  · rintro ⟨rfl,ha⟩
    exact splitOnce_append ha b

theorem splitOnce_isSome {sep : α} {l : List α} (h : sep ∈ l) :
    ∃ a b, splitOnce sep l = some (a,b) := by
  cases hs : splitOnce sep l with
  | none => exact absurd h (splitOnce_eq_none.mp hs)
  | some p => exact ⟨p.1,p.2,rfl⟩

/-- The last cut is the only decomposition whose right part avoids the separator. -/
theorem rsplitOnce_eq_some {sep : α} {l a b : List α} :
    rsplitOnce sep l = some (a,b) ↔ l = a ++ sep :: b ∧ sep ∉ b := by
  have hs : rsplitOnce sep l = some (a,b) ↔ splitOnce sep l.reverse = some (b.reverse,a.reverse) := by
    simp only [rsplitOnce,Option.map_eq_some_iff,Prod.mk.injEq,Prod.exists]
    constructor
    · rintro ⟨c,d,h,rfl,rfl⟩
      simpa using h
    · intro h
      exact ⟨_,_,h,by simp,by simp⟩
  rw [hs,splitOnce_eq_some,List.mem_reverse,List.reverse_eq_iff]
  simp

theorem rsplitOnce_append {sep : α} (l : List α) {r : List α} (h : sep ∉ r) :
    rsplitOnce sep (l ++ sep :: r) = some (l,r) := rsplitOnce_eq_some.mpr ⟨rfl,h⟩

theorem rsplitOnce_isSome {sep : α} {l : List α} (h : sep ∈ l) : ∃ a b, rsplitOnce sep l = some (a,b) := by
  obtain ⟨a,b,hs⟩ := splitOnce_isSome (List.mem_reverse.mpr h)
  exact ⟨b.reverse,a.reverse,by rw [rsplitOnce,hs,Option.map_some]⟩

theorem rsplitOnce_eq_none {sep : α} {l : List α} : rsplitOnce sep l = none ↔ sep ∉ l := by
  simp [rsplitOnce,splitOnce_eq_none]

/-- The head of a split is the part before the first separator. -/
theorem splitOn_head_not_mem {sep : α} {l a : List α} {rest : List (List α)}
    (h : l.splitOn sep = a :: rest) : sep ∉ a := by
  by_cases hl : sep ∈ l
  · obtain ⟨c,d,hcd⟩ := splitOnce_isSome hl
    obtain ⟨rfl,hc⟩ := splitOnce_eq_some.mp hcd
    rw [List.splitOn_append_cons_self_of_not_mem hc] at h
    injection h with h _
    exact h ▸ hc
  · rw [List.splitOn_eq_singleton hl] at h
    injection h with h _
    exact h ▸ hl

/-- Two pieces are what a list with exactly one separator splits into. -/
theorem splitOn_eq_pair {sep : α} {l a b : List α} :
    l.splitOn sep = [a,b] ↔ l = a ++ sep :: b ∧ sep ∉ a ∧ sep ∉ b := by
  constructor
  · intro h
    have ha := splitOn_head_not_mem h
    have hl : l = a ++ sep :: b := by
      have hi : [sep].intercalate (l.splitOn sep) = l := List.intercalate_splitOn sep
      rw [h] at hi
      simpa [List.intercalate] using hi.symm
    rw [hl,List.splitOn_append_cons_self_of_not_mem ha] at h
    injection h with _ h
    exact ⟨hl,ha,splitOn_head_not_mem h⟩
  · rintro ⟨rfl,ha,hb⟩
    rw [List.splitOn_append_cons_self_of_not_mem ha,List.splitOn_eq_singleton hb]

/-- A list with a separator has at least two pieces. -/
theorem splitOn_of_mem {sep : α} {l : List α} (h : sep ∈ l) :
    ∃ a b rest, l.splitOn sep = a :: b :: rest := by
  obtain ⟨a,r,rfl,ha⟩ := List.eq_append_cons_of_mem h
  rw [List.splitOn_append_cons_self_of_not_mem ha]
  cases hs : r.splitOn sep with
  | nil => exact absurd hs (List.splitOn_ne_nil sep r)
  | cons b rest => exact ⟨a,b,rest,rfl⟩

section Pieces
variable {sep : α} {l r : List α}

omit [DecidableEq α] in
/-- Induction on the pieces: a list is a piece, or has another one before its first separator. -/
@[elab_as_elim] theorem piecesRec {motive : List α → Prop} (sep : α) (piece : ∀ l, sep ∉ l → motive l)
    (cut : ∀ a l, sep ∉ a → motive l → motive (a ++ sep :: l)) (l : List α) : motive l := by
  by_cases hl : sep ∈ l
  · obtain ⟨a,b,rfl,ha⟩ := List.eq_append_cons_of_mem hl
    exact cut a b ha (piecesRec sep piece cut b)
  · exact piece l hl
termination_by l.length

theorem mem_of_mem_splitOn {piece : List α} {c : α} (h : piece ∈ l.splitOn sep) (hc : c ∈ piece) : c ∈ l := by
  induction l using piecesRec sep with
  | piece l hl =>
    obtain rfl : piece = l := by simpa [List.splitOn_eq_singleton hl] using h
    exact hc
  | cut a l ha ih =>
    rw [List.splitOn_append_cons_self_of_not_mem ha] at h
    rcases List.mem_cons.mp h with rfl | h
    · exact List.mem_append_left _ hc
    · exact List.mem_append_right _ (List.mem_cons_of_mem sep (ih h))

theorem not_mem_of_mem_splitOn {piece : List α} (h : piece ∈ l.splitOn sep) : sep ∉ piece := by
  induction l using piecesRec sep with
  | piece l hl =>
    obtain rfl : piece = l := by simpa [List.splitOn_eq_singleton hl] using h
    exact hl
  | cut a l ha ih =>
    rw [List.splitOn_append_cons_self_of_not_mem ha] at h
    rcases List.mem_cons.mp h with rfl | h
    · exact ha
    · exact ih h

theorem splitOn_injective (sep : α) : Function.Injective (fun l : List α => l.splitOn sep) := by
  intro l r h
  have hjoin : [sep].intercalate (l.splitOn sep) = [sep].intercalate (r.splitOn sep) := congrArg _ h
  rwa [List.intercalate_splitOn,List.intercalate_splitOn] at hjoin

/-- The pieces of a list end the pieces of another exactly where the list ends it behind a
separator, or is all of it. -/
theorem splitOn_suffix_iff : l.splitOn sep <:+ r.splitOn sep ↔ l = r ∨ sep :: l <:+ r := by
  constructor
  · intro h
    induction r using piecesRec sep with
    | piece r hr =>
      rw [List.splitOn_eq_singleton hr] at h
      rcases List.suffix_cons_iff.mp h with h | h
      · rw [← List.splitOn_eq_singleton hr] at h
        exact Or.inl (splitOn_injective sep h)
      · exact absurd (List.suffix_nil.mp h) (List.splitOn_ne_nil sep l)
    | cut a r ha ih =>
      rw [List.splitOn_append_cons_self_of_not_mem ha] at h
      rcases List.suffix_cons_iff.mp h with h | h
      · rw [← List.splitOn_append_cons_self_of_not_mem ha] at h
        exact Or.inl (splitOn_injective sep h)
      · rcases ih h with rfl | hsuffix
        · exact Or.inr ⟨a,rfl⟩
        · exact Or.inr (hsuffix.trans ((List.suffix_cons sep r).trans (List.suffix_append a _)))
  · rintro (rfl | ⟨before,rfl⟩)
    · exact List.suffix_rfl
    · rw [List.splitOn_append_cons_self]
      exact List.suffix_append _ _

/-- The pieces behind the first one. -/
theorem splitOn_suffix_tail_iff : l.splitOn sep <:+ (r.splitOn sep).tail ↔ sep :: l <:+ r := by
  constructor
  · intro h
    rcases splitOn_suffix_iff.mp (h.trans (List.tail_suffix _)) with rfl | hsuffix
    · have hlength := h.length_le
      have hpos : 0 < (l.splitOn sep).length := List.length_pos_of_ne_nil (List.splitOn_ne_nil sep l)
      rw [List.length_tail] at hlength
      omega
    · exact hsuffix
  · rintro ⟨before,rfl⟩
    rw [List.splitOn_append_cons_self,List.tail_append_of_ne_nil (List.splitOn_ne_nil sep before)]
    exact List.suffix_append _ _

/-- They begin them where it begins it before a separator, or is all of it. -/
theorem splitOn_prefix_iff : l.splitOn sep <+: r.splitOn sep ↔ l = r ∨ l ++ [sep] <+: r := by
  constructor
  · intro h
    induction l using piecesRec sep generalizing r with
    | piece l hl =>
      rw [List.splitOn_eq_singleton hl] at h
      by_cases hr : sep ∈ r
      · obtain ⟨c,d,rfl,hc⟩ := List.eq_append_cons_of_mem hr
        rw [List.splitOn_append_cons_self_of_not_mem hc,List.cons_prefix_cons] at h
        obtain ⟨rfl,_⟩ := h
        exact Or.inr ⟨d,by simp⟩
      · rw [List.splitOn_eq_singleton hr,List.cons_prefix_cons] at h
        exact Or.inl h.1
    | cut a l ha ih =>
      rw [List.splitOn_append_cons_self_of_not_mem ha] at h
      by_cases hr : sep ∈ r
      · obtain ⟨c,d,rfl,hc⟩ := List.eq_append_cons_of_mem hr
        rw [List.splitOn_append_cons_self_of_not_mem hc,List.cons_prefix_cons] at h
        obtain ⟨rfl,h⟩ := h
        rcases ih h with rfl | ⟨after,hafter⟩
        · exact Or.inl rfl
        · exact Or.inr ⟨after,by simp [← hafter]⟩
      · rw [List.splitOn_eq_singleton hr,List.cons_prefix_cons,List.prefix_nil] at h
        exact absurd h.2 (List.splitOn_ne_nil sep l)
  · rintro (rfl | ⟨after,rfl⟩)
    · exact List.prefix_rfl
    · rw [List.append_assoc,List.singleton_append,List.splitOn_append_cons_self]
      exact List.prefix_append _ _

omit [DecidableEq α] in
/-- The last separator is the furthest one that a prefix can end with. -/
theorem append_sep_prefix_iff {a b c : List α} (hc : sep ∉ c) :
    a ++ [sep] <+: b ++ sep :: c ↔ a = b ∨ a ++ [sep] <+: b := by
  constructor
  · intro h
    rcases List.prefix_or_prefix_of_prefix h (List.prefix_append b _) with hab | hba
    · exact Or.inr hab
    · rcases List.prefix_concat_iff.mp hba with rfl | ⟨d,rfl⟩
      · exact Or.inr List.prefix_rfl
      · rw [List.append_assoc,List.prefix_append_right_inj] at h
        cases d with
        | nil => exact Or.inl (List.append_nil b)
        | cons x d =>
          obtain ⟨_,hd⟩ := List.cons_prefix_cons.mp h
          exact absurd (hd.subset (by simp)) hc
  · rintro (rfl | h)
    · exact ⟨c,by simp⟩
    · exact h.trans (List.prefix_append b _)

/-- Writing a list letter by letter writes its pieces, when only the separator is written as
the other separator. -/
theorem splitOn_flatMap {β : Type*} [DecidableEq β] {sep' : β} {f : α → List β} (hsep : f sep = [sep'])
    (hf : ∀ a ≠ sep, sep' ∉ f a) (l : List α) :
    (l.flatMap f).splitOn sep' = (l.splitOn sep).map (List.flatMap f) := by
  have hpiece : ∀ {piece : List α}, sep ∉ piece → sep' ∉ piece.flatMap f := by
    intro piece hpiece hmem
    obtain ⟨a,ha,hmem⟩ := List.mem_flatMap.mp hmem
    exact hf a (fun h => hpiece (h ▸ ha)) hmem
  induction l using piecesRec sep with
  | piece l hl =>
    rw [List.splitOn_eq_singleton hl,List.splitOn_eq_singleton (hpiece hl)]
    rfl
  | cut a l ha ih =>
    rw [List.flatMap_append,List.flatMap_cons,hsep,List.singleton_append,
      List.splitOn_append_cons_self_of_not_mem (hpiece ha),ih,List.splitOn_append_cons_self_of_not_mem ha,
      List.map_cons]

end Pieces

end Text
