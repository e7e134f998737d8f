import Mathlib.Data.List.Destutter
import Mathlib.Data.List.Sort
import Mathlib.Order.Bounds.Basic

/-! # Sorting by a key

A list is sorted by a key and equal neighbours are merged. Nothing is lost and, where the key
tells the elements apart, nothing is left twice: the keys ascend strictly.
-/
namespace Text
variable {α κ : Type*} [DecidableEq α] [LinearOrder κ]

def sortedDedup (key : α → κ) (l : List α) : List α :=
  (l.insertionSort (fun a b => key a ≤ key b)).destutter (· ≠ ·)

variable {key : α → κ} {l : List α} {a b : α}

omit [LinearOrder κ] in
theorem mem_destutter'_ne : a ∈ l.destutter' (· ≠ ·) b ↔ a ∈ b :: l := by
  induction l generalizing b with
  | nil => simp
  | cons c l ih =>
    by_cases hbc : b = c
    · subst hbc
      simp [ih]
    · simp [hbc,ih]

theorem mem_sortedDedup : a ∈ sortedDedup key l ↔ a ∈ l := by
  rw [sortedDedup,← List.mem_insertionSort (fun a b => key a ≤ key b) (l := l)]
  cases l.insertionSort (fun a b => key a ≤ key b) with
  | nil => simp
  | cons b l => rw [List.destutter_cons',mem_destutter'_ne]

theorem sortedDedup_pairwise (hkey : ∀ a ∈ l, ∀ b ∈ l, key a = key b → a = b) :
    ((sortedDedup key l).map key).Pairwise (· < ·) := by
  have hsorted : ((l.insertionSort (fun a b => key a ≤ key b)).map key).Pairwise (· ≤ ·) :=
    List.pairwise_map.mpr (List.pairwise_insertionSort _ _)
  have hne : ∀ a ∈ l.insertionSort (fun a b => key a ≤ key b),
      ∀ b ∈ l.insertionSort (fun a b => key a ≤ key b), a ≠ b ↔ key a ≠ key b := by
    intro a ha b hb
    rw [List.mem_insertionSort] at ha hb
    exact not_congr ⟨fun h => congrArg key h,hkey a ha b hb⟩
  rw [sortedDedup,List.map_destutter hne,hsorted.destutter_eq_dedup]
  exact ((hsorted.sublist (List.dedup_sublist _)).and (List.nodup_dedup _)).imp
    (fun h => lt_of_le_of_ne h.1 h.2)

omit [DecidableEq α] in
/-- Strictly ascending keys begin with the least and end with the greatest. -/
theorem bounds_of_pairwise (h : (l.map key).Pairwise (· < ·)) (hne : l ≠ []) :
    ∃ start stop, l.head?.map key = some start ∧ l.getLast?.map key = some stop ∧
      IsLeast {k | k ∈ l.map key} start ∧ IsGreatest {k | k ∈ l.map key} stop := by
  have hmap : l.map key ≠ [] := by simpa using hne
  refine ⟨(l.map key).head hmap,(l.map key).getLast hmap,?_,?_,⟨List.head_mem hmap,?_⟩,⟨List.getLast_mem hmap,?_⟩⟩
  · rw [← List.head?_map,List.head?_eq_some_head hmap]
  · rw [← List.getLast?_map,List.getLast?_eq_some_getLast hmap]
  · intro k hk
    exact (h.imp le_of_lt).rel_head hk
  · intro k hk
    exact (h.imp le_of_lt).rel_getLast hk

end Text
