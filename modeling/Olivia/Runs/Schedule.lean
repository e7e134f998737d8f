import Mathlib.Order.Basic
import Mathlib.Data.Nat.Notation

/-! # Items on a schedule

A schedule assigns increasing times to the numbers it is defined on. A collection of items,
each shown at a time, enumerates a schedule up to `n` when the times shown are its first `n`
times, one item at each. The latest item then tells `n`, and an item at the next time
extends the enumeration by one: nothing has to be remembered besides the items.
-/
namespace Runs

variable {ι τ : Type*}

/-- Every number has one time at most, and the times of larger numbers are later. -/
structure Schedule (le : τ → τ → Prop) (tick : ℕ → τ → Prop) : Prop where
  unique : ∀ {k t u}, tick k t → tick k u → t = u
  increasing : ∀ {k l t u}, k < l → tick k t → tick l u → ¬ le u t

/-- The times shown are the first `n` of the schedule, and each of them is shown by one item. -/
structure Enumerates (tick : ℕ → τ → Prop) (shown : ι → τ → Prop) (n : ℕ) : Prop where
  defined : ∀ k < n, ∃ t, tick k t
  times : ∀ t, (∃ i, shown i t) ↔ ∃ k < n, tick k t
  once : ∀ {i j t}, shown i t → shown j t → i = j

variable {le : τ → τ → Prop} {tick tick' : ℕ → τ → Prop} {shown shown' : ι → τ → Prop} {n : ℕ}

namespace Enumerates

theorem empty (h : ∀ i t, ¬ shown i t) : Enumerates tick shown 0 where
  defined k hk := absurd hk k.not_lt_zero
  times t := iff_of_false (fun ⟨i,hi⟩ => h i t hi) (fun ⟨k,hk,_⟩ => k.not_lt_zero hk)
  once {i _ t} hi _ := absurd hi (h i t)

theorem congr (h : Enumerates tick shown n) (hshown : ∀ i t, shown' i t ↔ shown i t) :
    Enumerates tick shown' n where
  defined := h.defined
  times t := by simp only [hshown,h.times]
  once {i j t} hi hj := h.once ((hshown i t).mp hi) ((hshown j t).mp hj)

/-- Nothing is shown as long as nothing is enumerated. -/
theorem not_shown (h : Enumerates tick shown 0) (i : ι) (t : τ) : ¬ shown i t := by
  intro hi
  obtain ⟨k,hk,_⟩ := (h.times t).mp ⟨i,hi⟩
  exact k.not_lt_zero hk

/-- The latest item is shown at the last time enumerated. -/
theorem latest (h : Enumerates tick shown n) (hs : Schedule le tick) {i : ι} {t : τ} (hi : shown i t)
    (hmax : ∀ j u, shown j u → le u t) : ∃ m, n = m+1 ∧ tick m t := by
  obtain ⟨k,hk,ht⟩ := (h.times t).mp ⟨i,hi⟩
  refine ⟨n-1,by omega,?_⟩
  obtain ⟨last,hlast⟩ := h.defined (n-1) (by omega)
  by_cases hlt : k < n-1
  · obtain ⟨j,hj⟩ := (h.times last).mpr ⟨n-1,by omega,hlast⟩
    exact absurd (hmax j last hj) (hs.increasing hlt ht hlast)
  · obtain rfl : k = n-1 := by omega
    exact ht

/-- An item at the next time is one more. -/
theorem snoc (h : Enumerates tick shown n) (hs : Schedule le tick) (hrefl : ∀ t, le t t) {i : ι} {t : τ}
    (ht : tick n t) (hshown : ∀ j u, shown' j u ↔ shown j u ∨ j = i ∧ u = t) :
    Enumerates tick shown' (n+1) where
  defined k hk := by
    rcases Nat.lt_succ_iff_lt_or_eq.mp hk with hlt | rfl
    · exact h.defined k hlt
    · exact ⟨t,ht⟩
  times u := by
    constructor
    · rintro ⟨j,hj⟩
      rcases (hshown j u).mp hj with hold | ⟨_,rfl⟩
      · obtain ⟨k,hk,hu⟩ := (h.times u).mp ⟨j,hold⟩
        exact ⟨k,by omega,hu⟩
      · exact ⟨n,by omega,ht⟩
    · rintro ⟨k,hk,hu⟩
      rcases Nat.lt_succ_iff_lt_or_eq.mp hk with hlt | rfl
      · obtain ⟨j,hj⟩ := (h.times u).mpr ⟨k,hlt,hu⟩
        exact ⟨j,(hshown j u).mpr (Or.inl hj)⟩
      · exact ⟨i,(hshown i u).mpr (Or.inr ⟨rfl,hs.unique hu ht⟩)⟩
  once {j j' u} hj hj' := by
    have hfresh : ∀ {k}, ¬ shown k t := by
      intro k hk
      obtain ⟨l,hl,hlt⟩ := (h.times t).mp ⟨k,hk⟩
      exact hs.increasing hl hlt ht (hrefl t)
    rcases (hshown j u).mp hj with hold | ⟨rfl,rfl⟩
    · rcases (hshown j' u).mp hj' with hold' | ⟨_,rfl⟩
      · exact h.once hold hold'
      · exact absurd hold hfresh
    · rcases (hshown j' u).mp hj' with hold' | ⟨rfl,_⟩
      · exact absurd hold' hfresh
      · rfl

end Enumerates

end Runs
