import Mathlib.Data.List.Basic

/-! # Texts that commute

Two texts can be put in either order where they are repetitions of one text, and nowhere
else: the shorter one begins the longer, and what is left commutes again.
-/
namespace Olivia.Text
variable {α : Type}

def repeated (n : ℕ) (l : List α) : List α := (List.replicate n l).flatten

theorem repeated_one (l : List α) : repeated 1 l = l := by simp [repeated]

theorem repeated_add (m n : ℕ) (l : List α) : repeated (m+n) l = repeated m l ++ repeated n l := by
  rw [repeated,repeated,repeated,List.replicate_add,List.flatten_append]

/-- Both are repetitions of one text. -/
def SameRepeated (u v : List α) : Prop := ∃ word m n, u = repeated m word ∧ v = repeated n word

theorem SameRepeated.symm {u v : List α} (h : SameRepeated u v) : SameRepeated v u := by
  obtain ⟨word,m,n,hu,hv⟩ := h
  exact ⟨word,n,m,hv,hu⟩

theorem SameRepeated.append_left {u v : List α} (h : SameRepeated u v) : SameRepeated u (u ++ v) := by
  obtain ⟨word,m,n,rfl,rfl⟩ := h
  exact ⟨word,m,m+n,rfl,(repeated_add m n word).symm⟩

theorem sameRepeated_nil (u : List α) : SameRepeated [] u := ⟨u,0,1,rfl,(repeated_one u).symm⟩

/-- By induction on what both have together: the longer text is the shorter one and a rest. -/
theorem sameRepeated_of_append_comm {u v : List α} (h : u ++ v = v ++ u) : SameRepeated u v := by
  by_cases hu : u = []
  · exact hu ▸ sameRepeated_nil v
  · by_cases hv : v = []
    · exact hv ▸ (sameRepeated_nil u).symm
    · have hupos := List.length_pos_iff.mpr hu
      have hvpos := List.length_pos_iff.mpr hv
      rcases List.append_eq_append_iff.mp h with ⟨rest,rfl,hcomm⟩ | ⟨rest,rfl,hcomm⟩
      · have hlt : u.length+rest.length < u.length+(u ++ rest).length := by
          rw [List.length_append]
          omega
        exact (sameRepeated_of_append_comm hcomm).append_left
      · have hlt : v.length+rest.length < (v ++ rest).length+v.length := by
          rw [List.length_append]
          omega
        exact (sameRepeated_of_append_comm hcomm).append_left.symm
termination_by u.length+v.length

theorem append_comm_iff {u v : List α} : u ++ v = v ++ u ↔ SameRepeated u v := by
  constructor
  · exact sameRepeated_of_append_comm
  · rintro ⟨word,m,n,rfl,rfl⟩
    rw [← repeated_add,← repeated_add,Nat.add_comm]

end Olivia.Text
