import Mathlib.Data.List.Infix

/-! # Patterns with wildcards

A pattern is a list of pieces: a letter stands for itself, one wildcard for any single letter
and the other for any number of them. Nothing depends on the alphabet, so that the letters
can be characters of a text or labels of a path.
-/
namespace Text

inductive Piece (α : Type*)
  | letter (a : α)
  | single
  | many
  deriving DecidableEq

variable {α : Type*} [DecidableEq α]

/-- A piece for any number of letters tries every end of the list. -/
def wildMatch : List (Piece α) → List α → Bool
  | [],l => l.isEmpty
  | .letter a :: pattern,b :: l => a = b && wildMatch pattern l
  | .letter _ :: _,[] => false
  | .single :: pattern,_ :: l => wildMatch pattern l
  | .single :: _,[] => false
  | .many :: pattern,l => l.tails.any (wildMatch pattern)

variable {pattern before : List (Piece α)} {a : α} {l : List α}

@[simp] theorem wildMatch_nil : wildMatch [] l = true ↔ l = [] := by simp [wildMatch]

@[simp] theorem wildMatch_letter : wildMatch (.letter a :: pattern) l = true ↔
    ∃ r, l = a :: r ∧ wildMatch pattern r = true := by
  cases l with
  | nil => simp [wildMatch]
  | cons b l =>
    simp only [wildMatch,Bool.and_eq_true,decide_eq_true_eq,List.cons.injEq]
    constructor
    · rintro ⟨rfl,h⟩
      exact ⟨l,⟨rfl,rfl⟩,h⟩
    · rintro ⟨r,⟨rfl,rfl⟩,h⟩
      exact ⟨rfl,h⟩

@[simp] theorem wildMatch_single : wildMatch (.single :: pattern) l = true ↔
    ∃ b r, l = b :: r ∧ wildMatch pattern r = true := by
  cases l with
  | nil => simp [wildMatch]
  | cons b l => simp [wildMatch]

@[simp] theorem wildMatch_many : wildMatch (.many :: pattern) l = true ↔
    ∃ r, r <:+ l ∧ wildMatch pattern r = true := by
  simp only [wildMatch,List.any_eq_true,List.mem_tails]

/-- A pattern without wildcards stands for its letters. -/
theorem wildMatch_letters {letters : List α} : wildMatch (letters.map .letter) l = true ↔ l = letters := by
  induction letters generalizing l with
  | nil => simp
  | cons a letters ih => simp [ih]

/-- Two patterns behind each other cut the list in two. -/
theorem wildMatch_append : wildMatch (before ++ pattern) l = true ↔
    ∃ front rest, l = front ++ rest ∧ wildMatch before front = true ∧ wildMatch pattern rest = true := by
  induction before generalizing l with
  | nil => simp
  | cons piece before ih =>
    rw [List.cons_append]
    cases piece with
    | letter a =>
      simp only [wildMatch_letter,ih]
      constructor
      · rintro ⟨_,rfl,front,rest,rfl,hfront,hrest⟩
        exact ⟨a :: front,rest,rfl,⟨front,rfl,hfront⟩,hrest⟩
      · rintro ⟨_,rest,rfl,⟨front,rfl,hfront⟩,hrest⟩
        exact ⟨front ++ rest,rfl,front,rest,rfl,hfront,hrest⟩
    | single =>
      simp only [wildMatch_single,ih]
      constructor
      · rintro ⟨b,_,rfl,front,rest,rfl,hfront,hrest⟩
        exact ⟨b :: front,rest,rfl,⟨b,front,rfl,hfront⟩,hrest⟩
      · rintro ⟨_,rest,rfl,⟨b,front,rfl,hfront⟩,hrest⟩
        exact ⟨b,front ++ rest,rfl,front,rest,rfl,hfront,hrest⟩
    | many =>
      simp only [wildMatch_many,ih]
      constructor
      · rintro ⟨_,⟨skipped,rfl⟩,front,rest,rfl,hfront,hrest⟩
        exact ⟨skipped ++ front,rest,by simp,⟨front,List.suffix_append _ _,hfront⟩,hrest⟩
      · rintro ⟨_,rest,rfl,⟨front,⟨skipped,rfl⟩,hfront⟩,hrest⟩
        exact ⟨front ++ rest,⟨skipped,by simp⟩,front,rest,rfl,hfront,hrest⟩

end Text
