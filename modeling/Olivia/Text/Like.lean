import Olivia.Text.Wildcard

/-! # The patterns of LIKE

A pattern is a text: a percent sign stands for any text, an underscore for any character, a
backslash takes the meaning from the character behind it and everything else stands for
itself. A pattern that ends in a backslash is refused.
-/
namespace Text

/-- What a character stands for that is not the escape. -/
def pieceOf (c : Char) : Piece Char := if c = '%' then .many else if c = '_' then .single else .letter c

def likePieces : List Char → Option (List (Piece Char))
  | [] => some []
  | ['\\'] => none
  | '\\' :: c :: pattern => (likePieces pattern).map (.letter c :: ·)
  | c :: pattern => (likePieces pattern).map (pieceOf c :: ·)

/-- A pattern stands for the texts that it matches. -/
def Stands (pattern text : List Char) : Prop := ∃ pieces, likePieces pattern = some pieces ∧ wildMatch pieces text = true

instance (pattern text : List Char) : Decidable (Stands pattern text) :=
  decidable_of_iff ((likePieces pattern).any (wildMatch · text) = true) (by simp [Stands,Option.any_eq_true])

variable {a b text : List Char} {c : Char}

theorem likePieces_append (h : '\\' ∉ a) (b : List Char) :
    likePieces (a ++ b) = (likePieces b).map (a.map pieceOf ++ ·) := by
  induction a with
  | nil => simp
  | cons c a ih =>
    simp only [List.mem_cons,not_or] at h
    have hcons : likePieces (c :: (a ++ b)) = (likePieces (a ++ b)).map (pieceOf c :: ·) := by
      simp [likePieces,Ne.symm h.1]
    rw [List.cons_append,hcons,ih h.2,Option.map_map]
    rfl

/-- A pattern without an escape. -/
theorem stands_iff (h : '\\' ∉ a) : Stands a text ↔ wildMatch (a.map pieceOf) text = true := by
  have hpieces : likePieces a = some (a.map pieceOf) := by
    simpa [likePieces] using likePieces_append h []
  simp [Stands,hpieces]

theorem stands_append (h : '\\' ∉ a) : Stands (a ++ b) text ↔
    ∃ front rest, text = front ++ rest ∧ Stands a front ∧ Stands b rest := by
  simp only [stands_iff h]
  constructor
  · rintro ⟨pieces,hpieces,hmatch⟩
    rw [likePieces_append h] at hpieces
    obtain ⟨pieces,hb,rfl⟩ := Option.map_eq_some_iff.mp hpieces
    obtain ⟨front,rest,htext,hfront,hrest⟩ := wildMatch_append.mp hmatch
    exact ⟨front,rest,htext,hfront,pieces,hb,hrest⟩
  · rintro ⟨front,rest,htext,hfront,pieces,hb,hrest⟩
    refine ⟨a.map pieceOf ++ pieces,?_,wildMatch_append.mpr ⟨front,rest,htext,hfront,hrest⟩⟩
    rw [likePieces_append h,hb,Option.map_some]

/-- A text without wildcards and escapes. -/
def Plain (a : List Char) : Prop := '%' ∉ a ∧ '_' ∉ a ∧ '\\' ∉ a

instance (a : List Char) : Decidable (Plain a) := inferInstanceAs (Decidable (_ ∧ _))

theorem stands_plain (h : Plain a) : Stands a text ↔ text = a := by
  obtain ⟨hmany,hsingle,hescape⟩ := h
  have hletters : a.map pieceOf = a.map .letter := by
    refine List.map_congr_left (fun c hc => ?_)
    have hm : c ≠ '%' := fun h => hmany (h ▸ hc)
    have hs : c ≠ '_' := fun h => hsingle (h ▸ hc)
    rw [pieceOf,if_neg hm,if_neg hs]
  rw [stands_iff hescape,hletters,wildMatch_letters]

theorem stands_single : Stands ['_'] text ↔ ∃ c, text = [c] := by
  rw [stands_iff (by decide)]
  simp [pieceOf]

theorem stands_many (pattern : List Char) :
    Stands ('%' :: pattern) text ↔ ∃ rest, rest <:+ text ∧ Stands pattern rest := by
  have hmany : ∀ front, Stands ['%'] front := by
    intro front
    rw [stands_iff (by decide)]
    exact wildMatch_many.mpr ⟨[],List.nil_suffix,rfl⟩
  have hcut : Stands (['%'] ++ pattern) text ↔
      ∃ front rest, text = front ++ rest ∧ Stands ['%'] front ∧ Stands pattern rest := stands_append (by decide)
  rw [List.singleton_append] at hcut
  rw [hcut]
  constructor
  · rintro ⟨front,rest,rfl,_,hrest⟩
    exact ⟨rest,List.suffix_append _ _,hrest⟩
  · rintro ⟨rest,⟨front,rfl⟩,hrest⟩
    exact ⟨front,rest,rfl,hmany front,hrest⟩

theorem stands_plain_append (h : Plain a) : Stands (a ++ b) text ↔ ∃ rest, text = a ++ rest ∧ Stands b rest := by
  rw [stands_append h.2.2]
  simp only [stands_plain h]
  constructor
  · rintro ⟨_,rest,rfl,rfl,hrest⟩
    exact ⟨rest,rfl,hrest⟩
  · rintro ⟨rest,rfl,hrest⟩
    exact ⟨a,rest,rfl,rfl,hrest⟩

/-- A text without escapes stands for itself, whatever else it stands for. -/
theorem stands_self (h : '\\' ∉ a) : Stands a a := by
  induction a with
  | nil => decide
  | cons c a ih =>
    simp only [List.mem_cons,not_or] at h
    have hc : Stands [c] [c] := by
      rw [stands_iff (by simpa using h.1),List.map_singleton,pieceOf]
      split
      · exact wildMatch_many.mpr ⟨[],List.nil_suffix,rfl⟩
      split <;> simp
    exact (stands_append (a := [c]) (by simpa using h.1)).mpr ⟨[c],a,rfl,hc,ih h.2⟩

end Text
