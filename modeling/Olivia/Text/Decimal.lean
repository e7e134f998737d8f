import Mathlib.Data.List.Basic
import Mathlib.Data.List.Induction

/-! # Decimal texts of bounded numbers

The reader of an unsigned machine integer takes an optional plus sign and then digits,
leading zeros included, and refuses a value that does not fit. The printer writes the one
text without sign and leading zeros; the reader undoes it, and it undoes the reader on the
texts that are not padded.
-/
namespace Text

/-- The unsigned number below `bound` a text spells. -/
def parseUnsigned (bound : ℕ) (text : List Char) : Option ℕ :=
  let digits := match text with
    | '+' :: rest => rest
    | _ => text
  if digits ≠ [] ∧ digits.all Char.isDigit ∧ Nat.ofDigitChars 10 digits 0 < bound
  then some (Nat.ofDigitChars 10 digits 0) else none

def decimal (n : ℕ) : List Char := Nat.toDigits 10 n

theorem isDigit_of_mem_decimal {n : ℕ} {c : Char} (h : c ∈ decimal n) : c.isDigit :=
  Nat.isDigit_of_mem_toDigits (by decide) (by decide) h

theorem decimal_ne_nil (n : ℕ) : decimal n ≠ [] := Nat.toDigits_ne_nil

theorem parseUnsigned_decimal {bound n : ℕ} (h : n < bound) :
    parseUnsigned bound (decimal n) = some n := by
  have hsign : ∀ rest, decimal n ≠ '+' :: rest := by
    intro rest he
    have := isDigit_of_mem_decimal (n := n) (c := '+') (by simp [he])
    simp at this
  have hdigits : (decimal n).all Char.isDigit :=
    List.all_eq_true.mpr (fun c hc => isDigit_of_mem_decimal hc)
  have hvalue : Nat.ofDigitChars 10 (decimal n) 0 = n := Nat.ofDigitChars_ten_toDigits
  unfold parseUnsigned
  split
  next rest he => exact absurd he (hsign rest)
  next => simp [decimal_ne_nil,hdigits,hvalue,h]

/-- Only digits and a leading plus sign can be read. -/
theorem isDigit_of_parseUnsigned {bound n : ℕ} {text : List Char}
    (h : parseUnsigned bound text = some n) {c : Char} (hc : c ∈ text) : c = '+' ∨ c.isDigit := by
  simp only [parseUnsigned,Option.ite_none_right_eq_some] at h
  obtain ⟨⟨_,hall,_⟩,_⟩ := h
  split at hall
  next rest =>
    rcases List.mem_cons.mp hc with rfl | hc
    · exact Or.inl rfl
    · exact Or.inr (List.all_eq_true.mp hall c hc)
  next => exact Or.inr (List.all_eq_true.mp hall c hc)

theorem lt_of_parseUnsigned {bound n : ℕ} {text : List Char} (h : parseUnsigned bound text = some n) :
    n < bound := by
  simp only [parseUnsigned,Option.ite_none_right_eq_some] at h
  obtain ⟨⟨_,_,hlt⟩,hn⟩ := h
  exact Option.some.inj hn ▸ hlt

/-- A numeral with a sign or a needless leading zero. -/
def Padded (text : List Char) : Prop :=
  text.head? = some '+' ∨ (text.head? = some '0' ∧ 2 ≤ text.length)

instance (text : List Char) : Decidable (Padded text) := inferInstanceAs (Decidable (_ ∨ _))

theorem decimal_head_ne_zero {n : ℕ} (h : 0 < n) : (decimal n).head? ≠ some '0' := by
  induction n using Nat.base_induction 10 (by decide) with
  | single m hm =>
    rw [decimal,Nat.toDigits_of_lt_base hm]
    simpa using Nat.pos_iff_ne_zero.mp h
  | digit m k hk hm ih =>
    rw [decimal,← Nat.toDigits_append_toDigits (by decide) hm hk,List.head?_append_of_ne_nil _ Nat.toDigits_ne_nil]
    exact ih hm

theorem not_padded_decimal (n : ℕ) : ¬ Padded (decimal n) := by
  rintro (hplus | ⟨hzero,hlength⟩)
  · have hdigit := isDigit_of_mem_decimal (List.mem_of_head? hplus)
    simp at hdigit
  · rcases Nat.eq_zero_or_pos n with rfl | hpos
    · simp [decimal] at hlength
    · exact decimal_head_ne_zero hpos hzero

theorem digitChar_of_isDigit {c : Char} (h : c.isDigit) : (c.toNat-48).digitChar = c ∧ c.toNat-48 < 10 := by
  simp only [Char.isDigit,Bool.and_eq_true,decide_eq_true_eq] at h
  obtain ⟨hlow,hhigh⟩ := h
  have hlow : 48 ≤ c.toNat := UInt32.le_iff_toNat_le.mp hlow
  have hhigh : c.toNat ≤ 57 := UInt32.le_iff_toNat_le.mp hhigh
  have hlt : c.toNat-48 < 10 := by omega
  refine ⟨Char.toNat_inj.mp ?_,hlt⟩
  rw [Nat.toNat_digitChar_of_lt_ten hlt]
  omega

theorem Padded.append {digits : List Char} (h : Padded digits) (rest : List Char) : Padded (digits ++ rest) := by
  have hne : digits ≠ [] := by
    rintro rfl
    simp [Padded] at h
  rw [Padded,List.head?_append_of_ne_nil _ hne]
  rcases h with hplus | ⟨hzero,hlength⟩
  · exact Or.inl hplus
  · exact Or.inr ⟨hzero,by simp only [List.length_append]; omega⟩

/-- Digits without a needless zero in front are what the printer writes for their value. -/
theorem decimal_ofDigitChars {digits : List Char} (hne : digits ≠ []) (hdigits : ∀ c ∈ digits, c.isDigit)
    (hpadded : ¬ Padded digits) : decimal (Nat.ofDigitChars 10 digits 0) = digits := by
  induction digits using List.reverseRecOn with
  | nil => exact absurd rfl hne
  | append_singleton digits c ih =>
    obtain ⟨hc,hlt⟩ := digitChar_of_isDigit (hdigits c (by simp))
    have hvalue : Nat.ofDigitChars 10 (digits ++ [c]) 0 = 10 * Nat.ofDigitChars 10 digits 0 + (c.toNat-48) := by
      rw [Nat.ofDigitChars_append,Nat.ofDigitChars_cons,Nat.ofDigitChars_nil]
      rfl
    rcases List.eq_nil_or_concat digits with rfl | ⟨_,_,hconcat⟩
    · rw [hvalue,Nat.ofDigitChars_nil,Nat.mul_zero,Nat.zero_add,decimal,Nat.toDigits_of_lt_base hlt,hc,List.nil_append]
    · have hprefix : digits ≠ [] := by simp [hconcat]
      have hdecimal : decimal (Nat.ofDigitChars 10 digits 0) = digits :=
        ih hprefix (fun d hd => hdigits d (by simp [hd])) (fun h => hpadded (h.append [c]))
      have hpos : 0 < Nat.ofDigitChars 10 digits 0 := by
        refine Nat.pos_iff_ne_zero.mpr (fun hzero => ?_)
        rw [hzero] at hdecimal
        refine hpadded (Or.inr ⟨?_,?_⟩)
        · rw [← hdecimal]; rfl
        · rw [← hdecimal]; simp [decimal]
      calc decimal (Nat.ofDigitChars 10 (digits ++ [c]) 0)
          = Nat.toDigits 10 (Nat.ofDigitChars 10 digits 0) ++ Nat.toDigits 10 (c.toNat-48) := by
            rw [hvalue,decimal,Nat.toDigits_append_toDigits (by decide) hpos hlt]
        _ = digits ++ [c] := by
            rw [Nat.toDigits_of_lt_base hlt,hc]
            exact congrArg (· ++ [c]) hdecimal

/-- The reader undoes the printer exactly on the numerals without padding. -/
theorem decimal_eq_iff {bound n : ℕ} {text : List Char} (h : parseUnsigned bound text = some n) :
    decimal n = text ↔ ¬ Padded text := by
  constructor
  · rintro rfl
    exact not_padded_decimal n
  · intro hpadded
    simp only [parseUnsigned,Option.ite_none_right_eq_some] at h
    split at h
    next => exact absurd (Or.inl rfl) hpadded
    next =>
      obtain ⟨⟨hne,hall,_⟩,hn⟩ := h
      exact Option.some.inj hn ▸ decimal_ofDigitChars hne (List.all_eq_true.mp hall) hpadded

end Text
