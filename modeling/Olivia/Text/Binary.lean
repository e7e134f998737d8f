import Mathlib.Data.Nat.Digits.Lemmas
import Mathlib.Data.Nat.Bitwise

/-! # Base-two digits of a fixed width

A width spells the numbers below a power of two. A number past them is brought to the
greatest one, whose digits are all ones.
-/
namespace Olivia.Text
variable {v w width : ℕ}

/-- The digits of a number, lowest first. -/
def bits (v width : ℕ) : List ℕ := (List.range width).map (fun i => (v.testBit i).toNat)

/-- The number that digits spell, highest first. -/
def bigEndian (digits : List ℕ) : ℕ := Nat.ofDigits 2 digits.reverse

def saturate (width v : ℕ) : ℕ := min v (2^width-1)

theorem ofDigits_bits (v width : ℕ) : Nat.ofDigits 2 (bits v width) = v % 2^width := by
  induction width with
  | zero => simp [bits,Nat.mod_one]
  | succ width ih =>
    have hsucc : bits v (width+1) = bits v width ++ [(v.testBit width).toNat] := by
      simp [bits,List.range_succ]
    have hlength : (bits v width).length = width := by simp [bits]
    rw [hsucc,Nat.ofDigits_append,ih,hlength,Nat.ofDigits_singleton,Nat.toNat_testBit,Nat.mod_pow_succ]

theorem saturate_lt (width v : ℕ) : saturate width v < 2^width := by
  have hpos : 0 < 2^width := Nat.two_pow_pos width
  have hle : saturate width v ≤ 2^width-1 := Nat.min_le_right _ _
  omega

/-- The digits of a saturated number, read back highest first. -/
theorem bigEndian_bits (width v : ℕ) : bigEndian (bits (saturate width v) width).reverse = saturate width v := by
  rw [bigEndian,List.reverse_reverse,ofDigits_bits,Nat.mod_eq_of_lt (saturate_lt width v)]

theorem saturate_eq (h : v < 2^width) : saturate width v = v := Nat.min_eq_left (by omega)

theorem saturate_le_saturate (width : ℕ) (h : v ≤ w) : saturate width v ≤ saturate width w :=
  Nat.le_min.mpr ⟨(Nat.min_le_left v _).trans h,Nat.min_le_right v _⟩

/-- The greatest number of a width is what is left of all ones shifted away above it. -/
theorem shiftRight_ones {total : ℕ} (h : width ≤ total) : (2^total-1) >>> (total-width) = 2^width-1 := by
  have hsplit : 2^total = 2^(total-width)*2^width := by rw [← pow_add,Nat.sub_add_cancel h]
  rw [Nat.shiftRight_eq_div_pow,hsplit,Nat.mul_sub_div 0 _ _ (by positivity),Nat.zero_div]

end Olivia.Text
