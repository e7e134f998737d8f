import Olivia.Core.OutcomeLaws
import Olivia.Text.Binary

/-! # The digits of a price

A price is attested digit by digit, one digit for each nonce of its event. A price that the
digits of its event cannot spell is attested as the greatest one that they can.
-/
namespace Olivia

/-- `a - b` of `u32` where overflow is checked. -/
def checkedSub (a b : UInt32) : Option UInt32 := if b ≤ a then some (a-b) else none

/-- `n << shift` of `u64` where overflow is checked. -/
def checkedShl (n : UInt64) (shift : ℕ) : Option UInt64 :=
  if shift < 64 then some (n <<< UInt64.ofNat shift) else none

/-- The digits of a price as a build that checks every operation computes them. -/
def checkedPriceIndexes (nDigits : UInt8) (value : UInt64) : Option (List UInt32) := do
  let shift ← checkedSub 64 nDigits.toUInt32
  let cap := (checkedShr 18446744073709551615 shift.toNat).getD 0
  let value := min value cap
  let digits ← (List.range nDigits.toNat).mapM (fun i => do
    let mask ← checkedShl 1 i
    return if value &&& mask ≠ 0 then 1 else 0)
  return digits.reverse

section
variable {nDigits : UInt8} {v w value : UInt64}

theorem mapM_eq_some {α β : Type} {f : α → Option β} {g : α → β} {l : List α} (h : ∀ a ∈ l, f a = some (g a)) :
    l.mapM f = some (l.map g) := by
  induction l with
  | nil => rfl
  | cons a l ih =>
    obtain ⟨ha,hl⟩ := List.forall_mem_cons.mp h
    rw [List.mapM_cons,ha,ih hl]
    rfl

theorem and_shiftLeft_ne_zero (value : UInt64) {i : ℕ} (h : i < 64) :
    value &&& (1 <<< UInt64.ofNat i) ≠ 0 ↔ value.toNat.testBit i := by
  have hmask : (1 <<< UInt64.ofNat i : UInt64).toNat = 2^i := by
    have hlt : 2^i < 2^64 := Nat.pow_lt_pow_right (by decide) h
    have hi : i % 18446744073709551616 % 64 = i := by omega
    simpa [UInt64.toNat_shiftLeft,Nat.shiftLeft_eq,hi] using hlt
  rw [ne_eq,← UInt64.toNat_inj,UInt64.toNat_and,hmask,Nat.and_two_pow]
  cases value.toNat.testBit i <;> simp

/-- No digits leave nothing to shift, which is what the fallback of the checked shift is for. -/
theorem toNat_cap (h : nDigits ≤ 64) :
    ((checkedShr 18446744073709551615 (64-nDigits.toNat)).getD 0).toNat = 2^nDigits.toNat-1 := by
  have hle : nDigits.toNat ≤ 64 := UInt8.le_iff_toNat_le.mp h
  by_cases hzero : nDigits.toNat = 0
  · simp [checkedShr,hzero]
  · have hlt : 64-nDigits.toNat < 64 := by omega
    have hmod : (64-nDigits.toNat) % 18446744073709551616 % 64 = 64-nDigits.toNat := by omega
    have hones := Text.shiftRight_ones hle
    simpa [checkedShr,hlt,UInt64.toNat_shiftRight,hmod] using hones

/-- The digits of a price are those of the price brought to their width, highest first. -/
theorem toNat_priceIndexes (h : nDigits ≤ 64) (value : UInt64) : (priceIndexes nDigits value).map UInt32.toNat =
    (Text.bits (Text.saturate nDigits.toNat value.toNat) nDigits.toNat).reverse := by
  have hle : nDigits.toNat ≤ 64 := UInt8.le_iff_toNat_le.mp h
  have hmin : (min value ((checkedShr 18446744073709551615 (64-nDigits.toNat)).getD 0)).toNat =
      Text.saturate nDigits.toNat value.toNat := by
    rw [Text.saturate,← toNat_cap h,← UInt64.toNat_min]
  simp only [priceIndexes,List.map_reverse,Text.bits,List.map_map]
  congr 1
  refine List.map_congr_left ?_
  intro i hi
  have hlt : i < 64 := (List.mem_range.mp hi).trans_le hle
  simp only [Function.comp_apply,and_shiftLeft_ne_zero _ hlt,hmin]
  cases (Text.saturate nDigits.toNat value.toNat).testBit i <;> rfl

/-- Reading the digits back gives the price, or the greatest price of their width. -/
theorem bigEndian_priceIndexes (h : nDigits ≤ 64) (value : UInt64) :
    Text.bigEndian ((priceIndexes nDigits value).map UInt32.toNat) = Text.saturate nDigits.toNat value.toNat := by
  rw [toNat_priceIndexes h,Text.bigEndian_bits]

/-- With at most 64 digits no operation overflows. -/
theorem checkedPriceIndexes_eq (h : nDigits ≤ 64) (value : UInt64) :
    checkedPriceIndexes nDigits value = some (priceIndexes nDigits value) := by
  have hle : nDigits.toNat ≤ 64 := UInt8.le_iff_toNat_le.mp h
  have hsub : checkedSub 64 nDigits.toUInt32 = some (64-nDigits.toUInt32) :=
    if_pos (UInt32.le_iff_toNat_le.mpr (by simpa using hle))
  have hshift : (64-nDigits.toUInt32).toNat = 64-nDigits.toNat := by
    rw [UInt32.toNat_sub_of_le _ _ (UInt32.le_iff_toNat_le.mpr (by simpa using hle))]
    simp
  have hdigits : ∀ cap : UInt64, (List.range nDigits.toNat).mapM (fun i => do
      let mask ← checkedShl 1 i
      return if min value cap &&& mask ≠ 0 then (1 : UInt32) else 0) =
      some ((List.range nDigits.toNat).map (fun i => if min value cap &&& (1 <<< UInt64.ofNat i) ≠ 0 then 1 else 0)) := by
    intro cap
    refine mapM_eq_some ?_
    intro i hi
    have hlt : i < 64 := (List.mem_range.mp hi).trans_le hle
    simp [checkedShl,hlt]
  rw [checkedPriceIndexes,hsub,Option.bind_eq_bind,Option.bind_some,hshift]
  dsimp only
  rw [hdigits]
  rfl

theorem priceIndexes_injective (h : nDigits ≤ 64) (hv : v.toNat < 2^nDigits.toNat)
    (hw : w.toNat < 2^nDigits.toNat) (he : priceIndexes nDigits v = priceIndexes nDigits w) : v = w := by
  have hread := bigEndian_priceIndexes h v
  rw [he,bigEndian_priceIndexes h w] at hread
  rw [Text.saturate_eq hw,Text.saturate_eq hv] at hread
  exact UInt64.toNat_inj.mp hread.symm

end

/-- The digits of a price, read highest first. -/
def Outcome.bigEndian (o : Outcome) : MayPanic ℕ :=
  return Text.bigEndian ((← o.attestationIndexes).map UInt32.toNat)

namespace EventId
variable {id : EventId} {nDigits : UInt8}

/-- A price is revealed as a number of the width of its event, capped at the greatest of them. -/
theorem price_digits (hk : id.eventKind = .ok (.price nDigits)) : nDigits ≤ 64 ∧
    (∀ value, ∃ digits, Outcome.attestationIndexes ⟨id,value⟩ = .ok digits ∧
      checkedPriceIndexes nDigits value = some digits ∧ digits.length = nDigits.toNat ∧
      (∀ digit ∈ digits, digit = 0 ∨ digit = 1) ∧
      Outcome.bigEndian ⟨id,value⟩ = .ok (min value.toNat (2^nDigits.toNat-1))) ∧
    (∀ v w : UInt64, v.toNat < 2^nDigits.toNat → w.toNat < 2^nDigits.toNat →
      Outcome.attestationIndexes ⟨id,v⟩ = Outcome.attestationIndexes ⟨id,w⟩ → v = w) ∧
    ∀ v w : UInt64, v ≤ w → ∃ a b, Outcome.bigEndian ⟨id,v⟩ = .ok a ∧ Outcome.bigEndian ⟨id,w⟩ = .ok b ∧ a ≤ b := by
  have hle : nDigits ≤ 64 := nNonces_le hk
  have hindexes : ∀ value, Outcome.attestationIndexes ⟨id,value⟩ = .ok (priceIndexes nDigits value) := by
    intro value
    simp [Outcome.attestationIndexes,hk]
  have hread : ∀ value : UInt64, Outcome.bigEndian ⟨id,value⟩ = .ok (min value.toNat (2^nDigits.toNat-1)) := by
    intro value
    simp [Outcome.bigEndian,hindexes,bigEndian_priceIndexes hle,Text.saturate]
  refine ⟨hle,?_,?_,?_⟩
  · intro value
    have hbinary : ∀ digit ∈ priceIndexes nDigits value, digit = 0 ∨ digit = 1 := by
      intro digit hdigit
      have hlt := priceIndexes_lt hdigit
      grind
    exact ⟨_,hindexes value,checkedPriceIndexes_eq hle value,length_priceIndexes nDigits value,hbinary,hread value⟩
  · intro v w hv hw he
    rw [hindexes,hindexes] at he
    exact priceIndexes_injective hle hv hw (Except.ok.inj he)
  · intro v w hvw
    exact ⟨_,_,hread v,hread w,Text.saturate_le_saturate nDigits.toNat (UInt64.le_iff_toNat_le.mp hvw)⟩

theorem price_digits_at_full_width : ∃ digits,
    Outcome.attestationIndexes ⟨⟨⟨"/foo/bar.price?n=64".toList⟩⟩,18446744073709551614⟩ = .ok digits ∧
      digits.length = 64 := by
  have hk : eventKind ⟨⟨"/foo/bar.price?n=64".toList⟩⟩ = .ok (.price 64) := by decide +kernel
  obtain ⟨digits,hdigits,_,hlength,_⟩ := (price_digits hk).2.1 18446744073709551614
  exact ⟨digits,hdigits,hlength⟩

end EventId
end Olivia
