import Mathlib.Tactic.IntervalCases
import Mathlib.Tactic.Module
import Olivia.Core.OutcomeLaws
import Olivia.Secp256k1.Anticipated

/-! # What two attestations give away

Every digit of an event has one nonce. Two scalars for different indexes of one nonce are two
equations in the nonce and the key, and whoever sees both solves them.
-/
namespace Olivia
namespace Secp256k1
variable {F P : Type} [Field F] [AddCommGroup P] [Module F P]

/-- The key that two scalars for different indexes of one nonce have in common. -/
def commonKey (index index' : UInt32) (s s' : F) : F :=
  (((index'.toNat : F)+1)*s-((index.toNat : F)+1)*s')/((index'.toNat : F)-(index.toNat : F))

/-- The key from the first digit that differs. -/
def keyOfDigits : List UInt32 → List UInt32 → List F → List F → Option F
  | index :: indexes,index' :: indexes',s :: scalars,s' :: scalars' =>
    if index = index' then keyOfDigits indexes indexes' scalars scalars' else some (commonKey index index' s s')
  | _,_,_,_ => none

variable {E : Library F P} {signingKey : KeyPair E} {nonce : E.XOnly} {index index' : UInt32} {s s' : F}

theorem commonKey_eq [DecidableEq P] (hG : E.G ≠ 0) (hindex : (index.toNat : F) ≠ index'.toNat)
    (h : verifyAttestScalar E signingKey.xonly nonce index s = true)
    (h' : verifyAttestScalar E signingKey.xonly nonce index' s' = true) :
    commonKey index index' s s' = signingKey.scalar := by
  rw [verifyAttestScalar_eq_true] at h h'
  have hne : (index'.toNat : F)-index.toNat ≠ 0 := sub_ne_zero.mpr (Ne.symm hindex)
  -- the nonce is eliminated from the two equations
  have hpoint : (((index'.toNat : F)+1)*s-((index.toNat : F)+1)*s') • E.G =
      (((index'.toNat : F)-index.toNat)*signingKey.scalar) • E.G := by
    rw [sub_smul,mul_smul,mul_smul,h,h',mul_smul,← signingKey.toPoint_xonly]
    module
  rw [commonKey,div_eq_iff hne,mul_comm signingKey.scalar]
  exact (smul_left_inj hG).mp hpoint

/-- No event has more than three outcomes for a nonce. -/
theorem index_lt_three {k : EventKind} {value : UInt64} (hv : k.Admits value) (hi : index ∈ k.indexes value) :
    index.toNat < 3 := by
  have hsmall : ∀ n : UInt64, n.toNat ≤ 3 → value < n → value.toUInt32.toNat < 3 := by
    intro n hn hlt
    rw [UInt64.toNat_toUInt32]
    have := UInt64.lt_iff_toNat_lt.mp hlt
    omega
  cases k with
  | vsMatch kind =>
    obtain rfl := List.mem_singleton.mp hi
    cases kind with
    | winOrDraw => exact hsmall 3 (by decide) hv
    | win => exact hsmall 2 (by decide) hv
  | singleOccurrence =>
    obtain rfl := List.mem_singleton.mp hi
    exact hsmall 1 (by decide) hv
  | predicate inner predicate =>
    obtain rfl := List.mem_singleton.mp hi
    exact hsmall 2 (by decide) hv
  | price n =>
    have := UInt32.lt_iff_toNat_lt.mp (priceIndexes_lt hi)
    exact Nat.lt_succ_of_lt this

/-- Three different indexes are different scalars where two is not zero. -/
theorem cast_ne_of_lt_three (h2 : (2 : F) ≠ 0) {m n : ℕ} (hm : m < 3) (hn : n < 3) (hne : m ≠ n) : (m : F) ≠ n := by
  have h12 : (1 : F) ≠ 2 := by
    rw [← one_add_one_eq_two]
    exact fun h => one_ne_zero (left_eq_add.mp h)
  interval_cases m <;> interval_cases n <;> simp [h2,h2.symm,h12,h12.symm] at hne ⊢

section Digits
variable [DecidableEq P] {publicNonces : List E.XOnly} {scalars scalars' : List F} {indexes indexes' : List UInt32}

/-- Every digit verifies under the nonce and the scalar at its position. -/
def Verified (signingKey : KeyPair E) (publicNonces : List E.XOnly) (scalars : List F) (indexes : List UInt32) : Prop :=
  ∀ (j : ℕ) index, indexes[j]? = some index → ∃ nonce s, publicNonces[j]? = some nonce ∧ scalars[j]? = some s ∧
    verifyAttestScalar E signingKey.xonly nonce index s = true

theorem Verified.tail {s : F} (h : Verified signingKey (nonce :: publicNonces) (s :: scalars) (index :: indexes)) :
    Verified signingKey publicNonces scalars indexes := fun j => h (j+1)

theorem Verified.cons (h : Verified signingKey publicNonces scalars (index :: indexes)) :
    ∃ nonce publicNonces' s scalars', publicNonces = nonce :: publicNonces' ∧ scalars = s :: scalars' ∧
      verifyAttestScalar E signingKey.xonly nonce index s = true := by
  obtain ⟨nonce,s,hnonce,hs,hverify⟩ := h 0 index rfl
  cases publicNonces with
  | nil => cases hnonce
  | cons nonce' publicNonces =>
    cases scalars with
    | nil => cases hs
    | cons s' scalars =>
      obtain rfl := Option.some.inj hnonce
      obtain rfl := Option.some.inj hs
      exact ⟨_,_,_,_,rfl,rfl,hverify⟩

/-- The first digit that differs gives the key, and without one there is nothing to compute. -/
theorem keyOfDigits_eq (hG : E.G ≠ 0) (h2 : (2 : F) ≠ 0) (h : Verified signingKey publicNonces scalars indexes)
    (h' : Verified signingKey publicNonces scalars' indexes') (hlength : indexes.length = indexes'.length)
    (hlt : ∀ i ∈ indexes, i.toNat < 3) (hlt' : ∀ i ∈ indexes', i.toNat < 3) :
    keyOfDigits indexes indexes' scalars scalars' = if indexes = indexes' then none else some signingKey.scalar := by
  induction indexes generalizing publicNonces scalars scalars' indexes' with
  | nil =>
    obtain rfl := List.length_eq_zero_iff.mp hlength.symm
    rfl
  | cons index indexes ih =>
    cases indexes' with
    | nil => cases hlength
    | cons index' indexes' =>
      obtain ⟨nonce,publicNonces,s,scalars,rfl,rfl,hverify⟩ := h.cons
      obtain ⟨_,_,s',scalars',hnonces,rfl,hverify'⟩ := h'.cons
      obtain ⟨rfl,rfl⟩ := List.cons.inj hnonces
      obtain ⟨hi,hrest⟩ := List.forall_mem_cons.mp hlt
      obtain ⟨hi',hrest'⟩ := List.forall_mem_cons.mp hlt'
      rw [keyOfDigits]
      split
      next heq =>
        subst heq
        rw [ih h.tail h'.tail (Nat.succ.inj hlength) hrest hrest']
        simp
      next hne =>
        have hcast : (index.toNat : F) ≠ index'.toNat :=
          cast_ne_of_lt_three h2 hi hi' (fun h => hne (UInt32.toNat_inj.mp h))
        rw [commonKey_eq hG hcast hverify hverify',if_neg (by simp [hne])]

end Digits

end Secp256k1
end Olivia
