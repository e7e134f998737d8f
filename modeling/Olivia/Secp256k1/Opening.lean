import Olivia.Secp256k1.Equivocation

/-! # Which points a scalar opens

A client holds one point for each outcome of a digit. These differ, as the nonce is not zero,
so a revealed scalar is the discrete logarithm of one of them only.
-/
namespace Olivia

/-- No nonce is announced for more than three outcomes. -/
theorem EventId.nOutcomesForNonce_le {id : EventId} {j : ℕ} {n : UInt32} (h : id.nOutcomesForNonce j = .ok n) :
    n.toNat ≤ 3 := by
  obtain ⟨k,_,h⟩ := MayPanic.bind_eq_ok.mp h
  rcases k with (_ | _) | _ | _ | _ <;> obtain rfl := Except.ok.inj h <;> decide

namespace Secp256k1
variable {F P : Type} [Field F] [AddCommGroup P] [Module F P] {E : Library F P}
variable {signingKey nonceKey : KeyPair E} {nOutcomes index : UInt32}

/-- A scalar opens a point that is its multiple of the generator. -/
def Opens (E : Library F P) (points : List P) (s : F) (i : ℕ) : Prop := points[i]? = some (s • E.G)

/-- A nonce is made from a scalar that is not zero, and at most negated. -/
theorem nonce_scalar_ne [DecidableEq F] (hnegate : ∀ r, (E.fromScalarMul r).scalar = r ∨ (E.fromScalarMul r).scalar = -r)
    {bytes : List UInt8} (h : nonceKeypairFromSecretBytes E bytes = .ok nonceKey) : nonceKey.scalar ≠ 0 := by
  obtain ⟨r,_,h⟩ := MayPanic.bind_eq_ok.mp h
  obtain ⟨r',hr',h⟩ := MayPanic.bind_eq_ok.mp h
  obtain rfl := Except.ok.inj h
  have hne : r' ≠ 0 := by
    rintro rfl
    by_cases hzero : r = 0
    · simp [hzero,MayPanic.expect] at hr'
    · simp only [hzero,if_false,MayPanic.expect_some,Except.ok.injEq] at hr'
  rcases hnegate r' with hkept | hnegated
  · rwa [hkept]
  · rwa [hnegated,neg_ne_zero]

/-- The scalar that is revealed for an index opens the point of this index only. -/
theorem opens_iff (hG : E.G ≠ 0) (h2 : (2 : F) ≠ 0) (hnonce : nonceKey.scalar ≠ 0) (hn : nOutcomes.toNat ≤ 3)
    (h : index < nOutcomes) (i : ℕ) :
    Opens E (anticipateAttestations E signingKey.xonly nonceKey.xonly nOutcomes)
      (revealAttestScalar E signingKey nonceKey index) i ↔ i = index.toNat := by
  have hpoint : E.toPoint nonceKey.xonly ≠ 0 := by
    rw [nonceKey.toPoint_xonly]
    exact smul_ne_zero hnonce hG
  constructor
  · intro hopens
    have hlt : i < nOutcomes.toNat := by
      rw [← length_anticipateAttestations E signingKey.xonly nonceKey.xonly]
      exact (List.getElem?_eq_some_iff.mp hopens).1
    have hi : (UInt32.ofNat i).toNat = i := UInt32.toNat_ofNat_of_lt' (hlt.trans (UInt32.toNat_lt nOutcomes))
    have hat := getElem?_anticipateAttestations E signingKey.xonly nonceKey.xonly
      (UInt32.lt_iff_toNat_lt.mpr (hi.symm ▸ hlt))
    rw [hi] at hat
    have heq := Option.some.inj (hat.symm.trans hopens)
    rw [revealAttestScalar_smul,add_left_inj,smul_left_inj hpoint,add_left_inj] at heq
    by_contra hne
    exact cast_ne_of_lt_three h2 (hlt.trans_le hn) ((UInt32.lt_iff_toNat_lt.mp h).trans_le hn) hne heq
  · rintro rfl
    exact anticipated_eq_revealed E signingKey nonceKey h

end Secp256k1
end Olivia
