import Mathlib.Data.List.Basic

/-! # Percent-encoding

A byte is written as a percent sign and two hexadecimal digits, or as the character it is, and
read back from either. A percent sign that no digits follow is read as itself.
-/
namespace Text
namespace Percent

def hexValue (c : Char) : Option ℕ :=
  if '0' ≤ c ∧ c ≤ '9' then some (c.toNat-48)
  else if 'a' ≤ c ∧ c ≤ 'f' then some (c.toNat-87)
  else if 'A' ≤ c ∧ c ≤ 'F' then some (c.toNat-55)
  else none

def decode : List Char → List UInt8
  | '%' :: a :: b :: rest =>
    match hexValue a,hexValue b with
    | some high,some low => UInt8.ofNat (16*high+low) :: decode rest
    | _,_ => String.utf8EncodeChar '%' ++ decode (a :: b :: rest)
  | c :: rest => String.utf8EncodeChar c ++ decode rest
  | [] => []

/-- Letters, digits and slashes are written as they are. -/
def isPlain (b : UInt8) : Bool :=
  b.toNat < 128 && ((Char.ofNat b.toNat).isAlphanum || Char.ofNat b.toNat == '/')

def encodeByte (b : UInt8) : List Char :=
  if isPlain b then [Char.ofNat b.toNat]
  else ['%',Nat.digitChar (b.toNat/16),Nat.digitChar (b.toNat%16)]

theorem hexValue_digitChar : ∀ n < 16, hexValue (Nat.digitChar n) = some n := by decide

theorem utf8EncodeChar_ascii : ∀ n < 128, String.utf8EncodeChar (Char.ofNat n) = [UInt8.ofNat n] := by decide

theorem decode_of_ne {c : Char} (h : c ≠ '%') (rest : List Char) :
    decode (c :: rest) = String.utf8EncodeChar c ++ decode rest := by
  rw [decode.eq_def]
  split
  next he => exact absurd (List.cons.inj he).1 h
  next he =>
    obtain ⟨rfl,rfl⟩ := List.cons.inj he
    rfl
  next he => cases he

theorem decode_encodeByte (b : UInt8) (rest : List Char) : decode (encodeByte b ++ rest) = b :: decode rest := by
  unfold encodeByte
  split
  next h =>
    obtain ⟨hascii,hplain⟩ := (Bool.and_eq_true _ _).mp h
    have hne : Char.ofNat b.toNat ≠ '%' := by
      intro hpercent
      rw [hpercent] at hplain
      revert hplain
      decide
    rw [List.singleton_append,decode_of_ne hne,utf8EncodeChar_ascii b.toNat (of_decide_eq_true hascii),
      UInt8.ofNat_toNat,List.singleton_append]
  next =>
    have hlt := b.toNat_lt
    have hb : UInt8.ofNat (16*(b.toNat/16)+b.toNat%16) = b := by
      rw [Nat.div_add_mod,UInt8.ofNat_toNat]
    simp only [List.cons_append,List.nil_append,decode,hexValue_digitChar (b.toNat/16) (by omega),
      hexValue_digitChar (b.toNat%16) (by omega),hb]

/-- Bytes that were written are read back. -/
theorem decode_flatMap_encodeByte (bytes : List UInt8) : decode (bytes.flatMap encodeByte) = bytes := by
  induction bytes with
  | nil => rfl
  | cons b bytes ih => rw [List.flatMap_cons,decode_encodeByte,ih]

end Percent
end Text
