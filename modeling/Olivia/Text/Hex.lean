import Mathlib.Data.List.Basic

/-! # Hexadecimal texts

A byte is written as two digits. A text of digits spells bytes, and of all texts that spell the
same bytes one is in lower case.
-/
namespace Text
namespace Hex

def digit (n : UInt8) : UInt8 := if n < 10 then n+48 else n+87

def value (c : UInt8) : Option UInt8 :=
  if 65 ≤ c ∧ c ≤ 70 then some (c-65+10)
  else if 97 ≤ c ∧ c ≤ 102 then some (c-97+10)
  else if 48 ≤ c ∧ c ≤ 57 then some (c-48)
  else none

/-- The letter in lower case, anything else as it is. -/
def lower (c : UInt8) : UInt8 := if 65 ≤ c ∧ c ≤ 90 then c+32 else c

def print (bytes : List UInt8) : List UInt8 := bytes.flatMap (fun b : UInt8 => [digit (b >>> 4),digit (b &&& 15)])

def parse : List UInt8 → Option (List UInt8)
  | a :: b :: text => do return ((← value a) <<< 4 ||| (← value b)) :: (← parse text)
  | [_] => none
  | [] => some []

/-- What has to be looked up of a byte: as a digit in either case, and in its two halves. -/
def byteChecked (c : UInt8) : Bool :=
  value (lower c) = value c && (value c).all (fun v => v < 16 && lower c == digit v) &&
    c >>> 4 < 16 && c &&& 15 < 16 && c >>> 4 <<< 4 ||| c &&& 15 == c

theorem byteChecked_eq (c : UInt8) : byteChecked c = true := by
  have hall : (List.range 256).all (fun n => byteChecked (UInt8.ofNat n)) = true := by decide +kernel
  have hc := List.all_eq_true.mp hall c.toNat (List.mem_range.mpr c.toNat_lt)
  rwa [UInt8.ofNat_toNat] at hc

theorem value_lower (c : UInt8) : value (lower c) = value c := by
  have hc := byteChecked_eq c
  simp only [byteChecked,Bool.and_eq_true,decide_eq_true_iff] at hc
  exact hc.1.1.1.1

theorem digit_of_value {c v : UInt8} (h : value c = some v) : v < 16 ∧ lower c = digit v := by
  have hc := byteChecked_eq c
  simp only [byteChecked,Bool.and_eq_true,h,Option.all_some,decide_eq_true_iff,beq_iff_eq] at hc
  exact hc.1.1.1.2

theorem halves_lt (b : UInt8) : b >>> 4 < 16 ∧ b &&& 15 < 16 := by
  have hb := byteChecked_eq b
  simp only [byteChecked,Bool.and_eq_true,decide_eq_true_iff] at hb
  exact ⟨hb.1.1.2,hb.1.2⟩

theorem join_split (b : UInt8) : b >>> 4 <<< 4 ||| b &&& 15 = b := by
  have hb := byteChecked_eq b
  simp only [byteChecked,Bool.and_eq_true,beq_iff_eq] at hb
  exact hb.2

theorem digit_spec {n : UInt8} (h : n < 16) : value (digit n) = some n ∧ lower (digit n) = digit n := by
  have hall : ∀ m < 16, value (digit (UInt8.ofNat m)) = some (UInt8.ofNat m) ∧
      lower (digit (UInt8.ofNat m)) = digit (UInt8.ofNat m) := by decide
  have hn := hall n.toNat (UInt8.lt_iff_toNat_lt.mp h)
  rwa [UInt8.ofNat_toNat] at hn

theorem split_join {high low : UInt8} (hh : high < 16) (hl : low < 16) :
    (high <<< 4 ||| low) >>> 4 = high ∧ (high <<< 4 ||| low) &&& 15 = low := by
  have hall : ∀ m < 16, ∀ n < 16,
      (UInt8.ofNat m <<< 4 ||| UInt8.ofNat n) >>> 4 = UInt8.ofNat m ∧
      (UInt8.ofNat m <<< 4 ||| UInt8.ofNat n) &&& 15 = UInt8.ofNat n := by decide +kernel
  have hboth := hall high.toNat (UInt8.lt_iff_toNat_lt.mp hh) low.toNat (UInt8.lt_iff_toNat_lt.mp hl)
  rwa [UInt8.ofNat_toNat,UInt8.ofNat_toNat] at hboth

theorem print_cons (b : UInt8) (bytes : List UInt8) :
    print (b :: bytes) = digit (b >>> 4) :: digit (b &&& 15) :: print bytes := rfl

@[simp] theorem length_print (bytes : List UInt8) : (print bytes).length = 2*bytes.length := by
  induction bytes with
  | nil => rfl
  | cons b bytes ih =>
    rw [print_cons,List.length_cons,List.length_cons,ih,List.length_cons]
    omega

theorem parse_eq_of_lower {text : List UInt8} {bytes : List UInt8} (h : text.map lower = print bytes) :
    parse text = some bytes := by
  induction bytes generalizing text with
  | nil =>
    obtain rfl : text = [] := List.map_eq_nil_iff.mp h
    rfl
  | cons b bytes ih =>
    obtain ⟨a,rest,rfl,ha,h⟩ := List.map_eq_cons_iff.mp h
    obtain ⟨a',text,rfl,ha',h⟩ := List.map_eq_cons_iff.mp h
    have hhigh : value a = some (b >>> 4) := by rw [← value_lower,ha,(digit_spec (halves_lt b).1).1]
    have hlow : value a' = some (b &&& 15) := by rw [← value_lower,ha',(digit_spec (halves_lt b).2).1]
    simp [parse,hhigh,hlow,ih h,join_split]

theorem lower_of_parse {text bytes : List UInt8} (h : parse text = some bytes) : text.map lower = print bytes := by
  induction text using parse.induct generalizing bytes with
  | case1 a b text ih =>
    obtain ⟨high,hhigh,h⟩ := Option.bind_eq_some_iff.mp h
    obtain ⟨low,hlow,h⟩ := Option.bind_eq_some_iff.mp h
    obtain ⟨rest,hrest,h⟩ := Option.bind_eq_some_iff.mp h
    obtain rfl := Option.some.inj h
    obtain ⟨hh,ha⟩ := digit_of_value hhigh
    obtain ⟨hl,hb⟩ := digit_of_value hlow
    obtain ⟨hsplit,hsplit'⟩ := split_join hh hl
    rw [List.map_cons,List.map_cons,ih hrest,ha,hb,print_cons,hsplit,hsplit']
  | case2 a => cases h
  | case3 =>
    obtain rfl := Option.some.inj h
    rfl

/-- A text spells the bytes that it is in lower case the writing of. -/
theorem parse_eq_some {text bytes : List UInt8} : parse text = some bytes ↔ text.map lower = print bytes :=
  ⟨lower_of_parse,parse_eq_of_lower⟩

theorem map_lower_print (bytes : List UInt8) : (print bytes).map lower = print bytes := by
  induction bytes with
  | nil => rfl
  | cons b bytes ih =>
    rw [print_cons,List.map_cons,List.map_cons,ih,(digit_spec (halves_lt b).1).2,(digit_spec (halves_lt b).2).2]

@[simp] theorem parse_print (bytes : List UInt8) : parse (print bytes) = some bytes :=
  parse_eq_of_lower (map_lower_print bytes)

/-- A text spells something where it is of even length and all digits. -/
theorem parse_isSome_iff (text : List UInt8) :
    (parse text).isSome ↔ text.length % 2 = 0 ∧ ∀ c ∈ text, (value c).isSome := by
  induction text using parse.induct with
  | case1 a b text ih =>
    have hlength : (a :: b :: text).length % 2 = text.length % 2 := by
      rw [List.length_cons,List.length_cons]
      omega
    rw [hlength,List.forall_mem_cons,List.forall_mem_cons]
    cases ha : value a with
    | none => simp [parse,ha]
    | some high =>
      cases hb : value b with
      | none => simp [parse,hb]
      | some low =>
        have hparse : (parse (a :: b :: text)).isSome = (parse text).isSome := by
          cases hrest : parse text <;> simp [parse,ha,hb,hrest]
        rw [hparse,ih]
        simp
  | case2 a => simp [parse]
  | case3 => simp [parse]

theorem lower_of_le {b : UInt8} (h : 128 ≤ b.toNat) : lower b = b := by
  refine if_neg (fun hb => ?_)
  have hle := UInt8.le_iff_toNat_le.mp hb.2
  have hbound : (90 : UInt8).toNat = 90 := rfl
  omega

theorem utf8EncodeChar_bytes {c : Char} (hc : 127 < c.toNat) : ∀ b ∈ String.utf8EncodeChar c, 128 ≤ b.toNat := by
  have hv : ¬ c.val.toNat ≤ 0x7f := Nat.not_le.mpr hc
  intro b hb
  unfold String.utf8EncodeChar at hb
  rw [if_neg hv] at hb
  split at hb
  · simp only [List.mem_cons,List.not_mem_nil,or_false] at hb
    rcases hb with rfl | rfl <;> simp only [UInt8.toNat_ofNat'] <;> omega
  · split at hb
    · simp only [List.mem_cons,List.not_mem_nil,or_false] at hb
      rcases hb with rfl | rfl | rfl <;> simp only [UInt8.toNat_ofNat'] <;> omega
    · simp only [List.mem_cons,List.not_mem_nil,or_false] at hb
      rcases hb with rfl | rfl | rfl | rfl <;> simp only [UInt8.toNat_ofNat'] <;> omega

/-- A character in lower case is its bytes in lower case. -/
theorem map_lower_utf8EncodeChar (c : Char) :
    (String.utf8EncodeChar c).map lower = String.utf8EncodeChar c.toLower := by
  by_cases hc : c.toNat < 128
  · have hall : ∀ n < 128, (String.utf8EncodeChar (Char.ofNat n)).map lower =
        String.utf8EncodeChar (Char.ofNat n).toLower := by decide +kernel
    have h := hall c.toNat hc
    rwa [Char.ofNat_toNat] at h
  · have hlower : c.toLower = c := by
      refine dif_neg (fun h => hc ?_)
      have hle : c.val.toNat ≤ ('Z').val.toNat := h.2
      have hbound : ('Z').val.toNat = 90 := rfl
      change c.val.toNat < 128
      omega
    rw [hlower,List.map_congr_left (fun b hb => lower_of_le (utf8EncodeChar_bytes (by omega) b hb)),List.map_id']

end Hex
end Text
