import Olivia.Core.Primitives
import Olivia.Text.Hex

/-! # Objects of a fixed length

Keys, nonces, scalars, signatures and seeds are bytes of a fixed length. As texts they are
hexadecimal, in binary formats a sequence of bytes, and in the database a byte string. One
macro implements each of these for all of them.
-/
namespace Olivia

inductive HexError
  | invalidHex
  | invalidLength
  | invalidEncoding
  deriving DecidableEq

def hexVal (c : UInt8) : Except HexError UInt8 :=
  if 65 ≤ c ∧ c ≤ 70 then .ok (c-65+10)
  else if 97 ≤ c ∧ c ≤ 102 then .ok (c-97+10)
  else if 48 ≤ c ∧ c ≤ 57 then .ok (c-48)
  else .error .invalidHex

/-- `[u8]::chunks(2)`. -/
def chunks : List UInt8 → List (List UInt8)
  | a :: b :: bytes => [a,b] :: chunks bytes
  | [a] => [[a]]
  | [] => []

/-- What a format says of a value that it cannot read. -/
inductive DeError
  | invalidLength (n : ℕ) (expected : Str)
  | invalidValue (unexpected expected : Str)
  | invalidType (expected : Str)
  | custom (message : Str)
  deriving DecidableEq

/-- A value in a format for humans, or in one for machines. -/
inductive Serialized
  | str (text : Str)
  | tuple (seq : List (Except DeError UInt8))

/-- `write!(f, "{:02x}", byte)` for every byte. -/
def hexText (bytes : List UInt8) : Str :=
  bytes.flatMap (fun byte => [Nat.digitChar (byte.toNat/16),Nat.digitChar (byte.toNat%16)])

/-- What the macros are given of a type. -/
structure GroupObject (α : Type) where
  name : Str
  len : ℕ
  toBytes : α → Vector UInt8 len
  fromBytes : Vector UInt8 len → Option α

namespace GroupObject
variable {α : Type} (object : GroupObject α)

/-- The loop of `from_str` over the pairs of digits. -/
def fillHex {len : ℕ} (buf : Vector UInt8 len) (i : ℕ) : List (List UInt8) →
    MayPanic (Except HexError (Vector UInt8 len))
  | [] => .ok (.ok buf)
  | hexByte :: rest => do
    match hexVal (← MayPanic.index hexByte 0) with
    | .error e => return .error e
    | .ok high =>
      match hexVal (← MayPanic.index hexByte 1) with
      | .error e => return .error e
      | .ok low => if h : i < len then fillHex (buf.set i (high <<< 4 ||| low) h) (i+1) rest else .error .outOfBounds

def fromStr (hex : Str) : MayPanic (Except HexError α) := do
  if (asBytes hex).length % 2 = 1 then return .error .invalidHex
  else if object.len*2 ≠ (asBytes hex).length then return .error .invalidLength
  else
    match ← fillHex (Vector.replicate object.len 0) 0 (chunks (asBytes hex)) with
    | .error e => return .error e
    | .ok buf =>
      match object.fromBytes buf with
      | some a => return .ok a
      | none => return .error .invalidEncoding

def display (a : α) : Str := hexText (object.toBytes a).toList

def expectingHex : Str :=
  "a valid ".toList ++ Text.decimal object.len ++ "-byte hex encoded ".toList ++ object.name

def expectingBytes : Str :=
  "a valid ".toList ++ Text.decimal object.len ++ "-byte encoding of a ".toList ++ object.name

def visitStr (v : Str) : MayPanic (Except DeError α) := do
  match ← object.fromStr v with
  | .ok a => return .ok a
  | .error .invalidLength => return .error (.invalidLength ((asBytes v).length/2) object.expectingHex)
  | .error .invalidEncoding => return .error (.invalidValue v object.expectingHex)
  | .error .invalidHex => return .error (.custom "invalid hex".toList)

/-- The loop of `visit_seq`, which leaves what comes after the last byte. -/
def fillSeq {len : ℕ} (expecting : Str) (buf : Vector UInt8 len) (i : ℕ) : List (Except DeError UInt8) →
    Except DeError (Vector UInt8 len)
  | [] => if i < len then .error (.invalidLength i expecting) else .ok buf
  | next :: seq => if h : i < len then do fillSeq expecting (buf.set i (← next) h) (i+1) seq else .ok buf

def visitSeq (seq : List (Except DeError UInt8)) : Except DeError α := do
  let input ← fillSeq object.expectingBytes (Vector.replicate object.len 0) 0 seq
  match object.fromBytes input with
  | some a => return a
  | none => .error (.custom ("invalid byte encoding, expected ".toList ++ object.expectingBytes))

def serialize (isHumanReadable : Bool) (a : α) : Serialized :=
  if isHumanReadable then .str (hexText (object.toBytes a).toList)
  else .tuple ((object.toBytes a).toList.map .ok)

/-- A visitor takes what the format was asked for. -/
def deserialize (isHumanReadable : Bool) : Serialized → MayPanic (Except DeError α)
  | .str v => if isHumanReadable then object.visitStr v else return .error (.invalidType object.expectingBytes)
  | .tuple seq => if isHumanReadable then return .error (.invalidType object.expectingHex) else return object.visitSeq seq

def toSql (a : α) : List UInt8 := (object.toBytes a).toList

def fromSql (raw : List UInt8) : Except Str α :=
  if h : raw.length = object.len then
    match object.fromBytes ⟨raw.toArray,by simpa using h⟩ with
    | some a => .ok a
    | none => .error ("invalid encoding of a ".toList ++ object.name)
  else .error ("wrong length for ".toList ++ object.name ++ ", expected ".toList ++ Text.decimal object.len ++
    " got ".toList ++ Text.decimal raw.length)

/-- Every value has one encoding. -/
structure Canonical (object : GroupObject α) : Prop where
  fromBytes_toBytes : ∀ a, object.fromBytes (object.toBytes a) = some a
  toBytes_of_fromBytes : ∀ {bytes a}, object.fromBytes bytes = some a → object.toBytes a = bytes

variable {object} {len : ℕ}

theorem hexVal_eq (c : UInt8) : hexVal c = (Text.Hex.value c).elim (.error .invalidHex) .ok := by
  unfold hexVal Text.Hex.value
  split
  next => rfl
  next =>
    split
    next => rfl
    next => split <;> rfl

theorem utf8EncodeChar_digitChar {n : UInt8} (h : n < 16) :
    String.utf8EncodeChar (Nat.digitChar n.toNat) = [Text.Hex.digit n] := by
  have hall : ∀ m < 16, String.utf8EncodeChar (Nat.digitChar (UInt8.ofNat m).toNat) =
      [Text.Hex.digit (UInt8.ofNat m)] := by decide
  have hn := hall n.toNat (UInt8.lt_iff_toNat_lt.mp h)
  rwa [UInt8.ofNat_toNat] at hn

theorem asBytes_hexText (bytes : List UInt8) : asBytes (hexText bytes) = Text.Hex.print bytes := by
  induction bytes with
  | nil => rfl
  | cons b bytes ih =>
    obtain ⟨hhigh,hlow⟩ := Text.Hex.halves_lt b
    have hdiv : (b >>> 4).toNat = b.toNat/16 := by
      rw [UInt8.toNat_shiftRight]
      exact Nat.shiftRight_eq_div_pow ..
    have hmod : (b &&& 15).toNat = b.toNat%16 := by
      rw [UInt8.toNat_and]
      exact Nat.and_two_pow_sub_one_eq_mod b.toNat 4
    have hhead := utf8EncodeChar_digitChar hhigh
    have hnext := utf8EncodeChar_digitChar hlow
    rw [hdiv] at hhead
    rw [hmod] at hnext
    rw [Text.Hex.print_cons,← ih,hexText,asBytes,List.flatMap_cons,List.flatMap_append,List.flatMap_cons,
      List.flatMap_cons,hhead,hnext]
    rfl

/-- A text spells bytes up to the case of its letters. -/
theorem parse_eq_some {text : Str} {bytes : List UInt8} :
    Text.Hex.parse (asBytes text) = some bytes ↔ text.map Char.toLower = hexText bytes := by
  have hlower : (asBytes text).map Text.Hex.lower = asBytes (text.map Char.toLower) := by
    rw [asBytes,asBytes,List.map_flatMap,List.flatMap_map]
    exact congrArg (List.flatMap · text) (funext Text.Hex.map_lower_utf8EncodeChar)
  rw [Text.Hex.parse_eq_some,hlower,← asBytes_hexText]
  constructor
  · intro h
    apply Option.some.inj
    rw [← fromUtf8_asBytes,← fromUtf8_asBytes,h]
  · rintro h
    rw [h]

theorem take_set (buf : Vector UInt8 len) {i : ℕ} (h : i < len) (b : UInt8) :
    (buf.set i b h).toList.take (i+1) = buf.toList.take i ++ [b] := by
  rw [Vector.toList_set,List.take_add_one,List.take_set_of_le (Nat.le_refl i),List.getElem?_set_self]
  · rfl
  · rwa [Vector.length_toList]

theorem lower_display (object : GroupObject α) (a : α) : (object.display a).map Char.toLower = object.display a :=
  parse_eq_some.mp (by rw [display,asBytes_hexText,Text.Hex.parse_print])

/-- The loop sets one byte for every two digits, and ends where there is none. -/
theorem fillHex_chunks (buf : Vector UInt8 len) {i n : ℕ} {bytes : List UInt8} (hlength : bytes.length = 2*n)
    (hi : i+n = len) : (Text.Hex.parse bytes = none ∧ fillHex buf i (chunks bytes) = .ok (.error .invalidHex)) ∨
      ∃ values buf', Text.Hex.parse bytes = some values ∧ fillHex buf i (chunks bytes) = .ok (.ok buf') ∧
        buf'.toList = buf.toList.take i ++ values := by
  induction n generalizing i bytes buf with
  | zero =>
    obtain rfl := List.length_eq_zero_iff.mp hlength
    refine Or.inr ⟨[],buf,rfl,rfl,?_⟩
    rw [List.take_of_length_le (by rw [Vector.length_toList]; omega),List.append_nil]
  | succ n ih =>
    match bytes,hlength with
    | a :: b :: bytes,hlength =>
      have hrest : bytes.length = 2*n := by
        rw [List.length_cons,List.length_cons] at hlength
        omega
      simp only [chunks,fillHex,MayPanic.index,List.getElem?_cons_zero,List.getElem?_cons_succ,MayPanic.ok_bind,hexVal_eq]
      cases ha : Text.Hex.value a with
      | none => exact Or.inl ⟨by simp [Text.Hex.parse,ha],rfl⟩
      | some high =>
        cases hb : Text.Hex.value b with
        | none => exact Or.inl ⟨by simp [Text.Hex.parse,hb],rfl⟩
        | some low =>
          have hlt : i < len := by omega
          simp only [Option.elim_some,dif_pos hlt]
          have hnext : i+1+n = len := by omega
          rcases ih (buf.set i (high <<< 4 ||| low) hlt) hrest hnext with
            ⟨hnone,hfill⟩ | ⟨values,buf',hsome,hfill,hbuf⟩
          · exact Or.inl ⟨by simp [Text.Hex.parse,hnone],hfill⟩
          · refine Or.inr ⟨(high <<< 4 ||| low) :: values,buf',by simp [Text.Hex.parse,ha,hb,hsome],hfill,?_⟩
            rw [hbuf,take_set,List.append_assoc,List.singleton_append]

/-- The text is the bytes in hexadecimal, in letters of any case. -/
def Spells (text : Str) (buf : Vector UInt8 len) : Prop := text.map Char.toLower = hexText buf.toList

theorem spells_iff {text : Str} {buf : Vector UInt8 len} :
    Spells text buf ↔ Text.Hex.parse (asBytes text) = some buf.toList := parse_eq_some.symm

theorem Spells.unique {text : Str} {buf buf' : Vector UInt8 len} (h : Spells text buf) (h' : Spells text buf') :
    buf = buf' :=
  Vector.toList_inj.mp (Option.some.inj ((spells_iff.mp h).symm.trans (spells_iff.mp h')))

theorem Spells.length {text : Str} {buf : Vector UInt8 len} (h : Spells text buf) : (asBytes text).length = len*2 := by
  have hlower := congrArg List.length (Text.Hex.parse_eq_some.mp (spells_iff.mp h))
  rw [List.length_map,Text.Hex.length_print,Vector.length_toList] at hlower
  omega

/-- What the text is read as, with the reason. -/
theorem fromStr_cases (object : GroupObject α) (text : Str) :
    ((asBytes text).length % 2 = 1 ∧ object.fromStr text = .ok (.error .invalidHex)) ∨
    ((asBytes text).length % 2 = 0 ∧ (asBytes text).length ≠ object.len*2 ∧
      object.fromStr text = .ok (.error .invalidLength)) ∨
    ((asBytes text).length = object.len*2 ∧ Text.Hex.parse (asBytes text) = none ∧
      object.fromStr text = .ok (.error .invalidHex)) ∨
    ∃ buf : Vector UInt8 object.len, Spells text buf ∧
      object.fromStr text = .ok ((object.fromBytes buf).elim (.error .invalidEncoding) .ok) := by
  by_cases hodd : (asBytes text).length % 2 = 1
  · exact Or.inl ⟨hodd,by rw [fromStr,if_pos hodd]; rfl⟩
  · by_cases hlength : object.len*2 = (asBytes text).length
    · refine Or.inr (Or.inr ?_)
      rcases fillHex_chunks (Vector.replicate object.len 0) (hlength.symm.trans (Nat.mul_comm ..)) (Nat.zero_add _) with
        ⟨hnone,hfill⟩ | ⟨values,buf,hsome,hfill,hbuf⟩
      · exact Or.inl ⟨hlength.symm,hnone,by simp [fromStr,hodd,hlength,hfill]⟩
      · rw [List.take_zero,List.nil_append] at hbuf
        refine Or.inr ⟨buf,spells_iff.mpr (hbuf ▸ hsome),?_⟩
        cases hfrom : object.fromBytes buf with
        | none => simp [fromStr,hodd,hlength,hfill,hfrom]
        | some a => simp [fromStr,hodd,hlength,hfill,hfrom]
    · exact Or.inr (Or.inl ⟨by omega,fun he => hlength he.symm,by simp [fromStr,hodd,hlength]⟩)

theorem exists_no_digit {text : Str} (hlength : (asBytes text).length = object.len*2) :
    Text.Hex.parse (asBytes text) = none ↔ ∃ b ∈ asBytes text, Text.Hex.value b = none := by
  have hsome := Text.Hex.parse_isSome_iff (asBytes text)
  rw [and_iff_right (by omega)] at hsome
  rw [← Option.not_isSome_iff_eq_none,hsome]
  push Not
  simp only [Option.not_isSome_iff_eq_none]

/-- Any text is read, as the value of this text in lower case, or is refused for its length, for a digit
or for its bytes. -/
theorem fromStr_spec (h : object.Canonical) (text : Str) : ∃ r, object.fromStr text = .ok r ∧
    (∀ a, r = .ok a ↔ text.map Char.toLower = object.display a) ∧
    (r = .error .invalidEncoding ↔
      ∃ buf : Vector UInt8 object.len, Spells text buf ∧ object.fromBytes buf = none) ∧
    (r = .error .invalidLength ↔ (asBytes text).length % 2 = 0 ∧ (asBytes text).length ≠ object.len*2) ∧
    (r = .error .invalidHex ↔ (asBytes text).length % 2 = 1 ∨
      (asBytes text).length = object.len*2 ∧ ∃ b ∈ asBytes text, Text.Hex.value b = none) := by
  have hrefused : ∀ e, e ≠ .invalidEncoding → (∀ buf : Vector UInt8 object.len, ¬ Spells text buf) →
      (∀ a, (.error e : Except HexError α) = .ok a ↔ text.map Char.toLower = object.display a) ∧
      ((.error e : Except HexError α) = .error .invalidEncoding ↔
        ∃ buf : Vector UInt8 object.len, Spells text buf ∧ object.fromBytes buf = none) := by
    intro e he hno
    refine ⟨fun a => ⟨fun hr => ?_,fun ha => absurd ha (hno (object.toBytes a))⟩,fun hr => absurd (Except.error.inj hr) he,
      fun ⟨buf,hbuf,_⟩ => absurd hbuf (hno buf)⟩
    cases hr
  rcases fromStr_cases object text with ⟨hodd,hr⟩ | ⟨heven,hne,hr⟩ | ⟨hlength,hnone,hr⟩ | ⟨buf,hbuf,hr⟩
  · obtain ⟨hok,hencoding⟩ := hrefused .invalidHex (by decide) (fun buf hbuf => by have := hbuf.length; omega)
    exact ⟨_,hr,hok,hencoding,by simp [hodd],by simp [hodd]⟩
  · obtain ⟨hok,hencoding⟩ := hrefused .invalidLength (by decide) (fun buf hbuf => hne hbuf.length)
    exact ⟨_,hr,hok,hencoding,by simp [heven,hne],by simp [heven,hne]⟩
  · obtain ⟨hok,hencoding⟩ := hrefused .invalidHex (by decide)
      (fun buf hbuf => by cases hnone.symm.trans (spells_iff.mp hbuf))
    exact ⟨_,hr,hok,hencoding,by simp [hlength],by simp [hlength,(exists_no_digit hlength).mp hnone]⟩
  · have hlength := hbuf.length
    have hdigits : ¬ ∃ b ∈ asBytes text, Text.Hex.value b = none := by
      rw [← exists_no_digit hlength,spells_iff.mp hbuf]
      simp
    refine ⟨_,hr,?_,?_,?_,?_⟩
    · intro a
      constructor
      · intro ha
        cases hfrom : object.fromBytes buf with
        | none =>
          rw [hfrom] at ha
          cases ha
        | some a' =>
          rw [hfrom] at ha
          obtain rfl := Except.ok.inj ha
          have hbytes : object.toBytes a' = buf := h.toBytes_of_fromBytes hfrom
          rw [display,hbytes]
          exact hbuf
      · intro ha
        have hbytes : buf = object.toBytes a := hbuf.unique ha
        rw [hbytes,h.fromBytes_toBytes]
        rfl
    · constructor
      · intro he
        cases hfrom : object.fromBytes buf with
        | none => exact ⟨buf,hbuf,hfrom⟩
        | some a =>
          rw [hfrom] at he
          cases he
      · rintro ⟨buf',hbuf',hfrom⟩
        rw [hbuf.unique hbuf',hfrom]
        rfl
    · cases object.fromBytes buf <;> simp [hlength]
    · cases object.fromBytes buf <;> simp [hlength,hdigits]

section Sampled

/-- Bytes of which the largest encode nothing. -/
def sampleObject : GroupObject {b : UInt8 // b < 200} where
  name := "number below two hundred".toList
  len := 1
  toBytes b := #v[b.val]
  fromBytes bytes := if h : bytes[0] < 200 then some ⟨bytes[0],h⟩ else none

theorem sampleObject_canonical : sampleObject.Canonical where
  fromBytes_toBytes b := dif_pos b.property
  toBytes_of_fromBytes {bytes b} h := by
    have hb : b.val = bytes[0] := by
      change (if h : bytes[0] < 200 then some _ else none) = some b at h
      split at h
      next => exact congrArg Subtype.val (Option.some.inj h).symm
      next => cases h
    refine Vector.ext (fun i hi => ?_)
    obtain rfl : i = 0 := by
      change i < 1 at hi
      omega
    exact hb

/-- The same number in letters of either case, and a byte that is none. -/
theorem fromStr_spec_number : sampleObject.fromStr "aB".toList = .ok (.ok ⟨171,by decide⟩) ∧
    sampleObject.fromStr "fF".toList = .ok (.error .invalidEncoding) := by
  obtain ⟨r,hr,hok,_⟩ := fromStr_spec sampleObject_canonical "aB".toList
  obtain ⟨r',hr',_,hencoding,_⟩ := fromStr_spec sampleObject_canonical "fF".toList
  obtain rfl := (hok ⟨171,by decide⟩).mpr (by decide +kernel)
  obtain rfl := hencoding.mpr ⟨#v[255],spells_iff.mpr (by decide +kernel),by decide +kernel⟩
  exact ⟨hr,hr'⟩

end Sampled

/-- The loop takes one byte for every place that is left. -/
theorem fillSeq_eq_ok {expecting : Str} {buf buf' : Vector UInt8 len} {i n : ℕ} {seq : List (Except DeError UInt8)}
    (hi : i+n = len) : fillSeq expecting buf i seq = .ok buf' ↔ ∃ values rest, values.length = n ∧
      seq = values.map .ok ++ rest ∧ buf'.toList = buf.toList.take i ++ values := by
  induction n generalizing buf i seq with
  | zero =>
    have hstop : fillSeq expecting buf i seq = .ok buf := by
      have hlt : ¬ i < len := by omega
      cases seq <;> simp [fillSeq,hlt]
    have htake : buf.toList.take i = buf.toList := List.take_of_length_le (by rw [Vector.length_toList]; omega)
    rw [hstop,htake]
    constructor
    · intro he
      obtain rfl := Except.ok.inj he
      exact ⟨[],seq,rfl,rfl,(List.append_nil _).symm⟩
    · rintro ⟨values,rest,hlength,_,hbuf⟩
      obtain rfl := List.length_eq_zero_iff.mp hlength
      rw [List.append_nil] at hbuf
      rw [Vector.toList_inj.mp hbuf]
  | succ n ih =>
    have hlt : i < len := by omega
    have hnext : i+1+n = len := by omega
    rcases seq with _ | ⟨e | b,seq⟩
    · simp [fillSeq,hlt]
    · constructor
      · intro he
        rw [fillSeq,dif_pos hlt] at he
        cases he
      · rintro ⟨_ | ⟨v,values⟩,rest,hlength,hseq,_⟩
        · cases hlength
        · cases hseq
    · have hstep : fillSeq expecting buf i (.ok b :: seq) = fillSeq expecting (buf.set i b hlt) (i+1) seq := by
        rw [fillSeq,dif_pos hlt]
        rfl
      rw [hstep,ih hnext,take_set]
      constructor
      · rintro ⟨values,rest,hlength,rfl,hbuf⟩
        exact ⟨b :: values,rest,by rw [List.length_cons,hlength],rfl,by rw [hbuf,List.append_assoc,List.singleton_append]⟩
      · rintro ⟨_ | ⟨v,values⟩,rest,hlength,hseq,hbuf⟩
        · cases hlength
        · obtain ⟨hv,hrest⟩ := List.cons.inj hseq
          obtain rfl := Except.ok.inj hv
          exact ⟨values,rest,Nat.succ.inj hlength,hrest,by rw [hbuf,List.append_assoc,List.singleton_append]⟩

theorem visitSeq_eq_ok (h : object.Canonical) {seq : List (Except DeError UInt8)} {a : α} :
    object.visitSeq seq = .ok a ↔ ∃ rest, seq = (object.toBytes a).toList.map .ok ++ rest := by
  have hfill : ∀ input : Vector UInt8 object.len,
      fillSeq object.expectingBytes (Vector.replicate object.len 0) 0 seq = .ok input ↔
        ∃ rest, seq = input.toList.map .ok ++ rest := by
    intro input
    rw [fillSeq_eq_ok (Nat.zero_add object.len)]
    constructor
    · rintro ⟨values,rest,_,hseq,hvalues⟩
      rw [List.take_zero,List.nil_append] at hvalues
      exact ⟨rest,hvalues ▸ hseq⟩
    · rintro ⟨rest,hseq⟩
      exact ⟨input.toList,rest,Vector.length_toList,hseq,rfl⟩
  constructor
  · intro hv
    obtain ⟨input,hinput,hv⟩ := MayPanic.bind_eq_ok.mp hv
    cases hfrom : object.fromBytes input with
    | none =>
      rw [hfrom] at hv
      cases hv
    | some a' =>
      rw [hfrom] at hv
      obtain rfl := Except.ok.inj hv
      rw [h.toBytes_of_fromBytes hfrom]
      exact (hfill input).mp hinput
  · intro hseq
    rw [visitSeq,(hfill _).mpr hseq,MayPanic.ok_bind,h.fromBytes_toBytes]
    rfl

theorem fromSql_eq_ok (h : object.Canonical) {raw : List UInt8} {a : α} :
    object.fromSql raw = .ok a ↔ raw = object.toSql a := by
  constructor
  · intro hr
    unfold fromSql at hr
    split at hr
    next hlength =>
      split at hr
      next a' hfrom =>
        obtain rfl := Except.ok.inj hr
        rw [toSql,h.toBytes_of_fromBytes hfrom]
        rfl
      next => cases hr
    next => cases hr
  · rintro rfl
    have hlength : (object.toSql a).length = object.len := Vector.length_toList
    have hbytes : (⟨(object.toSql a).toArray,by simpa using hlength⟩ : Vector UInt8 object.len) = object.toBytes a := rfl
    rw [fromSql,dif_pos hlength,hbytes,h.fromBytes_toBytes]

theorem visitStr_eq_ok (h : object.Canonical) {v : Str} {a : α} :
    object.visitStr v = .ok (.ok a) ↔ v.map Char.toLower = object.display a := by
  obtain ⟨r,hr,hok,_⟩ := fromStr_spec h v
  rw [← hok,visitStr,hr,MayPanic.ok_bind]
  rcases r with (_ | _ | _) | a' <;> simp

/-- The three transports of a value take what is written of it, and nothing else but letters of the other
case and what comes after a sequence. -/
theorem transports (h : object.Canonical) (a : α) :
    (∀ text, object.deserialize true (.str text) = .ok (.ok a) ↔ text.map Char.toLower = object.display a) ∧
    (∀ seq, object.deserialize false (.tuple seq) = .ok (.ok a) ↔
      ∃ rest, seq = (object.toBytes a).toList.map .ok ++ rest) ∧
    (∀ raw, object.fromSql raw = .ok a ↔ raw = object.toSql a) ∧
    ∀ isHumanReadable, object.deserialize isHumanReadable (object.serialize isHumanReadable a) = .ok (.ok a) := by
  have hstr : ∀ text, object.deserialize true (.str text) = .ok (.ok a) ↔ text.map Char.toLower = object.display a :=
    fun text => visitStr_eq_ok h
  have hseq : ∀ seq, object.deserialize false (.tuple seq) = .ok (.ok a) ↔
      ∃ rest, seq = (object.toBytes a).toList.map .ok ++ rest := by
    intro seq
    rw [← visitSeq_eq_ok h]
    exact ⟨fun he => Except.ok.inj he,fun he => congrArg Except.ok he⟩
  refine ⟨hstr,hseq,fun raw => fromSql_eq_ok h,?_⟩
  intro isHumanReadable
  cases isHumanReadable with
  | false => exact (hseq _).mpr ⟨[],(List.append_nil _).symm⟩
  | true => exact (hstr _).mpr (lower_display object a)

theorem transports_number : sampleObject.deserialize true (.str "aB".toList) = .ok (.ok ⟨171,by decide⟩) ∧
    sampleObject.deserialize false (.tuple [.ok 171]) = .ok (.ok ⟨171,by decide⟩) ∧ sampleObject.fromSql [171] = .ok ⟨171,by decide⟩ := by
  obtain ⟨hstr,hseq,hsql,_⟩ := transports sampleObject_canonical ⟨171,by decide⟩
  exact ⟨(hstr _).mpr (by decide +kernel),(hseq _).mpr ⟨[],by decide +kernel⟩,(hsql _).mpr (by decide +kernel)⟩

end GroupObject
end Olivia
