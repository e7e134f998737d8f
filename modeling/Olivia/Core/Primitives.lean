import Olivia.Text.Split
import Olivia.Text.Decimal

/-! # Texts, panics and machine integers of the source

A `str` is its list of characters, and its bytes are their UTF-8 encodings in order. A
computation that the source can abort with `expect`, `unwrap`, `assert!` or an index out of
range returns the panic instead, outside of the `Result` it may compute.
-/
namespace Olivia

abbrev Str := List Char

def asBytes (s : Str) : List UInt8 := s.flatMap String.utf8EncodeChar

/-- `String::from_utf8`. -/
def fromUtf8 (bytes : List UInt8) : Option Str := bytes.toByteArray.utf8Decode?.map Array.toList

@[simp] theorem fromUtf8_asBytes (s : Str) : fromUtf8 (asBytes s) = some s := by
  have h := List.utf8Decode?_utf8Encode (l := s)
  simp only [fromUtf8,asBytes]
  rw [List.utf8Encode] at h
  simp [h]

/-- How the source aborts; `expect` keeps the message it prints. -/
inductive Panic
  | expect (message : String)
  | unwrap
  | assertion
  | outOfBounds
  deriving DecidableEq

abbrev MayPanic (α : Type) := Except Panic α

namespace MayPanic
variable {ε α β : Type}

@[simp] theorem ok_bind (a : α) (f : α → Except ε β) : (Except.ok a >>= f) = f a := rfl
@[simp] theorem error_bind (e : ε) (f : α → Except ε β) : (Except.error e >>= f) = .error e := rfl
@[simp] theorem pure_eq (a : α) : (pure a : Except ε α) = .ok a := rfl

theorem bind_eq_ok {x : Except ε α} {f : α → Except ε β} {b : β} :
    x >>= f = .ok b ↔ ∃ a, x = .ok a ∧ f a = .ok b := by
  cases x with
  | error e => simp
  | ok a => simp

theorem map_eq_ok {f : α → β} {x : Except ε α} {b : β} (h : x.map f = .ok b) :
    ∃ a, x = .ok a ∧ f a = b := by
  cases x with
  | error e => cases h
  | ok a => exact ⟨a,rfl,Except.ok.inj h⟩

/-- A result with where it comes from, for a recursion on it. -/
def attach (x : MayPanic α) : MayPanic {a // x = .ok a} :=
  match x with
  | .ok a => .ok ⟨a,rfl⟩
  | .error e => .error e

theorem attach_eq_ok {x : MayPanic α} {a : α} (h : x = .ok a) : x.attach = .ok ⟨a,h⟩ := by
  subst h
  rfl

def unwrap : Option α → MayPanic α
  | some a => .ok a
  | none => .error .unwrap

def expect (message : String) : Option α → MayPanic α
  | some a => .ok a
  | none => .error (.expect message)

/-- `l[i]`. -/
def index (l : List α) (i : Nat) : MayPanic α :=
  match l[i]? with
  | some a => .ok a
  | none => .error .outOfBounds

theorem index_eq_ok {l : List α} {i : ℕ} {a : α} : index l i = .ok a ↔ l[i]? = some a := by
  cases h : l[i]? <;> simp [index,h]

theorem isOk_of_toOption {x : Except ε α} (h : x.toOption.isSome) : ∃ a, x = .ok a := by
  cases x with
  | error e => simp [Except.toOption] at h
  | ok a => exact ⟨a,rfl⟩

theorem of_toOption_any {x : Except ε α} {f : α → Bool} (h : x.toOption.any f = true) : ∃ a, x = .ok a ∧ f a = true := by
  cases x with
  | error e => cases h
  | ok a => exact ⟨a,rfl,h⟩

/-- A loop that returns has returned on every element. -/
theorem mapM_eq_ok {f : α → Except ε β} {l : List α} {r : List β} (h : l.mapM f = .ok r) :
    r.length = l.length ∧ ∀ (i : Nat) a, l[i]? = some a → ∃ b, r[i]? = some b ∧ f a = .ok b := by
  induction l generalizing r with
  | nil =>
    obtain rfl : [] = r := by simpa using h
    simp
  | cons x l ih =>
    rw [List.mapM_cons] at h
    obtain ⟨y,hy,h⟩ := bind_eq_ok.mp h
    obtain ⟨ys,hys,h⟩ := bind_eq_ok.mp h
    obtain rfl : y :: ys = r := by simpa using h
    obtain ⟨hlength,hall⟩ := ih hys
    refine ⟨by simp [hlength],?_⟩
    intro i a ha
    cases i with
    | zero => exact ⟨y,rfl,by simpa [← Option.some.inj ha] using hy⟩
    | succ i => exact hall i a ha

theorem mapM_eq {f : α → Except ε β} {g : α → β} {l : List α} (h : ∀ a ∈ l, f a = .ok (g a)) :
    l.mapM f = .ok (l.map g) := by
  induction l with
  | nil => rfl
  | cons a l ih =>
    have hrest := ih (fun b hb => h b (List.mem_cons_of_mem a hb))
    simp [List.mapM_cons,h a List.mem_cons_self,hrest]

theorem mapM_isOk {f : α → Except ε β} {l : List α} (h : ∀ a ∈ l, ∃ b, f a = .ok b) :
    ∃ r, l.mapM f = .ok r := by
  induction l with
  | nil => exact ⟨[],rfl⟩
  | cons x l ih =>
    obtain ⟨y,hy⟩ := h x List.mem_cons_self
    obtain ⟨ys,hys⟩ := ih (fun a ha => h a (List.mem_cons_of_mem x ha))
    exact ⟨y :: ys,by simp [List.mapM_cons,hy,hys]⟩

/-- A loop that panics does so on one of the elements. -/
theorem mapM_eq_error {f : α → Except ε β} {l : List α} {e : ε} (h : l.mapM f = .error e) :
    ∃ a ∈ l, f a = .error e := by
  induction l with
  | nil => simp at h
  | cons x l ih =>
    rw [List.mapM_cons] at h
    cases hx : f x with
    | error e' =>
      obtain rfl : e' = e := by simpa [hx] using h
      exact ⟨x,List.mem_cons_self,hx⟩
    | ok y =>
      cases hl : l.mapM f with
      | error e' =>
        obtain rfl : e' = e := by simpa [hx,hl] using h
        obtain ⟨a,ha,he⟩ := ih hl
        exact ⟨a,List.mem_cons_of_mem x ha,he⟩
      | ok ys => simp [hx,hl] at h

/-- `filter_map`. -/
def filterMap (f : α → MayPanic (Option β)) : List α → MayPanic (List β)
  | [] => .ok []
  | a :: l => do
    let b ← f a
    let rest ← filterMap f l
    return b.toList ++ rest

theorem filterMap_eq_ok {f : α → MayPanic (Option β)} {l : List α} {r : List β}
    (h : filterMap f l = .ok r) :
    (∀ a ∈ l, ∃ b, f a = .ok b) ∧ ∀ b, b ∈ r ↔ ∃ a ∈ l, f a = .ok (some b) := by
  induction l generalizing r with
  | nil =>
    obtain rfl := Except.ok.inj h
    simp
  | cons x l ih =>
    obtain ⟨y,hy,h⟩ := bind_eq_ok.mp h
    obtain ⟨rest,hrest,h⟩ := bind_eq_ok.mp h
    obtain rfl := Except.ok.inj h
    obtain ⟨hall,hmem⟩ := ih hrest
    refine ⟨List.forall_mem_cons.mpr ⟨⟨y,hy⟩,hall⟩,?_⟩
    intro b
    simp [hmem,hy]

theorem filterMap_eq {f : α → MayPanic (Option β)} {g : α → Option β} {l : List α} (h : ∀ a ∈ l, f a = .ok (g a)) :
    filterMap f l = .ok (l.filterMap g) := by
  induction l with
  | nil => rfl
  | cons a l ih =>
    have hrest := ih (fun b hb => h b (List.mem_cons_of_mem a hb))
    rw [filterMap,h a List.mem_cons_self,ok_bind,hrest,ok_bind,List.filterMap_cons]
    cases g a <;> rfl

theorem filterMap_isOk_iff {f : α → MayPanic (Option β)} {l : List α} :
    (∃ r, filterMap f l = .ok r) ↔ ∀ a ∈ l, ∃ b, f a = .ok b := by
  constructor
  · rintro ⟨r,h⟩
    exact (filterMap_eq_ok h).1
  · intro h
    induction l with
    | nil => exact ⟨[],rfl⟩
    | cons x l ih =>
      obtain ⟨y,hy⟩ := h x List.mem_cons_self
      obtain ⟨rest,hrest⟩ := ih (fun a ha => h a (List.mem_cons_of_mem x ha))
      exact ⟨y.toList ++ rest,by simp [filterMap,hy,hrest]⟩

/-- A loop whose steps return or panic by their elements alone returns where they all return. -/
theorem foldlM_isOk_iff {f : β → α → Except ε β} {returns : α → Prop} {l : List α} {b : β}
    (hf : ∀ b, ∀ a ∈ l, (∃ r, f b a = .ok r) ↔ returns a) : (∃ r, l.foldlM f b = .ok r) ↔ ∀ a ∈ l, returns a := by
  induction l generalizing b with
  | nil => simp
  | cons a l ih =>
    have hrest : ∀ b, (∃ r, l.foldlM f b = .ok r) ↔ ∀ a ∈ l, returns a :=
      fun b => ih (fun b a ha => hf b a (List.mem_cons_of_mem _ ha))
    rw [List.foldlM_cons,List.forall_mem_cons,← hf b a List.mem_cons_self]
    constructor
    · rintro ⟨r,h⟩
      obtain ⟨b',hb',h⟩ := bind_eq_ok.mp h
      exact ⟨⟨b',hb'⟩,(hrest b').mp ⟨r,h⟩⟩
    · rintro ⟨⟨b',hb'⟩,hall⟩
      obtain ⟨r,hr⟩ := (hrest b').mpr hall
      exact ⟨r,bind_eq_ok.mpr ⟨b',hb',hr⟩⟩

/-- A name that is handed on with every element is not found in more places than before. -/
theorem filterMap_sublist {γ : Type} {f : α → MayPanic (Option β)} {name : α → γ} {name' : β → γ}
    (hname : ∀ a b, f a = .ok (some b) → name' b = name a) {l : List α} {r : List β}
    (h : filterMap f l = .ok r) : (r.map name').Sublist (l.map name) := by
  induction l generalizing r with
  | nil =>
    obtain rfl := Except.ok.inj h
    exact List.Sublist.refl _
  | cons x l ih =>
    obtain ⟨y,hy,h⟩ := bind_eq_ok.mp h
    obtain ⟨rest,hrest,h⟩ := bind_eq_ok.mp h
    obtain rfl := Except.ok.inj h
    cases y with
    | none => exact (ih hrest).cons _
    | some b =>
      have hb : name' b = name x := hname x b hy
      simpa [hb] using ih hrest

@[simp] theorem unwrap_some (a : α) : unwrap (some a) = .ok a := rfl
@[simp] theorem expect_some (message : String) (a : α) : expect message (some a) = .ok a := rfl

theorem expect_eq_ok {message : String} {o : Option α} {a : α} : expect message o = .ok a ↔ o = some a := by
  cases o with
  | none => simp [expect]
  | some b => simp

theorem unwrap_eq_ok {o : Option α} {a : α} : unwrap o = .ok a ↔ o = some a := by
  cases o with
  | none => simp [unwrap]
  | some b => simp

end MayPanic

/-- `u64::from_str`. -/
def parseU64 (s : Str) : Option UInt64 := (Text.parseUnsigned UInt64.size s).map UInt64.ofNat
/-- `u8::from_str`. -/
def parseU8 (s : Str) : Option UInt8 := (Text.parseUnsigned UInt8.size s).map UInt8.ofNat

def displayU64 (n : UInt64) : Str := Text.decimal n.toNat
def displayU8 (n : UInt8) : Str := Text.decimal n.toNat

/-- `bool::from_str`. -/
def parseBool (s : Str) : Option Bool :=
  if s = "true".toList then some true else if s = "false".toList then some false else none
def displayBool (b : Bool) : Str := if b then "true".toList else "false".toList

/-- `u64::to_be_bytes`. -/
def toBeBytes (n : UInt64) : List UInt8 :=
  (List.range 8).map (fun i => (n >>> UInt64.ofNat (8*(7-i))).toUInt8)

/-- `u64::checked_shr`. -/
def checkedShr (n : UInt64) (shift : ℕ) : Option UInt64 :=
  if shift < 64 then some (n >>> UInt64.ofNat shift) else none

@[simp] theorem parseU64_displayU64 (n : UInt64) : parseU64 (displayU64 n) = some n := by
  simp [parseU64,displayU64,Text.parseUnsigned_decimal n.toNat_lt_size]

@[simp] theorem parseU8_displayU8 (n : UInt8) : parseU8 (displayU8 n) = some n := by
  simp [parseU8,displayU8,Text.parseUnsigned_decimal n.toNat_lt_size]

@[simp] theorem parseBool_displayBool (b : Bool) : parseBool (displayBool b) = some b := by
  cases b <;> decide

theorem parseBool_eq_some {s : Str} {b : Bool} : parseBool s = some b ↔ s = displayBool b := by
  constructor
  · intro h
    unfold parseBool at h
    split at h
    next hs => exact Option.some.inj h ▸ hs
    next =>
      split at h
      next hs => exact Option.some.inj h ▸ hs
      next => simp at h
  · rintro rfl
    exact parseBool_displayBool b

end Olivia
