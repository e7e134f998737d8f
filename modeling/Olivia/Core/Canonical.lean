import Olivia.Core.EventId

/-! # Closed kinds and canonical ids

Every kind the parser returns is closed: predicates only wrap what they can be read on, and
the printed kind is read as the same kind. An id need not be what its path and its kind
print, because a numeral of its kind can be padded; it is wherever no numeral is.
-/
namespace Olivia
namespace EventKind
variable {k : EventKind} {text : Str}

/-- The kinds an equality is put on. -/
def TakesEq : EventKind → Prop
  | vsMatch _ => True
  | singleOccurrence => True
  | price nDigits => nDigits = 0
  | predicate inner (.bound _ _) => inner = price 0
  | predicate _ (.eq _) => False

/-- What a predicate asks of the kind it wraps. -/
def Wraps (inner : EventKind) : Predicate → Prop
  | .eq value => inner.TakesEq ∧ '?' ∉ value
  | .bound _ _ => inner = price 0

def Closed : EventKind → Prop
  | vsMatch _ => True
  | singleOccurrence => True
  | predicate inner p => inner.Closed ∧ inner.Wraps p
  | price nDigits => nDigits ≤ 64

theorem KindText.takesEq (h : KindText k text) (heq : '=' ∉ text) (hargs : '?' ∉ text) : k.TakesEq := by
  cases h with
  | digits => simp at hargs
  | eq => simp at heq
  | price => exact rfl
  | bound => exact rfl
  | _ => trivial

theorem KindText.closed (h : KindText k text) : k.Closed := by
  induction h with
  | digits _ _ hle => exact hle
  | eq h heq hargs hvalue ih => exact ⟨ih,h.takesEq heq hargs,hvalue⟩
  | bound => exact ⟨(by decide : (0 : UInt8) ≤ 64),rfl⟩
  | price => exact (by decide : (0 : UInt8) ≤ 64)
  | _ => trivial

theorem displayU64_not_mem {c : Char} (hc : c.isDigit = false) (n : UInt64) : c ∉ displayU64 n := by
  intro hmem
  have hdigit : c.isDigit = true := Text.isDigit_of_mem_decimal hmem
  simp [hc] at hdigit

/-- A kind that takes an equality prints neither an equality sign nor an argument. -/
theorem TakesEq.toStr_not_mem (h : k.TakesEq) : '=' ∉ k.toStr ∧ '?' ∉ k.toStr := by
  cases k with
  | vsMatch kind => cases kind <;> decide
  | singleOccurrence => decide
  | price nDigits =>
    obtain rfl : nDigits = 0 := h
    decide
  | predicate inner predicate =>
    cases predicate with
    | eq value => exact h.elim
    | bound boundKind target =>
      cases boundKind
      obtain rfl : inner = price 0 := h
      rw [toStr_bound]
      have heq := displayU64_not_mem (c := '=') (by decide) target
      have hargs := displayU64_not_mem (c := '?') (by decide) target
      simp [heq,hargs]

/-- A closed kind prints a text of the grammar. -/
theorem Closed.kindText (h : k.Closed) : KindText k k.toStr := by
  induction k with
  | vsMatch kind =>
    cases kind with
    | winOrDraw => exact KindText.vs
    | win => exact KindText.winner
  | singleOccurrence => exact KindText.occur
  | price nDigits =>
    by_cases hzero : nDigits = 0
    · exact hzero ▸ KindText.price.toStr
    · have hpos : 0 < nDigits := UInt8.pos_iff_ne_zero.mpr hzero
      rw [toStr_price_pos hpos]
      exact KindText.digits (parseU8_displayU8 nDigits) hpos h
  | predicate inner predicate ih =>
    obtain ⟨hinner,hwraps⟩ := h
    cases predicate with
    | eq value =>
      obtain ⟨htakes,hvalue⟩ := hwraps
      obtain ⟨heq,hargs⟩ := htakes.toStr_not_mem
      exact KindText.eq (ih hinner) heq hargs hvalue
    | bound boundKind target =>
      cases boundKind
      obtain rfl : inner = price 0 := hwraps
      rw [toStr_bound]
      exact KindText.bound (parseU64_displayU64 target)

/-- The closed kinds are those that some text spells, and each is spelled by its own print. -/
theorem closed_iff_fromStr : k.Closed ↔ fromStr k.toStr = .ok (.ok k) :=
  ⟨fun h => fromStr_of_kindText h.kindText,fun h => (kindText_of_fromStr h).closed⟩

/-- The parser returns on every text, and a kind it returns is closed and printed as a text
that is read as this kind. -/
theorem fromStr_closed (text : Str) : (∃ r, fromStr text = .ok r) ∧
    ∀ k, fromStr text = .ok (.ok k) → k.Closed ∧ fromStr k.toStr = .ok (.ok k) := by
  refine ⟨fromStr_total text,?_⟩
  intro k hk
  have hclosed : k.Closed := (kindText_of_fromStr hk).closed
  exact ⟨hclosed,closed_iff_fromStr.mp hclosed⟩

/-- The numeral of a price or of its bound, up to an equality. -/
def numeral (text : Str) : Option Str :=
  (text.dropPrefix? "price?n=".toList <|> text.dropPrefix? "price_".toList).map
    (fun rest => rest.takeWhile (· ≠ '='))

def PaddedNumeral (text : Str) : Prop := ∃ digits, numeral text = some digits ∧ Text.Padded digits

theorem displayU64_eq_iff {n : UInt64} (h : parseU64 text = some n) :
    displayU64 n = text ↔ ¬ Text.Padded text := by
  obtain ⟨m,hm,rfl⟩ := Option.map_eq_some_iff.mp h
  have hlt : m < UInt64.size := Text.lt_of_parseUnsigned hm
  rw [displayU64,UInt64.toNat_ofNat_of_lt' hlt,Text.decimal_eq_iff hm]

theorem displayU8_eq_iff {n : UInt8} (h : parseU8 text = some n) :
    displayU8 n = text ↔ ¬ Text.Padded text := by
  obtain ⟨m,hm,rfl⟩ := Option.map_eq_some_iff.mp h
  have hlt : m < UInt8.size := Text.lt_of_parseUnsigned hm
  rw [displayU8,UInt8.toNat_ofNat_of_lt' hlt,Text.decimal_eq_iff hm]

/-- What may stand behind the text of a price or of an occurrence: nothing, or an equality. -/
def Tail (rest : Str) : Prop := rest = [] ∨ ∃ value, rest = '=' :: value

theorem takeWhile_tail {rest : Str} (h : '=' ∉ text) (hrest : Tail rest) :
    (text ++ rest).takeWhile (· ≠ '=') = text := by
  have hall : ∀ c ∈ text, decide (c ≠ '=') = true := by
    intro c hc
    have hne : c ≠ '=' := fun he => h (he ▸ hc)
    simp [hne]
  rw [List.takeWhile_append_of_pos hall]
  rcases hrest with rfl | ⟨value,rfl⟩
  · simp
  · simp

theorem numeral_digits (h : '=' ∉ text) : numeral ("price?n=".toList ++ text) = some text := by
  have htake := takeWhile_tail h (Or.inl rfl)
  rw [List.append_nil] at htake
  rw [numeral,List.dropPrefix?_append_of_beq text (beq_self_eq_true "price?n=".toList)]
  simp only [Option.orElse_eq_orElse,Option.orElse_eq_or,Option.some_or,Option.map_some,htake]

theorem numeral_bound (h : '=' ∉ text) {rest : Str} (hrest : Tail rest) :
    numeral ("price_".toList ++ text ++ rest) = some text := by
  have hnone : ("price_".toList ++ (text ++ rest)).dropPrefix? "price?n=".toList = none := by
    simp [List.dropPrefix?]
  rw [List.append_assoc,numeral,hnone,List.dropPrefix?_append_of_beq _ (beq_self_eq_true "price_".toList)]
  simp only [Option.orElse_eq_orElse,Option.orElse_eq_or,Option.none_or,Option.map_some,takeWhile_tail h hrest]

theorem numeral_eq_none {word rest : Str} (hword : word = "vs".toList ∨ word = "winner".toList ∨
    word = "occur".toList ∨ word = "price".toList) (hrest : Tail rest) : numeral (word ++ rest) = none := by
  rcases hrest with rfl | ⟨value,rfl⟩
  · rcases hword with rfl | rfl | rfl | rfl <;> decide
  · rcases hword with rfl | rfl | rfl | rfl <;> simp [numeral,List.dropPrefix?]

theorem paddedNumeral_iff {digits : Str} (h : numeral text = some digits) :
    PaddedNumeral text ↔ Text.Padded digits := by
  simp [PaddedNumeral,h]

/-- The kinds that take an equality, printed before one. -/
theorem KindText.toStr_append_eq_iff (h : KindText k text) (heq : '=' ∉ text) (hargs : '?' ∉ text)
    {rest : Str} (hrest : Tail rest) : k.toStr ++ rest = text ++ rest ↔ ¬ PaddedNumeral (text ++ rest) := by
  have hplain : ∀ word : Str, word = "vs".toList ∨ word = "winner".toList ∨ word = "occur".toList ∨
      word = "price".toList → ¬ PaddedNumeral (word ++ rest) := by
    rintro word hword ⟨digits,hdigits,_⟩
    rw [numeral_eq_none hword hrest] at hdigits
    cases hdigits
  cases h with
  | vs => exact iff_of_true rfl (hplain _ (by simp))
  | winner => exact iff_of_true rfl (hplain _ (by simp))
  | occur => exact iff_of_true rfl (hplain _ (by simp))
  | price => exact iff_of_true (toStr_price_zero ▸ rfl) (hplain _ (by simp))
  | digits => simp at hargs
  | eq => simp at heq
  | @bound digits target h =>
    have hne : '=' ∉ digits := fun hc => by simpa using mem_of_parseU64 h hc
    rw [paddedNumeral_iff (numeral_bound hne hrest),← displayU64_eq_iff h,toStr_bound,
      List.append_left_inj,List.append_right_inj]

/-- A kind prints the text it was read from exactly where no numeral of it is padded. -/
theorem KindText.toStr_eq_iff (h : KindText k text) : k.toStr = text ↔ ¬ PaddedNumeral text := by
  have hbare : '=' ∉ text → '?' ∉ text → (k.toStr = text ↔ ¬ PaddedNumeral text) := by
    intro heq hargs
    simpa using h.toStr_append_eq_iff heq hargs (Or.inl rfl)
  cases h with
  | @digits _ digits h hpos =>
    have hne : '=' ∉ digits := fun hc => by simpa using mem_of_parseU8 h hc
    rw [paddedNumeral_iff (numeral_digits hne),← displayU8_eq_iff h,toStr_price_pos hpos,List.append_right_inj]
  | @eq _ _ value h heq hargs => exact h.toStr_append_eq_iff heq hargs (Or.inr ⟨value,rfl⟩)
  | @bound digits _ h =>
    have hmem : ∀ c ∈ digits, c = '+' ∨ c.isDigit := fun c hc => mem_of_parseU64 h hc
    refine hbare ?_ ?_
    · intro hc
      simpa using hmem '=' (by simpa using hc)
    · intro hc
      simpa using hmem '?' (by simpa using hc)
  | _ => exact hbare (by decide) (by decide)

end EventKind

namespace EventId
variable {id : EventId} {p : Path} {k : EventKind}

/-- `id.replaceKind kind` keeps the path; the id it builds is not parsed. -/
def replaceKind (id : EventId) (kind : EventKind) : MayPanic EventId := do
  return ⟨⟨(← id.path).str ++ '.' :: kind.toStr⟩⟩

/-- The text of the kind that an event id ends with. -/
def kindText (id : EventId) : Option Str := id.raw.stripEvent.map Prod.snd

/-- An id whose kind spells a price digit count or a bound with a sign or a needless zero. -/
def PaddedNumeral (id : EventId) : Prop := ∃ text, id.kindText = some text ∧ EventKind.PaddedNumeral text

/-- What the path and the kind of an id print is the id. -/
def Canonical (id : EventId) : Prop := ∃ k, id.eventKind = .ok k ∧ id.replaceKind k = .ok id

theorem replaceKind_eq (hp : id.path = .ok p) (k : EventKind) :
    id.replaceKind k = .ok (fromPathAndKind p k) := by
  simp [replaceKind,hp,fromPathAndKind]

theorem canonical_iff {text : Str} (hs : id.raw.stripEvent = some (p,text))
    (hk : EventKind.KindText k text) : id.Canonical ↔ k.toStr = text := by
  obtain ⟨_,_,_,hraw,_⟩ := Path.stripEvent_eq_some.mp hs
  have hkind := eventKind_eq hs hk
  constructor
  · rintro ⟨l,hl,hid⟩
    obtain rfl : k = l := Except.ok.inj (hkind.symm.trans hl)
    rw [replaceKind_eq (path_eq hs)] at hid
    have hstr : p.str ++ '.' :: k.toStr = id.raw.str := congrArg (fun i => i.raw.str) (Except.ok.inj hid)
    rw [hraw] at hstr
    simpa using hstr
  · rintro rfl
    refine ⟨k,hkind,?_⟩
    rw [replaceKind_eq (path_eq hs)]
    exact congrArg Except.ok (EventId.ext (Path.ext hraw.symm))

/-- Canonical ids are determined by what they are read as. -/
theorem Canonical.eq_of_reads {id' : EventId} (h : id.Canonical) (h' : id'.Canonical)
    (hpath : id.path = id'.path) (hkind : id.eventKind = id'.eventKind) : id = id' := by
  obtain ⟨k,hk,hid⟩ := h
  obtain ⟨k',hk',hid'⟩ := h'
  obtain rfl : k = k' := Except.ok.inj (hk.symm.trans (hkind.trans hk'))
  have hsame : id.replaceKind k = id'.replaceKind k := by rw [replaceKind,replaceKind,hpath]
  exact Except.ok.inj (hid.symm.trans (hsame.trans hid'))

/-- An accepted id is what its path and kind print exactly where its numeral is not padded,
and among these ids one path and one kind have one spelling. -/
theorem canonical_iff_not_paddedNumeral (h : id.Accepted) : (id.Canonical ↔ ¬ id.PaddedNumeral) ∧
    (¬ id.PaddedNumeral → ∀ id', id'.Accepted → ¬ id'.PaddedNumeral → id'.path = id.path →
      id'.eventKind = id.eventKind → id' = id) := by
  have hexact : ∀ id : EventId, id.Accepted → (id.Canonical ↔ ¬ id.PaddedNumeral) := by
    intro id h
    obtain ⟨p,text,k,hs,hk,_⟩ := h.fits
    have hpadded : id.PaddedNumeral ↔ EventKind.PaddedNumeral text := by simp [PaddedNumeral,kindText,hs]
    rw [hpadded,canonical_iff hs hk,hk.toStr_eq_iff]
  refine ⟨hexact id h,?_⟩
  intro hplain id' h' hplain' hpath hkind
  exact Canonical.eq_of_reads ((hexact id' h').mpr hplain') ((hexact id h).mpr hplain) hpath hkind

theorem canonical_iff_at_bound :
    Canonical ⟨⟨"/foo/bar.price_5".toList⟩⟩ ↔ ¬ PaddedNumeral ⟨⟨"/foo/bar.price_5".toList⟩⟩ :=
  (canonical_iff_not_paddedNumeral (by decide +kernel)).1

theorem padded_bound_not_canonical :
    (¬ ∀ id : EventId, id.Accepted → ∃ k, id.eventKind = .ok k ∧ id.replaceKind k = .ok id) ∧
    ¬ ∀ id id' : EventId, id.Accepted → id'.Accepted → id'.path = id.path →
      id'.eventKind = id.eventKind → id' = id := by
  have hpadded : Accepted ⟨⟨"/foo/bar.price_05".toList⟩⟩ := by decide +kernel
  have hplain : Accepted ⟨⟨"/foo/bar.price_5".toList⟩⟩ := by decide +kernel
  have hkind : eventKind ⟨⟨"/foo/bar.price_05".toList⟩⟩ = .ok (.predicate (.price 0) (.bound .gt 5)) := by
    decide +kernel
  constructor
  · intro h
    obtain ⟨k,hk,hid⟩ := h _ hpadded
    obtain rfl := Except.ok.inj (hk.symm.trans hkind)
    exact absurd hid (by decide +kernel)
  · intro h
    have hsame := h _ _ hpadded hplain (by decide +kernel) (by decide +kernel)
    exact absurd hsame (by decide)

end EventId
end Olivia
