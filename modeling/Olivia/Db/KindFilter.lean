import Olivia.Core.Canonical
import Olivia.Core.EventText
import Olivia.Text.Like

/-! # The kind filter of the queries

The server tells the kind of an event from the end of its id, with a pattern that ends in the
kind as it is printed. The numeral of an id can be spelled otherwise than it is printed, and
what is printed can hold wildcards: a bound has one, and an equality all those of its value.
-/
namespace Olivia

/-- What an id is compared with. -/
def kindPattern : Option EventKind → Str
  | some kind => "%.".toList ++ kind.toStr
  | none => "%".toList

theorem stands_kindPattern {k : EventKind} {text : Str} : Text.Stands (kindPattern (some k)) text ↔
    ∃ rest, '.' :: rest <:+ text ∧ Text.Stands k.toStr rest := by
  have hdot : Text.Plain ['.'] := by decide
  have hpattern : kindPattern (some k) = '%' :: (['.'] ++ k.toStr) := rfl
  rw [hpattern,Text.stands_many]
  simp only [Text.stands_plain_append hdot]
  constructor
  · rintro ⟨_,hends,rest,rfl,hrest⟩
    exact ⟨rest,hends,hrest⟩
  · rintro ⟨rest,hends,hrest⟩
    exact ⟨_,hends,rest,rfl,hrest⟩

namespace EventKind
variable {k inner : EventKind} {text lhs value : Str} {n : UInt64}

theorem plain_displayU64 (n : UInt64) : Text.Plain (displayU64 n) :=
  ⟨displayU64_not_mem (by decide) n,displayU64_not_mem (by decide) n,displayU64_not_mem (by decide) n⟩

theorem displayU64_cons (n : UInt64) : ∃ d tail, displayU64 n = d :: tail ∧ d.isDigit := by
  obtain ⟨d,tail,hcons⟩ := List.exists_cons_of_ne_nil (Text.decimal_ne_nil n.toNat)
  exact ⟨d,tail,hcons,Text.isDigit_of_mem_decimal (by rw [hcons]; exact List.mem_cons_self)⟩

/-- The underscore of a bound is its only wildcard. -/
theorem stands_bound : Text.Stands (predicate (price 0) (.bound .gt n)).toStr text ↔
    ∃ c, text = "price".toList ++ c :: displayU64 n := by
  have hprice : Text.Plain "price".toList := by decide
  have hprinted : (predicate (price 0) (.bound .gt n)).toStr = "price".toList ++ (['_'] ++ displayU64 n) := by
    rw [toStr_bound]
    rfl
  rw [hprinted,Text.stands_plain_append hprice]
  simp only [Text.stands_append (by decide : '\\' ∉ ['_']),Text.stands_single,
    Text.stands_plain (plain_displayU64 n)]
  constructor
  · rintro ⟨_,rfl,_,_,rfl,⟨c,rfl⟩,rfl⟩
    exact ⟨c,rfl⟩
  · rintro ⟨c,rfl⟩
    exact ⟨_,rfl,[c],_,rfl,⟨c,rfl⟩,rfl⟩

theorem TakesEq.bound (h : k.TakesEq) (hk : k.IsPredicate) : ∃ n, k = predicate (price 0) (.bound .gt n) := by
  cases k with
  | predicate inner p =>
    cases p with
    | eq value => exact h.elim
    | bound boundKind n =>
      cases boundKind
      obtain rfl : inner = price 0 := h
      exact ⟨n,rfl⟩
  | _ => exact hk.elim

theorem Closed.sign_not_mem {c : Char} (h : k.Closed) (hk : ¬ k.IsPredicate) (hc : Sign c) : c ∉ k.toStr := by
  intro hmem
  obtain ⟨_,_,rfl,_⟩ := h.kindText.mem_value hc hmem
  exact hk trivial

/-- A kind that is no predicate prints no wildcard. -/
theorem Closed.plain (h : k.Closed) (hk : ¬ k.IsPredicate) : Text.Plain k.toStr := by
  refine ⟨h.sign_not_mem hk (by simp [Sign]),?_,h.sign_not_mem hk (by simp [Sign])⟩
  cases k with
  | vsMatch kind => cases kind <;> decide
  | singleOccurrence => decide
  | predicate => exact absurd trivial hk
  | price nDigits =>
    by_cases hzero : nDigits = 0
    · rw [hzero,toStr_price_zero]
      decide
    · rw [toStr_price_pos (UInt8.pos_iff_ne_zero.mpr hzero)]
      intro hc
      rcases List.mem_append.mp hc with hc | hc
      · exact absurd hc (by decide)
      · exact absurd (Text.isDigit_of_mem_decimal hc) (by decide)

theorem Closed.escape_not_mem (h : (predicate inner (.eq value)).Closed) : '\\' ∉ inner.toStr := by
  intro hc
  obtain ⟨_,_,rfl,_⟩ := h.1.kindText.mem_value (by simp [Sign]) hc
  exact h.2.1.elim

/-- No kind begins with a digit. -/
theorem KindText.head_not_digit {c : Char} {rest : Str} (h : KindText k (c :: rest)) : c.isDigit = false := by
  generalize htext : c :: rest = text at h
  induction h generalizing rest with
  | @eq inner lhs value h heq hargs hvalue ih =>
    cases lhs with
    | nil =>
      obtain rfl := (List.cons.inj htext).1
      decide
    | cons d lhs => exact ih (by rw [(List.cons.inj htext).1])
  | _ =>
    obtain rfl := (List.cons.inj htext).1
    decide

/-- A price, one character and a numeral spell a bound or an equality. -/
theorem kindText_price_cons {c : Char} : KindText k ("price".toList ++ c :: displayU64 n) ↔
    c = '_' ∧ k = predicate (price 0) (.bound .gt n) ∨ c = '=' ∧ k = predicate (price 0) (.eq (displayU64 n)) := by
  have hbound : KindText (predicate (price 0) (.bound .gt n)) ("price".toList ++ '_' :: displayU64 n) :=
    KindText.bound (parseU64_displayU64 n)
  have heq : KindText (predicate (price 0) (.eq (displayU64 n))) ("price".toList ++ '=' :: displayU64 n) :=
    KindText.eq KindText.price (by decide) (by decide) (displayU64_not_mem (by decide) n)
  constructor
  · intro h
    by_cases hc : c = '_'
    · subst hc
      exact Or.inl ⟨rfl,h.unique hbound⟩
    by_cases hc' : c = '='
    · subst hc'
      exact Or.inr ⟨rfl,h.unique heq⟩
    · exfalso
      have hnumeral : ∀ d, d.isDigit = false → d ∉ displayU64 n := fun d hd => displayU64_not_mem hd n
      have htail : ∀ {d : Char} {rest : Str}, "price".toList ++ c :: displayU64 n = "price".toList ++ d :: rest →
          c = d ∧ displayU64 n = rest := fun he => List.cons.inj (List.append_cancel_left he)
      generalize htext : "price".toList ++ c :: displayU64 n = text at h
      cases h with
      | @digits _ digits h =>
        have hdigits := (htail htext).2
        exact hnumeral 'n' (by decide) (hdigits ▸ List.mem_cons_self)
      | eq =>
        have hmem : '=' ∈ "price".toList ++ c :: displayU64 n := by rw [htext]; simp
        simp [hnumeral '=' (by decide),Ne.symm hc'] at hmem
      | bound =>
        exact hc (htail htext).1
      | _ => simp at htext
  · rintro (⟨rfl,rfl⟩ | ⟨rfl,rfl⟩)
    · exact hbound
    · exact heq

/-- The first equality sign of a text is where it compares, unless it gives the digits of a price. -/
theorem KindText.of_append_eq (h : KindText k (lhs ++ '=' :: value)) (heq : '=' ∉ lhs)
    (hdigits : lhs ≠ "price?n".toList) : ∃ inner, k = predicate inner (.eq value) ∧ KindText inner lhs := by
  generalize htext : lhs ++ '=' :: value = text at h
  have hcut : Text.splitOnce '=' text = some (lhs,value) := htext ▸ Text.splitOnce_append heq value
  cases h with
  | @digits _ digits h =>
    have hcut' : Text.splitOnce '=' ("price?n=".toList ++ digits) = some ("price?n".toList,digits) :=
      Text.splitOnce_append (l := "price?n".toList) (by decide) digits
    exact absurd (congrArg Prod.fst (Option.some.inj (hcut.symm.trans hcut'))) hdigits
  | @eq inner lhs' value' h heq' =>
    obtain ⟨rfl,rfl⟩ : lhs = lhs' ∧ value = value' := by
      simpa using hcut.symm.trans (Text.splitOnce_append heq' value')
    exact ⟨inner,rfl,h⟩
  | @bound digits _ h =>
    obtain ⟨hbound,_⟩ := Text.splitOnce_eq_some.mp hcut
    have hmem : '=' ∈ "price_".toList ++ digits := by rw [hbound]; simp
    rcases List.mem_append.mp hmem with hmem | hmem
    · exact absurd hmem (by decide)
    · simpa using mem_of_parseU64 h hmem
  | _ => simp [Text.splitOnce] at hcut

end EventKind

namespace EventId
variable {id : EventId} {p : Path} {k inner : EventKind} {text value : Str}

/-- The kind filter and the kind as it is parsed agree on an id. -/
def FilteredByKind (id : EventId) (k : EventKind) : Prop :=
  Text.Stands (kindPattern (some k)) id.asStr ↔ id.eventKind = .ok k

/-- The id ends in an equality that the printed one stands for. -/
def EndsLike (id : EventId) (inner : EventKind) (value : Str) : Prop :=
  ∃ lhs w, '.' :: (lhs ++ '=' :: w) <:+ id.asStr ∧ Text.Stands inner.toStr lhs ∧ Text.Stands value w

/-- The value stands for a text with a dot, so that it reaches into the path. -/
def EndsBeyond (id : EventId) (inner : EventKind) (value : Str) : Prop :=
  ∃ lhs w, '.' :: (lhs ++ '=' :: w) <:+ id.asStr ∧ Text.Stands inner.toStr lhs ∧ Text.Stands value w ∧ '.' ∈ w

/-- An event of the kind that the filter misses: one with a padded numeral, and one that
compares with a value that does not stand for itself, as one with a backslash need not. -/
def Missed (id : EventId) (k : EventKind) : Prop :=
  id.eventKind = .ok k ∧ match k with
    | .predicate inner (.eq value) => (id.PaddedNumeral ∨ ¬ Text.Stands value value) ∧ ¬ id.EndsBeyond inner value
    | _ => id.PaddedNumeral

/-- An event of another kind that it takes for one: the equality with the number of a bound,
and an equality with another value that the value stands for. -/
def Mistaken (id : EventId) (k : EventKind) : Prop :=
  id.eventKind ≠ .ok k ∧ match k with
    | .predicate inner (.eq value) => (∃ other, id.eventKind = .ok (.predicate inner (.eq other)) ∧
        ¬ id.PaddedNumeral ∧ Text.Stands value other) ∨ id.EndsBeyond inner value
    | .predicate _ (.bound _ n) => id.eventKind = .ok (.predicate (.price 0) (.eq (displayU64 n)))
    | _ => False

theorem eventKind_iff (hs : id.raw.stripEvent = some (p,text)) : id.eventKind = .ok k ↔ EventKind.KindText k text := by
  constructor
  · intro h
    obtain ⟨q,spelled,hq,hk⟩ := eventKind_eq_ok h
    obtain ⟨rfl,rfl⟩ : p = q ∧ text = spelled := by simpa [hs] using hq
    exact hk
  · exact eventKind_eq hs

theorem Accepted.suffix_iff (h : id.Accepted) (hs : id.raw.stripEvent = some (p,text)) {rest : Str}
    (hrest : '.' ∉ rest) : '.' :: rest <:+ id.asStr ↔ rest = text := by
  constructor
  · rintro ⟨front,hid⟩
    exact (h.eq_of_append hs hid.symm hrest).2
  · rintro rfl
    obtain ⟨_,_,_,hraw,_⟩ := Path.stripEvent_eq_some.mp hs
    exact ⟨p.str,hraw.symm⟩

/-- An id ends in what its kind prints exactly where it is of the kind and not padded. -/
theorem toStr_eq_iff (hk : k.Closed) (hs : id.raw.stripEvent = some (p,text)) :
    k.toStr = text ↔ id.eventKind = .ok k ∧ ¬ id.PaddedNumeral := by
  have hpadded : id.PaddedNumeral ↔ EventKind.PaddedNumeral text := by simp [PaddedNumeral,kindText,hs]
  rw [eventKind_iff hs,hpadded]
  constructor
  · rintro rfl
    exact ⟨hk.kindText,hk.kindText.toStr_eq_iff.mp rfl⟩
  · rintro ⟨htext,hnot⟩
    exact htext.toStr_eq_iff.mpr hnot

theorem filter_plain (h : id.Accepted) (hs : id.raw.stripEvent = some (p,text)) (hk : k.Closed)
    (hplain : ¬ k.IsPredicate) : Text.Stands (kindPattern (some k)) id.asStr ↔ k.toStr = text := by
  have hdot : '.' ∉ k.toStr := hk.sign_not_mem hplain (Or.inl rfl)
  rw [stands_kindPattern]
  simp only [Text.stands_plain (hk.plain hplain),exists_eq_right,h.suffix_iff hs hdot]

/-- Behind a price, one character and digits nothing else can stand. -/
theorem suffix_price_iff (h : id.Accepted) (hs : id.raw.stripEvent = some (p,text)) {c : Char} {rest : Str}
    (hrest : '.' ∉ rest) (hdigit : ∃ d tail, rest = d :: tail ∧ d.isDigit) :
    '.' :: ("price".toList ++ c :: rest) <:+ id.asStr ↔ text = "price".toList ++ c :: rest := by
  by_cases hc : c = '.'
  · subst hc
    have hdot : '.' ∉ text := h.dot_not_mem hs
    refine iff_of_false ?_ (fun htext => hdot (by simp [htext]))
    intro hends
    have hshort : '.' :: rest <:+ id.asStr := by
      refine List.IsSuffix.trans ?_ hends
      exact ⟨".price".toList,by simp⟩
    obtain rfl := (h.suffix_iff hs hrest).mp hshort
    obtain ⟨k,hk,_⟩ := h.fits_at hs
    obtain ⟨d,tail,rfl,hd⟩ := hdigit
    simp [hk.head_not_digit] at hd
  · rw [h.suffix_iff hs (by simp [hrest,Ne.symm hc])]
    exact eq_comm

theorem filter_bound (h : id.Accepted) (hs : id.raw.stripEvent = some (p,text)) {n : UInt64} :
    Text.Stands (kindPattern (some (.predicate (.price 0) (.bound .gt n)))) id.asStr ↔
      id.eventKind = .ok (.predicate (.price 0) (.bound .gt n)) ∧ ¬ id.PaddedNumeral ∨
      id.eventKind = .ok (.predicate (.price 0) (.eq (displayU64 n))) := by
  have hclosed : (EventKind.predicate (.price 0) (.bound .gt n)).Closed := ⟨(by decide : (0 : UInt8) ≤ 64),rfl⟩
  have hends : Text.Stands (kindPattern (some (.predicate (.price 0) (.bound .gt n)))) id.asStr ↔
      ∃ c, text = "price".toList ++ c :: displayU64 n := by
    have hdot := EventKind.displayU64_not_mem (c := '.') (by decide) n
    rw [stands_kindPattern]
    simp only [EventKind.stands_bound]
    constructor
    · rintro ⟨_,hends,c,rfl⟩
      exact ⟨c,(suffix_price_iff h hs hdot (EventKind.displayU64_cons n)).mp hends⟩
    · rintro ⟨c,htext⟩
      exact ⟨_,(suffix_price_iff h hs hdot (EventKind.displayU64_cons n)).mpr htext,c,rfl⟩
  rw [hends,← toStr_eq_iff hclosed hs,EventKind.toStr_bound,eventKind_iff hs]
  obtain ⟨k,hk,_⟩ := h.fits_at hs
  constructor
  · rintro ⟨c,rfl⟩
    rcases EventKind.kindText_price_cons.mp hk with ⟨rfl,_⟩ | ⟨rfl,rfl⟩
    · exact Or.inl rfl
    · exact Or.inr hk
  · rintro (rfl | heq)
    · exact ⟨'_',rfl⟩
    · cases heq with
      | eq hprice _ hargs =>
        obtain ⟨_,rfl⟩ := EventKind.kindText_price_no_args hprice hargs
        exact ⟨'=',rfl⟩

theorem filter_eq (hk : (EventKind.predicate inner (.eq value)).Closed) :
    Text.Stands (kindPattern (some (.predicate inner (.eq value)))) id.asStr ↔ id.EndsLike inner value := by
  have hplain : Text.Plain ['='] := by decide
  have hprinted : (EventKind.predicate inner (.eq value)).toStr = inner.toStr ++ (['='] ++ value) := rfl
  rw [stands_kindPattern,hprinted]
  simp only [Text.stands_append hk.escape_not_mem,Text.stands_plain_append hplain]
  constructor
  · rintro ⟨_,hends,lhs,_,rfl,hlhs,w,rfl,hw⟩
    exact ⟨lhs,w,hends,hlhs,hw⟩
  · rintro ⟨lhs,w,hends,hlhs,hw⟩
    exact ⟨_,hends,lhs,_,rfl,hlhs,w,rfl,hw⟩

theorem value_of_price {nDigits : UInt8} {o : Outcome} (hk : id.eventKind = .ok (.price nDigits))
    (h : Outcome.tryFromIdAndOutcome id value = .ok (.ok o)) : ∃ v, parseU64 value = some v := by
  obtain ⟨_,hr⟩ := Outcome.tryFromIdAndOutcome_eq_ok.mp h
  simp only [Outcome.valueFromIdAndOutcome,hk,MayPanic.ok_bind,MayPanic.pure_eq,Except.ok.injEq] at hr
  split at hr
  next v hv => exact ⟨v,hv⟩
  next => simp at hr

/-- Before an equality that ends an id at its last dot, only the underscore of a bound stands
between a price and a numeral: the value of an equality would be no price. -/
theorem bound_of_suffix (h : id.Accepted) (hs : id.raw.stripEvent = some (p,text)) {c : Char} {n : UInt64} {w : Str}
    (hends : '.' :: (("price".toList ++ c :: displayU64 n) ++ '=' :: w) <:+ id.asStr) (hdot : '.' ∉ w) :
    c = '_' ∧ text = ("price".toList ++ c :: displayU64 n) ++ '=' :: w := by
  have hnumeral : ∀ d, d.isDigit = false → d ∉ displayU64 n := fun d hd => EventKind.displayU64_not_mem hd n
  obtain ⟨d,tail,hcons,hd⟩ := EventKind.displayU64_cons n
  have hdot : '.' ∉ displayU64 n ++ '=' :: w := by simp [hnumeral '.' (by decide),hdot]
  have hsame : text = ("price".toList ++ c :: displayU64 n) ++ '=' :: w := by
    rw [List.append_assoc,List.cons_append] at hends ⊢
    exact (suffix_price_iff h hs hdot ⟨d,tail ++ '=' :: w,by rw [hcons]; rfl,hd⟩).mp hends
  refine ⟨?_,hsame⟩
  obtain ⟨k,htext,hf⟩ := h.fits_at hs
  by_cases hc : c = '='
  · subst hc
    rw [List.append_assoc,List.cons_append] at hsame
    obtain rfl := hsame
    obtain ⟨inner,rfl,hinner⟩ := htext.of_append_eq (by decide) (by decide)
    obtain rfl := hinner.unique EventKind.KindText.price
    cases hf with
    | eq hread =>
      obtain ⟨v,hv⟩ := value_of_price (inner_accessors hs htext).1 hread
      have hsign := EventKind.mem_of_parseU64 hv (by simp : '=' ∈ displayU64 n ++ '=' :: w)
      simp at hsign
  · have heq : '=' ∉ "price".toList ++ c :: displayU64 n := by simp [hnumeral '=' (by decide),Ne.symm hc]
    have hdigits : "price".toList ++ c :: displayU64 n ≠ "price?n".toList := by
      intro he
      have hsplit : "price".toList ++ c :: displayU64 n = "price".toList ++ "?n".toList := he
      have hn : 'n' ∈ displayU64 n := by
        rw [(List.cons.inj (List.append_cancel_left hsplit)).2]
        decide
      exact hnumeral 'n' (by decide) hn
    rw [hsame] at htext
    obtain ⟨inner,rfl,hinner⟩ := htext.of_append_eq heq hdigits
    rcases EventKind.kindText_price_cons.mp hinner with ⟨hbound,_⟩ | ⟨heq',_⟩
    · exact hbound
    · exact absurd heq' hc

/-- An equality that ends an id at its last dot is its kind, as it is printed. -/
theorem endsLike_kind (h : id.Accepted) (hk : (EventKind.predicate inner (.eq value)).Closed)
    (hs : id.raw.stripEvent = some (p,text)) {lhs w : Str} (hends : '.' :: (lhs ++ '=' :: w) <:+ id.asStr)
    (hlhs : Text.Stands inner.toStr lhs) (hdot : '.' ∉ w) :
    id.eventKind = .ok (.predicate inner (.eq w)) ∧ ¬ id.PaddedNumeral := by
  have hprinted : lhs = inner.toStr ∧ text = lhs ++ '=' :: w := by
    by_cases hplain : inner.IsPredicate
    · obtain ⟨n,rfl⟩ := hk.2.1.bound hplain
      obtain ⟨c,rfl⟩ := EventKind.stands_bound.mp hlhs
      obtain ⟨rfl,htext⟩ := bound_of_suffix h hs hends hdot
      exact ⟨(EventKind.toStr_bound n).symm,htext⟩
    · obtain rfl := (Text.stands_plain (hk.1.plain hplain)).mp hlhs
      have hnot := hk.1.sign_not_mem hplain (Or.inl rfl)
      exact ⟨rfl,((h.suffix_iff hs (by simp [hnot,hdot])).mp hends).symm⟩
  obtain ⟨rfl,rfl⟩ := hprinted
  obtain ⟨k,htext,_⟩ := h.fits_at hs
  obtain ⟨heq,hargs⟩ := hk.2.1.toStr_not_mem
  obtain ⟨inner',rfl,hinner⟩ := htext.of_append_eq heq (fun he => hargs (by simp [he]))
  obtain rfl := hinner.unique hk.1.kindText
  exact (toStr_eq_iff htext.closed hs).mp rfl

theorem endsLike_iff (h : id.Accepted) (hk : (EventKind.predicate inner (.eq value)).Closed) :
    id.EndsLike inner value ↔ (∃ other, id.eventKind = .ok (.predicate inner (.eq other)) ∧
      ¬ id.PaddedNumeral ∧ Text.Stands value other) ∨ id.EndsBeyond inner value := by
  obtain ⟨p,text,k,hs,htext,_⟩ := h.fits
  constructor
  · rintro ⟨lhs,w,hends,hlhs,hw⟩
    by_cases hdot : '.' ∈ w
    · exact Or.inr ⟨lhs,w,hends,hlhs,hw,hdot⟩
    · obtain ⟨hkind,hpadded⟩ := endsLike_kind h hk hs hends hlhs hdot
      exact Or.inl ⟨w,hkind,hpadded,hw⟩
  · rintro (⟨other,hkind,hpadded,hw⟩ | ⟨lhs,w,hends,hlhs,hw,_⟩)
    · have hclosed := (eventKind_iff hs).mp hkind |>.closed
      obtain ⟨_,_,_,hraw,_⟩ := Path.stripEvent_eq_some.mp hs
      refine ⟨inner.toStr,other,⟨p.str,?_⟩,Text.stands_self hk.escape_not_mem,hw⟩
      rw [asStr,hraw,← (toStr_eq_iff hclosed hs).mpr ⟨hkind,hpadded⟩]
      rfl
    · exact ⟨lhs,w,hends,hlhs,hw⟩

/-- The filter agrees with the parsed kind exactly where it neither misses the event nor
mistakes it for one of the kind. -/
theorem filteredByKind_iff {spelled : Str} (h : id.Accepted) (hk : EventKind.fromStr spelled = .ok (.ok k)) :
    id.FilteredByKind k ↔ ¬ id.Missed k ∧ ¬ id.Mistaken k := by
  have hclosed := (EventKind.kindText_of_fromStr hk).closed
  obtain ⟨p,text,_,hs,_,_⟩ := h.fits
  by_cases hplain : k.IsPredicate
  · cases k with
    | predicate inner predicate =>
      cases predicate with
      | eq value =>
        rw [FilteredByKind,filter_eq hclosed,endsLike_iff h hclosed]
        by_cases hkind : id.eventKind = .ok (.predicate inner (.eq value))
        · have hself : (∃ other, id.eventKind = .ok (.predicate inner (.eq other)) ∧ ¬ id.PaddedNumeral ∧
              Text.Stands value other) ↔ ¬ id.PaddedNumeral ∧ Text.Stands value value := by
            constructor
            · rintro ⟨other,hother,hstands⟩
              obtain rfl : value = other := by simpa using hkind.symm.trans hother
              exact hstands
            · exact fun hstands => ⟨value,hkind,hstands⟩
          rw [hself]
          simp only [Missed,Mistaken,hkind]
          tauto
        · simp [Missed,Mistaken,hkind]
      | bound boundKind n =>
        cases boundKind
        obtain rfl : inner = .price 0 := hclosed.2
        rw [FilteredByKind,filter_bound h hs]
        by_cases hkind : id.eventKind = .ok (.predicate (.price 0) (.bound .gt n))
        · simp [Missed,Mistaken,hkind]
        · simp [Missed,Mistaken,hkind]
    | _ => exact hplain.elim
  · rw [FilteredByKind,filter_plain h hs hclosed hplain,toStr_eq_iff hclosed hs]
    cases k with
    | predicate => exact absurd trivial hplain
    | _ => simp [Missed,Mistaken]

theorem filteredByKind_iff_at_price : FilteredByKind ⟨⟨"/foo/bar.price_5".toList⟩⟩ (.predicate (.price 0) (.bound .gt 5)) ↔
    ¬ Missed ⟨⟨"/foo/bar.price_5".toList⟩⟩ (.predicate (.price 0) (.bound .gt 5)) ∧
      ¬ Mistaken ⟨⟨"/foo/bar.price_5".toList⟩⟩ (.predicate (.price 0) (.bound .gt 5)) :=
  filteredByKind_iff (by decide +kernel) (by decide +kernel : EventKind.fromStr "price_5".toList = _)

/-- The filter for a bound takes the equality with the same number for it. -/
theorem equality_taken_for_bound : ¬ ∀ (id : EventId) (k : EventKind) (spelled : Str), id.Accepted →
    EventKind.fromStr spelled = .ok (.ok k) → id.FilteredByKind k := by
  intro h
  have hfilter := h ⟨⟨"/foo/bar.price=5".toList⟩⟩ (.predicate (.price 0) (.bound .gt 5)) "price_5".toList
    (by decide +kernel) (by decide +kernel)
  have hkind := hfilter.mp (by decide +kernel)
  revert hkind
  decide +kernel

end EventId
end Olivia
