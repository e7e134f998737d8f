import Olivia.Core.PredicateEvent

/-! # Generated predicates

A source puts predicates on the events that it passes on. The id of a predicate is printed
from the path of the event, its kind without the digits of a price, and the text or the
number that the predicate compares with; nothing parses it again.
-/
namespace Olivia

inductive PredicateKind
  | eq
  | bound (boundKind : BoundKind)
  deriving DecidableEq

/-- The number of nonces is irrelevant to a predicate. -/
def EventKind.dropDigits : EventKind → EventKind
  | price _ => price 0
  | k => k

instance EventKind.decidableIsPredicate : DecidablePred EventKind.IsPredicate
  | predicate _ _ => isTrue trivial
  | vsMatch _ => isFalse id
  | singleOccurrence => isFalse id
  | price _ => isFalse id

/-- `id.predicate(predicate_kind, value)`. -/
def EventId.predicate (id : EventId) (predicateKind : PredicateKind) (value : UInt64) : MayPanic EventId := do
  let eventKind ← id.eventKind
  if eventKind.IsPredicate then .error .assertion
  else
    let predicate ← match predicateKind with
      | .eq => do
        let outcomeString ← Outcome.outcomeString ⟨id,value⟩
        pure (Predicate.eq outcomeString)
      | .bound bound => pure (Predicate.bound bound value)
    id.replaceKind (.predicate eventKind.dropDigits predicate)

inductive OutcomeFilter
  /-- The pattern `*`. -/
  | all
  | indexes (chosen : List UInt64)

def OutcomeFilter.outcomesFor (filter : OutcomeFilter) (id : EventId) : MayPanic (List UInt64) :=
  match filter with
  | .all => do return (List.range (← id.nOutcomes).toNat).map UInt64.ofNat
  | .indexes chosen => .ok chosen

/-- The wrapper that an event source is given in the configuration. -/
structure PredicateSource where
  outcomeFilter : OutcomeFilter
  predicateKind : PredicateKind

def PredicateSource.applyToEventId (source : PredicateSource) (id : EventId) : MayPanic (List EventId) := do
  (← source.outcomeFilter.outcomesFor id).mapM (fun value => id.predicate source.predicateKind value)

namespace EventKind
variable {k : EventKind} {text : Str}

theorem KindText.dropDigits (h : KindText k text) : KindText k.dropDigits k.dropDigits.toStr := by
  cases k with
  | price nDigits => exact KindText.price.toStr
  | _ => exact h.toStr

theorem takesEq_dropDigits (h : ¬ k.IsPredicate) : k.dropDigits.TakesEq := by
  cases k with
  | predicate inner predicate => exact absurd trivial h
  | price nDigits => exact rfl
  | _ => trivial

theorem not_mem_toStr_dropDigits (h : ¬ k.IsPredicate) : '/' ∉ k.dropDigits.toStr := by
  cases k with
  | predicate inner predicate => exact absurd trivial h
  | vsMatch kind => exact EventId.slash_not_mem_toStr kind
  | singleOccurrence => decide
  | price nDigits => exact (by decide : '/' ∉ (price 0).toStr)

/-- A predicate is spelled as it prints where an equality compares without a question mark and
a bound stands on a price. -/
theorem kindText_predicate (h : KindText k text) {predicate : Predicate} (hw : k.dropDigits.Wraps predicate) :
    KindText (.predicate k.dropDigits predicate) (EventKind.predicate k.dropDigits predicate).toStr := by
  have hclosed : (EventKind.predicate k.dropDigits predicate).Closed := ⟨h.dropDigits.closed,hw⟩
  exact hclosed.kindText

theorem wraps_eq_iff (h : ¬ k.IsPredicate) {value : Str} : k.dropDigits.Wraps (.eq value) ↔ '?' ∉ value :=
  ⟨fun hw => hw.2,fun hv => ⟨takesEq_dropDigits h,hv⟩⟩

theorem wraps_bound_iff {boundKind : BoundKind} {target : UInt64} :
    k.dropDigits.Wraps (.bound boundKind target) ↔ ∃ nDigits, k = .price nDigits := by
  cases k with
  | price nDigits => exact iff_of_true rfl ⟨nDigits,rfl⟩
  | _ => exact iff_of_false (by simp [Wraps,dropDigits]) (by simp)

end EventKind

namespace EventId
variable {id : EventId} {p : Path} {k : EventKind} {value n : UInt64} {text : Str} {predicateKind : PredicateKind}

/-- Bounds are put on prices, and an equality on a match names no party with a question mark. -/
def Predicable (id : EventId) (value : UInt64) : PredicateKind → Prop
  | .eq => ∀ left right, id.parties = .ok (some (left,right)) →
      (value = 0 → '?' ∉ left) ∧ (value = 1 → '?' ∉ right)
  | .bound _ => ∃ nDigits, id.eventKind = .ok (.price nDigits)

/-- What the predicate of a kind compares with. -/
def Compares (id : EventId) (value : UInt64) : PredicateKind → Predicate → Prop
  | .eq,predicate => ∃ text, Outcome.outcomeString ⟨id,value⟩ = .ok text ∧ predicate = .eq text
  | .bound boundKind,predicate => predicate = .bound boundKind value

/-- The generated id is accepted, at the path of the event, and is read as the predicate. -/
def GeneratesPredicate (id : EventId) (predicateKind : PredicateKind) (value : UInt64) : Prop :=
  ∃ built k predicate, id.predicate predicateKind value = .ok built ∧ built.Accepted ∧ built.path = id.path ∧
    id.eventKind = .ok k ∧ id.Compares value predicateKind predicate ∧
      built.eventKind = .ok (.predicate k.dropDigits predicate)

theorem Compares.unique {predicate predicate' : Predicate} (h : id.Compares value predicateKind predicate)
    (h' : id.Compares value predicateKind predicate') : predicate = predicate' := by
  cases predicateKind with
  | bound boundKind => exact Eq.trans h (Eq.symm h')
  | eq =>
    obtain ⟨text,htext,rfl⟩ := h
    obtain ⟨text',htext',rfl⟩ := h'
    rw [Except.ok.inj (htext.symm.trans htext')]

theorem Reads.mem_outcomeString (h : id.Reads p k) (hplain : ¬ k.IsPredicate) {c : Char} (hc : c = '?' ∨ c = '/')
    (htext : Outcome.outcomeString ⟨id,value⟩ = .ok text) :
    c ∈ text ↔ ∃ left right, id.parties = .ok (some (left,right)) ∧ (value = 0 ∧ c ∈ left ∨ value = 1 ∧ c ∈ right) := by
  have hsign : c.isDigit = false ∧ c ∉ "_win".toList ∧ c ∉ "draw".toList ∧ c ∉ "true".toList := by
    rcases hc with rfl | rfl <;> decide
  obtain ⟨hdigit,hwin,hdraw,htrue⟩ := hsign
  have hnone : (∀ kind, k ≠ .vsMatch kind) → ¬ ∃ left right, id.parties = .ok (some (left,right)) ∧
      (value = 0 ∧ c ∈ left ∨ value = 1 ∧ c ∈ right) := by
    rintro hne ⟨left,right,hparties,_⟩
    cases k with
    | vsMatch kind => exact hne kind rfl
    | _ => simp [EventId.parties,h.eventKind] at hparties
  cases k with
  | vsMatch kind =>
    obtain ⟨left,right,hparties,_⟩ := h.parties
    have hmatch : kind.outcomeString (.ok (left,right)) value = .ok text := by
      simpa [Outcome.outcomeString,h.eventKind,hparties] using htext
    rw [VsMatchKind.mem_outcomeString hwin hdraw hmatch]
    constructor
    · intro hmem
      exact ⟨left,right,hparties,hmem⟩
    · rintro ⟨_,_,hsame,hmem⟩
      obtain ⟨rfl,rfl⟩ : left = _ ∧ right = _ := by simpa [hparties] using hsame
      exact hmem
  | singleOccurrence =>
    obtain rfl := EventKind.admits_singleOccurrence.mp (h.admits_of_outcomeString htext)
    obtain rfl : "true".toList = text := by simpa [Outcome.outcomeString,h.eventKind,Occur.tryFrom] using htext
    exact iff_of_false htrue (hnone (by simp))
  | predicate inner predicate => exact absurd trivial hplain
  | price nDigits =>
    obtain rfl : displayU64 value = text := by simpa [Outcome.outcomeString,h.eventKind] using htext
    exact iff_of_false (EventKind.displayU64_not_mem hdigit value) (hnone (by simp))

theorem Reads.predicable_eq_iff (h : id.Reads p k) (hplain : ¬ k.IsPredicate)
    (htext : Outcome.outcomeString ⟨id,value⟩ = .ok text) : id.Predicable value .eq ↔ '?' ∉ text := by
  rw [h.mem_outcomeString hplain (Or.inl rfl) htext]
  simp only [Predicable]
  constructor
  · rintro hall ⟨left,right,hparties,⟨hv,hc⟩ | ⟨hv,hc⟩⟩
    · exact (hall left right hparties).1 hv hc
    · exact (hall left right hparties).2 hv hc
  · intro hnone left right hparties
    exact ⟨fun hv hc => hnone ⟨left,right,hparties,Or.inl ⟨hv,hc⟩⟩,
      fun hv hc => hnone ⟨left,right,hparties,Or.inr ⟨hv,hc⟩⟩⟩

/-- The text of a party has no slash, being part of a segment. -/
theorem Reads.slash_not_mem_outcomeString (h : id.Reads p k) (hplain : ¬ k.IsPredicate)
    (htext : Outcome.outcomeString ⟨id,value⟩ = .ok text) : '/' ∉ text := by
  rw [h.mem_outcomeString hplain (Or.inr rfl) htext]
  rintro ⟨left,right,hparties,hmem⟩
  cases k with
  | vsMatch kind =>
    obtain ⟨_,hs⟩ := path_eq_ok h.path
    obtain ⟨init,name,hp,_,hslash,_⟩ := Path.stripEvent_eq_some.mp hs
    cases h.fits with
    | @vsMatch _ l r hlast hl hr hne =>
      have hsame := (parties_vsMatch h.eventKind h.path hlast hl hr).symm.trans hparties
      obtain ⟨rfl,rfl⟩ : l = left ∧ r = right := by simpa using hsame
      rw [Path.last_eq hp hslash] at hlast
      rw [hlast] at hslash
      simp only [List.mem_append,List.mem_cons,not_or] at hslash
      rcases hmem with ⟨_,hc⟩ | ⟨_,hc⟩
      · exact hslash.1 hc
      · exact hslash.2.2 hc
  | _ => simp [EventId.parties,h.eventKind] at hparties

/-- The digits of a price are not part of the text of an outcome. -/
theorem outcomeString_dropDigits {base : EventId} (hk : id.eventKind = .ok k) (hp : id.path = .ok p)
    (hbase : base.eventKind = .ok k.dropDigits) (hpath : base.path = .ok p) :
    Outcome.outcomeString ⟨base,value⟩ = Outcome.outcomeString ⟨id,value⟩ := by
  cases k with
  | price nDigits =>
    have hzero : base.eventKind = .ok (.price 0) := hbase
    simp [Outcome.outcomeString,hk,hzero]
  | _ =>
    have hsame : base.eventKind = id.eventKind := hbase.trans hk.symm
    simp only [Outcome.outcomeString,EventId.parties,hsame,hp,hpath]

theorem Fits.dropDigits (h : Fits p k) : Fits p k.dropDigits := by
  cases k with
  | price nDigits => exact Fits.price
  | _ => exact h

theorem predicate_eq {predicate : Predicate} (hk : id.eventKind = .ok k) (hp : id.path = .ok p)
    (hplain : ¬ k.IsPredicate) (hc : id.Compares value predicateKind predicate) :
    id.predicate predicateKind value = .ok (fromPathAndKind p (.predicate k.dropDigits predicate)) := by
  cases predicateKind with
  | eq =>
    obtain ⟨text,htext,rfl⟩ := hc
    simp [EventId.predicate,hk,hplain,htext,replaceKind_eq hp]
  | bound boundKind =>
    obtain rfl := hc
    simp [EventId.predicate,hk,hplain,replaceKind_eq hp]

/-- The value is one that the event of the inner kind has, in the text that it is printed as. -/
theorem Reads.fits_predicate (h : id.Reads p k) (hplain : ¬ k.IsPredicate) (hv : k.Admits value)
    {predicate : Predicate} (hc : id.Compares value predicateKind predicate) :
    Fits p (.predicate k.dropDigits predicate) := by
  cases predicateKind with
  | bound boundKind =>
    obtain rfl := hc
    exact Fits.bound
  | eq =>
    obtain ⟨text,htext,rfl⟩ := hc
    obtain ⟨_,spelled,hs,hspelled⟩ := eventKind_eq_ok h.eventKind
    obtain rfl : p = _ := Except.ok.inj (h.path.symm.trans (path_eq hs))
    have hcut := stripEvent_fromPathAndKind hs (EventKind.not_mem_toStr_dropDigits hplain)
    have hbase : (fromPathAndKind p k.dropDigits).Reads p k.dropDigits :=
      ⟨path_eq hcut,eventKind_eq hcut hspelled.dropDigits,h.fits.dropDigits⟩
    have hadmits : k.dropDigits.Admits value := by
      cases k with
      | price nDigits => trivial
      | _ => exact hv
    obtain ⟨printed,hprinted,hread⟩ := hbase.printed hadmits
    rw [outcomeString_dropDigits h.eventKind h.path hbase.eventKind hbase.path] at hprinted
    obtain rfl := Except.ok.inj (htext.symm.trans hprinted)
    exact Fits.eq hread

theorem Reads.not_mem_toStr_predicate (h : id.Reads p k) (hplain : ¬ k.IsPredicate) {predicate : Predicate}
    (hc : id.Compares value predicateKind predicate) : '/' ∉ (EventKind.predicate k.dropDigits predicate).toStr := by
  rw [EventKind.toStr,List.mem_append,not_or]
  refine ⟨EventKind.not_mem_toStr_dropDigits hplain,?_⟩
  cases predicateKind with
  | bound boundKind =>
    obtain rfl := hc
    cases boundKind
    have hdigits := EventKind.displayU64_not_mem (c := '/') (by decide) value
    simp [Predicate.toStr,hdigits]
  | eq =>
    obtain ⟨text,htext,rfl⟩ := hc
    have hslash := h.slash_not_mem_outcomeString hplain htext
    simp [Predicate.toStr,hslash]

/-- A generated id is valid exactly where the parser lets the inner kind carry the predicate. -/
theorem generatesPredicate_iff_wraps (h : id.Accepted) (hr : id.Reads p k) (hplain : ¬ k.IsPredicate)
    (hv : k.Admits value) {predicate : Predicate} (hc : id.Compares value predicateKind predicate) :
    id.GeneratesPredicate predicateKind value ↔ k.dropDigits.Wraps predicate := by
  obtain ⟨_,text,hs,hspelled⟩ := eventKind_eq_ok hr.eventKind
  obtain rfl : p = _ := Except.ok.inj (hr.path.symm.trans (path_eq hs))
  constructor
  · rintro ⟨built,l,other,hbuilt,_,_,hl,hcompares,hkind⟩
    obtain rfl : k = l := Except.ok.inj (hr.eventKind.symm.trans hl)
    obtain rfl : predicate = other := hc.unique hcompares
    obtain ⟨_,_,_,htext⟩ := eventKind_eq_ok hkind
    exact htext.closed.2
  · intro hw
    have hkt := EventKind.kindText_predicate hspelled hw
    have hslash := hr.not_mem_toStr_predicate hplain hc
    have hcut := stripEvent_fromPathAndKind hs hslash
    have haccepted := (accepted_fromPathAndKind_iff h hs hkt hslash).mpr (hr.fits_predicate hplain hv hc)
    exact ⟨_,k,predicate,predicate_eq hr.eventKind hr.path hplain hc,haccepted,(path_eq hcut).trans hr.path.symm,
      hr.eventKind,hc,eventKind_eq hcut hkt⟩

/-- The predicates of an event's outcomes that are valid are those that the event takes. -/
theorem Reads.generatesPredicate_iff_predicable (h : id.Accepted) (hr : id.Reads p k) (hplain : ¬ k.IsPredicate)
    (hv : k.Admits value) : id.GeneratesPredicate predicateKind value ↔ id.Predicable value predicateKind := by
  cases predicateKind with
  | eq =>
    obtain ⟨text,htext,_⟩ := hr.printed hv
    have hc : id.Compares value .eq (.eq text) := ⟨text,htext,rfl⟩
    rw [generatesPredicate_iff_wraps h hr hplain hv hc,EventKind.wraps_eq_iff hplain,
      hr.predicable_eq_iff hplain htext]
  | bound boundKind =>
    have hc : id.Compares value (.bound boundKind) (.bound boundKind value) := rfl
    rw [generatesPredicate_iff_wraps h hr hplain hv hc,EventKind.wraps_bound_iff]
    simp [Predicable,hr.eventKind]

/-- Below the number of outcomes the generated id is valid, at the path of the event and of the
predicate asked for, exactly where the event takes this predicate. -/
theorem generatesPredicate_iff (h : id.Accepted) (hk : id.eventKind = .ok k) (hplain : ¬ k.IsPredicate)
    (hn : id.nOutcomes = .ok n) (hv : value < n) :
    id.GeneratesPredicate predicateKind value ↔ id.Predicable value predicateKind := by
  obtain ⟨p,l,hr⟩ := h.reads
  obtain rfl : k = l := Except.ok.inj (hk.symm.trans hr.eventKind)
  have hadmits : k.Admits value := (validValue_iff hk).mp ⟨k,hk,Or.inr ⟨n,hn,hv⟩⟩
  exact hr.generatesPredicate_iff_predicable h hplain hadmits

theorem generatesPredicate_at_party :
    GeneratesPredicate ⟨⟨"/foo/A_B.vs".toList⟩⟩ .eq 0 ↔ Predicable ⟨⟨"/foo/A_B.vs".toList⟩⟩ 0 .eq :=
  generatesPredicate_iff (k := .vsMatch .winOrDraw) (n := 3) (by decide +kernel) (by decide +kernel)
    (by decide) (by decide +kernel) (by decide)

/-- A match takes no bound, and a question mark in the name of a party cuts the text short. -/
theorem generated_predicate_invalid :
    (¬ ∀ (id : EventId) (predicateKind : PredicateKind) (k : EventKind) (value n : UInt64), id.Accepted →
      id.eventKind = .ok k → ¬ k.IsPredicate → id.nOutcomes = .ok n → value < n →
        id.GeneratesPredicate predicateKind value) ∧
    EventId.Accepted ⟨⟨"/foo/A?_B.vs".toList⟩⟩ ∧ ¬ GeneratesPredicate ⟨⟨"/foo/A?_B.vs".toList⟩⟩ .eq 0 := by
  have hrejected : ∀ (id built : EventId) (predicateKind : PredicateKind) (value : UInt64),
      id.predicate predicateKind value = .ok built → ¬ built.Accepted → ¬ id.GeneratesPredicate predicateKind value := by
    rintro id built predicateKind value hbuilt hnot ⟨_,_,_,hother,haccepted,_⟩
    obtain rfl := Except.ok.inj (hbuilt.symm.trans hother)
    exact hnot haccepted
  have hbound : EventId.predicate ⟨⟨"/foo/A_B.vs".toList⟩⟩ (.bound .gt) 1 = .ok ⟨⟨"/foo/A_B.vs_1".toList⟩⟩ := by
    decide +kernel
  have hquestion : EventId.predicate ⟨⟨"/foo/A?_B.vs".toList⟩⟩ .eq 0 =
      .ok ⟨⟨"/foo/A?_B.vs=A?_win".toList⟩⟩ := by decide +kernel
  refine ⟨?_,by decide +kernel,hrejected _ _ _ _ hquestion (by decide +kernel)⟩
  intro h
  refine hrejected _ _ _ _ hbound (by decide +kernel) (h _ _ (.vsMatch .winOrDraw) 1 3 ?_ ?_ (by decide) ?_ (by decide))
  · decide +kernel
  · decide +kernel
  · decide +kernel

end EventId

namespace PredicateSource
variable {source : PredicateSource} {id : EventId} {k : EventKind} {values : List UInt64}

/-- The filter `*` chooses outcomes that the event has. -/
theorem admits_of_outcomesFor_all (hk : id.eventKind = .ok k)
    (h : OutcomeFilter.all.outcomesFor id = .ok values) : ∀ value ∈ values, k.Admits value := by
  obtain ⟨n,hn,h⟩ := MayPanic.bind_eq_ok.mp h
  obtain rfl := Except.ok.inj h
  intro value hvalue
  obtain ⟨i,hi,rfl⟩ := List.mem_map.mp hvalue
  have hlt : i < n.toNat := List.mem_range.mp hi
  have hbelow : UInt64.ofNat i < n := by
    rw [UInt64.lt_iff_toNat_lt,UInt64.toNat_ofNat_of_lt' (Nat.lt_trans hlt n.toNat_lt_size)]
    exact hlt
  exact (EventId.validValue_iff hk).mp ⟨k,hk,Or.inr ⟨n,hn,hbelow⟩⟩

/-- A source that generates for outcomes of the event gives each of them its predicate. -/
theorem applyToEventId_isOk {p : Path} (h : id.Accepted) (hr : id.Reads p k) (hplain : ¬ k.IsPredicate)
    (hvalues : source.outcomeFilter.outcomesFor id = .ok values)
    (hadmits : ∀ value ∈ values, k.Admits value) (hall : ∀ value ∈ values, id.Predicable value source.predicateKind) :
    ∃ ids, source.applyToEventId id = .ok ids ∧ ids.length = values.length ∧
      ∀ built ∈ ids, built.Accepted ∧ built.path = id.path := by
  have hvalid : ∀ value ∈ values, id.GeneratesPredicate source.predicateKind value :=
    fun value hvalue => (hr.generatesPredicate_iff_predicable h hplain (hadmits value hvalue)).mpr (hall value hvalue)
  have hreturns : ∀ value ∈ values, ∃ built, id.predicate source.predicateKind value = .ok built := by
    intro value hvalue
    obtain ⟨built,_,_,hbuilt,_⟩ := hvalid value hvalue
    exact ⟨built,hbuilt⟩
  obtain ⟨ids,hids⟩ := MayPanic.mapM_isOk hreturns
  obtain ⟨hlength,hat⟩ := MayPanic.mapM_eq_ok hids
  refine ⟨ids,by rw [applyToEventId,hvalues,MayPanic.ok_bind,hids],hlength,?_⟩
  intro built hmem
  obtain ⟨i,hi,hbuilt⟩ := List.mem_iff_getElem.mp hmem
  have hvalue : values[i]? = some values[i] := List.getElem?_eq_getElem (hlength ▸ hi)
  obtain ⟨other,hother,hpredicate⟩ := hat i _ hvalue
  rw [List.getElem?_eq_getElem hi,hbuilt] at hother
  obtain rfl := Option.some.inj hother
  obtain ⟨generated,_,_,hgenerated,haccepted,hpath,_⟩ := hvalid _ (List.mem_of_getElem? hvalue)
  obtain rfl := Except.ok.inj (hpredicate.symm.trans hgenerated)
  exact ⟨haccepted,hpath⟩

end PredicateSource
end Olivia
