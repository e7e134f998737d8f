import Olivia.Core.Canonical
import Olivia.Core.OutcomeLaws

/-! # Predicate events and their base events

A predicate stands on the event of its inner kind at the same path. The parser reads the
value of an equality against that event without parsing its id, and the predicate compares
the value as a text: both go wrong on some of the ids that are accepted.
-/
namespace Olivia

/-- The kind below all predicates. -/
def EventKind.base : EventKind → EventKind
  | predicate inner _ => inner.base
  | k => k

/-- A segment that names two different parties. -/
def TwoParties (segment : Str) : Prop := ∃ left right, segment.splitOn '_' = [left,right] ∧ left ≠ right

/-- What a predicate wraps has a text of its own and takes an equality. -/
theorem EventKind.KindText.inner {inner : EventKind} {predicate : Predicate} {text : Str}
    (h : KindText (.predicate inner predicate) text) :
    ∃ lhs, KindText inner lhs ∧ inner.TakesEq ∧ ∀ c ∈ lhs, c ∈ text := by
  cases h with
  | @eq _ lhs value h heq hargs hvalue =>
    exact ⟨lhs,h,h.takesEq heq hargs,fun c hc => List.mem_append_left _ hc⟩
  | @bound digits target h =>
    refine ⟨"price".toList,KindText.price,rfl,?_⟩
    intro c hc
    have hs : "price_".toList = "price".toList ++ ['_'] := by decide
    rw [hs,List.append_assoc]
    exact List.mem_append_left _ hc

namespace EventId
variable {id : EventId} {p : Path} {k inner : EventKind}

/-- Below a predicate there is an accepted event of the same path and the inner kind, and so
on down to a kind that is no predicate. -/
def StandsOnBase : EventKind → EventId → Prop
  | .predicate inner _,id => ∃ base, id.replaceKind inner = .ok base ∧ base.Accepted ∧
      base.path = id.path ∧ base.eventKind = .ok inner ∧ StandsOnBase inner base
  | _,_ => True

theorem fits_iff_of_takesEq (h : inner.TakesEq) :
    Fits p inner ↔ ∀ kind, inner = .vsMatch kind → TwoParties p.last := by
  constructor
  · rintro hf kind rfl
    cases hf with
    | vsMatch hlast hl hr hne => exact ⟨_,_,Text.splitOn_eq_pair.mpr ⟨hlast,hl,hr⟩,hne⟩
  · intro htwo
    cases inner with
    | vsMatch kind =>
      obtain ⟨left,right,hsplit,hne⟩ := htwo kind rfl
      obtain ⟨hlast,hl,hr⟩ := Text.splitOn_eq_pair.mp hsplit
      exact Fits.vsMatch hlast hl hr hne
    | singleOccurrence => exact Fits.singleOccurrence
    | price => exact Fits.price
    | predicate inner predicate =>
      cases predicate with
      | eq value => exact h.elim
      | bound => exact Fits.bound

/-- An id that keeps the path of an accepted one and prints its kind without a slash is
accepted where its kind fits the path. -/
theorem accepted_fromPathAndKind_iff {text : Str} (h : id.Accepted)
    (hs : id.raw.stripEvent = some (p,text)) (hk : EventKind.KindText k k.toStr)
    (hslash : '/' ∉ k.toStr) : (fromPathAndKind p k).Accepted ↔ Fits p k := by
  have hcut := stripEvent_fromPathAndKind hs hslash
  have hpath : Path.fromStr (fromPathAndKind p k).asStr = .ok (fromPathAndKind p k).raw :=
    fromStr_printed (h.head_path (path_eq hs)) hslash
  rw [Accepted,EventId.fromStr_path hpath]
  constructor
  · intro htry
    obtain ⟨_,q,text,l,hs,hl,hf⟩ := fits_of_tryFrom htry
    obtain ⟨rfl,rfl⟩ : p = q ∧ k.toStr = text := by simpa [hcut] using hs
    obtain rfl : k = l := hk.unique hl
    exact hf
  · intro hf
    exact tryFrom_of_fits hcut hk hf

/-- The event below a predicate has the path of the predicate and the kind that it wraps. -/
theorem replaceKind_reads {predicate : Predicate} (hp : id.path = .ok p)
    (hk : id.eventKind = .ok (.predicate inner predicate)) : ∃ base, id.replaceKind inner = .ok base ∧
      base.path = .ok p ∧ base.eventKind = .ok inner ∧ inner.TakesEq := by
  obtain ⟨q,text,hs,htext⟩ := eventKind_eq_ok hk
  obtain rfl : p = q := Except.ok.inj (hp.symm.trans (path_eq hs))
  obtain ⟨lhs,hlhs,htakes,hmem⟩ := htext.inner
  obtain ⟨_,_,_,_,_,_,htext⟩ := Path.stripEvent_eq_some.mp hs
  have hslash : '/' ∉ inner.toStr := hlhs.not_mem_toStr (by decide) (fun hc => htext (hmem _ hc))
  have hcut := stripEvent_fromPathAndKind hs hslash
  exact ⟨_,replaceKind_eq hp inner,path_eq hcut,eventKind_eq hcut hlhs.toStr,htakes⟩

/-- The event below an accepted predicate, as far as the parser has looked at it. -/
theorem Accepted.replaceKind_inner {predicate : Predicate} (h : id.Accepted)
    (hp : id.path = .ok p) (hk : id.eventKind = .ok (.predicate inner predicate)) :
    ∃ base, id.replaceKind inner = .ok base ∧ base.path = .ok p ∧ base.eventKind = .ok inner ∧
      (base.Accepted ↔ ∀ kind, inner = .vsMatch kind → TwoParties p.last) := by
  obtain ⟨q,text,hs,htext⟩ := eventKind_eq_ok hk
  obtain rfl : p = q := Except.ok.inj (hp.symm.trans (path_eq hs))
  obtain ⟨lhs,hlhs,_,hmem⟩ := htext.inner
  obtain ⟨_,_,_,_,_,_,htext⟩ := Path.stripEvent_eq_some.mp hs
  have hslash : '/' ∉ inner.toStr := hlhs.not_mem_toStr (by decide) (fun hc => htext (hmem _ hc))
  obtain ⟨base,hbase,hpath,hkind,htakes⟩ := replaceKind_reads hp hk
  obtain rfl := Except.ok.inj ((replaceKind_eq hp inner).symm.trans hbase)
  refine ⟨_,hbase,hpath,hkind,?_⟩
  rw [accepted_fromPathAndKind_iff h hs hlhs.toStr hslash,fits_iff_of_takesEq htakes]

/-- An accepted id stands on accepted base ids exactly where a match below its predicates has
a last segment with two different parties. -/
theorem standsOnBase_iff (h : id.Accepted) (hp : id.path = .ok p) (hk : id.eventKind = .ok k) :
    StandsOnBase k id ↔ ∀ kind, k.base = .vsMatch kind → TwoParties p.last := by
  induction k generalizing id with
  | vsMatch kind =>
    obtain ⟨q,text,l,hs,hl,hf⟩ := h.fits
    obtain rfl : p = q := Except.ok.inj (hp.symm.trans (path_eq hs))
    obtain rfl : .vsMatch kind = l := Except.ok.inj (hk.symm.trans (eventKind_eq hs hl))
    have htakes : EventKind.TakesEq (.vsMatch kind) := trivial
    exact iff_of_true trivial (fun _ _ => (fits_iff_of_takesEq htakes).mp hf kind rfl)
  | singleOccurrence => exact iff_of_true trivial (fun _ hkind => nomatch hkind)
  | price => exact iff_of_true trivial (fun _ hkind => nomatch hkind)
  | predicate inner predicate ih =>
    obtain ⟨base,hbase,hpath,hkind,haccepted⟩ := h.replaceKind_inner hp hk
    constructor
    · rintro ⟨other,hother,hacc,_,_,hstands⟩
      obtain rfl : base = other := Except.ok.inj (hbase.symm.trans hother)
      exact (ih hacc hpath hkind).mp hstands
    · intro htwo
      have hacc : base.Accepted := by
        refine haccepted.mpr ?_
        rintro kind rfl
        exact htwo kind rfl
      exact ⟨base,hbase,hacc,hpath.trans hp.symm,hkind,(ih hacc hpath hkind).mpr htwo⟩

theorem standsOnBase_at_two_parties :
    StandsOnBase (.predicate (.vsMatch .winOrDraw) (.eq "A_win".toList)) ⟨⟨"/foo/A_B.vs=A_win".toList⟩⟩ ↔
      ∀ kind, EventKind.base (.predicate (.vsMatch .winOrDraw) (.eq "A_win".toList)) = .vsMatch kind →
        TwoParties "A_B".toList :=
  standsOnBase_iff (p := ⟨"/foo/A_B".toList⟩) (by decide +kernel) (by decide +kernel) (by decide +kernel)

theorem three_parties_have_no_base : ¬ ∀ (id : EventId) (inner : EventKind) (predicate : Predicate),
    id.Accepted → id.eventKind = .ok (.predicate inner predicate) →
      ∃ base, id.replaceKind inner = .ok base ∧ base.Accepted := by
  intro h
  obtain ⟨base,hbase,hacc⟩ := h ⟨⟨"/foo/A_B_C.vs=A_win".toList⟩⟩ (.vsMatch .winOrDraw) (.eq "A_win".toList)
    (by decide +kernel) (by decide +kernel)
  have hreplaced : replaceKind ⟨⟨"/foo/A_B_C.vs=A_win".toList⟩⟩ (.vsMatch .winOrDraw) =
      .ok ⟨⟨"/foo/A_B_C.vs".toList⟩⟩ := by decide +kernel
  obtain rfl := Except.ok.inj (hbase.symm.trans hreplaced)
  exact absurd hacc (by decide +kernel)

end EventId

/-- What a predicate on a base event says of one of its outcomes. -/
def Predicate.HoldsOf (base : EventId) (value : UInt64) : Predicate → Prop
  | .eq text => Outcome.tryFromIdAndOutcome base text = .ok (.ok ⟨base,value⟩)
  | .bound .gt target => target < value

instance Predicate.decidableHoldsOf (base : EventId) (value : UInt64) :
    (p : Predicate) → Decidable (p.HoldsOf base value)
  | .eq _ => inferInstanceAs (Decidable (_ = _))
  | .bound .gt target => inferInstanceAs (Decidable (target < value))

/-- A text is printed for the one value it is read as. -/
def Outcome.PrintedOnlyFor (base : EventId) (text : Str) (v : UInt64) : Prop :=
  ∀ w, base.ValidValue w → ∃ printed, outcomeString ⟨base,w⟩ = .ok printed ∧ (printed = text ↔ v = w)

namespace VsMatchKind
variable {left right text : Str} {v : UInt64}

theorem admits_sides (kind : VsMatchKind) :
    (EventKind.vsMatch kind).Admits 0 ∧ (EventKind.vsMatch kind).Admits 1 := by
  cases kind with
  | winOrDraw => exact ⟨EventKind.admits_winOrDraw.mpr (by simp),EventKind.admits_winOrDraw.mpr (by simp)⟩
  | win => exact ⟨EventKind.admits_win.mpr (by simp),EventKind.admits_win.mpr (by simp)⟩

/-- Two equal parties win with the same text. -/
theorem outcomeString_sides_of_eq {party : Str} {kind : VsMatchKind} (h : (EventKind.vsMatch kind).Admits v)
    (hprint : kind.outcomeString (.ok (party,party)) v = .ok text) (hdraw : kind = .winOrDraw → text ≠ "draw".toList) :
    kind.outcomeString (.ok (party,party)) 0 = .ok text ∧ kind.outcomeString (.ok (party,party)) 1 = .ok text := by
  have hv : v = 0 ∨ v = 1 := by
    cases kind with
    | winOrDraw =>
      rcases EventKind.admits_winOrDraw.mp h with rfl | rfl | rfl
      · exact Or.inl rfl
      · exact Or.inr rfl
      · exact absurd (Except.ok.inj hprint).symm (hdraw rfl)
    | win => exact EventKind.admits_win.mp h
  rcases hv with rfl | rfl
  · exact ⟨hprint,by cases kind <;> exact hprint⟩
  · exact ⟨by cases kind <;> exact hprint,hprint⟩

/-- A draw has a text of its own. -/
theorem draw_printed_once (left right : Str) {w : UInt64} (hw : (EventKind.vsMatch .winOrDraw).Admits w) :
    ∃ printed, outcomeString .winOrDraw (.ok (left,right)) w = .ok printed ∧ (printed = "draw".toList ↔ 2 = w) := by
  rcases EventKind.admits_winOrDraw.mp hw with rfl | rfl | rfl
  · exact ⟨left ++ "_win".toList,rfl,iff_of_false (win_ne_draw left) (by decide)⟩
  · exact ⟨right ++ "_win".toList,rfl,iff_of_false (win_ne_draw right) (by decide)⟩
  · exact ⟨"draw".toList,rfl,iff_of_true rfl rfl⟩

/-- Only equal parties share a text, and they do not share a draw. -/
theorem printedOnlyFor_iff {kind : VsMatchKind} (h : kind.outcomeValue left right text = .ok v) :
    (∀ w, (EventKind.vsMatch kind).Admits w →
      ∃ printed, kind.outcomeString (.ok (left,right)) w = .ok printed ∧ (printed = text ↔ v = w)) ↔
      (kind = .winOrDraw ∧ text = "draw".toList) ∨ left ≠ right := by
  have hprint := outcomeString_outcomeValue h
  constructor
  · intro honly
    by_contra hplain
    push Not at hplain
    obtain ⟨hdraw,rfl⟩ := hplain
    have hvalue : ∀ w, (EventKind.vsMatch kind).Admits w → kind.outcomeString (.ok (left,left)) w = .ok text → v = w := by
      intro w hw hsame
      obtain ⟨printed,hprinted,hiff⟩ := honly w hw
      exact hiff.mp (Except.ok.inj (hprinted.symm.trans hsame))
    obtain ⟨hzero,hone⟩ := outcomeString_sides_of_eq (admits_of_outcomeValue h) hprint hdraw
    have hzero : v = 0 := hvalue 0 kind.admits_sides.1 hzero
    have hone : v = 1 := hvalue 1 kind.admits_sides.2 hone
    exact absurd (hzero.symm.trans hone) (by decide)
  · rintro (⟨rfl,rfl⟩ | hne) w hw
    · obtain rfl : v = 2 := by
        simp only [outcomeValue,if_true] at h
        exact (Except.ok.inj h).symm
      exact draw_printed_once left right hw
    · obtain ⟨printed,hprinted,hread⟩ := kind.outcomeValue_outcomeString hne hw
      refine ⟨printed,hprinted,?_⟩
      constructor
      · rintro rfl
        exact Except.ok.inj (h.symm.trans hread)
      · rintro rfl
        exact Except.ok.inj (hprinted.symm.trans hprint)

end VsMatchKind

namespace EventId
variable {id : EventId} {p : Path} {k inner : EventKind}

/-- Where the text of an equality is the printed one: a price without padding, and a match
whose first two parties differ unless it is the draw. -/
def PlainValue (p : Path) (inner : EventKind) (value : Str) : Prop :=
  match inner with
  | .price _ => ¬ Text.Padded value
  | .vsMatch kind => (kind = .winOrDraw ∧ value = "draw".toList) ∨
      (p.last.splitOn '_')[0]? ≠ (p.last.splitOn '_')[1]?
  | _ => True

section
variable {base : EventId} {text : Str} {v : UInt64}

theorem printedOnlyFor_vsMatch {kind : VsMatchKind} (hp : base.path = .ok p)
    (hk : base.eventKind = .ok (.vsMatch kind))
    (hread : Outcome.valueFromIdAndOutcome base text = .ok (.ok v)) :
    Outcome.PrintedOnlyFor base text v ↔ PlainValue p (.vsMatch kind) text := by
  have hreturns : ∃ r, Outcome.tryFromIdAndOutcome base text = .ok r :=
    ⟨_,by rw [Outcome.tryFromIdAndOutcome,hread,MayPanic.ok_bind,MayPanic.pure_eq]⟩
  have hmem : '_' ∈ p.last := (tryFromIdAndOutcome_isOk hk hp).mp hreturns ⟨kind,rfl⟩
  obtain ⟨left,right,rest,hsplit⟩ := Text.splitOn_of_mem hmem
  have hparties : base.parties = .ok (some (left,right)) := by simp [parties,hk,hp,hsplit]
  have hvalue : kind.outcomeValue left right text = .ok v := by
    simpa [Outcome.valueFromIdAndOutcome,hk,hparties] using hread
  have hprint : ∀ w, Outcome.outcomeString ⟨base,w⟩ = kind.outcomeString (.ok (left,right)) w := by
    intro w
    simp [Outcome.outcomeString,hk,hparties]
  have hplain : PlainValue p (.vsMatch kind) text ↔
      (kind = .winOrDraw ∧ text = "draw".toList) ∨ left ≠ right := by
    simp [PlainValue,hsplit]
  rw [hplain,← VsMatchKind.printedOnlyFor_iff hvalue]
  simp only [Outcome.PrintedOnlyFor,validValue_iff hk,hprint]

theorem printedOnlyFor_price {nDigits : UInt8} (hk : base.eventKind = .ok (.price nDigits))
    (hread : parseU64 text = some v) : Outcome.PrintedOnlyFor base text v ↔ ¬ Text.Padded text := by
  have hprint : ∀ w, Outcome.outcomeString ⟨base,w⟩ = .ok (displayU64 w) := by
    intro w
    simp [Outcome.outcomeString,hk]
  constructor
  · intro honly
    obtain ⟨printed,hprinted,hiff⟩ := honly v ((validValue_iff hk).mpr trivial)
    obtain rfl := Except.ok.inj ((hprint v).symm.trans hprinted)
    exact (EventKind.displayU64_eq_iff hread).mp (hiff.mpr rfl)
  · intro hplain w _
    refine ⟨displayU64 w,hprint w,?_⟩
    constructor
    · rintro rfl
      exact Option.some.inj (hread.symm.trans (parseU64_displayU64 w))
    · rintro rfl
      exact (EventKind.displayU64_eq_iff hread).mpr hplain

theorem printedOnlyFor_singleOccurrence (hk : base.eventKind = .ok .singleOccurrence)
    (hread : Outcome.valueFromIdAndOutcome base text = .ok (.ok v)) : Outcome.PrintedOnlyFor base text v := by
  intro w hw
  obtain rfl := EventKind.admits_singleOccurrence.mp ((validValue_iff hk).mp hw)
  simp only [Outcome.valueFromIdAndOutcome,hk,MayPanic.ok_bind,MayPanic.pure_eq,Except.ok.injEq] at hread
  split at hread
  next htext =>
    obtain rfl := Except.ok.inj hread
    exact ⟨"true".toList,by simp [Outcome.outcomeString,hk,Occur.tryFrom],iff_of_true htext.symm rfl⟩
  next => simp at hread

theorem printedOnlyFor_predicate {predicate : Predicate} (hk : base.eventKind = .ok (.predicate inner predicate))
    (hread : Outcome.valueFromIdAndOutcome base text = .ok (.ok v)) : Outcome.PrintedOnlyFor base text v := by
  have hprint : ∀ truth : Bool, Outcome.outcomeString ⟨base,if truth then 1 else 0⟩ = .ok (displayBool truth) := by
    intro truth
    cases truth <;> simp [Outcome.outcomeString,hk]
  simp only [Outcome.valueFromIdAndOutcome,hk,MayPanic.ok_bind,MayPanic.pure_eq,Except.ok.injEq] at hread
  split at hread
  next truth hparse =>
    obtain rfl := Except.ok.inj hread
    obtain rfl := parseBool_eq_some.mp hparse
    have honly : ∀ other : Bool, displayBool other = displayBool truth ↔
        (if truth then (1 : UInt64) else 0) = if other then 1 else 0 := by
      cases truth <;> decide
    intro w hw
    rcases EventKind.admits_predicate.mp ((validValue_iff hk).mp hw) with rfl | rfl
    · exact ⟨_,hprint false,honly false⟩
    · exact ⟨_,hprint true,honly true⟩
  next => simp at hread

theorem printedOnlyFor_iff (hp : base.path = .ok p) (hk : base.eventKind = .ok inner)
    (hread : Outcome.valueFromIdAndOutcome base text = .ok (.ok v)) :
    Outcome.PrintedOnlyFor base text v ↔ PlainValue p inner text := by
  cases inner with
  | vsMatch kind => exact printedOnlyFor_vsMatch hp hk hread
  | singleOccurrence => exact iff_of_true (printedOnlyFor_singleOccurrence hk hread) trivial
  | predicate inner predicate => exact iff_of_true (printedOnlyFor_predicate hk hread) trivial
  | price nDigits =>
    simp only [Outcome.valueFromIdAndOutcome,hk,MayPanic.ok_bind,MayPanic.pure_eq,Except.ok.injEq] at hread
    split at hread
    next value hparse =>
      obtain rfl := Except.ok.inj hread
      exact printedOnlyFor_price hk hparse
    next => simp at hread

end

/-- The outcomes of one base event, each evaluated on the text it is printed as. -/
def EvaluatesOn (base : EventId) (predicate : Predicate) : Prop :=
  ∀ w, base.ValidValue w → ∃ text, Outcome.outcomeString ⟨base,w⟩ = .ok text ∧
    predicate.predicateOutcome text = .ok (if predicate.HoldsOf base w then 1 else 0)

/-- The predicate of an event holds of exactly the outcomes it evaluates to one on. -/
def PredicateMeans (id : EventId) : Prop :=
  ∀ inner predicate base, id.eventKind = .ok (.predicate inner predicate) →
    id.replaceKind inner = .ok base → EvaluatesOn base predicate

theorem evaluatesOn_eq_iff {base : EventId} {value : Str} {v : UInt64}
    (hread : Outcome.valueFromIdAndOutcome base value = .ok (.ok v)) :
    EvaluatesOn base (.eq value) ↔ Outcome.PrintedOnlyFor base value v := by
  have hholds : ∀ w, Predicate.HoldsOf base w (.eq value) ↔ v = w := by
    intro w
    simp [Predicate.HoldsOf,Outcome.tryFromIdAndOutcome,hread,Except.map]
  have hiff : ∀ (text : Str) (w : UInt64), Predicate.predicateOutcome (.eq value) text =
      .ok (if Predicate.HoldsOf base w (.eq value) then 1 else 0) ↔ (text = value ↔ v = w) := by
    intro text w
    rw [Predicate.predicateOutcome,if_congr (hholds w) rfl rfl]
    by_cases htext : text = value
    · by_cases hw : v = w <;> simp [htext,hw]
    · by_cases hw : v = w <;> simp [htext,hw]
  simp only [EvaluatesOn,Outcome.PrintedOnlyFor,hiff]

/-- A bound over a price reads back the price that was printed. -/
theorem evaluatesOn_bound {base : EventId} {nDigits : UInt8} (hk : base.eventKind = .ok (.price nDigits))
    (boundKind : BoundKind) (target : UInt64) : EvaluatesOn base (.bound boundKind target) := by
  intro w _
  cases boundKind
  have hholds : Predicate.HoldsOf base w (.bound .gt target) ↔ target < w := Iff.rfl
  refine ⟨displayU64 w,by simp [Outcome.outcomeString,hk],?_⟩
  rw [if_congr hholds rfl rfl]
  simp [Predicate.predicateOutcome]

theorem predicateMeans_iff_evaluatesOn {predicate : Predicate} {base : EventId}
    (hk : id.eventKind = .ok (.predicate inner predicate)) (hbase : id.replaceKind inner = .ok base) :
    id.PredicateMeans ↔ EvaluatesOn base predicate := by
  constructor
  · intro h
    exact h inner predicate base hk hbase
  · intro h other otherPredicate otherBase hother hotherBase
    cases hk.symm.trans hother
    cases hbase.symm.trans hotherBase
    exact h

/-- On an accepted id the predicate means what it says exactly where it is no equality whose
text is padded or shared by two parties. -/
theorem predicateMeans_iff (h : id.Accepted) : id.PredicateMeans ↔
    ∀ p inner value, id.path = .ok p → id.eventKind = .ok (.predicate inner (.eq value)) →
      PlainValue p inner value := by
  obtain ⟨p,text,k,hs,hk,hf⟩ := h.fits
  have hpath := path_eq hs
  have hkind := eventKind_eq hs hk
  cases k with
  | predicate inner predicate =>
    obtain ⟨base,hbase,hbpath,hbkind,_⟩ := h.replaceKind_inner hpath hkind
    cases predicate with
    | eq value =>
      cases hf with
      | eq hread =>
        obtain rfl := Except.ok.inj ((replaceKind_eq hpath inner).symm.trans hbase)
        obtain ⟨_,hread⟩ := Outcome.tryFromIdAndOutcome_eq_ok.mp hread
        rw [predicateMeans_iff_evaluatesOn hkind hbase,evaluatesOn_eq_iff hread,printedOnlyFor_iff hbpath hbkind hread]
        constructor
        · intro hplain q other otherValue hq hother
          cases hpath.symm.trans hq
          cases hkind.symm.trans hother
          exact hplain
        · intro hplain
          exact hplain p inner value hpath hkind
    | bound boundKind target =>
      cases hk with
      | bound _ =>
        refine iff_of_true ?_ ?_
        · exact (predicateMeans_iff_evaluatesOn hkind hbase).mpr (evaluatesOn_bound hbkind .gt target)
        · intro q other value _ hother
          cases hkind.symm.trans hother
  | _ =>
    have hnone : ∀ inner predicate, id.eventKind ≠ .ok (.predicate inner predicate) := by
      intro inner predicate hpredicate
      cases hkind.symm.trans hpredicate
    exact iff_of_true (fun inner predicate _ hpredicate => absurd hpredicate (hnone inner predicate))
      (fun _ inner value _ hpredicate => absurd hpredicate (hnone inner (.eq value)))

theorem predicateMeans_at_price : PredicateMeans ⟨⟨"/foo/bar.price=5".toList⟩⟩ ↔
    ∀ p inner value, path ⟨⟨"/foo/bar.price=5".toList⟩⟩ = .ok p →
      eventKind ⟨⟨"/foo/bar.price=5".toList⟩⟩ = .ok (.predicate inner (.eq value)) → PlainValue p inner value :=
  predicateMeans_iff (by decide +kernel)

/-- A padded price is never what an outcome of the price is printed as. -/
theorem padded_equality_never_holds : ¬ ∀ (id : EventId) (inner : EventKind) (value : Str) (base : EventId)
    (w : UInt64) (text : Str), id.Accepted → id.eventKind = .ok (.predicate inner (.eq value)) →
      id.replaceKind inner = .ok base → base.ValidValue w → Outcome.outcomeString ⟨base,w⟩ = .ok text →
        (Predicate.predicateOutcome (.eq value) text = .ok 1 ↔
          Outcome.tryFromIdAndOutcome base value = .ok (.ok ⟨base,w⟩)) := by
  intro h
  have hbase : eventKind ⟨⟨"/foo/bar.price".toList⟩⟩ = .ok (.price 0) := by decide +kernel
  have hiff := h ⟨⟨"/foo/bar.price=05".toList⟩⟩ (.price 0) "05".toList ⟨⟨"/foo/bar.price".toList⟩⟩ 5 "5".toList
    (by decide +kernel) (by decide +kernel) (by decide +kernel) ((validValue_iff hbase).mpr trivial)
    (by decide +kernel)
  exact absurd (hiff.mpr (by decide +kernel)) (by decide)

end EventId
end Olivia
