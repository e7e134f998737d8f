import Olivia.Core.PredicateEvent
import Olivia.Sources.Ticker

/-! # The ids of a ticker

A ticker prints the time, its suffix and its kind one after the other and parses none of it.
What is printed is an event of that kind where the last segment of the suffix has no dot, the
kind prints no slash and the kind is one that this segment can carry; the time plays no part.
-/
namespace Olivia

/-- What is printed of a date: digits and the signs of `%FT%T`. -/
def Chrono.PrintsDates (chrono : Chrono) : Prop :=
  ∀ t, ∀ c ∈ chrono.format t, c.isDigit ∨ c = '-' ∨ c = '+' ∨ c = 'T' ∨ c = ':'

/-- The kinds that a segment can carry: a match needs two different parties, and an equality a
value that its inner event can have there. -/
def EventKind.Suits (segment : Str) : EventKind → Prop
  | .vsMatch _ => TwoParties segment
  | .predicate (.vsMatch kind) (.eq value) => ∃ left right rest value',
      segment.splitOn '_' = left :: right :: rest ∧ kind.outcomeValue left right value = .ok value'
  | .predicate .singleOccurrence (.eq value) => value = "true".toList
  | .predicate (.predicate _ _) (.eq value) => ∃ truth, value = displayBool truth
  | .predicate (.price _) (.eq value) => ∃ price, parseU64 value = some price
  | _ => True

namespace EventId
variable {p : Path} {k inner : EventKind} {value : Str}

/-- What the parser checks of an equality, read off the segment. -/
theorem fits_eq_iff (hk : (fromPathAndKind p inner).eventKind = .ok inner)
    (hp : (fromPathAndKind p inner).path = .ok p) :
    Fits p (.predicate inner (.eq value)) ↔ (EventKind.predicate inner (.eq value)).Suits p.last := by
  have hfits : Fits p (.predicate inner (.eq value)) ↔
      ∃ v, Outcome.valueFromIdAndOutcome (fromPathAndKind p inner) value = .ok (.ok v) := by
    constructor
    · intro hf
      cases hf with
      | eq h => exact ⟨_,(Outcome.tryFromIdAndOutcome_eq_ok.mp h).2⟩
    · rintro ⟨v,hv⟩
      exact Fits.eq (Outcome.tryFromIdAndOutcome_eq_ok.mpr ⟨(rfl : Outcome.id ⟨_,v⟩ = _),hv⟩)
  rw [hfits]
  cases inner with
  | singleOccurrence =>
    simp only [Outcome.valueFromIdAndOutcome,hk,EventKind.Suits,MayPanic.ok_bind,MayPanic.pure_eq,Except.ok.injEq]
    by_cases hvalue : value = "true".toList
    · rw [if_pos hvalue]
      exact iff_of_true ⟨0,rfl⟩ hvalue
    · rw [if_neg hvalue]
      exact iff_of_false (by simp) hvalue
  | price nDigits =>
    cases hvalue : parseU64 value <;> simp [Outcome.valueFromIdAndOutcome,hk,EventKind.Suits,hvalue]
  | predicate inner predicate =>
    simp only [EventKind.Suits,← parseBool_eq_some]
    cases hvalue : parseBool value <;> simp [Outcome.valueFromIdAndOutcome,hk,hvalue]
  | vsMatch kind =>
    simp only [EventKind.Suits]
    by_cases hmem : '_' ∈ p.last
    · obtain ⟨left,right,rest,hsplit⟩ := Text.splitOn_of_mem hmem
      have hparties : (fromPathAndKind p (.vsMatch kind)).parties = .ok (some (left,right)) := by
        simp [parties,hk,hp,hsplit]
      simp [Outcome.valueFromIdAndOutcome,hk,hparties,hsplit]
    · have hsplit := List.splitOn_eq_singleton hmem
      have hparties : (fromPathAndKind p (.vsMatch kind)).parties = .error .unwrap := by
        simp [parties,hk,hp,hsplit,MayPanic.unwrap]
      simp [Outcome.valueFromIdAndOutcome,hk,hparties,hsplit]

/-- The kinds that fit a path are those that suit its last segment. -/
theorem fits_iff_suits (hk : ∀ inner value, k = .predicate inner (.eq value) →
      (fromPathAndKind p inner).eventKind = .ok inner ∧ (fromPathAndKind p inner).path = .ok p) :
    Fits p k ↔ k.Suits p.last := by
  cases k with
  | vsMatch kind =>
    have htakes : EventKind.TakesEq (.vsMatch kind) := trivial
    rw [fits_iff_of_takesEq htakes]
    constructor
    · intro h
      exact h kind rfl
    · intro h _ _
      exact h
  | singleOccurrence => exact iff_of_true Fits.singleOccurrence trivial
  | price nDigits => exact iff_of_true Fits.price trivial
  | predicate inner predicate =>
    cases predicate with
    | eq value =>
      obtain ⟨hkind,hpath⟩ := hk inner value rfl
      exact fits_eq_iff hkind hpath
    | bound boundKind target =>
      refine iff_of_true Fits.bound ?_
      cases inner <;> trivial

/-- An id printed from a path and a closed kind is that event where nothing of it is cut off
elsewhere and the kind suits the segment. -/
theorem accepted_printed_iff {init name : Str} (hp : p.str = init ++ '/' :: name) (hslash : '/' ∉ name)
    (hhead : p.str.head? = some '/') (hclosed : k.Closed) :
    ((fromPathAndKind p k).Accepted ∧ (fromPathAndKind p k).eventKind = .ok k ∧
      (fromPathAndKind p k).path = .ok p) ↔ '.' ∉ name ∧ '/' ∉ k.toStr ∧ k.Suits name := by
  have hkt := hclosed.kindText
  have hlast : p.last = name := Path.last_eq hp hslash
  have hcut : '.' ∉ name → '/' ∉ k.toStr → (fromPathAndKind p k).raw.stripEvent = some (p,k.toStr) :=
    fun hdot htext => Path.stripEvent_eq_some.mpr ⟨init,name,hp,rfl,hslash,hdot,htext⟩
  have hinner : '.' ∉ name → '/' ∉ k.toStr → ∀ inner value, k = .predicate inner (.eq value) →
      (fromPathAndKind p inner).eventKind = .ok inner ∧ (fromPathAndKind p inner).path = .ok p := by
    rintro hdot htext inner value rfl
    exact inner_accessors (hcut hdot htext) hkt
  constructor
  · rintro ⟨haccepted,_,hpath⟩
    obtain ⟨text,hs⟩ := path_eq_ok hpath
    obtain ⟨init',name',hp',hraw,hslash',hdot',htext⟩ := Path.stripEvent_eq_some.mp hs
    obtain rfl : name = name' := by rw [← hlast,Path.last_eq hp' hslash']
    obtain rfl : k.toStr = text := by
      have hsame : p.str ++ '.' :: k.toStr = p.str ++ '.' :: text := hraw
      simpa using hsame
    obtain ⟨l,hl,hf⟩ := haccepted.fits_at hs
    obtain rfl : k = l := hkt.unique hl
    exact ⟨hdot',htext,hlast ▸ (fits_iff_suits (hinner hdot' htext)).mp hf⟩
  · rintro ⟨hdot,htext,hsuits⟩
    have hs := hcut hdot htext
    have hfits : Fits p k := (fits_iff_suits (hinner hdot htext)).mpr (hlast.symm ▸ hsuits)
    refine ⟨?_,eventKind_eq hs hkt,path_eq hs⟩
    rw [Accepted,EventId.fromStr_path (fromStr_printed hhead htext)]
    exact tryFrom_of_fits hs hkt hfits

end EventId

theorem EventKind.suits_congr {k : EventKind} {segment segment' : Str} (h : '_' ∉ segment) (h' : '_' ∉ segment') :
    k.Suits segment ↔ k.Suits segment' := by
  have htwo : ∀ segment : Str, '_' ∉ segment → ¬ TwoParties segment := by
    rintro segment h ⟨left,right,hsplit,_⟩
    rw [List.splitOn_eq_singleton h] at hsplit
    simp at hsplit
  cases k with
  | vsMatch kind => exact iff_of_false (htwo segment h) (htwo segment' h')
  | predicate inner predicate =>
    cases predicate with
    | bound boundKind target => cases inner <;> exact Iff.rfl
    | eq value =>
      cases inner with
      | vsMatch kind => simp [Suits,List.splitOn_eq_singleton h,List.splitOn_eq_singleton h']
      | _ => exact Iff.rfl
  | _ => exact Iff.rfl

theorem Path.fromStr_last {p : Path} (h : Path.fromStr p.str = .ok p) :
    p.str.head? = some '/' ∧ ∃ init, p.str = init ++ '/' :: p.last ∧ '/' ∉ p.last := by
  obtain ⟨_,hhead,_⟩ := Path.fromStr_eq_ok.mp h
  refine ⟨hhead,?_⟩
  have hmem : '/' ∈ p.str := List.mem_of_head? hhead
  cases hs : Text.rsplitOnce '/' p.str with
  | none => exact absurd hmem (Text.rsplitOnce_eq_none.mp hs)
  | some cut =>
    obtain ⟨hp,hlast⟩ := Text.rsplitOnce_eq_some.mp hs
    have hname : p.last = cut.2 := Path.last_eq hp hlast
    exact ⟨cut.1,hname ▸ hp,hname ▸ hlast⟩

namespace TimeEventStream
variable {σ : Type} {stream : TimeEventStream σ} {chrono : Chrono} {dt : NaiveDateTime}

/-- The time of an event followed by the suffix of its ticker. -/
def timePath (stream : TimeEventStream σ) (chrono : Chrono) (dt : NaiveDateTime) : Path :=
  stream.endsWith.prefixPath (Path.fromDt chrono dt)

/-- The built id is accepted, and reads as the kind and the path that it was built from. -/
def BuildsValidId (stream : TimeEventStream σ) (chrono : Chrono) (dt : NaiveDateTime) : Prop :=
  (stream.createUpdate chrono dt).id.Accepted ∧
    (stream.createUpdate chrono dt).id.eventKind = .ok stream.eventKind ∧
    (stream.createUpdate chrono dt).id.path = .ok (stream.timePath chrono dt)

/-- A time ends in the suffix, or in the printed date where there is none. -/
theorem timePath_eq (hformat : chrono.PrintsDates) (hends : Path.fromStr stream.endsWith.str = .ok stream.endsWith)
    (dt : NaiveDateTime) :
    (stream.timePath chrono dt).str.head? = some '/' ∧ ∃ init name,
      (stream.timePath chrono dt).str = init ++ '/' :: name ∧ '/' ∉ name ∧
      (name = stream.endsWith.last ∨ stream.endsWith.last = [] ∧ '.' ∉ name ∧ '_' ∉ name) := by
  have hdate : ∀ c : Char, c = '/' ∨ c = '.' ∨ c = '_' → c ∉ chrono.format dt := by
    intro c hc hmem
    have hprinted := hformat dt c hmem
    rcases hc with rfl | rfl | rfl <;> simp at hprinted
  have hnoroot : ¬ (Path.fromDt chrono dt).isRoot ∨ chrono.format dt = [] := by
    by_cases hnil : chrono.format dt = []
    · exact Or.inr hnil
    · refine Or.inl (fun hroot => hnil ?_)
      have hstr : '/' :: chrono.format dt = "/".toList := congrArg Path.str hroot
      simpa using hstr
  by_cases hroot : stream.endsWith.isRoot
  · have htime : stream.timePath chrono dt = Path.fromDt chrono dt := if_pos hroot
    have hlast : stream.endsWith.last = [] := by rw [hroot]; decide
    rw [htime]
    exact ⟨rfl,[],chrono.format dt,rfl,hdate '/' (by simp),Or.inr ⟨hlast,hdate '.' (by simp),hdate '_' (by simp)⟩⟩
  · obtain ⟨hhead,init,hp,hslash⟩ := Path.fromStr_last hends
    rcases hnoroot with hdt | hnil
    · have htime : stream.timePath chrono dt = ⟨(Path.fromDt chrono dt).str ++ stream.endsWith.str⟩ := by
        rw [timePath,Path.prefixPath,if_neg hroot,if_neg hdt]
      rw [htime]
      refine ⟨rfl,(Path.fromDt chrono dt).str ++ init,stream.endsWith.last,?_,hslash,Or.inl rfl⟩
      show (Path.fromDt chrono dt).str ++ stream.endsWith.str = _
      rw [List.append_assoc,← hp]
    · have htime : stream.timePath chrono dt = stream.endsWith := by
        have hdt : (Path.fromDt chrono dt).isRoot := congrArg Path.mk (congrArg ('/' :: ·) hnil)
        rw [timePath,Path.prefixPath,if_neg hroot,if_pos hdt]
      rw [htime]
      exact ⟨hhead,init,stream.endsWith.last,hp,hslash,Or.inl rfl⟩

/-- Every id that a configured ticker builds is valid, whatever the time, exactly where its
suffix ends without a dot and its kind prints no slash and suits the suffix. -/
theorem buildsValidId_iff {text : Str} (hformat : chrono.PrintsDates)
    (hends : Path.fromStr stream.endsWith.str = .ok stream.endsWith)
    (hkind : EventKind.fromStr text = .ok (.ok stream.eventKind)) (dt : NaiveDateTime) :
    stream.BuildsValidId chrono dt ↔ '.' ∉ stream.endsWith.last ∧ '/' ∉ stream.eventKind.toStr ∧
      stream.eventKind.Suits stream.endsWith.last := by
  have hclosed := (EventKind.kindText_of_fromStr hkind).closed
  obtain ⟨hhead,init,name,hp,hslash,hname⟩ := timePath_eq hformat hends dt
  have hiff : stream.BuildsValidId chrono dt ↔ '.' ∉ name ∧ '/' ∉ stream.eventKind.toStr ∧
      stream.eventKind.Suits name := EventId.accepted_printed_iff hp hslash hhead hclosed
  rcases hname with rfl | ⟨hnil,hdot,hunderscore⟩
  · exact hiff
  · have hsuits : stream.eventKind.Suits [] ↔ stream.eventKind.Suits name :=
      EventKind.suits_congr List.not_mem_nil hunderscore
    rw [hnil,hsuits]
    simpa [hdot] using hiff

section Sampled

/-- The ticker of every minute, with another suffix and kind. -/
def sampleStream (endsWith : Path) (eventKind : EventKind) : TimeEventStream (InMemory (Sample.group 10007)) :=
  { Ticker.sampleTicker.stream ⟨0,0⟩ with endsWith, eventKind }

theorem isDigit_of_mem_twoDigits {n : ℕ} {c : Char} (h : c ∈ Ticker.twoDigits n) : c.isDigit := by
  unfold Ticker.twoDigits at h
  split at h
  · rcases List.mem_cons.mp h with rfl | h
    · decide
    · exact Text.isDigit_of_mem_decimal h
  · exact Text.isDigit_of_mem_decimal h

theorem sampleChrono_printsDates : Ticker.sampleChrono.PrintsDates := by
  intro t c hc
  have hday : ∀ c ∈ "1970-01-01T".toList, c.isDigit ∨ c = '-' ∨ c = '+' ∨ c = 'T' ∨ c = ':' := by simp
  simp only [Ticker.sampleChrono,List.mem_append,List.mem_cons] at hc
  rcases hc with ((hc | hc) | (rfl | hc)) | (rfl | hc)
  · exact hday c hc
  · exact Or.inl (isDigit_of_mem_twoDigits hc)
  · simp
  · exact Or.inl (isDigit_of_mem_twoDigits hc)
  · simp
  · exact Or.inl (isDigit_of_mem_twoDigits hc)

theorem buildsValidId_at_match :
    (sampleStream ⟨"/A_B".toList⟩ (.vsMatch .winOrDraw)).BuildsValidId Ticker.sampleChrono ⟨60,0⟩ ↔
      '.' ∉ Path.last ⟨"/A_B".toList⟩ ∧ '/' ∉ (EventKind.vsMatch .winOrDraw).toStr ∧
        (EventKind.vsMatch .winOrDraw).Suits (Path.last ⟨"/A_B".toList⟩) := by
  have hkind : EventKind.fromStr "vs".toList = .ok (.ok (.vsMatch .winOrDraw)) := by decide +kernel
  exact buildsValidId_iff sampleChrono_printsDates rfl hkind ⟨60,0⟩

/-- A match at every minute has no parties. -/
theorem ticker_builds_invalid_id : ¬ ∀ (endsWith : Path) (eventKind : EventKind) (text : Str) (dt : NaiveDateTime),
    Path.fromStr endsWith.str = .ok endsWith → EventKind.fromStr text = .ok (.ok eventKind) →
      (sampleStream endsWith eventKind).BuildsValidId Ticker.sampleChrono dt := by
  intro h
  obtain ⟨haccepted,_⟩ := h .root (.vsMatch .winOrDraw) "vs".toList ⟨0,0⟩ (by decide) (by decide +kernel)
  have hid : ((sampleStream .root (.vsMatch .winOrDraw)).createUpdate Ticker.sampleChrono ⟨0,0⟩).id =
      ⟨⟨"/1970-01-01T00:00:00.vs".toList⟩⟩ := by decide +kernel
  rw [hid] at haccepted
  exact absurd haccepted (by decide +kernel)

end Sampled

end TimeEventStream
end Olivia
