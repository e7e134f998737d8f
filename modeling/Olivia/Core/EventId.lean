import Olivia.Core.Outcome

/-! # Parsing event ids

An id is accepted when its path is one, its last segment carries a kind and the kind fits
that segment: a match needs two different parties, and an equality predicate a value its
inner event can have. The value is checked through an unchecked id of the inner event.
-/
namespace Olivia

inductive EventIdError
  | notAnEvent
  | badFormat
  | kind (error : EventKindError)
  | missingEventKind
  deriving DecidableEq

namespace EventId

def tryFrom (idAsPath : Path) : MayPanic (Except EventIdError EventId) :=
  match idAsPath.stripEvent with
  | none => .ok (.error .missingEventKind)
  | some (path,eventKind) => do
    match ← EventKind.fromStr eventKind with
    | .error e => return .error (.kind e)
    | .ok (.vsMatch _) =>
      match path.last.splitOn '_' with
      | [left,right] => return if left = right then .error .badFormat else .ok ⟨idAsPath⟩
      | _ => return .error .badFormat
    | .ok .singleOccurrence => return .ok ⟨idAsPath⟩
    | .ok (.predicate inner (.eq value)) =>
      match ← Outcome.tryFromIdAndOutcome (fromPathAndKind path inner) value with
      | .error e => return .error (.kind (.predEqToInvalidOutcome e))
      | .ok _ => return .ok ⟨idAsPath⟩
    | .ok (.predicate _ (.bound _ _)) => return .ok ⟨idAsPath⟩
    | .ok (.price _) => return .ok ⟨idAsPath⟩

def fromStr (string : Str) : MayPanic (Except EventIdError EventId) :=
  match Path.fromStr string with
  | .error .badFormat => .ok (.error .badFormat)
  | .ok idAsPath => tryFrom idAsPath

/-- The ids the parser returns. -/
def Accepted (id : EventId) : Prop := fromStr id.asStr = .ok (.ok id)
instance (id : EventId) : Decidable id.Accepted := inferInstanceAs (Decidable (_ = _))

/-- What is checked of a kind and the path it stands behind. -/
inductive Fits (path : Path) : EventKind → Prop
  | vsMatch {kind : VsMatchKind} {left right : Str} (hlast : path.last = left ++ '_' :: right)
      (hl : '_' ∉ left) (hr : '_' ∉ right) (hne : left ≠ right) : Fits path (.vsMatch kind)
  | singleOccurrence : Fits path .singleOccurrence
  | price {nDigits : UInt8} : Fits path (.price nDigits)
  | eq {inner : EventKind} {value : Str} {o : Outcome}
      (h : Outcome.tryFromIdAndOutcome (fromPathAndKind path inner) value = .ok (.ok o)) :
      Fits path (.predicate inner (.eq value))
  | bound {inner : EventKind} {boundKind : BoundKind} {target : UInt64} :
      Fits path (.predicate inner (.bound boundKind target))

variable {id : EventId} {p path : Path} {k : EventKind}

theorem tryFrom_of_fits {text : Str} (hs : p.stripEvent = some (path,text))
    (hk : EventKind.KindText k text) (hf : Fits path k) : tryFrom p = .ok (.ok ⟨p⟩) := by
  have hk := EventKind.fromStr_of_kindText hk
  cases hf with
  | vsMatch hlast hl hr hne => simp [tryFrom,hs,hk,Text.splitOn_eq_pair.mpr ⟨hlast,hl,hr⟩,hne]
  | singleOccurrence => simp [tryFrom,hs,hk]
  | price => simp [tryFrom,hs,hk]
  | eq h => simp [tryFrom,hs,hk,h]
  | bound => simp [tryFrom,hs,hk]

theorem fits_of_tryFrom (h : tryFrom p = .ok (.ok id)) : id = ⟨p⟩ ∧
    ∃ path text k, p.stripEvent = some (path,text) ∧ EventKind.KindText k text ∧ Fits path k := by
  cases hs : p.stripEvent with
  | none => simp [tryFrom,hs] at h
  | some cut =>
    obtain ⟨path,text⟩ := cut
    simp only [tryFrom,hs] at h
    obtain ⟨r,hr,h⟩ := MayPanic.bind_eq_ok.mp h
    cases r with
    | error e => simp at h
    | ok k =>
      have hk := EventKind.kindText_of_fromStr hr
      cases k with
      | vsMatch kind =>
        dsimp only at h
        split at h
        next left right hsplit =>
          obtain ⟨hlast,hl,hr⟩ := Text.splitOn_eq_pair.mp hsplit
          split at h
          next => simp at h
          next hne =>
            simp only [MayPanic.pure_eq,Except.ok.injEq] at h
            exact ⟨h.symm,path,text,_,rfl,hk,Fits.vsMatch hlast hl hr hne⟩
        next => simp at h
      | singleOccurrence =>
        simp only [MayPanic.pure_eq,Except.ok.injEq] at h
        exact ⟨h.symm,path,text,_,rfl,hk,Fits.singleOccurrence⟩
      | price n =>
        simp only [MayPanic.pure_eq,Except.ok.injEq] at h
        exact ⟨h.symm,path,text,_,rfl,hk,Fits.price⟩
      | predicate inner predicate =>
        cases predicate with
        | eq value =>
          obtain ⟨r,hr,h⟩ := MayPanic.bind_eq_ok.mp h
          cases r with
          | error e => simp at h
          | ok o =>
            simp only [MayPanic.pure_eq,Except.ok.injEq] at h
            exact ⟨h.symm,path,text,_,rfl,hk,Fits.eq hr⟩
        | bound =>
          simp only [MayPanic.pure_eq,Except.ok.injEq] at h
          exact ⟨h.symm,path,text,_,rfl,hk,Fits.bound⟩

theorem fromStr_path {string : Str} (h : Path.fromStr string = .ok p) : fromStr string = tryFrom p := by
  simp [fromStr,h]

/-- An accepted id has a path and a kind, and they fit. -/
theorem Accepted.fits (h : id.Accepted) : ∃ path text k, id.raw.stripEvent = some (path,text) ∧
    EventKind.KindText k text ∧ Fits path k := by
  unfold Accepted fromStr at h
  split at h
  next => simp at h
  next p hp =>
    obtain ⟨hid,hfits⟩ := fits_of_tryFrom h
    have hraw : id.raw = p := congrArg raw hid
    rw [hraw]
    exact hfits

/-- An accepted id has the parts that it is cut into. -/
theorem Accepted.fits_at {text : Str} (h : id.Accepted) (hs : id.raw.stripEvent = some (p,text)) :
    ∃ k, EventKind.KindText k text ∧ Fits p k := by
  obtain ⟨q,spelled,k,hq,hk,hf⟩ := h.fits
  obtain ⟨rfl,rfl⟩ : p = q ∧ text = spelled := by simpa [hs] using hq
  exact ⟨k,hk,hf⟩

/-- What the parser returns it accepts again. -/
theorem accepted_of_fromStr {string : Str} (h : fromStr string = .ok (.ok id)) :
    id.Accepted ∧ id.asStr = string := by
  cases hp : Path.fromStr string with
  | error e => cases e; simp [fromStr,hp] at h
  | ok p =>
    have hstr : p.str = string := (Path.fromStr_eq_ok.mp hp).1
    rw [fromStr_path hp] at h
    obtain ⟨rfl,_⟩ := fits_of_tryFrom h
    refine ⟨?_,hstr⟩
    rw [Accepted,asStr,hstr,fromStr_path hp]
    exact h

theorem Accepted.fromStr_raw (h : id.Accepted) : Path.fromStr id.raw.str = .ok id.raw := by
  cases hp : Path.fromStr id.asStr with
  | error e => cases e; simp [Accepted,fromStr,hp] at h
  | ok p =>
    have hid : id = ⟨p⟩ := by
      rw [Accepted,EventId.fromStr_path hp] at h
      exact (fits_of_tryFrom h).1
    subst hid
    exact hp

/-- The path of an accepted id begins with a slash, like the id. -/
theorem Accepted.head_path (h : id.Accepted) (hp : id.path = .ok path) : path.str.head? = some '/' := by
  obtain ⟨text,hs⟩ := path_eq_ok hp
  obtain ⟨init,name,hpath,hraw,_⟩ := Path.stripEvent_eq_some.mp hs
  obtain ⟨_,hhead,_⟩ := Path.fromStr_eq_ok.mp h.fromStr_raw
  have hne : path.str ≠ [] := by simp [hpath]
  rwa [hraw,List.head?_append_of_ne_nil _ hne] at hhead

/-- An id printed without a slash behind its path is a path. -/
theorem fromStr_printed (hhead : p.str.head? = some '/') (htext : '/' ∉ k.toStr) :
    Path.fromStr (fromPathAndKind p k).asStr = .ok (fromPathAndKind p k).raw := by
  refine Path.fromStr_eq_ok.mpr ⟨rfl,?_,?_⟩
  · have hne : p.str ≠ [] := by
      intro hnil
      simp [hnil] at hhead
    exact (List.head?_append_of_ne_nil _ hne).trans hhead
  · intro hlast
    have hmem : '/' ∈ '.' :: k.toStr := by
      refine List.mem_of_getLast? ?_
      rw [← hlast]
      simp [asStr,fromPathAndKind,List.getLast?_append,List.getLast?_cons]
    simp [htext] at hmem

/-- Reading an outcome text needs two parties exactly where it compares with one. -/
theorem tryFromIdAndOutcome_isOk {outcome : Str} (hk : id.eventKind = .ok k) (hp : id.path = .ok p) :
    (∃ r, Outcome.tryFromIdAndOutcome id outcome = .ok r) ↔ ((∃ kind, k = .vsMatch kind) → '_' ∈ p.last) := by
  cases k with
  | vsMatch kind =>
    rw [← parties_vsMatch_isOk hk hp]
    constructor
    · rintro ⟨r,hr⟩ _
      cases hparties : id.parties with
      | error e => simp [Outcome.tryFromIdAndOutcome,Outcome.valueFromIdAndOutcome,hk,hparties] at hr
      | ok parties =>
        cases parties with
        | none => simp [Outcome.tryFromIdAndOutcome,Outcome.valueFromIdAndOutcome,hk,hparties,MayPanic.expect] at hr
        | some parties => exact ⟨parties,rfl⟩
    · intro h
      obtain ⟨parties,hparties⟩ := h ⟨kind,rfl⟩
      simp [Outcome.tryFromIdAndOutcome,Outcome.valueFromIdAndOutcome,hk,hparties]
  | singleOccurrence => simp [Outcome.tryFromIdAndOutcome,Outcome.valueFromIdAndOutcome,hk]
  | price n => simp [Outcome.tryFromIdAndOutcome,Outcome.valueFromIdAndOutcome,hk]
  | predicate inner predicate => simp [Outcome.tryFromIdAndOutcome,Outcome.valueFromIdAndOutcome,hk]

/-- The accessors of the unchecked inner id see the inner kind at the outer path. -/
theorem inner_accessors {text value : Str} {inner : EventKind} (hs : p.stripEvent = some (path,text))
    (hk : EventKind.KindText (.predicate inner (.eq value)) text) :
    (fromPathAndKind path inner).eventKind = .ok inner ∧ (fromPathAndKind path inner).path = .ok path := by
  obtain ⟨_,_,_,_,_,_,htext⟩ := Path.stripEvent_eq_some.mp hs
  cases hk with
  | eq hinner heq hargs hvalue =>
    have hslash : '/' ∉ inner.toStr := hinner.not_mem_toStr (by decide) (fun hc => htext (by simp [hc]))
    have hcut := stripEvent_fromPathAndKind hs hslash
    exact ⟨eventKind_eq hcut hinner.toStr,path_eq hcut⟩

/-- The parser returns wherever it does not have to read the value of an equality. -/
theorem tryFrom_isOk_of_ne {text : Str} {r : Except EventKindError EventKind}
    (hs : p.stripEvent = some (path,text)) (hr : EventKind.fromStr text = .ok r)
    (hne : ∀ inner value, r ≠ .ok (.predicate inner (.eq value))) : ∃ r, tryFrom p = .ok r := by
  simp only [tryFrom,hs,hr,MayPanic.ok_bind]
  cases r with
  | error e => exact ⟨_,rfl⟩
  | ok k =>
    cases k with
    | vsMatch kind =>
      dsimp only
      split
      next => exact ⟨_,rfl⟩
      next => exact ⟨_,rfl⟩
    | singleOccurrence => exact ⟨_,rfl⟩
    | price n => exact ⟨_,rfl⟩
    | predicate inner predicate =>
      cases predicate with
      | eq value => exact absurd rfl (hne inner value)
      | bound => exact ⟨_,rfl⟩

/-- Otherwise it returns where reading the value against the inner event does. -/
theorem tryFrom_isOk_eq {text value : Str} {inner : EventKind} (hs : p.stripEvent = some (path,text))
    (hk : EventKind.KindText (.predicate inner (.eq value)) text) : (∃ r, tryFrom p = .ok r) ↔
      ∃ r, Outcome.tryFromIdAndOutcome (fromPathAndKind path inner) value = .ok r := by
  simp only [tryFrom,hs,EventKind.fromStr_of_kindText hk,MayPanic.ok_bind]
  cases Outcome.tryFromIdAndOutcome (fromPathAndKind path inner) value with
  | error e => simp
  | ok r =>
    cases r with
    | error e => simp
    | ok o => simp

/-- The parser panics on an equality predicate of a match whose segment names one party. -/
theorem tryFrom_isOk : (∃ r, tryFrom p = .ok r) ↔
    ¬ ∃ path text kind value, p.stripEvent = some (path,text) ∧
      EventKind.KindText (.predicate (.vsMatch kind) (.eq value)) text ∧ '_' ∉ path.last := by
  constructor
  · rintro h ⟨path,text,kind,value,hs,hk,hmem⟩
    obtain ⟨hinner,hpath⟩ := inner_accessors hs hk
    exact hmem ((tryFromIdAndOutcome_isOk hinner hpath).mp ((tryFrom_isOk_eq hs hk).mp h) ⟨kind,rfl⟩)
  · intro h
    cases hs : p.stripEvent with
    | none => simp [tryFrom,hs]
    | some cut =>
      obtain ⟨path,text⟩ := cut
      obtain ⟨r,hr⟩ := EventKind.fromStr_total text
      by_cases hne : ∀ inner value, r ≠ .ok (.predicate inner (.eq value))
      · exact tryFrom_isOk_of_ne hs hr hne
      · push Not at hne
        obtain ⟨inner,value,rfl⟩ := hne
        have hk := EventKind.kindText_of_fromStr hr
        obtain ⟨hinner,hpath⟩ := inner_accessors hs hk
        rw [tryFrom_isOk_eq hs hk,tryFromIdAndOutcome_isOk hinner hpath]
        rintro ⟨kind,rfl⟩
        by_contra hmem
        exact h ⟨path,text,kind,value,hs,hk,hmem⟩

/-- A path whose last segment has one party before the equality predicate of a match. -/
def LonePartyPredicate (s : Str) : Prop := s.head? = some '/' ∧
  ∃ (init name value : Str) (kind : VsMatchKind),
    s = init ++ '/' :: (name ++ '.' :: (kind.toStr ++ '=' :: value)) ∧
      '/' ∉ name ∧ '.' ∉ name ∧ '_' ∉ name ∧ '/' ∉ value ∧ '?' ∉ value

theorem kindText_eq_vsMatch {kind : VsMatchKind} {value text : Str} :
    EventKind.KindText (.predicate (.vsMatch kind) (.eq value)) text ↔
      text = kind.toStr ++ '=' :: value ∧ '?' ∉ value := by
  constructor
  · intro h
    cases h with
    | eq hinner _ _ hvalue =>
      cases hinner with
      | vs => exact ⟨rfl,hvalue⟩
      | winner => exact ⟨rfl,hvalue⟩
  · rintro ⟨rfl,hvalue⟩
    cases kind with
    | winOrDraw => exact EventKind.KindText.eq EventKind.KindText.vs (by decide) (by decide) hvalue
    | win => exact EventKind.KindText.eq EventKind.KindText.winner (by decide) (by decide) hvalue

theorem slash_not_mem_toStr (kind : VsMatchKind) : '/' ∉ kind.toStr := by cases kind <;> decide

/-- Such a text is a valid path. -/
theorem LonePartyPredicate.fromStr_path {s : Str} (h : LonePartyPredicate s) :
    Path.fromStr s = .ok ⟨s⟩ := by
  obtain ⟨hhead,init,name,value,kind,hs,hname,_,_,hvalue,_⟩ := h
  refine Path.fromStr_eq_ok.mpr ⟨rfl,hhead,?_⟩
  intro hlast
  have hmem : '/' ∈ '=' :: value := by
    refine List.mem_of_getLast? ?_
    rw [← hlast,hs]
    simp [List.getLast?_append,List.getLast?_cons]
  simp [hvalue] at hmem

theorem lonePartyPredicate_iff (hp : Path.fromStr p.str = .ok p) : LonePartyPredicate p.str ↔
    ∃ path text kind value, p.stripEvent = some (path,text) ∧
      EventKind.KindText (.predicate (.vsMatch kind) (.eq value)) text ∧ '_' ∉ path.last := by
  constructor
  · rintro ⟨_,init,name,value,kind,hs,hname,hdot,hund,hslash,hvalue⟩
    have hpath : (⟨init ++ '/' :: name⟩ : Path).last = name := Path.last_eq rfl hname
    refine ⟨⟨init ++ '/' :: name⟩,kind.toStr ++ '=' :: value,kind,value,?_,
      kindText_eq_vsMatch.mpr ⟨rfl,hvalue⟩,by rwa [hpath]⟩
    exact Path.stripEvent_eq_some.mpr ⟨init,name,rfl,by simp [hs],hname,hdot,
      by simp [slash_not_mem_toStr,hslash]⟩
  · rintro ⟨path,text,kind,value,hs,hk,hund⟩
    obtain ⟨init,name,hpath,hstr,hname,hdot,htext⟩ := Path.stripEvent_eq_some.mp hs
    obtain ⟨rfl,hvalue⟩ := kindText_eq_vsMatch.mp hk
    rw [Path.last_eq hpath hname] at hund
    refine ⟨(Path.fromStr_eq_ok.mp hp).2.1,init,name,value,kind,by simp [hstr,hpath],hname,hdot,hund,?_,hvalue⟩
    simp only [List.mem_append,List.mem_cons,not_or] at htext
    exact htext.2.2

/-- Parsing returns on every text but the lone-party predicates, on which it panics, and so
does the conversion of a valid path. -/
theorem parsing_returns_iff (s : Str) : ((∃ r, fromStr s = .ok r) ↔ ¬ LonePartyPredicate s) ∧
    (Path.fromStr s = .ok ⟨s⟩ → ((∃ r, tryFrom ⟨s⟩ = .ok r) ↔ ¬ LonePartyPredicate s)) := by
  have hvalid : ∀ p, Path.fromStr p.str = .ok p →
      ((∃ r, tryFrom p = .ok r) ↔ ¬ LonePartyPredicate p.str) := by
    intro p hp
    rw [tryFrom_isOk,lonePartyPredicate_iff hp]
  refine ⟨?_,hvalid ⟨s⟩⟩
  cases hp : Path.fromStr s with
  | error e =>
    have hne : ¬ LonePartyPredicate s := fun h => by simp [h.fromStr_path] at hp
    cases e
    simp [fromStr,hp,hne]
  | ok p =>
    obtain rfl : p.str = s := (Path.fromStr_eq_ok.mp hp).1
    rw [EventId.fromStr_path hp]
    exact hvalid p hp

theorem parsing_returns_at_two_parties :
    (∃ r, tryFrom ⟨"/foo/A_B.vs=A_win".toList⟩ = .ok r) ↔ ¬ LonePartyPredicate "/foo/A_B.vs=A_win".toList :=
  (parsing_returns_iff "/foo/A_B.vs=A_win".toList).2 (by decide)

theorem fromStr_panics_at_lone_party : ¬ ∃ r, fromStr "/foo/bar.vs=x".toList = .ok r := by
  have h : fromStr "/foo/bar.vs=x".toList = .error .unwrap := by decide +kernel
  rw [h]
  simp

end EventId
end Olivia
