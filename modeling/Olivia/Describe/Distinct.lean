import Olivia.Describe.Outcome
import Olivia.Text.Repeated

/-! # Which outcomes descriptions tell apart

The two sentences on an outcome always differ. The sentences on two outcomes of one event
differ but for a match of a competition: there the teams are called by their long names, and
the sentence on who wins is the same for both where these names can change places.
-/
namespace Olivia

namespace Describe

section Sentences
variable {a b competition date : Str}

theorem drawn_distinct : (drawn a b competition date).positive ≠ (drawn a b competition date).negative := by
  simp only [drawn,ne_eq,List.append_left_inj,List.append_right_inj]
  decide

theorem beats_distinct : (beats a b competition date).positive ≠ (beats a b competition date).negative := by
  simp only [beats,ne_eq,List.append_left_inj,List.append_right_inj]
  decide

/-- A draw is told from a win by the length of the sentence alone, whoever wins. -/
theorem drawn_ne_beats {winner loser : Str} (h : winner.length+loser.length = a.length+b.length) :
    (drawn a b competition date).positive ≠ (beats winner loser competition date).positive := by
  intro hsame
  have hlength := congrArg List.length hsame
  have hdrawn : (" and ".toList).length = 5 ∧ (" draw in their ".toList).length = 15 := ⟨rfl,rfl⟩
  have hbeats : (" beats ".toList).length = 7 ∧ (" in their ".toList).length = 10 := ⟨rfl,rfl⟩
  simp only [drawn,beats,List.length_append,hdrawn,hbeats] at hlength
  omega

/-- Who wins cannot be told where the names, each before its verb, repeat one text. -/
theorem beats_comm_iff : (beats a b competition date).positive = (beats b a competition date).positive ↔
    Text.SameRepeated (a ++ " beats ".toList) (b ++ " beats ".toList) := by
  rw [← Text.append_comm_iff]
  simp only [beats,← List.append_assoc,List.append_left_inj]

theorem quoted_distinct (short text : Str) : (quoted short text).positive ≠ (quoted short text).negative := by
  have hpositive : (quoted short text).positive = "the ".toList ++ short ++ " is \"".toList ++ text ++ "\"".toList := rfl
  have hnegative : (quoted short text).negative =
      "the ".toList ++ short ++ " is not \"".toList ++ text ++ "\"".toList := rfl
  simp only [hpositive,hnegative,ne_eq,List.append_left_inj,List.append_right_inj]
  decide

theorem quoted_injective {short text text' : Str} (h : (quoted short text).positive = (quoted short text').positive) :
    text = text' :=
  List.append_cancel_left (List.append_cancel_right h)

theorem maybeNegate_distinct {d : OutcomeDesc} (h : d.positive ≠ d.negative) (negate : Bool) :
    (d.maybeNegate negate).positive ≠ (d.maybeNegate negate).negative := by
  cases negate with
  | false => exact h
  | true => exact h.symm

end Sentences

/-- What is said of a printed outcome of a match. -/
theorem matchOutcome_eq {vsKind : VsMatchKind} {competition date left right text : Str} {v : UInt64}
    (h : vsKind.outcomeString (.ok (left,right)) v = .ok text) : matchOutcome vsKind competition date left right text =
      .ok (if text = "draw".toList then
          drawn (lookupTeam competition left) (lookupTeam competition right) (lookupCompetition competition) date
        else if v = 0 then
          beats (lookupTeam competition left) (lookupTeam competition right) (lookupCompetition competition) date
        else beats (lookupTeam competition right) (lookupTeam competition left) (lookupCompetition competition) date) := by
  have hright : (if right = left then
        beats (lookupTeam competition left) (lookupTeam competition right) (lookupCompetition competition) date
      else beats (lookupTeam competition right) (lookupTeam competition left) (lookupCompetition competition) date) =
      beats (lookupTeam competition right) (lookupTeam competition left) (lookupCompetition competition) date := by
    split
    next hsame => rw [hsame]
    next => rfl
  by_cases hdraw : text = "draw".toList
  · simp [matchOutcome,hdraw]
  · cases vsKind with
    | winOrDraw =>
      rcases VsMatchKind.outcomeString_winOrDraw h with ⟨rfl,rfl⟩ | ⟨rfl,rfl⟩ | ⟨_,rfl⟩
      · simp only [matchOutcome,if_neg hdraw,VsMatchKind.dropSuffix_win,MayPanic.unwrap_some,MayPanic.ok_bind,MayPanic.pure_eq,if_true]
      · simp only [matchOutcome,if_neg hdraw,VsMatchKind.dropSuffix_win,MayPanic.unwrap_some,MayPanic.ok_bind,MayPanic.pure_eq,hright]
        rfl
      · exact absurd rfl hdraw
    | win =>
      rcases VsMatchKind.outcomeString_win h with ⟨rfl,rfl⟩ | ⟨rfl,rfl⟩
      · simp only [matchOutcome,if_neg hdraw,MayPanic.ok_bind,MayPanic.pure_eq,if_true]
      · simp only [matchOutcome,if_neg hdraw,MayPanic.ok_bind,MayPanic.pure_eq,hright]
        rfl

end Describe

namespace EventId
variable {id : EventId} {p : Path} {k : EventKind}

/-- What descriptions read of an id. More ids have it than are accepted: of a match below a
predicate it is only known that there are parties to read. -/
structure Describable (id : EventId) (p : Path) (k : EventKind) : Prop where
  path : id.path = .ok p
  eventKind : id.eventKind = .ok k
  parties : ∀ kind, k = .vsMatch kind → ∃ left right, id.parties = .ok (some (left,right))
  value : ∀ inner value, k = .predicate inner (.eq value) → ∃ base o, id.replaceKind inner = .ok base ∧
    Outcome.tryFromIdAndOutcome base value = .ok (.ok o)

theorem Reads.describable (h : id.Reads p k) : id.Describable p k := by
  refine ⟨h.path,h.eventKind,?_,?_⟩
  · rintro kind rfl
    obtain ⟨left,right,hparties,_⟩ := h.parties
    exact ⟨left,right,hparties⟩
  · rintro inner value rfl
    cases h.fits with
    | eq hread => exact ⟨_,_,replaceKind_eq h.path inner,hread⟩

theorem Describable.inner {inner : EventKind} {predicate : Predicate}
    (h : id.Describable p (.predicate inner predicate)) :
    ∃ base, id.replaceKind inner = .ok base ∧ base.Describable p inner := by
  obtain ⟨base,hbase,hpath,hkind,htakes⟩ := replaceKind_reads h.path h.eventKind
  refine ⟨base,hbase,hpath,hkind,?_,?_⟩
  · rintro kind rfl
    cases predicate with
    | eq value =>
      obtain ⟨other,o,hother,hread⟩ := h.value _ value rfl
      obtain rfl := Except.ok.inj (hbase.symm.trans hother)
      have hparties := (tryFromIdAndOutcome_isOk hkind hpath).mp ⟨_,hread⟩ ⟨kind,rfl⟩
      obtain ⟨⟨left,right⟩,hparties⟩ := (parties_vsMatch_isOk hkind hpath).mpr hparties
      exact ⟨left,right,hparties⟩
    | bound boundKind target =>
      obtain ⟨_,text,_,htext⟩ := eventKind_eq_ok h.eventKind
      have hwraps : EventKind.vsMatch kind = .price 0 := htext.closed.2
      cases hwraps
  · rintro inner value rfl
    exact htakes.elim

end EventId

namespace Describe
variable {id : EventId} {p : Path} {k : EventKind} {text : Str}

theorem randomShort_isOk (hk : id.eventKind = .ok k) (datetime : Str) : ∃ short, randomShort id datetime = .ok short := by
  obtain ⟨n,hn⟩ := EventId.nOutcomes_isOk hk
  exact ⟨_,by rw [randomShort,hn,MayPanic.ok_bind,MayPanic.pure_eq]⟩

/-- The path of a match has a parent: its last segment is not empty. -/
theorem matchShort_isOk {vsKind : VsMatchKind} (h : id.Describable p (.vsMatch vsKind)) :
    ∃ short, matchShort id vsKind = .ok short := by
  obtain ⟨left,right,hparties⟩ := h.parties vsKind rfl
  obtain ⟨parent,hparent⟩ : ∃ parent, p.parent = some parent := by
    have hlast := (EventId.parties_vsMatch_isOk h.eventKind h.path).mp ⟨_,hparties⟩
    obtain ⟨_,hs⟩ := EventId.path_eq_ok h.path
    obtain ⟨init,name,hp,_,hslash,_⟩ := Path.stripEvent_eq_some.mp hs
    have hroot : ¬ p.isRoot := by
      rintro rfl
      exact absurd hlast (by decide)
    exact ⟨_,by rw [Path.parent,if_neg hroot,hp,Text.rsplitOnce_append init hslash,Option.map_some]⟩
  rw [matchShort,h.path,hparties]
  simp only [MayPanic.ok_bind,MayPanic.unwrap_some,hparent]
  split
  next => exact ⟨_,rfl⟩
  next => exact ⟨_,rfl⟩

theorem occurShort_isOk (hp : id.path = .ok p) (hk : id.eventKind = .ok k) : ∃ short, occurShort id = .ok short := by
  rw [occurShort,hp,MayPanic.ok_bind]
  split
  next => exact ⟨_,rfl⟩
  next =>
    split
    next datetime _ => exact randomShort_isOk hk datetime
    next => exact ⟨_,rfl⟩

theorem priceShort_isOk (hp : id.path = .ok p) (hk : id.eventKind = .ok k) : ∃ short, priceShort id = .ok short := by
  rw [priceShort,hp,MayPanic.ok_bind]
  split
  next datetime _ => exact randomShort_isOk hk datetime
  next =>
    split
    next => exact ⟨_,rfl⟩
    next => exact ⟨_,rfl⟩

/-- A predicate has two sentences, and a predicate that is false says the second one first. -/
theorem outcome_predicate {inner : EventKind} {predicate : Predicate}
    (h : id.Describable p (.predicate inner predicate))
    (hinner : ∀ base v text, base.Describable p inner → Outcome.outcomeString ⟨base,v⟩ = .ok text →
      ∃ d, outcome ⟨base,v⟩ = .ok d ∧ d.positive ≠ d.negative) : ∃ d : OutcomeDesc, d.positive ≠ d.negative ∧
    ∀ value text, Outcome.outcomeString ⟨id,value⟩ = .ok text →
      outcome ⟨id,value⟩ = .ok (d.maybeNegate (text = "false".toList)) := by
  obtain ⟨base,hbase,hdescribable⟩ := h.inner
  cases predicate with
  | eq target =>
    obtain ⟨other,innerOutcome,hother,hread⟩ := h.value _ _ rfl
    obtain rfl := Except.ok.inj (hbase.symm.trans hother)
    obtain ⟨_,hprinted⟩ := Outcome.outcomeString_of_read hdescribable.eventKind hread
    obtain rfl : innerOutcome.id = base := Outcome.id_of_read hread
    obtain ⟨d,hd,hne⟩ := hinner _ innerOutcome.value _ hdescribable hprinted
    refine ⟨d,hne,?_⟩
    intro value text htext
    rw [outcome_eq h.path h.eventKind htext hbase hread,hd,MayPanic.ok_bind,MayPanic.pure_eq]
  | bound boundKind upperBound =>
    cases boundKind
    obtain ⟨_,_,_,hspelled⟩ := EventId.eventKind_eq_ok h.eventKind
    obtain rfl : inner = .price 0 := hspelled.closed.2
    obtain ⟨short,hshort⟩ := priceShort_isOk hdescribable.path hdescribable.eventKind
    refine ⟨⟨"the ".toList ++ short ++ " is above ".toList ++ displayU64 upperBound,
      "the ".toList ++ short ++ " is not above ".toList ++ displayU64 upperBound⟩,?_,?_⟩
    · simp only [ne_eq,List.append_left_inj,List.append_right_inj]
      decide
    · intro value text htext
      rw [outcome_bound h.path h.eventKind htext hbase,eventShort_price hdescribable.path hdescribable.eventKind,
        hshort,MayPanic.ok_bind,MayPanic.pure_eq]

/-- The two sentences on an outcome differ, by induction on the predicates it is told under. -/
theorem outcome_distinct {v : UInt64} (h : id.Describable p k) (htext : Outcome.outcomeString ⟨id,v⟩ = .ok text) :
    ∃ d, outcome ⟨id,v⟩ = .ok d ∧ d.positive ≠ d.negative := by
  induction k generalizing id v text with
  | vsMatch vsKind =>
    obtain ⟨left,right,hparties⟩ := h.parties vsKind rfl
    have hprint : vsKind.outcomeString (.ok (left,right)) v = .ok text := by
      simpa [Outcome.outcomeString,h.eventKind,hparties] using htext
    rw [outcome_vsMatch h.path h.eventKind htext hparties]
    split
    next competition date _ =>
      refine ⟨_,matchOutcome_eq hprint,?_⟩
      split
      next => exact drawn_distinct
      next =>
        split
        next => exact beats_distinct
        next => exact beats_distinct
    next =>
      obtain ⟨short,hshort⟩ := matchShort_isOk h
      rw [eventShort_vsMatch h.path h.eventKind,hshort]
      exact ⟨_,rfl,quoted_distinct short text⟩
  | singleOccurrence =>
    obtain ⟨short,hshort⟩ := occurShort_isOk h.path h.eventKind
    rw [outcome_singleOccurrence h.path h.eventKind htext,eventShort_singleOccurrence h.path h.eventKind,hshort]
    exact ⟨_,rfl,quoted_distinct short text⟩
  | price nDigits =>
    obtain ⟨short,hshort⟩ := priceShort_isOk h.path h.eventKind
    rw [outcome_price h.path h.eventKind htext,eventShort_price h.path h.eventKind,hshort]
    refine ⟨_,rfl,?_⟩
    simp only [ne_eq,List.append_left_inj,List.append_right_inj]
    decide
  | predicate inner predicate ih =>
    obtain ⟨d,hne,hd⟩ := outcome_predicate h (fun _ _ _ hinner hprinted => ih hinner hprinted)
    exact ⟨_,hd v text htext,maybeNegate_distinct hne _⟩

end Describe

namespace EventId
open Describe
variable {id : EventId} {p : Path} {k : EventKind} {v w : UInt64}

/-- The sentences on the outcomes of an event are all different, and so are the two sentences
on each of them. -/
def DescribesApart (id : EventId) : Prop :=
  (∀ v w, Outcome.Valid ⟨id,v⟩ → Outcome.Valid ⟨id,w⟩ → v ≠ w → ∃ a b, outcome ⟨id,v⟩ = .ok a ∧
    outcome ⟨id,w⟩ = .ok b ∧ a.positive ≠ b.positive) ∧
  ∀ v, Outcome.Valid ⟨id,v⟩ → ∃ d, outcome ⟨id,v⟩ = .ok d ∧ d.positive ≠ d.negative

/-- Two teams of a competition whose long names, each before the verb, repeat one text. Where
the text of an outcome is a party, a party can be called like a draw, and is told as one. -/
def NamesRepeat (id : EventId) : Prop :=
  ∃ p vsKind competition date left right, id.path = .ok p ∧ id.eventKind = .ok (.vsMatch vsKind) ∧
    matchSegments p.segments = some (competition,date) ∧ id.parties = .ok (some (left,right)) ∧
    (vsKind = .win → left ≠ "draw".toList ∧ right ≠ "draw".toList) ∧
    Text.SameRepeated (lookupTeam competition left ++ " beats ".toList)
      (lookupTeam competition right ++ " beats ".toList)

/-- Either side wins in a text that is not that of a draw. -/
theorem outcomeString_sides {vsKind : VsMatchKind} {left right : Str}
    (hdraw : vsKind = .win → left ≠ "draw".toList ∧ right ≠ "draw".toList) : ∃ a b,
      vsKind.outcomeString (.ok (left,right)) 0 = .ok a ∧ vsKind.outcomeString (.ok (left,right)) 1 = .ok b ∧
        a ≠ "draw".toList ∧ b ≠ "draw".toList := by
  cases vsKind with
  | winOrDraw => exact ⟨_,_,rfl,rfl,VsMatchKind.win_ne_draw left,VsMatchKind.win_ne_draw right⟩
  | win => exact ⟨_,_,rfl,rfl,hdraw rfl⟩

/-- Where the names repeat one text, one sentence says that either side wins. -/
theorem not_describesApart (h : id.Accepted) (hrepeat : id.NamesRepeat) : ¬ id.DescribesApart := by
  rintro ⟨happart,_⟩
  obtain ⟨p,vsKind,competition,date,left,right,hp,hk,hsegments,hparties,hdraw,hsame⟩ := hrepeat
  obtain ⟨q,k,hr⟩ := h.reads
  obtain rfl : .vsMatch vsKind = k := Except.ok.inj (hk.symm.trans hr.eventKind)
  obtain ⟨hzero,hone⟩ := vsKind.admits_sides
  obtain ⟨a,b,ha,hb,hapart⟩ := happart 0 1 (hr.valid_iff.mpr hzero) (hr.valid_iff.mpr hone) (by decide)
  obtain ⟨textLeft,textRight,hleft,hright,hneleft,hneright⟩ := outcomeString_sides hdraw
  have htext : ∀ v, Outcome.outcomeString ⟨id,v⟩ = vsKind.outcomeString (.ok (left,right)) v := by
    intro v
    simp [Outcome.outcomeString,hk,hparties]
  have hsaid : ∀ v text, vsKind.outcomeString (.ok (left,right)) v = .ok text → outcome ⟨id,v⟩ =
      matchOutcome vsKind competition date left right text := by
    intro v text hprint
    rw [outcome_vsMatch hp hk ((htext v).trans hprint) hparties,hsegments]
  rw [hsaid 0 _ hleft,matchOutcome_eq hleft,if_neg hneleft,if_pos rfl] at ha
  rw [hsaid 1 _ hright,matchOutcome_eq hright,if_neg hneright,if_neg (by decide)] at hb
  obtain rfl := Except.ok.inj ha
  obtain rfl := Except.ok.inj hb
  exact hapart (beats_comm_iff.mpr hsame)

/-- Two results of a match, neither told as a draw, are the two sides. -/
theorem sides_of_ne_draw {vsKind : VsMatchKind} {left right a b : Str} (hvw : v ≠ w)
    (hv : vsKind.outcomeString (.ok (left,right)) v = .ok a) (hw : vsKind.outcomeString (.ok (left,right)) w = .ok b)
    (ha : a ≠ "draw".toList) (hb : b ≠ "draw".toList) :
    (v = 0 ∧ w = 1 ∨ v = 1 ∧ w = 0) ∧ (vsKind = .win → left ≠ "draw".toList ∧ right ≠ "draw".toList) := by
  cases vsKind with
  | winOrDraw =>
    refine ⟨?_,nofun⟩
    rcases VsMatchKind.outcomeString_winOrDraw hv with ⟨rfl,_⟩ | ⟨rfl,_⟩ | ⟨_,hdraw⟩
    · rcases VsMatchKind.outcomeString_winOrDraw hw with ⟨rfl,_⟩ | ⟨rfl,_⟩ | ⟨_,hdraw⟩
      · exact absurd rfl hvw
      · exact Or.inl ⟨rfl,rfl⟩
      · exact absurd hdraw hb
    · rcases VsMatchKind.outcomeString_winOrDraw hw with ⟨rfl,_⟩ | ⟨rfl,_⟩ | ⟨_,hdraw⟩
      · exact Or.inr ⟨rfl,rfl⟩
      · exact absurd rfl hvw
      · exact absurd hdraw hb
    · exact absurd hdraw ha
  | win =>
    rcases VsMatchKind.outcomeString_win hv with ⟨rfl,rfl⟩ | ⟨rfl,rfl⟩
    · rcases VsMatchKind.outcomeString_win hw with ⟨rfl,rfl⟩ | ⟨rfl,rfl⟩
      · exact absurd rfl hvw
      · exact ⟨Or.inl ⟨rfl,rfl⟩,fun _ => ⟨ha,hb⟩⟩
    · rcases VsMatchKind.outcomeString_win hw with ⟨rfl,rfl⟩ | ⟨rfl,rfl⟩
      · exact ⟨Or.inr ⟨rfl,rfl⟩,fun _ => ⟨hb,ha⟩⟩
      · exact absurd rfl hvw

theorem matchOutcome_apart {vsKind : VsMatchKind} {competition date left right a b : Str} (hvw : v ≠ w)
    (hv : vsKind.outcomeString (.ok (left,right)) v = .ok a) (hw : vsKind.outcomeString (.ok (left,right)) w = .ok b) (hab : a ≠ b)
    (hnames : (vsKind = .win → left ≠ "draw".toList ∧ right ≠ "draw".toList) →
      ¬ Text.SameRepeated (lookupTeam competition left ++ " beats ".toList)
        (lookupTeam competition right ++ " beats ".toList)) :
    ∃ d e, matchOutcome vsKind competition date left right a = .ok d ∧
      matchOutcome vsKind competition date left right b = .ok e ∧ d.positive ≠ e.positive := by
  refine ⟨_,_,matchOutcome_eq hv,matchOutcome_eq hw,?_⟩
  by_cases ha : a = "draw".toList
  · have hb : b ≠ "draw".toList := fun hb => hab (ha.trans hb.symm)
    rw [if_pos ha,if_neg hb]
    split
    next => exact drawn_ne_beats rfl
    next => exact drawn_ne_beats (Nat.add_comm _ _)
  · by_cases hb : b = "draw".toList
    · rw [if_neg ha,if_pos hb]
      split
      next => exact (drawn_ne_beats rfl).symm
      next => exact (drawn_ne_beats (Nat.add_comm _ _)).symm
    · obtain ⟨hsides,hdraw⟩ := sides_of_ne_draw hvw hv hw ha hb
      rw [if_neg ha,if_neg hb]
      rcases hsides with ⟨rfl,rfl⟩ | ⟨rfl,rfl⟩
      · exact fun hsame => hnames hdraw (beats_comm_iff.mp hsame)
      · exact fun hsame => hnames hdraw (beats_comm_iff.mp hsame.symm)

/-- Different outcomes of an event that is no such match are told apart: by their texts where
these are quoted, and by the negation where the event is a predicate. -/
theorem outcome_apart (hr : id.Reads p k) (hnames : ¬ id.NamesRepeat) (hv : k.Admits v) (hw : k.Admits w)
    (hvw : v ≠ w) : ∃ a b, outcome ⟨id,v⟩ = .ok a ∧ outcome ⟨id,w⟩ = .ok b ∧ a.positive ≠ b.positive := by
  obtain ⟨textV,htextV,_⟩ := hr.printed hv
  obtain ⟨textW,htextW,_⟩ := hr.printed hw
  have htexts : textV ≠ textW := by
    rintro rfl
    exact hvw (hr.outcomeString_injective htextV htextW)
  have h := hr.describable
  cases k with
  | vsMatch vsKind =>
    obtain ⟨left,right,hparties⟩ := h.parties vsKind rfl
    have hprint : ∀ u, Outcome.outcomeString ⟨id,u⟩ = vsKind.outcomeString (.ok (left,right)) u := by
      intro u
      simp [Outcome.outcomeString,h.eventKind,hparties]
    rw [outcome_vsMatch h.path h.eventKind htextV hparties,outcome_vsMatch h.path h.eventKind htextW hparties]
    split
    next competition date hsegments =>
      refine matchOutcome_apart hvw ((hprint v).symm.trans htextV) ((hprint w).symm.trans htextW) htexts ?_
      intro hdraw hsame
      exact hnames ⟨p,vsKind,competition,date,left,right,h.path,h.eventKind,hsegments,hparties,hdraw,hsame⟩
    next =>
      obtain ⟨short,hshort⟩ := matchShort_isOk h
      rw [eventShort_vsMatch h.path h.eventKind,hshort]
      exact ⟨_,_,rfl,rfl,fun hsame => htexts (quoted_injective hsame)⟩
  | singleOccurrence =>
    rw [EventKind.admits_singleOccurrence] at hv hw
    exact absurd (hv.trans hw.symm) hvw
  | price nDigits =>
    obtain ⟨short,hshort⟩ := priceShort_isOk h.path h.eventKind
    rw [outcome_price h.path h.eventKind htextV,outcome_price h.path h.eventKind htextW,
      eventShort_price h.path h.eventKind,hshort]
    exact ⟨_,_,rfl,rfl,fun hsame => htexts (List.append_cancel_left hsame)⟩
  | predicate inner predicate =>
    obtain ⟨d,hne,hd⟩ := outcome_predicate h (fun _ _ _ hinner hprinted => outcome_distinct hinner hprinted)
    have hprint : ∀ u : UInt64, u < 2 → Outcome.outcomeString ⟨id,u⟩ = .ok (displayBool (u ≠ 0)) := by
      intro u hu
      simp [Outcome.outcomeString,h.eventKind,hu]
    have hfalse : outcome ⟨id,0⟩ = .ok ⟨d.negative,d.positive⟩ := hd 0 _ (hprint 0 (by decide))
    have htrue : outcome ⟨id,1⟩ = .ok d := hd 1 _ (hprint 1 (by decide))
    rcases EventKind.admits_predicate.mp hv with rfl | rfl
    · obtain rfl := (EventKind.admits_predicate.mp hw).resolve_left hvw.symm
      exact ⟨_,_,hfalse,htrue,hne.symm⟩
    · obtain rfl := (EventKind.admits_predicate.mp hw).resolve_right hvw.symm
      exact ⟨_,_,htrue,hfalse,hne⟩

/-- Descriptions keep the outcomes of an accepted event apart exactly where it is no match of
a competition between teams whose names repeat one text. -/
theorem describesApart_iff (h : id.Accepted) : id.DescribesApart ↔ ¬ id.NamesRepeat := by
  constructor
  · exact fun happart hrepeat => not_describesApart h hrepeat happart
  · intro hnames
    obtain ⟨p,k,hr⟩ := h.reads
    refine ⟨?_,?_⟩
    · intro v w hv hw hvw
      exact outcome_apart hr hnames (hr.valid_iff.mp hv) (hr.valid_iff.mp hw) hvw
    · intro v hv
      obtain ⟨text,htext,_⟩ := hr.printed (hr.valid_iff.mp hv)
      exact outcome_distinct hr.describable htext

/-- Where the two codes are of different teams, each side has its sentence. -/
theorem describesApart_at_two_codes : DescribesApart ⟨⟨"/s/EPL/match/2021-08-13/BRE_ARS.vs".toList⟩⟩ := by
  refine (describesApart_iff (by decide +kernel)).mpr ?_
  rintro ⟨p,vsKind,competition,date,left,right,hp,_,hsegments,hparties,_,hsame⟩
  have hpath : path ⟨⟨"/s/EPL/match/2021-08-13/BRE_ARS.vs".toList⟩⟩ =
      .ok ⟨"/s/EPL/match/2021-08-13/BRE_ARS".toList⟩ := by decide +kernel
  have hteams : parties ⟨⟨"/s/EPL/match/2021-08-13/BRE_ARS.vs".toList⟩⟩ =
      .ok (some ("BRE".toList,"ARS".toList)) := by decide +kernel
  have hplace : matchSegments (Path.segments ⟨"/s/EPL/match/2021-08-13/BRE_ARS".toList⟩) =
      some ("EPL".toList,"2021-08-13".toList) := by decide +kernel
  obtain rfl := Except.ok.inj (hpath.symm.trans hp)
  obtain ⟨rfl,rfl⟩ := Prod.mk.inj (Option.some.inj (hplace.symm.trans hsegments))
  obtain ⟨rfl,rfl⟩ := Prod.mk.inj (Option.some.inj (Except.ok.inj (hteams.symm.trans hparties)))
  rw [← Text.append_comm_iff] at hsame
  exact absurd hsame (by decide +kernel)

/-- A team under its code and under its long name: whoever wins, Brentford beats Brentford. -/
theorem same_sentence_for_both_sides : ¬ ∀ id : EventId, id.Accepted → id.DescribesApart := by
  intro h
  have haccepted : Accepted ⟨⟨"/s/EPL/match/2021-08-13/BRE_Brentford.vs".toList⟩⟩ := by decide +kernel
  have hteams : lookupTeam "EPL".toList "BRE".toList = lookupTeam "EPL".toList "Brentford".toList := by
    decide +kernel
  refine not_describesApart haccepted ?_ (h _ haccepted)
  refine ⟨⟨"/s/EPL/match/2021-08-13/BRE_Brentford".toList⟩,.winOrDraw,"EPL".toList,"2021-08-13".toList,
    "BRE".toList,"Brentford".toList,by decide +kernel,by decide +kernel,by decide +kernel,by decide +kernel,nofun,?_⟩
  rw [hteams,← Text.append_comm_iff]

end EventId
end Olivia
