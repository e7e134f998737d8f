import Olivia.Core.EventId

/-! # Values, texts and indexes of an accepted event

Parsing, printing, attesting and describing the outcomes of an event are four case analyses
over its kind. For accepted ids the first three agree on which values there are; the
descriptor lists them in another order where the event is a predicate.
-/
namespace Olivia

/-- The values an event of a kind can have. -/
def EventKind.Admits (k : EventKind) (value : UInt64) : Prop :=
  match k with
  | .vsMatch .winOrDraw => value < 3
  | .vsMatch .win => value < 2
  | .singleOccurrence => value < 1
  | .predicate _ _ => value < 2
  | .price _ => True

theorem EventKind.admits_winOrDraw {v : UInt64} :
    (EventKind.vsMatch .winOrDraw).Admits v ↔ v = 0 ∨ v = 1 ∨ v = 2 := by
  constructor
  · intro hv
    have hlt : v < 3 := hv
    grind
  · rintro (rfl | rfl | rfl)
    · exact (by decide : (0 : UInt64) < 3)
    · exact (by decide : (1 : UInt64) < 3)
    · exact (by decide : (2 : UInt64) < 3)

theorem EventKind.admits_win {v : UInt64} : (EventKind.vsMatch .win).Admits v ↔ v = 0 ∨ v = 1 := by
  constructor
  · intro hv
    have hlt : v < 2 := hv
    grind
  · rintro (rfl | rfl)
    · exact (by decide : (0 : UInt64) < 2)
    · exact (by decide : (1 : UInt64) < 2)

theorem EventKind.admits_singleOccurrence {v : UInt64} : EventKind.singleOccurrence.Admits v ↔ v = 0 := by
  constructor
  · intro hv
    have hlt : v < 1 := hv
    grind
  · rintro rfl
    exact (by decide : (0 : UInt64) < 1)

theorem EventKind.admits_predicate {inner : EventKind} {predicate : Predicate} {v : UInt64} :
    (EventKind.predicate inner predicate).Admits v ↔ v = 0 ∨ v = 1 := EventKind.admits_win

/-- The index of every nonce that a value reveals. -/
def EventKind.indexes (k : EventKind) (value : UInt64) : List UInt32 :=
  match k with
  | .price nDigits => priceIndexes nDigits value
  | _ => [value.toUInt32]

/-- What the accessors of an accepted id return. -/
structure EventId.Reads (id : EventId) (p : Path) (k : EventKind) : Prop where
  path : id.path = .ok p
  eventKind : id.eventKind = .ok k
  fits : EventId.Fits p k

/-- An outcome that some text is read as. -/
def Outcome.Valid (o : Outcome) : Prop := ∃ text, tryFromIdAndOutcome o.id text = .ok (.ok o)

theorem EventId.Accepted.reads {id : EventId} (h : id.Accepted) : ∃ p k, id.Reads p k := by
  obtain ⟨p,text,k,hs,hk,hf⟩ := h.fits
  exact ⟨p,k,EventId.path_eq hs,EventId.eventKind_eq hs hk,hf⟩

namespace VsMatchKind
variable {left right : Str}

theorem dropSuffix_win (party : Str) : (party ++ "_win".toList).dropSuffix? "_win".toList = some party := by
  simp [List.dropSuffix?]

/-- No party wins with the text of a draw. -/
theorem win_ne_draw (party : Str) : party ++ "_win".toList ≠ "draw".toList := by
  intro h
  have hmem : '_' ∈ "draw".toList := h ▸ by simp
  simp at hmem

/-- Every value of a match prints a text that is read as this value. -/
theorem outcomeValue_outcomeString (kind : VsMatchKind) (hne : left ≠ right) {value : UInt64}
    (hv : (EventKind.vsMatch kind).Admits value) : ∃ text, kind.outcomeString (.ok (left,right)) value = .ok text ∧
      kind.outcomeValue left right text = .ok value := by
  cases kind with
  | winOrDraw =>
    rcases EventKind.admits_winOrDraw.mp hv with rfl | rfl | rfl
    · exact ⟨left ++ "_win".toList,rfl,by
        simp only [outcomeValue,if_neg (win_ne_draw left),dropSuffix_win,if_true]; rfl⟩
    · exact ⟨right ++ "_win".toList,rfl,by
        simp only [outcomeValue,if_neg (win_ne_draw right),dropSuffix_win,if_neg hne.symm,if_true]; rfl⟩
    · exact ⟨"draw".toList,rfl,by simp only [outcomeValue,if_true]; rfl⟩
  | win =>
    rcases EventKind.admits_win.mp hv with rfl | rfl
    · exact ⟨left,rfl,by simp only [outcomeValue,if_true]; rfl⟩
    · exact ⟨right,rfl,by simp only [outcomeValue,if_neg hne.symm,if_true]; rfl⟩

/-- A text that is read as a result of the match is the text of this result. -/
theorem outcomeString_outcomeValue {kind : VsMatchKind} {text : Str} {value : UInt64}
    (h : kind.outcomeValue left right text = .ok value) : kind.outcomeString (.ok (left,right)) value = .ok text := by
  cases kind with
  | winOrDraw =>
    simp only [outcomeValue] at h
    split at h
    next hdraw => exact Except.ok.inj h ▸ hdraw ▸ rfl
    next =>
      split at h
      next winner hsuffix =>
        obtain ⟨suffix,rfl,hend⟩ := List.dropSuffix?_eq_some_iff.mp hsuffix
        obtain rfl := LawfulBEq.eq_of_beq hend
        split at h
        next hleft => exact Except.ok.inj h ▸ hleft ▸ rfl
        next =>
          split at h
          next hright => exact Except.ok.inj h ▸ hright ▸ rfl
          next => simp at h
      next => simp at h
  | win =>
    simp only [outcomeValue] at h
    split at h
    next hleft => exact Except.ok.inj h ▸ hleft ▸ rfl
    next =>
      split at h
      next hright => exact Except.ok.inj h ▸ hright ▸ rfl
      next => simp at h

theorem admits_of_outcomeString {kind : VsMatchKind} {text : Str} {value : UInt64}
    (h : kind.outcomeString (.ok (left,right)) value = .ok text) : (EventKind.vsMatch kind).Admits value := by
  cases kind with
  | winOrDraw =>
    obtain ⟨_,hvalue,_⟩ := MayPanic.bind_eq_ok.mp h
    refine EventKind.admits_winOrDraw.mpr ?_
    by_contra hne
    push Not at hne
    simp [WinOrDraw.tryFrom,hne,MayPanic.expect] at hvalue
  | win =>
    obtain ⟨_,hvalue,_⟩ := MayPanic.bind_eq_ok.mp h
    refine EventKind.admits_win.mpr ?_
    by_contra hne
    push Not at hne
    simp [Win.tryFrom,hne,MayPanic.expect] at hvalue

theorem admits_of_outcomeValue {kind : VsMatchKind} {text : Str} {value : UInt64}
    (h : kind.outcomeValue left right text = .ok value) : (EventKind.vsMatch kind).Admits value :=
  admits_of_outcomeString (outcomeString_outcomeValue h)

theorem outcomeString_winOrDraw {text : Str} {v : UInt64} (h : winOrDraw.outcomeString (.ok (left,right)) v = .ok text) :
    v = 0 ∧ text = left ++ "_win".toList ∨ v = 1 ∧ text = right ++ "_win".toList ∨ v = 2 ∧ text = "draw".toList := by
  rcases EventKind.admits_winOrDraw.mp (admits_of_outcomeString h) with rfl | rfl | rfl
  · exact Or.inl ⟨rfl,(Except.ok.inj h).symm⟩
  · exact Or.inr (Or.inl ⟨rfl,(Except.ok.inj h).symm⟩)
  · exact Or.inr (Or.inr ⟨rfl,(Except.ok.inj h).symm⟩)

theorem outcomeString_win {text : Str} {v : UInt64} (h : win.outcomeString (.ok (left,right)) v = .ok text) :
    v = 0 ∧ text = left ∨ v = 1 ∧ text = right := by
  rcases EventKind.admits_win.mp (admits_of_outcomeString h) with rfl | rfl
  · exact Or.inl ⟨rfl,(Except.ok.inj h).symm⟩
  · exact Or.inr ⟨rfl,(Except.ok.inj h).symm⟩

/-- The text of a match has the characters of the party that it names, and plain letters. -/
theorem mem_outcomeString {kind : VsMatchKind} {text : Str} {v : UInt64} {c : Char}
    (hwin : c ∉ "_win".toList) (hdraw : c ∉ "draw".toList) (h : kind.outcomeString (.ok (left,right)) v = .ok text) :
    c ∈ text ↔ v = 0 ∧ c ∈ left ∨ v = 1 ∧ c ∈ right := by
  cases kind with
  | winOrDraw =>
    rcases outcomeString_winOrDraw h with ⟨rfl,rfl⟩ | ⟨rfl,rfl⟩ | ⟨rfl,rfl⟩
    · rw [List.mem_append,or_iff_left hwin]
      simp
    · rw [List.mem_append,or_iff_left hwin]
      simp
    · exact iff_of_false hdraw (by simp)
  | win =>
    rcases outcomeString_win h with ⟨rfl,rfl⟩ | ⟨rfl,rfl⟩
    · simp
    · simp

end VsMatchKind

theorem Outcome.id_of_read {id : EventId} {text : Str} {o : Outcome}
    (h : tryFromIdAndOutcome id text = .ok (.ok o)) : o.id = id :=
  (tryFromIdAndOutcome_eq_ok.mp h).1

/-- A text that is read as an outcome of an id gives this outcome a text, though it need not be
the same one. -/
theorem Outcome.outcomeString_of_read {id : EventId} {k : EventKind} {text : Str} {o : Outcome}
    (hk : id.eventKind = .ok k) (h : tryFromIdAndOutcome id text = .ok (.ok o)) :
    ∃ printed, o.outcomeString = .ok printed := by
  obtain ⟨_,v⟩ := o
  obtain ⟨rfl,hvalue⟩ := tryFromIdAndOutcome_eq_ok.mp h
  simp only [valueFromIdAndOutcome,hk,MayPanic.ok_bind] at hvalue
  simp only [outcomeString,hk,MayPanic.ok_bind]
  cases k with
  | vsMatch kind =>
    obtain ⟨found,hfound,hvalue⟩ := MayPanic.bind_eq_ok.mp hvalue
    obtain ⟨⟨left,right⟩,hparties,hvalue⟩ := MayPanic.bind_eq_ok.mp hvalue
    obtain rfl := MayPanic.expect_eq_ok.mp hparties
    exact ⟨text,by
      rw [hfound]
      exact VsMatchKind.outcomeString_outcomeValue (Except.ok.inj hvalue)⟩
  | singleOccurrence =>
    simp only [MayPanic.pure_eq,Except.ok.injEq] at hvalue
    split at hvalue
    next => exact ⟨"true".toList,Except.ok.inj hvalue ▸ rfl⟩
    next => cases hvalue
  | predicate inner predicate =>
    simp only [MayPanic.pure_eq,Except.ok.injEq] at hvalue
    split at hvalue
    next truth _ =>
      obtain rfl := Except.ok.inj hvalue
      cases truth <;> exact ⟨_,rfl⟩
    next => cases hvalue
  | price n => exact ⟨displayU64 v,rfl⟩

@[simp] theorem length_priceIndexes (nDigits : UInt8) (value : UInt64) :
    (priceIndexes nDigits value).length = nDigits.toNat := by simp [priceIndexes]

/-- A digit is zero or one, whatever the price. -/
theorem priceIndexes_lt {nDigits : UInt8} {value : UInt64} {i : UInt32}
    (h : i ∈ priceIndexes nDigits value) : i < 2 := by
  simp only [priceIndexes,List.mem_reverse,List.mem_map] at h
  obtain ⟨digit,_,rfl⟩ := h
  split
  next => decide
  next => decide

namespace EventId.Reads
variable {id : EventId} {p : Path} {k : EventKind}

theorem parties {kind : VsMatchKind} (h : id.Reads p (.vsMatch kind)) :
    ∃ left right, id.parties = .ok (some (left,right)) ∧ left ≠ right := by
  cases h.fits with
  | vsMatch hlast hl hr hne => exact ⟨_,_,parties_vsMatch h.eventKind h.path hlast hl hr,hne⟩

theorem nNonces (h : id.Reads p k) : id.nNonces = .ok k.nNonces := nNonces_eq h.eventKind

theorem length_indexes (k : EventKind) (value : UInt64) : (k.indexes value).length = k.nNonces.toNat := by
  cases k with
  | price n => exact length_priceIndexes n value
  | _ => rfl

/-- The parties a match needs are there, so any text is read or rejected. -/
theorem tryFromIdAndOutcome_isOk (h : id.Reads p k) (text : Str) :
    ∃ r, Outcome.tryFromIdAndOutcome id text = .ok r := by
  refine (EventId.tryFromIdAndOutcome_isOk h.eventKind h.path).mpr ?_
  rintro ⟨kind,rfl⟩
  cases h.fits with
  | vsMatch hlast => exact hlast ▸ by simp

/-- Every admitted value is printed as a text that is read back as that value. -/
theorem printed (h : id.Reads p k) {value : UInt64} (hv : k.Admits value) :
    ∃ text, Outcome.outcomeString ⟨id,value⟩ = .ok text ∧
      Outcome.tryFromIdAndOutcome id text = .ok (.ok ⟨id,value⟩) := by
  cases k with
  | vsMatch kind =>
    obtain ⟨left,right,hparties,hne⟩ := h.parties
    obtain ⟨text,htext,hvalue⟩ := kind.outcomeValue_outcomeString hne hv
    exact ⟨text,by simp [Outcome.outcomeString,h.eventKind,hparties,htext],
      by simp [Outcome.tryFromIdAndOutcome,Outcome.valueFromIdAndOutcome,h.eventKind,hparties,hvalue,Except.map]⟩
  | singleOccurrence =>
    obtain rfl := EventKind.admits_singleOccurrence.mp hv
    exact ⟨"true".toList,by simp [Outcome.outcomeString,h.eventKind,Occur.tryFrom],
      by simp [Outcome.tryFromIdAndOutcome,Outcome.valueFromIdAndOutcome,h.eventKind,Except.map]⟩
  | predicate inner predicate =>
    have hlt : value < 2 := hv
    have htruth : (if value = 0 then (0 : UInt64) else 1) = value := by
      rcases EventKind.admits_predicate.mp hv with rfl | rfl <;> rfl
    exact ⟨displayBool (value ≠ 0),by simp [Outcome.outcomeString,h.eventKind,hlt],
      by simp [Outcome.tryFromIdAndOutcome,Outcome.valueFromIdAndOutcome,h.eventKind,Except.map,htruth]⟩
  | price n => exact ⟨displayU64 value,by simp [Outcome.outcomeString,h.eventKind],
      by simp [Outcome.tryFromIdAndOutcome,Outcome.valueFromIdAndOutcome,h.eventKind,Except.map]⟩

/-- Only a value the event can have is printed. -/
theorem admits_of_outcomeString (h : id.Reads p k) {value : UInt64} {text : Str}
    (hprint : Outcome.outcomeString ⟨id,value⟩ = .ok text) : k.Admits value := by
  simp only [Outcome.outcomeString,h.eventKind,MayPanic.ok_bind] at hprint
  cases k with
  | vsMatch kind =>
    obtain ⟨left,right,hparties,_⟩ := h.parties
    simp only [hparties,MayPanic.ok_bind,MayPanic.unwrap_some] at hprint
    exact VsMatchKind.admits_of_outcomeString hprint
  | singleOccurrence =>
    obtain ⟨_,hvalue,_⟩ := MayPanic.bind_eq_ok.mp hprint
    refine EventKind.admits_singleOccurrence.mpr ?_
    by_contra hne
    simp [Occur.tryFrom,hne,MayPanic.expect] at hvalue
  | predicate inner predicate =>
    dsimp only at hprint
    split at hprint
    next hlt => exact hlt
    next => cases hprint
  | price n => trivial

/-- A text is only read as a value its event can have. -/
theorem admits (h : id.Reads p k) {text : Str} {o : Outcome}
    (ho : Outcome.tryFromIdAndOutcome id text = .ok (.ok o)) : o.id = id ∧ k.Admits o.value := by
  obtain ⟨printed,hprint⟩ := Outcome.outcomeString_of_read h.eventKind ho
  obtain rfl := Outcome.id_of_read ho
  exact ⟨rfl,h.admits_of_outcomeString hprint⟩

theorem outcomeString_injective (h : id.Reads p k) {v w : UInt64} {text : Str}
    (hv : Outcome.outcomeString ⟨id,v⟩ = .ok text) (hw : Outcome.outcomeString ⟨id,w⟩ = .ok text) : v = w := by
  obtain ⟨_,hprint,hvread⟩ := h.printed (h.admits_of_outcomeString hv)
  obtain rfl := Except.ok.inj (hprint.symm.trans hv)
  obtain ⟨_,hprint,hwread⟩ := h.printed (h.admits_of_outcomeString hw)
  obtain rfl := Except.ok.inj (hprint.symm.trans hw)
  have hsame : (⟨id,v⟩ : Outcome) = ⟨id,w⟩ := by simpa using hvread.symm.trans hwread
  exact congrArg Outcome.value hsame

theorem valid_iff (h : id.Reads p k) {value : UInt64} : Outcome.Valid ⟨id,value⟩ ↔ k.Admits value := by
  constructor
  · rintro ⟨text,ho⟩
    exact (h.admits ho).2
  · intro hv
    obtain ⟨text,_,ho⟩ := h.printed hv
    exact ⟨text,ho⟩

theorem attestationIndexes (h : id.Reads p k) {value : UInt64} (hv : k.Admits value) :
    Outcome.attestationIndexes ⟨id,value⟩ = .ok (k.indexes value) := by
  have hsmall : ∀ n : UInt64, value < n → n.toNat ≤ 2^32 → value.toNat < 2^32 :=
    fun n hlt hle => Nat.lt_of_lt_of_le (UInt64.lt_iff_toNat_lt.mp hlt) hle
  have hlt : (∀ n, k ≠ .price n) → value.toNat < 2^32 := by
    intro hne
    cases k with
    | vsMatch kind =>
      cases kind with
      | winOrDraw => exact hsmall 3 hv (by decide)
      | win => exact hsmall 2 hv (by decide)
    | singleOccurrence => exact hsmall 1 hv (by decide)
    | predicate inner predicate => exact hsmall 2 hv (by decide)
    | price n => exact absurd rfl (hne n)
  cases k with
  | price n => simp [Outcome.attestationIndexes,h.eventKind,EventKind.indexes]
  | _ => simpa [Outcome.attestationIndexes,h.eventKind,EventKind.indexes] using hlt (by simp)

theorem attestationIndexes_of_read (h : id.Reads p k) {text : Str} {o : Outcome}
    (ho : Outcome.tryFromIdAndOutcome id text = .ok (.ok o)) : o.attestationIndexes = .ok (k.indexes o.value) := by
  obtain ⟨rfl,hadmits⟩ := h.admits ho
  exact h.attestationIndexes hadmits

example : Outcome.attestationIndexes ⟨⟨⟨"/foo/bar.price?n=3".toList⟩⟩,5⟩ = .ok [1,0,1] := by decide +kernel

/-- Every revealed index is one the event's nonces are announced for. -/
theorem indexes_lt (h : id.Reads p k) {value : UInt64} (hv : k.Admits value) (j : ℕ) :
    ∃ n, id.nOutcomesForNonce j = .ok n ∧ ∀ i ∈ k.indexes value, i < n := by
  have hsmall : ∀ (n : UInt32) (m : UInt64), value < m → m.toNat = n.toNat → value.toUInt32 < n := by
    intro n m hlt hm
    rw [UInt32.lt_iff_toNat_lt,UInt64.toNat_toUInt32,← hm]
    exact Nat.lt_of_le_of_lt (Nat.mod_le _ _) (UInt64.lt_iff_toNat_lt.mp hlt)
  simp only [EventId.nOutcomesForNonce,h.eventKind,MayPanic.ok_bind]
  cases k with
  | vsMatch kind =>
    cases kind with
    | winOrDraw => exact ⟨3,rfl,by simpa [EventKind.indexes] using hsmall 3 3 hv rfl⟩
    | win => exact ⟨2,rfl,by simpa [EventKind.indexes] using hsmall 2 2 hv rfl⟩
  | singleOccurrence => exact ⟨1,rfl,by simpa [EventKind.indexes] using hsmall 1 1 hv rfl⟩
  | predicate inner predicate => exact ⟨2,rfl,by simpa [EventKind.indexes] using hsmall 2 2 hv rfl⟩
  | price n => exact ⟨2,rfl,fun i hi => priceIndexes_lt hi⟩

/-- Every accepted id is described. -/
theorem descriptor (h : id.Reads p k) : ∃ d, id.descriptor = .ok d := by
  cases k with
  | vsMatch kind =>
    obtain ⟨left,right,hparties,_⟩ := h.parties
    cases kind <;> simp [EventId.descriptor,h.eventKind,hparties]
  | _ => simp [EventId.descriptor,h.eventKind]

end EventId.Reads

/-- The values below the number of outcomes, and every value of a price. -/
def EventId.ValidValue (id : EventId) (value : UInt64) : Prop :=
  ∃ k, id.eventKind = .ok k ∧
    ((∃ nDigits, k = .price nDigits) ∨ ∃ n, id.nOutcomes = .ok n ∧ value < n)

namespace EventId
variable {id : EventId} {k : EventKind} {v w : UInt64}

/-- Where it is not a price, the number of outcomes counts the admitted values. -/
theorem nOutcomes_eq (hk : id.eventKind = .ok k) (hne : ∀ nDigits, k ≠ .price nDigits) :
    ∃ n, id.nOutcomes = .ok n ∧ ∀ v, v < n ↔ k.Admits v := by
  simp only [nOutcomes,nOutcomesForNonce,hk,MayPanic.ok_bind]
  cases k with
  | vsMatch kind =>
    cases kind with
    | winOrDraw => exact ⟨3,rfl,fun v => Iff.rfl⟩
    | win => exact ⟨2,rfl,fun v => Iff.rfl⟩
  | singleOccurrence => exact ⟨1,rfl,fun v => Iff.rfl⟩
  | predicate inner predicate => exact ⟨2,rfl,fun v => Iff.rfl⟩
  | price n => exact absurd rfl (hne n)

theorem nOutcomes_isOk (hk : id.eventKind = .ok k) : ∃ n, id.nOutcomes = .ok n := by
  by_cases hprice : ∃ nDigits, k = .price nDigits
  · obtain ⟨nDigits,rfl⟩ := hprice
    exact ⟨_,by rw [nOutcomes,hk,MayPanic.ok_bind,MayPanic.pure_eq]⟩
  · obtain ⟨n,hn,_⟩ := nOutcomes_eq hk (fun nDigits he => hprice ⟨nDigits,he⟩)
    exact ⟨n,hn⟩

theorem validValue_iff (hk : id.eventKind = .ok k) : id.ValidValue v ↔ k.Admits v := by
  by_cases hprice : ∃ nDigits, k = .price nDigits
  · obtain ⟨nDigits,rfl⟩ := hprice
    exact ⟨fun _ => trivial,fun _ => ⟨_,hk,Or.inl ⟨nDigits,rfl⟩⟩⟩
  · obtain ⟨n,hn,hadmits⟩ := nOutcomes_eq hk (fun nDigits he => hprice ⟨nDigits,he⟩)
    constructor
    · rintro ⟨l,hl,hvalid⟩
      obtain rfl : l = k := Except.ok.inj (hl.symm.trans hk)
      rcases hvalid with he | ⟨m,hm,hlt⟩
      · exact absurd he hprice
      · obtain rfl : m = n := Except.ok.inj (hm.symm.trans hn)
        exact (hadmits v).mp hlt
    · intro hv
      exact ⟨k,hk,Or.inr ⟨n,hn,(hadmits v).mpr hv⟩⟩

/-- The text of an outcome and its value determine each other, whichever one is given. -/
theorem outcomeString_inverse (h : id.Accepted) :
    (∀ v, id.ValidValue v → ∃ text, Outcome.outcomeString ⟨id,v⟩ = .ok text ∧
      Outcome.tryFromIdAndOutcome id text = .ok (.ok ⟨id,v⟩)) ∧
    (∀ v w text, id.ValidValue v → id.ValidValue w → Outcome.outcomeString ⟨id,v⟩ = .ok text →
      Outcome.outcomeString ⟨id,w⟩ = .ok text → v = w) ∧
    ∀ text o, Outcome.tryFromIdAndOutcome id text = .ok (.ok o) → o.id = id ∧ id.ValidValue o.value ∧
      ∃ printed, o.outcomeString = .ok printed ∧ Outcome.tryFromIdAndOutcome id printed = .ok (.ok o) := by
  obtain ⟨p,k,hr⟩ := h.reads
  have hprinted : ∀ v, id.ValidValue v → ∃ text, Outcome.outcomeString ⟨id,v⟩ = .ok text ∧
      Outcome.tryFromIdAndOutcome id text = .ok (.ok ⟨id,v⟩) :=
    fun v hv => hr.printed ((validValue_iff hr.eventKind).mp hv)
  refine ⟨hprinted,?_,?_⟩
  · intro v w text _ _ hv hw
    exact hr.outcomeString_injective hv hw
  · intro text o ho
    obtain ⟨hid,hadmits⟩ := hr.admits ho
    obtain ⟨_,value⟩ := o
    obtain rfl : id = _ := hid.symm
    have hvalid := (validValue_iff hr.eventKind).mpr hadmits
    exact ⟨rfl,hvalid,hprinted value hvalid⟩

theorem outcomeString_inverse_at_draw_party :
    Accepted ⟨⟨"/foo/draw_B.vs".toList⟩⟩ ∧
      ∃ printed, Outcome.outcomeString ⟨⟨⟨"/foo/draw_B.vs".toList⟩⟩,0⟩ = .ok printed ∧
        Outcome.tryFromIdAndOutcome ⟨⟨"/foo/draw_B.vs".toList⟩⟩ printed = .ok (.ok ⟨⟨⟨"/foo/draw_B.vs".toList⟩⟩,0⟩) := by
  have haccepted : Accepted ⟨⟨"/foo/draw_B.vs".toList⟩⟩ := by decide +kernel
  have hread : Outcome.tryFromIdAndOutcome ⟨⟨"/foo/draw_B.vs".toList⟩⟩ "draw_win".toList =
      .ok (.ok ⟨⟨⟨"/foo/draw_B.vs".toList⟩⟩,0⟩) := by decide +kernel
  exact ⟨haccepted,((outcomeString_inverse haccepted).2.2 _ _ hread).2.2⟩

end EventId

/-- The outcomes a descriptor lists are the printed values, each at the index it reveals. -/
def EventId.InAttestationOrder (id : EventId) (outcomes : List Str) : Prop :=
  ∃ n, id.nOutcomes = .ok n ∧ outcomes.length = n.toNat ∧ ∀ v < n, ∃ text,
    outcomes[v.toNat]? = some text ∧ Outcome.outcomeString ⟨id,v⟩ = .ok text ∧
      Outcome.attestationIndexes ⟨id,v⟩ = .ok [v.toUInt32]

namespace EventId
variable {id : EventId} {p : Path} {outcomes : List Str}

theorem Reads.inAttestationOrder_vsMatch {kind : VsMatchKind} (h : id.Reads p (.vsMatch kind))
    (hd : id.descriptor = .ok (.enum outcomes)) : id.InAttestationOrder outcomes := by
  obtain ⟨left,right,hparties,_⟩ := h.parties
  have hindex := fun v (hv : (EventKind.vsMatch kind).Admits v) => h.attestationIndexes hv
  cases kind with
  | winOrDraw =>
    obtain rfl : [left ++ "_win".toList,right ++ "_win".toList,"draw".toList] = outcomes := by
      simpa [EventId.descriptor,h.eventKind,hparties] using hd
    refine ⟨3,by simp [EventId.nOutcomes,EventId.nOutcomesForNonce,h.eventKind],rfl,?_⟩
    intro v hv
    rcases EventKind.admits_winOrDraw.mp hv with rfl | rfl | rfl
    · exact ⟨_,rfl,by simp [Outcome.outcomeString,h.eventKind,hparties,VsMatchKind.outcomeString,
        WinOrDraw.tryFrom],hindex 0 hv⟩
    · exact ⟨_,rfl,by simp [Outcome.outcomeString,h.eventKind,hparties,VsMatchKind.outcomeString,
        WinOrDraw.tryFrom],hindex 1 hv⟩
    · exact ⟨_,rfl,by simp [Outcome.outcomeString,h.eventKind,hparties,VsMatchKind.outcomeString,
        WinOrDraw.tryFrom],hindex 2 hv⟩
  | win =>
    obtain rfl : [left,right] = outcomes := by
      simpa [EventId.descriptor,h.eventKind,hparties] using hd
    refine ⟨2,by simp [EventId.nOutcomes,EventId.nOutcomesForNonce,h.eventKind],rfl,?_⟩
    intro v hv
    rcases EventKind.admits_win.mp hv with rfl | rfl
    · exact ⟨_,rfl,by simp [Outcome.outcomeString,h.eventKind,hparties,VsMatchKind.outcomeString,
        Win.tryFrom],hindex 0 hv⟩
    · exact ⟨_,rfl,by simp [Outcome.outcomeString,h.eventKind,hparties,VsMatchKind.outcomeString,
        Win.tryFrom],hindex 1 hv⟩

theorem Reads.inAttestationOrder_singleOccurrence (h : id.Reads p .singleOccurrence)
    (hd : id.descriptor = .ok (.enum outcomes)) : id.InAttestationOrder outcomes := by
  obtain rfl : ["true".toList] = outcomes := by simpa [EventId.descriptor,h.eventKind] using hd
  refine ⟨1,by simp [EventId.nOutcomes,EventId.nOutcomesForNonce,h.eventKind],rfl,?_⟩
  intro v hv
  obtain rfl := EventKind.admits_singleOccurrence.mp hv
  exact ⟨_,rfl,by simp [Outcome.outcomeString,h.eventKind,Occur.tryFrom],h.attestationIndexes hv⟩

/-- The descriptor of a predicate puts `true` first, which is the text of value one. -/
theorem not_inAttestationOrder_predicate {inner : EventKind} {predicate : Predicate}
    (hk : id.eventKind = .ok (.predicate inner predicate)) (hd : id.descriptor = .ok (.enum outcomes)) :
    ¬ id.InAttestationOrder outcomes := by
  rintro ⟨n,hn,_,h⟩
  obtain rfl : ["true".toList,"false".toList] = outcomes := by simpa [descriptor,hk] using hd
  obtain rfl : 2 = n := by simpa [nOutcomes,nOutcomesForNonce,hk] using hn
  obtain ⟨text,htext,hprint,_⟩ := h 0 (by decide)
  obtain rfl : "true".toList = text := by simpa using htext
  simp [Outcome.outcomeString,hk,displayBool] at hprint

/-- An enumerating descriptor is in attestation order unless the event is a predicate. -/
theorem descriptor_inAttestationOrder_iff (h : id.Accepted) (hd : id.descriptor = .ok (.enum outcomes)) :
    id.InAttestationOrder outcomes ↔
      ∀ inner predicate, id.eventKind ≠ .ok (.predicate inner predicate) := by
  constructor
  · intro horder inner predicate hk
    exact not_inAttestationOrder_predicate hk hd horder
  · intro hk
    obtain ⟨p,k,hr⟩ := h.reads
    cases k with
    | vsMatch kind => exact hr.inAttestationOrder_vsMatch hd
    | singleOccurrence => exact hr.inAttestationOrder_singleOccurrence hd
    | predicate inner predicate => exact absurd hr.eventKind (hk inner predicate)
    | price n =>
      rw [descriptor,hr.eventKind] at hd
      by_cases hn : n = 0 <;> simp [hn] at hd

theorem descriptor_inAttestationOrder_at_winner :
    InAttestationOrder ⟨⟨"/foo/A_B.winner".toList⟩⟩ ["A".toList,"B".toList] ↔
      ∀ inner predicate, eventKind ⟨⟨"/foo/A_B.winner".toList⟩⟩ ≠ .ok (.predicate inner predicate) :=
  descriptor_inAttestationOrder_iff (by decide +kernel) (by decide +kernel)

theorem predicate_descriptor_out_of_order : ¬ ∀ (id : EventId) (outcomes : List Str),
    id.Accepted → id.descriptor = .ok (.enum outcomes) → id.InAttestationOrder outcomes := by
  intro h
  have hk : eventKind ⟨⟨"/foo/bar.price_5".toList⟩⟩ = .ok (.predicate (.price 0) (.bound .gt 5)) := by
    decide +kernel
  have hd : descriptor ⟨⟨"/foo/bar.price_5".toList⟩⟩ = .ok (.enum ["true".toList,"false".toList]) := by
    decide +kernel
  exact not_inAttestationOrder_predicate hk hd (h _ _ (by decide +kernel) hd)

end EventId
end Olivia
