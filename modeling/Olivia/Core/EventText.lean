import Olivia.Core.OutcomeLaws

/-! # The text behind the path

What stands behind the path of an accepted id has no dot: the words and numerals of the
grammar have none, and the value of an equality is made of such words and of the parties in
the last segment. So the path can be cut off at the last dot as well as at the first one of
the last segment.
-/
namespace Olivia

/-- A dot, a slash and what a pattern makes of a text, but for the underscore. -/
def Sign (c : Char) : Prop := c = '.' ∨ c = '/' ∨ c = '%' ∨ c = '\\'

theorem Sign.not_numeral {c : Char} (h : Sign c) : ¬ (c = '+' ∨ c.isDigit) := by
  rcases h with rfl | rfl | rfl | rfl <;> decide

/-- The words and numerals of the grammar have no sign. -/
theorem EventKind.KindText.mem_value {k : EventKind} {text : Str} {c : Char} (h : KindText k text)
    (hsign : Sign c) (hc : c ∈ text) : ∃ inner value, k = .predicate inner (.eq value) ∧ c ∈ value := by
  have hword : ∀ word ∈ ["vs".toList,"winner".toList,"occur".toList,"price".toList,"price?n=".toList,
      "price_".toList], c ∉ word := by
    rcases hsign with rfl | rfl | rfl | rfl <;> decide
  cases h with
  | digits h =>
    rcases List.mem_append.mp hc with hc | hc
    · exact absurd hc (hword _ (by simp))
    · exact absurd (mem_of_parseU8 h hc) hsign.not_numeral
  | bound h =>
    rcases List.mem_append.mp hc with hc | hc
    · exact absurd hc (hword _ (by simp))
    · exact absurd (mem_of_parseU64 h hc) hsign.not_numeral
  | @eq inner lhs value h heq =>
    rcases List.mem_append.mp hc with hc | hc
    · obtain ⟨_,_,rfl,_⟩ := h.mem_value hsign hc
      cases h with
      | eq => simp at heq
    · rcases List.mem_cons.mp hc with rfl | hc
      · exact absurd hsign (by simp [Sign])
      · exact ⟨inner,value,rfl,hc⟩
  | _ => exact absurd hc (hword _ (by simp))
termination_by text.length

namespace EventId
variable {id : EventId} {p : Path} {k : EventKind} {text : Str} {c : Char}

theorem mem_last_of_parties {left right : Str} (hp : id.path = .ok p)
    (h : id.parties = .ok (some (left,right))) (hc : c ∈ left ∨ c ∈ right) : c ∈ p.last := by
  obtain ⟨k,_,h⟩ := MayPanic.bind_eq_ok.mp h
  cases k with
  | vsMatch kind =>
    simp only [hp,MayPanic.ok_bind] at h
    obtain ⟨l,hl,h⟩ := MayPanic.bind_eq_ok.mp h
    obtain ⟨r,hr,h⟩ := MayPanic.bind_eq_ok.mp h
    obtain ⟨rfl,rfl⟩ : l = left ∧ r = right := by simpa using h
    have hleft := List.mem_of_getElem? (MayPanic.unwrap_eq_ok.mp hl)
    have hright := List.mem_of_getElem? (MayPanic.unwrap_eq_ok.mp hr)
    rcases hc with hc | hc
    · exact Text.mem_of_mem_splitOn hleft hc
    · exact Text.mem_of_mem_splitOn hright hc
  | _ => simp at h

/-- A text that is read as an outcome is made of a party, digits and a few words. -/
theorem mem_last_of_tryFrom {o : Outcome} (hk : id.eventKind = .ok k) (hp : id.path = .ok p)
    (h : Outcome.tryFromIdAndOutcome id text = .ok (.ok o)) (hsign : Sign c) (hc : c ∈ text) : c ∈ p.last := by
  have hwords : c.isDigit = false ∧ c ≠ '+' ∧ c ∉ "_win".toList ∧ c ∉ "draw".toList ∧ c ∉ "true".toList ∧
      c ∉ "false".toList := by
    rcases hsign with rfl | rfl | rfl | rfl <;> decide
  obtain ⟨hdigit,hplus,hwin,hdraw,htrue,hfalse⟩ := hwords
  obtain ⟨_,hvalue⟩ := Outcome.tryFromIdAndOutcome_eq_ok.mp h
  simp only [Outcome.valueFromIdAndOutcome,hk,MayPanic.ok_bind] at hvalue
  cases k with
  | vsMatch kind =>
    obtain ⟨parties,hparties,hvalue⟩ := MayPanic.bind_eq_ok.mp hvalue
    obtain ⟨⟨left,right⟩,hsome,hvalue⟩ := MayPanic.bind_eq_ok.mp hvalue
    obtain rfl := MayPanic.expect_eq_ok.mp hsome
    have hmem := (VsMatchKind.mem_outcomeString hwin hdraw
      (VsMatchKind.outcomeString_outcomeValue (Except.ok.inj hvalue))).mp hc
    exact mem_last_of_parties hp hparties (hmem.imp And.right And.right)
  | singleOccurrence =>
    simp only [MayPanic.pure_eq,Except.ok.injEq] at hvalue
    split at hvalue
    next h => exact absurd (h ▸ hc) htrue
    next => simp at hvalue
  | predicate inner predicate =>
    simp only [MayPanic.pure_eq,Except.ok.injEq] at hvalue
    split at hvalue
    next truth hbool =>
      unfold parseBool at hbool
      split at hbool
      next h => exact absurd (h ▸ hc) htrue
      split at hbool
      next h => exact absurd (h ▸ hc) hfalse
      next => cases hbool
    next => simp at hvalue
  | price n =>
    simp only [MayPanic.pure_eq,Except.ok.injEq] at hvalue
    split at hvalue
    next value hparse =>
      rcases EventKind.mem_of_parseU64 hparse hc with h | h
      · exact absurd h hplus
      · exact absurd h (by simp [hdigit])
    next => simp at hvalue

/-- Only the value of an equality can have a dot, and it has it from the last segment. -/
theorem Accepted.dot_not_mem (h : id.Accepted) (hs : id.raw.stripEvent = some (p,text)) : '.' ∉ text := by
  intro hc
  obtain ⟨k,hk,hf⟩ := h.fits_at hs
  obtain ⟨init,name,hpath,_,hslash,hdot,_⟩ := Path.stripEvent_eq_some.mp hs
  obtain ⟨inner,value,rfl,hc⟩ := hk.mem_value (Or.inl rfl) hc
  cases hf with
  | eq hread =>
    obtain ⟨hkind,hp⟩ := inner_accessors hs hk
    refine hdot ?_
    rw [← Path.last_eq hpath hslash]
    exact mem_last_of_tryFrom hkind hp hread (Or.inl rfl) hc

/-- The path and the text of the kind are cut apart at the last dot. -/
theorem Accepted.eq_of_append (h : id.Accepted) (hs : id.raw.stripEvent = some (p,text)) {front rest : Str}
    (hid : id.asStr = front ++ '.' :: rest) (hrest : '.' ∉ rest) : front = p.str ∧ rest = text := by
  obtain ⟨_,_,_,hraw,_⟩ := Path.stripEvent_eq_some.mp hs
  have hcut := Text.rsplitOnce_append p.str (h.dot_not_mem hs)
  have hcut' := Text.rsplitOnce_append front hrest
  rw [← hid] at hcut'
  rw [← hraw] at hcut
  simpa using hcut'.symm.trans hcut

end EventId
end Olivia
