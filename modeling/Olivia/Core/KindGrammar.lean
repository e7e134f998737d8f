import Olivia.Core.EventKind

/-! # The grammar of event kinds

`KindText` says which texts spell which kind, without the order in which the parser looks
for separators. The parser accepts exactly these texts and panics on none, and the printer
stays inside the grammar.
-/
namespace Olivia
namespace EventKind

inductive KindText : EventKind → Str → Prop
  | vs : KindText (vsMatch .winOrDraw) "vs".toList
  | winner : KindText (vsMatch .win) "winner".toList
  | occur : KindText singleOccurrence "occur".toList
  | price : KindText (price 0) "price".toList
  | digits {nDigits : UInt8} {text : Str} (h : parseU8 text = some nDigits)
      (hpos : 0 < nDigits) (hle : nDigits ≤ 64) : KindText (.price nDigits) ("price?n=".toList ++ text)
  | eq {inner : EventKind} {lhs value : Str} (h : KindText inner lhs) (heq : '=' ∉ lhs)
      (hargs : '?' ∉ lhs) (hvalue : '?' ∉ value) :
      KindText (predicate inner (.eq value)) (lhs ++ '=' :: value)
  | bound {text : Str} {target : UInt64} (h : parseU64 text = some target) :
      KindText (predicate (.price 0) (.bound .gt target)) ("price_".toList ++ text)

theorem mem_of_parseU64 {text : Str} {n : UInt64} (h : parseU64 text = some n) {c : Char}
    (hc : c ∈ text) : c = '+' ∨ c.isDigit := by
  obtain ⟨m,hm,_⟩ := Option.map_eq_some_iff.mp h
  exact Text.isDigit_of_parseUnsigned hm hc

theorem mem_of_parseU8 {text : Str} {n : UInt8} (h : parseU8 text = some n) {c : Char}
    (hc : c ∈ text) : c = '+' ∨ c.isDigit := by
  obtain ⟨m,hm,_⟩ := Option.map_eq_some_iff.mp h
  exact Text.isDigit_of_parseUnsigned hm hc

theorem name_eq {text : Str} (h : '?' ∉ text) : name text = text := by
  simp [name,Text.splitOnce_eq_none.mpr h]

theorem args_eq {text : Str} (h : '?' ∉ text) : args text = [] := by
  simp [args,Text.splitOnce_eq_none.mpr h]

theorem args_ne_nil {text : Str} (h : '?' ∈ text) : args text ≠ [] := by
  obtain ⟨a,b,hs⟩ := Text.splitOnce_isSome h
  simp [args,hs,List.splitOn_ne_nil]

theorem checkNoArgs_eq_ok {text : Str} : checkNoArgs (args text) = .ok () ↔ '?' ∉ text := by
  constructor
  · intro h hmem
    have hne := args_ne_nil hmem
    simp [checkNoArgs,hne] at h
  · intro h
    simp [checkNoArgs,args_eq h]

/-- A bare price or one digit argument is all the price branch accepts. -/
theorem kindText_of_priceDigits {text : Str} {n : UInt8} (hname : name text = "price".toList)
    (h : priceDigits (args text) = .ok n) : KindText (.price n) text := by
  by_cases hmem : '?' ∈ text
  · obtain ⟨a,rest,hs⟩ := Text.splitOnce_isSome hmem
    have hname : a = "price".toList := by simpa [name,hs] using hname
    have hargs : args text = (rest.splitOn '&').map (fun arg => (Text.splitOnce '=' arg).getD (arg,[])) := by
      simp [args,hs]
    have hrest : ['&'].intercalate (rest.splitOn '&') = rest := List.intercalate_splitOn '&'
    obtain ⟨htext,_⟩ := Text.splitOnce_eq_some.mp hs
    unfold priceDigits at h
    split at h
    next ha => exact absurd ha (args_ne_nil hmem)
    next d ha =>
      rw [hargs,List.map_eq_singleton_iff] at ha
      obtain ⟨arg,harg,hd⟩ := ha
      rw [harg] at hrest
      have hrest : arg = rest := by simpa [List.intercalate] using hrest
      split at h
      next => simp at h
      next m hm =>
        split at h
        next => simp at h
        next hrange =>
          obtain rfl := Except.ok.inj h
          push Not at hrange
          cases hsplit : Text.splitOnce '=' arg with
          | none =>
            simp only [hsplit,Option.getD_none,Prod.mk.injEq] at hd
            rw [← hd.2] at hm
            simp [parseU8,Text.parseUnsigned] at hm
          | some p =>
            simp only [hsplit,Option.getD_some] at hd
            subst hd
            obtain ⟨harg,_⟩ := Text.splitOnce_eq_some.mp hsplit
            have hdigits := KindText.digits hm (UInt8.pos_iff_ne_zero.mpr hrange.1)
              (UInt8.not_lt.mp hrange.2)
            rw [htext,hname,← hrest,harg]
            exact hdigits
    next => simp at h
  · rw [args_eq hmem] at h
    obtain rfl : 0 = n := by simpa [priceDigits] using h
    rw [name_eq hmem] at hname
    rw [hname]
    exact KindText.price

theorem kindText_price_no_args {text : Str} {n : UInt8} (h : KindText (.price n) text)
    (hq : '?' ∉ text) : n = 0 ∧ text = "price".toList := by
  cases h with
  | price => exact ⟨rfl,rfl⟩
  | digits => simp at hq

/-- A name without arguments is the whole text. -/
theorem eq_of_checkNoArgs {text word : Str} {k l : EventKind} (hname : name text = word)
    (h : (checkNoArgs (args text)).map (fun _ => k) = .ok l) : text = word ∧ k = l := by
  obtain ⟨_,hargs,hk⟩ := MayPanic.map_eq_ok h
  rw [name_eq (checkNoArgs_eq_ok.mp hargs)] at hname
  exact ⟨hname,hk⟩

theorem kindText_of_splitOnce_eq {text lhs rhs : Str} {inner : EventKind} (hargs : checkNoArgs (args text) = .ok ())
    (hs : Text.splitOnce '=' (name text) = some (lhs,rhs)) (h : KindText inner lhs) :
    KindText (predicate inner (.eq rhs)) text := by
  have hq := checkNoArgs_eq_ok.mp hargs
  rw [name_eq hq,Text.splitOnce_eq_some] at hs
  obtain ⟨rfl,heq⟩ := hs
  simp only [List.mem_append,List.mem_cons,not_or] at hq
  exact KindText.eq h heq hq.1 hq.2.2

theorem kindText_of_splitOnce_bound {text lhs rhs : Str} {nDigits : UInt8} {target : UInt64}
    (hargs : checkNoArgs (args text) = .ok ()) (hs : Text.splitOnce '_' (name text) = some (lhs,rhs))
    (ht : parseU64 rhs = some target) (h : KindText (price nDigits) lhs) :
    KindText (predicate (price nDigits) (.bound .gt target)) text := by
  have hq := checkNoArgs_eq_ok.mp hargs
  rw [name_eq hq,Text.splitOnce_eq_some] at hs
  obtain ⟨rfl,_⟩ := hs
  simp only [List.mem_append,List.mem_cons,not_or] at hq
  obtain ⟨rfl,rfl⟩ := kindText_price_no_args h hq.1
  exact KindText.bound ht

/-- The parser only accepts texts of the grammar; the recursion is on the text's length. -/
theorem kindText_of_fromStr {text : Str} {k : EventKind} (h : fromStr text = .ok (.ok k)) :
    KindText k text := by
  rw [fromStr] at h
  split at h
  next hn =>
    obtain ⟨htext,rfl⟩ := eq_of_checkNoArgs hn (Except.ok.inj h)
    exact htext ▸ KindText.vs
  split at h
  next hn =>
    obtain ⟨htext,rfl⟩ := eq_of_checkNoArgs hn (Except.ok.inj h)
    exact htext ▸ KindText.winner
  split at h
  next hn =>
    obtain ⟨htext,rfl⟩ := eq_of_checkNoArgs hn (Except.ok.inj h)
    exact htext ▸ KindText.occur
  split at h
  next hn =>
    obtain ⟨n,hp,rfl⟩ := MayPanic.map_eq_ok (Except.ok.inj h)
    exact kindText_of_priceDigits hn hp
  split at h
  next =>
    split at h
    next => simp at h
    next hargs =>
      split at h
      next => simp at h
      next lhs rhs hs =>
        have hlt := splitOnce_name_lt hs
        obtain ⟨r,hr,hk⟩ := MayPanic.bind_eq_ok.mp h
        obtain ⟨inner,rfl,rfl⟩ := MayPanic.map_eq_ok (Except.ok.inj hk)
        exact kindText_of_splitOnce_eq hargs hs (kindText_of_fromStr hr)
  split at h
  next =>
    split at h
    next => simp at h
    next hargs =>
      split at h
      next => simp at h
      next lhs rhs hs =>
        have hlt := splitOnce_name_lt hs
        split at h
        next => simp at h
        next target ht =>
          obtain ⟨r,hr,hk⟩ := MayPanic.bind_eq_ok.mp h
          split at hk
          next => simp at hk
          next nDigits =>
            obtain rfl := Except.ok.inj (Except.ok.inj hk)
            exact kindText_of_splitOnce_bound hargs hs ht (kindText_of_fromStr hr)
          next => simp at hk
  next => simp at h
termination_by text.length

theorem fromStr_bound {lhs text : Str} {target : UInt64} (hlhs : fromStr lhs = .ok (.ok (.price 0)))
    (hund : '_' ∉ lhs) (heq : '=' ∉ lhs) (hargs : '?' ∉ lhs) (h : parseU64 text = some target) :
    fromStr (lhs ++ '_' :: text) = .ok (.ok (predicate (.price 0) (.bound .gt target))) := by
  have htext : ∀ c ∈ text, c = '+' ∨ c.isDigit := fun c hc => mem_of_parseU64 h hc
  have hq : '?' ∉ lhs ++ '_' :: text := by
    simp only [List.mem_append,List.mem_cons,not_or]
    exact ⟨hargs,by decide,fun hc => by simpa using htext _ hc⟩
  have he : '=' ∉ lhs ++ '_' :: text := by
    simp only [List.mem_append,List.mem_cons,not_or]
    exact ⟨heq,by decide,fun hc => by simpa using htext _ hc⟩
  have hne : ∀ w : Str, '_' ∉ w → lhs ++ '_' :: text ≠ w := fun w hw he => hw (he ▸ by simp)
  rw [fromStr,name_eq hq,args_eq hq,if_neg (hne _ (by decide)),if_neg (hne _ (by decide)),
    if_neg (hne _ (by decide)),if_neg (hne _ (by decide)),if_neg he,if_pos (by simp)]
  simp only [checkNoArgs,List.isEmpty_nil,if_true]
  split
  next hs => simp [Text.splitOnce_eq_none] at hs
  next l r hs =>
    rw [Text.splitOnce_append hund] at hs
    cases hs
    simp [h,hlhs]

theorem fromStr_eq {lhs value : Str} {inner : EventKind} (hlhs : fromStr lhs = .ok (.ok inner))
    (heq : '=' ∉ lhs) (hargs : '?' ∉ lhs) (hvalue : '?' ∉ value) :
    fromStr (lhs ++ '=' :: value) = .ok (.ok (predicate inner (.eq value))) := by
  have hq : '?' ∉ lhs ++ '=' :: value := by
    simp only [List.mem_append,List.mem_cons,not_or]
    exact ⟨hargs,by decide,hvalue⟩
  have hne : ∀ w : Str, '=' ∉ w → lhs ++ '=' :: value ≠ w := fun w hw he => hw (he ▸ by simp)
  rw [fromStr,name_eq hq,args_eq hq,if_neg (hne _ (by decide)),if_neg (hne _ (by decide)),
    if_neg (hne _ (by decide)),if_neg (hne _ (by decide)),if_pos (by simp)]
  simp only [checkNoArgs,List.isEmpty_nil,if_true]
  split
  next hs => simp [Text.splitOnce_eq_none] at hs
  next l r hs =>
    rw [Text.splitOnce_append heq] at hs
    cases hs
    simp [hlhs,Except.map]

theorem fromStr_digits {text : Str} {n : UInt8} (h : parseU8 text = some n) (hpos : 0 < n)
    (hle : n ≤ 64) : fromStr ("price?n=".toList ++ text) = .ok (.ok (.price n)) := by
  have hamp : '&' ∉ 'n' :: '=' :: text := by
    simp only [List.mem_cons,not_or]
    exact ⟨by decide,by decide,fun hc => by simpa using mem_of_parseU8 h hc⟩
  have hs : Text.splitOnce '?' ("price?n=".toList ++ text) = some ("price".toList,'n' :: '=' :: text) :=
    Text.splitOnce_append (l := "price".toList) (by decide) _
  have hn : name ("price?n=".toList ++ text) = "price".toList := by simp only [name,hs]
  have ha : args ("price?n=".toList ++ text) = [(['n'],text)] := by
    have hsplit : Text.splitOnce '=' ('n' :: '=' :: text) = some (['n'],text) :=
      Text.splitOnce_append (l := ['n']) (by decide) _
    simp only [args,hs,List.splitOn_eq_singleton hamp,List.map_cons,List.map_nil,hsplit,Option.getD_some]
  have hd : priceDigits [(['n'],text)] = .ok n := by
    have hrange : ¬ (n = 0 ∨ 64 < n) := by
      rintro (rfl | hlt)
      · exact absurd hpos (by decide)
      · exact absurd hle (UInt8.not_le.mpr hlt)
    simp only [priceDigits,h,if_neg hrange]
  rw [fromStr,hn,ha,if_neg (by decide),if_neg (by decide),if_neg (by decide),if_pos rfl,hd]
  rfl

theorem fromStr_price : fromStr "price".toList = .ok (.ok (.price 0)) := by decide +kernel

/-- The parser accepts every text of the grammar, with the kind the grammar gives it. -/
theorem fromStr_of_kindText {text : Str} {k : EventKind} (h : KindText k text) :
    fromStr text = .ok (.ok k) := by
  induction h with
  | vs => decide +kernel
  | winner => decide +kernel
  | occur => decide +kernel
  | price => exact fromStr_price
  | digits h hpos hle => exact fromStr_digits h hpos hle
  | eq _ heq hargs hvalue ih => exact fromStr_eq ih heq hargs hvalue
  | bound h => exact fromStr_bound fromStr_price (by decide) (by decide) (by decide) h

theorem fromStr_eq_ok_iff {text : Str} {k : EventKind} : fromStr text = .ok (.ok k) ↔ KindText k text :=
  ⟨kindText_of_fromStr,fromStr_of_kindText⟩

/-- A text spells one kind at most. -/
theorem KindText.unique {text : Str} {k l : EventKind} (hk : KindText k text) (hl : KindText l text) : k = l :=
  Except.ok.inj (Except.ok.inj ((fromStr_of_kindText hk).symm.trans (fromStr_of_kindText hl)))

example : KindText (predicate (predicate (price 0) (.bound .gt 5)) (.eq "true".toList))
    "price_5=true".toList := fromStr_eq_ok_iff.mp (by decide +kernel)

/-- Neither `expect` of the parser can fail: both separators were seen before the split. -/
theorem fromStr_total (text : Str) : ∃ r, fromStr text = .ok r := by
  rw [fromStr]
  split
  next => exact ⟨_,rfl⟩
  split
  next => exact ⟨_,rfl⟩
  split
  next => exact ⟨_,rfl⟩
  split
  next => exact ⟨_,rfl⟩
  split
  next heq =>
    split
    next => exact ⟨_,rfl⟩
    next =>
      split
      next hs => exact absurd heq (Text.splitOnce_eq_none.mp hs)
      next lhs rhs hs =>
        have hlt := splitOnce_name_lt hs
        obtain ⟨r,hr⟩ := fromStr_total lhs
        simp [hr]
  split
  next hund =>
    split
    next => exact ⟨_,rfl⟩
    next =>
      split
      next hs => exact absurd hund (Text.splitOnce_eq_none.mp hs)
      next lhs rhs hs =>
        have hlt := splitOnce_name_lt hs
        split
        next => exact ⟨_,rfl⟩
        next =>
          obtain ⟨r,hr⟩ := fromStr_total lhs
          rw [hr,MayPanic.ok_bind]
          split
          next => exact ⟨_,rfl⟩
          next => exact ⟨_,rfl⟩
          next => exact ⟨_,rfl⟩
  next => exact ⟨_,rfl⟩
termination_by text.length

theorem toStr_price_zero : (price 0).toStr = "price".toList := by decide

theorem toStr_price_pos {n : UInt8} (h : 0 < n) :
    (price n).toStr = "price?n=".toList ++ displayU8 n := by
  have hs : "price?n=".toList = "price".toList ++ "?n=".toList := by decide
  rw [hs,List.append_assoc,toStr,priceStr,if_pos h]

theorem toStr_bound (target : UInt64) :
    (predicate (price 0) (.bound .gt target)).toStr = "price_".toList ++ displayU64 target := by
  have hs : "price_".toList = "price".toList ++ ['_'] := by decide
  rw [hs,List.append_assoc,toStr,toStr_price_zero,Predicate.toStr,List.singleton_append]

/-- Printing a parsed kind adds nothing but decimal digits. -/
theorem KindText.mem_toStr {text : Str} {k : EventKind} (h : KindText k text) {c : Char}
    (hc : c ∈ k.toStr) : c ∈ text ∨ c.isDigit := by
  induction h with
  | vs => exact Or.inl hc
  | winner => exact Or.inl hc
  | occur => exact Or.inl hc
  | price => exact Or.inl (toStr_price_zero ▸ hc)
  | digits h hpos _ =>
    rw [toStr_price_pos hpos,List.mem_append] at hc
    rcases hc with hc | hc
    · exact Or.inl (List.mem_append_left _ hc)
    · exact Or.inr (Text.isDigit_of_mem_decimal hc)
  | eq _ _ _ _ ih =>
    rw [EventKind.toStr,Predicate.toStr,List.mem_append] at hc
    rcases hc with hc | hc
    · rcases ih hc with hc | hc
      · exact Or.inl (List.mem_append_left _ hc)
      · exact Or.inr hc
    · exact Or.inl (List.mem_append_right _ hc)
  | bound =>
    rw [toStr_bound,List.mem_append] at hc
    rcases hc with hc | hc
    · exact Or.inl (List.mem_append_left _ hc)
    · exact Or.inr (Text.isDigit_of_mem_decimal hc)

theorem KindText.not_mem_toStr {text : Str} {k : EventKind} (h : KindText k text) {c : Char}
    (hdigit : c.isDigit = false) (hc : c ∉ text) : c ∉ k.toStr := by
  intro hmem
  rcases h.mem_toStr hmem with hmem | hmem
  · exact hc hmem
  · simp [hdigit] at hmem

/-- Printing and parsing again gives the same kind. -/
theorem KindText.toStr {text : Str} {k : EventKind} (h : KindText k text) : KindText k k.toStr := by
  induction h with
  | vs => exact KindText.vs
  | winner => exact KindText.winner
  | occur => exact KindText.occur
  | price => exact toStr_price_zero ▸ KindText.price
  | digits h hpos hle =>
    rw [toStr_price_pos hpos]
    exact KindText.digits (parseU8_displayU8 _) hpos hle
  | eq h heq hargs hvalue ih =>
    exact KindText.eq ih (h.not_mem_toStr (by decide) heq) (h.not_mem_toStr (by decide) hargs) hvalue
  | bound =>
    rw [toStr_bound]
    exact KindText.bound (parseU64_displayU64 _)

end EventKind
end Olivia
