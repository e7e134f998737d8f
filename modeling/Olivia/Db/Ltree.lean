import Mathlib.Data.List.Forall2
import Olivia.Core.Segments
import Olivia.Db.Postgres
import Olivia.Text.Wildcard

/-! # Paths as ltrees

The server compares paths label by label. A label is a segment in which every character that
is neither a letter nor a digit is written alike, so that different segments can have the
same label.
-/
namespace Olivia

/-- The labels of an ltree, separated by dots. -/
def labels (text : Str) : List Str := if text = [] then [] else text.splitOn '.'

namespace Lquery

def endsWith (p : Path) : MayPanic Str :=
  if p.isRoot then .ok "*".toList
  else do
    let query ← ltree p
    return "*.".toList ++ query

/-- The items of a query: a star for any number of labels, every other one for itself. -/
def items (query : Str) : List (Text.Piece Str) :=
  (query.splitOn '.').map (fun item => if item = "*".toList then .many else .letter item)

def «matches» (query text : Str) : Bool := Text.wildMatch (items query) (labels text)

end Lquery

/-- What is written of a character. -/
def encode (c : Char) : Str := if c.isAlphanum then [c] else if c = '/' then ['.'] else "__".toList

def label (segment : Str) : Str := segment.flatMap encode

/-- Characters that are written alike: every one that is replaced is. -/
def Alike (c d : Char) : Prop :=
  c = d ∨ (c.isAlphanum = false ∧ c ≠ '/') ∧ d.isAlphanum = false ∧ d ≠ '/'

theorem encode_ne_nil (c : Char) : encode c ≠ [] := by
  unfold encode
  split
  · simp
  split <;> simp

theorem dot_not_mem_encode {c : Char} (h : c ≠ '/') : '.' ∉ encode c := by
  unfold encode
  split
  next hc =>
    simp only [List.mem_singleton]
    rintro rfl
    exact absurd hc (by decide)
  next => simp

theorem star_not_mem_encode (c : Char) : '*' ∉ encode c := by
  unfold encode
  split
  next hc =>
    simp only [List.mem_singleton]
    rintro rfl
    exact absurd hc (by decide)
  next => split <;> simp

theorem encode_eq {c d : Char} (h : Alike c d) : encode c = encode d := by
  rcases h with rfl | ⟨⟨hc,hc'⟩,hd,hd'⟩
  · rfl
  · simp [encode,hc,hc',hd,hd']

/-- What is written of one character does not begin what is written of another one. -/
theorem encode_append_eq_iff {c d : Char} {a b : Str} :
    encode c ++ a = encode d ++ b ↔ Alike c d ∧ a = b := by
  constructor
  · have hund : ∀ c : Char, c.isAlphanum = true → c ≠ '.' ∧ c ≠ '_' := by
      intro c hc
      constructor <;> rintro rfl <;> exact absurd hc (by decide)
    intro h
    unfold encode at h
    unfold Alike
    by_cases hc : c.isAlphanum <;> by_cases hd : d.isAlphanum <;> by_cases hc' : c = '/' <;>
      by_cases hd' : d = '/' <;> grind
  · rintro ⟨h,rfl⟩
    rw [encode_eq h]

theorem label_eq_iff {a b : Str} : label a = label b ↔ List.Forall₂ Alike a b := by
  induction a generalizing b with
  | nil =>
    cases b with
    | nil => simp [label]
    | cons d b => simp [label,encode_ne_nil]
  | cons c a ih =>
    cases b with
    | nil => simp [label,encode_ne_nil]
    | cons d b =>
      rw [List.forall₂_cons,← ih]
      exact encode_append_eq_iff

/-- The server reads the segments of a path as its labels. -/
theorem ltree_eq {p : Path} {rest : Str} (h : p.str = '/' :: rest) : ltree p = .ok (rest.flatMap encode) := by
  simp only [ltree,h]
  rw [if_neg (by decide)]
  rfl

theorem splitOn_ltree {p : Path} {rest : Str} (h : p.str = '/' :: rest) :
    (rest.flatMap encode).splitOn '.' = p.segments.map label := by
  rw [Path.segments_of_head h]
  exact Text.splitOn_flatMap (by decide) (fun c hc => dot_not_mem_encode hc) rest

theorem labels_ltree {p : Path} {rest : Str} (h : p.str = '/' :: rest) (hroot : ¬ p.isRoot) :
    labels (rest.flatMap encode) = p.segments.map label := by
  have hne : rest.flatMap encode ≠ [] := by
    intro hnil
    cases rest with
    | nil => exact hroot (Path.ext h)
    | cons c rest => exact encode_ne_nil c (List.append_eq_nil_iff.mp hnil).1
  rw [labels,if_neg hne,splitOn_ltree h]

theorem label_ne_star (segment : Str) : label segment ≠ ['*'] := by
  intro h
  have hmem : '*' ∈ label segment := by simp [h]
  obtain ⟨c,_,hc⟩ := List.mem_flatMap.mp hmem
  exact star_not_mem_encode c hc

theorem Lquery.items_endsWith {p : Path} {rest : Str} (h : p.str = '/' :: rest) :
    items ("*.".toList ++ rest.flatMap encode) = .many :: (p.segments.map label).map .letter := by
  have hsplit : ("*.".toList ++ rest.flatMap encode).splitOn '.' = "*".toList :: p.segments.map label := by
    rw [← splitOn_ltree h]
    have hcut : '.' ∉ "*".toList := by decide
    exact List.splitOn_append_cons_self_of_not_mem hcut _
  rw [items,hsplit,List.map_cons,if_pos rfl]
  simp [label_ne_star]

/-- A query for an end matches the labels that end so. -/
theorem Lquery.matches_endsWith {p : Path} {rest text : Str} (h : p.str = '/' :: rest) :
    Lquery.matches ("*.".toList ++ rest.flatMap encode) text = true ↔ p.segments.map label <:+ labels text := by
  rw [Lquery.matches,items_endsWith h,Text.wildMatch_many]
  simp only [Text.wildMatch_letters,exists_eq_right]

namespace Path
variable {p q : Path}

/-- Another run of segments at an end of a path that has the same labels. -/
def Confused (p q : Path) : Prop := ∃ run, (run <+: q.segments ∨ run <:+ q.segments) ∧
  List.Forall₂ (List.Forall₂ Alike) p.segments run ∧ run ≠ p.segments

/-- The comparisons of the server are those of the segments. -/
def Faithful (p q : Path) : Prop := ∃ lp lq query,
  ltree p = .ok lp ∧ ltree q = .ok lq ∧ Lquery.endsWith p = .ok query ∧
    (labels lp <+: labels lq ↔ p.isParentOf q = true) ∧ (lp = lq ↔ p = q) ∧
    (Lquery.matches query lq = true ↔ p.isRoot ∨ p.segments <:+ q.segments)

theorem map_label_eq_iff {a b : List Str} : a.map label = b.map label ↔ List.Forall₂ (List.Forall₂ Alike) a b := by
  rw [← List.forall₂_eq_eq_eq]
  simp only [List.forall₂_map_left_iff,List.forall₂_map_right_iff,label_eq_iff]

/-- Without another run the labels begin and end exactly where the segments do. -/
theorem not_confused_iff : ¬ p.Confused q ↔
    (p.segments.map label <+: q.segments.map label → p.segments <+: q.segments) ∧
      (p.segments.map label <:+ q.segments.map label → p.segments <:+ q.segments) := by
  constructor
  · intro h
    constructor
    · rintro hbegins
      obtain ⟨run,hrun,hlabel⟩ := List.prefix_map_iff.mp hbegins
      by_contra hnot
      exact h ⟨run,Or.inl hrun,map_label_eq_iff.mp hlabel,fun he => hnot (he ▸ hrun)⟩
    · rintro hends
      obtain ⟨run,hrun,hlabel⟩ := List.suffix_map_iff.mp hends
      by_contra hnot
      exact h ⟨run,Or.inr hrun,map_label_eq_iff.mp hlabel,fun he => hnot (he ▸ hrun)⟩
  · rintro ⟨hbegins,hends⟩ ⟨run,hrun,halike,hne⟩
    have hlabel := map_label_eq_iff.mpr halike
    have hlength : run.length = p.segments.length := halike.length_eq.symm
    rcases hrun with hrun | hrun
    · have hp := hbegins (hlabel ▸ hrun.map label)
      exact hne (List.prefix_of_prefix_length_le hrun hp hlength.le |>.eq_of_length hlength)
    · have hp := hends (hlabel ▸ hrun.map label)
      exact hne (List.suffix_of_suffix_length_le hrun hp hlength.le |>.eq_of_length hlength)

theorem segments_eq_root {rest : Str} (h : p.str = '/' :: rest) : p.segments = [[]] ↔ p.isRoot := by
  rw [segments_of_head h]
  constructor
  · intro hs
    exact Path.ext (h.trans (congrArg _ (Text.splitOn_injective '/' (hs.trans (List.splitOn_nil '/').symm))))
  · rintro rfl
    obtain rfl : rest = [] := (List.cons.inj h).2.symm
    rfl

theorem segments_ne_nil {rest : Str} (h : p.str = '/' :: rest) : p.segments ≠ [] := by
  rw [segments_of_head h]
  exact List.splitOn_ne_nil '/' rest

/-- The root has no labels, and no other path has none. -/
theorem not_confused_root (h : p.isRoot ∨ q.isRoot) {rest rest' : Str} (hp : p.str = '/' :: rest)
    (hq : q.str = '/' :: rest') : ¬ p.Confused q := by
  rintro ⟨run,hrun,halike,hne⟩
  rcases h with hroot | hroot
  · rw [(segments_eq_root hp).mpr hroot] at halike hne
    cases halike with
    | cons hnil hrest =>
      cases hnil
      cases hrest
      exact hne rfl
  · rw [(segments_eq_root hq).mpr hroot] at hrun
    have hlength : p.segments.length = run.length := halike.length_eq
    have hle : run.length ≤ 1 := hrun.elim List.IsPrefix.length_le List.IsSuffix.length_le
    have hpos := List.length_pos_of_ne_nil (segments_ne_nil hp)
    have hone : run = [[]] := by
      rcases hrun with hrun | hrun
      · exact hrun.eq_of_length (by simp; omega)
      · exact hrun.eq_of_length (by simp; omega)
    subst hone
    obtain ⟨segment,hsegment⟩ := List.length_eq_one_iff.mp hlength
    rw [hsegment] at halike hne
    cases halike with
    | cons hnil hrest =>
      cases hnil
      exact hne rfl

theorem faithful_of_isRoot (h : p.isRoot) {rest : Str} (hq : q.str = '/' :: rest) : p.Faithful q := by
  have hp : p.str = '/' :: [] := congrArg Path.str h
  refine ⟨[],rest.flatMap encode,"*".toList,ltree_eq hp,ltree_eq hq,by rw [Lquery.endsWith,if_pos h],?_,?_,?_⟩
  · exact iff_of_true (by simp [labels]) (isParentOf_of_isRoot h hq)
  · rw [Path.ext_iff,hp,hq]
    cases rest with
    | nil => simp
    | cons c rest => simp [encode_ne_nil]
  · refine iff_of_true ?_ (Or.inl h)
    have hitems : Lquery.items "*".toList = [.many] := by decide
    rw [Lquery.matches,hitems,Text.wildMatch_many]
    exact ⟨[],List.nil_suffix,rfl⟩

theorem faithful_iff_of_not_root (hroot : ¬ p.isRoot) {rest rest' : Str} (hp : p.str = '/' :: rest)
    (hq : q.str = '/' :: rest') : p.Faithful q ↔
    (p.segments.map label <+: labels (rest'.flatMap encode) ↔ p.isParentOf q = true) ∧
      (rest.flatMap encode = rest'.flatMap encode ↔ p = q) ∧
      (p.segments.map label <:+ labels (rest'.flatMap encode) ↔ p.segments <:+ q.segments) := by
  have hquery : Lquery.endsWith p = .ok ("*.".toList ++ rest.flatMap encode) := by
    rw [Lquery.endsWith,if_neg hroot,ltree_eq hp,MayPanic.ok_bind,MayPanic.pure_eq]
  simp only [Faithful,ltree_eq hp,ltree_eq hq,hquery,Except.ok.injEq,exists_and_left,exists_eq_left',
    labels_ltree hp hroot,Lquery.matches_endsWith hp,hroot,false_or]

theorem faithful_to_root (hroot : ¬ p.isRoot) (h : q.isRoot) {rest : Str} (hp : p.str = '/' :: rest) :
    p.Faithful q := by
  have hq : q.str = '/' :: [] := congrArg Path.str h
  have hne : p.segments ≠ [[]] := fun hs => hroot ((segments_eq_root hp).mp hs)
  have hpath : p ≠ q := fun he => hroot (he ▸ h)
  have hlabels : p.segments.map label ≠ [] := by simp [segments_ne_nil hp]
  rw [faithful_iff_of_not_root hroot hp hq,isParentOf_iff_segments hp hq hroot,(segments_eq_root hq).mpr h]
  refine ⟨iff_of_false ?_ ?_,iff_of_false ?_ hpath,iff_of_false ?_ ?_⟩
  · simp [labels,segments_ne_nil hp]
  · simp [List.prefix_cons_iff,segments_ne_nil hp,hne]
  · intro htext
    refine hlabels ?_
    rw [← labels_ltree hp hroot,htext]
    rfl
  · simp [labels,segments_ne_nil hp]
  · simp [List.suffix_cons_iff,segments_ne_nil hp,hne]

/-- The ltrees of two paths compare as the paths do exactly where no other segments at an end
of the second path have the labels of the first one. -/
theorem faithful_iff (hp : fromStr p.str = .ok p) (hq : fromStr q.str = .ok q) :
    p.Faithful q ↔ ¬ p.Confused q := by
  obtain ⟨rest,hp⟩ := exists_of_fromStr hp
  obtain ⟨rest',hq⟩ := exists_of_fromStr hq
  by_cases hproot : p.isRoot
  · exact iff_of_true (faithful_of_isRoot hproot hq) (not_confused_root (Or.inl hproot) hp hq)
  by_cases hqroot : q.isRoot
  · exact iff_of_true (faithful_to_root hproot hqroot hp) (not_confused_root (Or.inr hqroot) hp hq)
  rw [faithful_iff_of_not_root hproot hp hq,isParentOf_iff_segments hp hq hproot,labels_ltree hq hqroot,
    not_confused_iff]
  constructor
  · rintro ⟨hbegins,_,hends⟩
    exact ⟨hbegins.mp,hends.mp⟩
  · rintro ⟨hbegins,hends⟩
    refine ⟨⟨hbegins,fun h => h.map label⟩,⟨?_,?_⟩,⟨hends,fun h => h.map label⟩⟩
    · intro htext
      have hlabels : p.segments.map label = q.segments.map label := by
        rw [← splitOn_ltree hp,← splitOn_ltree hq,htext]
      have hlength : p.segments.length = q.segments.length := by simpa using congrArg List.length hlabels
      exact segments_injective hp hq ((hbegins (hlabels ▸ List.prefix_rfl)).eq_of_length hlength)
    · rintro rfl
      rw [(List.cons.inj (hp.symm.trans hq)).2]

theorem faithful_iff_below_foo : (⟨"/foo".toList⟩ : Path).Faithful ⟨"/foo/a-b".toList⟩ ↔
    ¬ (⟨"/foo".toList⟩ : Path).Confused ⟨"/foo/a-b".toList⟩ :=
  faithful_iff (by decide +kernel) (by decide +kernel)

/-- Two paths that differ in a punctuation character have one ltree. -/
theorem punctuation_confused : ¬ ∀ p q : Path, fromStr p.str = .ok p → fromStr q.str = .ok q → p.Faithful q := by
  intro h
  obtain ⟨lp,lq,_,hp,hq,_,_,hsame,_⟩ := h ⟨"/a-b".toList⟩ ⟨"/a_b".toList⟩ (by decide +kernel) (by decide +kernel)
  have hpath := hsame.mp (Except.ok.inj (hp.symm.trans (Eq.trans (by decide +kernel) hq)))
  simp at hpath

end Path
end Olivia
