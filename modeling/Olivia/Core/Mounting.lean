import Olivia.Core.OutcomeLaws
import Olivia.Core.Segments

/-! # Events under a mount

The loop prefixes whatever a source sends with the path that the source is mounted under, and
a source is shown the store with that path taken away again. Only the path of an event moves:
its kind and the segment that names it stay, and all that is read of them.
-/
namespace Olivia
variable {id : EventId} {p mount : Path} {k : EventKind}

namespace EventId

/-- The unchecked id of an inner event is mounted with its path. -/
theorem fromPathAndKind_under (p mount : Path) (k : EventKind) :
    fromPathAndKind (p.under mount) k = (fromPathAndKind p k).prefixPath mount := by
  have hroot : ¬ (fromPathAndKind p k).raw.isRoot := Path.not_isRoot_of_dot (by simp [fromPathAndKind])
  rw [prefixPath,Path.prefixPath_eq_under hroot]
  unfold Path.under
  split
  next => rfl
  next => rw [fromPathAndKind,fromPathAndKind,List.append_assoc]

end EventId

namespace Outcome

/-- A prefix moves the id of an outcome, and not the values that texts are read as. -/
theorem tryFromIdAndOutcome_prefixPath (h : id.eventKind = .ok k) (mount : Path) (text : Str) :
    tryFromIdAndOutcome (id.prefixPath mount) text =
      (tryFromIdAndOutcome id text).map (fun r => r.map (fun o => o.prefixPath mount)) := by
  have hvalue : valueFromIdAndOutcome (id.prefixPath mount) text = valueFromIdAndOutcome id text := by
    simp only [valueFromIdAndOutcome,EventId.eventKind_prefixPath h,h,EventId.parties_prefixPath h]
  rw [tryFromIdAndOutcome,tryFromIdAndOutcome,hvalue]
  cases valueFromIdAndOutcome id text with
  | error e => rfl
  | ok r => cases r <;> rfl

theorem attestationIndexes_prefixPath {o : Outcome} (h : o.id.eventKind = .ok k) (mount : Path) :
    (o.prefixPath mount).attestationIndexes = o.attestationIndexes := by
  simp only [attestationIndexes,prefixPath,EventId.eventKind_prefixPath h,h]
  rfl

theorem Valid.prefixPath {o : Outcome} (h : o.Valid) (hk : o.id.eventKind = .ok k) (mount : Path) :
    (o.prefixPath mount).Valid := by
  obtain ⟨text,hread⟩ := h
  exact ⟨text,by
    rw [Outcome.prefixPath,tryFromIdAndOutcome_prefixPath hk,hread]
    rfl⟩

end Outcome

namespace EventId

/-- A kind fits the last segment of a path wherever the path is mounted. -/
theorem Fits.under {raw : Path} {text : Str} (hs : raw.stripEvent = some (p,text)) (hk : EventKind.KindText k text)
    (h : Fits p k) (mount : Path) : Fits (p.under mount) k := by
  obtain ⟨init,name,hp,_⟩ := Path.stripEvent_eq_some.mp hs
  have hlast : (p.under mount).last = p.last := Path.last_under (by simp [hp]) mount
  cases h with
  | vsMatch hparties hl hr hne => exact .vsMatch (hlast.trans hparties) hl hr hne
  | singleOccurrence => exact .singleOccurrence
  | price => exact .price
  | eq hread =>
    have hmounted := Outcome.tryFromIdAndOutcome_prefixPath (inner_accessors hs hk).1 mount
    exact .eq (by rw [fromPathAndKind_under,hmounted,hread]; rfl)
  | bound => exact .bound

theorem prefixPath_eq (h : id.Accepted) (mount : Path) : id.prefixPath mount = ⟨id.raw.under mount⟩ := by
  obtain ⟨p,text,k,hs,_⟩ := h.fits
  rw [prefixPath,Path.prefixPath_of_stripEvent hs]

theorem Accepted.prefixPath (h : id.Accepted) (hm : Path.fromStr mount.str = .ok mount) :
    (id.prefixPath mount).Accepted := by
  obtain ⟨p,text,k,hs,hk,hf⟩ := h.fits
  have hparse := Path.fromStr_under h.fromStr_raw hm (Path.not_isRoot_of_stripEvent hs)
  rw [prefixPath_eq h,Accepted,asStr,fromStr_path hparse]
  exact tryFrom_of_fits (Path.stripEvent_under hs mount) hk (hf.under hs hk mount)

theorem stripPrefixPath_prefixPath (h : id.Accepted) (mount : Path) :
    (id.prefixPath mount).stripPrefixPath mount = id := by
  rw [prefixPath_eq h,stripPrefixPath,Path.stripPrefixPath_under]

/-- Below the mount is every mounted event, also one whose path was the root. -/
theorem isParentOf_path_prefixPath (h : id.Accepted) (hm : Path.fromStr mount.str = .ok mount) :
    ∃ path, (id.prefixPath mount).path = .ok path ∧ mount.isParentOf path = true := by
  obtain ⟨p,k,hr⟩ := h.reads
  obtain ⟨rest,hrest⟩ := Path.exists_of_fromStr hm
  exact ⟨p.under mount,path_prefixPath hr.path mount,Path.isParentOf_under (h.head_path hr.path) hrest⟩

/-- Mounting a source under a path moves its events below this path and changes nothing else
that is read of them, and it can be undone. -/
theorem prefixPath_preserves (h : id.Accepted) (hm : Path.fromStr mount.str = .ok mount) :
    (id.prefixPath mount).Accepted ∧ (id.prefixPath mount).eventKind = id.eventKind ∧
    (id.prefixPath mount).parties = id.parties ∧ (id.prefixPath mount).nOutcomes = id.nOutcomes ∧
    (id.prefixPath mount).nNonces = id.nNonces ∧
    (∀ o : Outcome, o.id = id → o.Valid → (o.prefixPath mount).Valid ∧
      (o.prefixPath mount).outcomeString = o.outcomeString ∧
      (o.prefixPath mount).attestationIndexes = o.attestationIndexes) ∧
    (∃ path, (id.prefixPath mount).path = .ok path ∧ mount.isParentOf path = true) ∧
    (id.prefixPath mount).stripPrefixPath mount = id := by
  obtain ⟨p,k,hr⟩ := h.reads
  have hkind : (id.prefixPath mount).eventKind = id.eventKind := by
    rw [eventKind_prefixPath hr.eventKind,hr.eventKind]
  refine ⟨h.prefixPath hm,hkind,parties_prefixPath hr.eventKind mount,?_,?_,?_,isParentOf_path_prefixPath h hm,
    stripPrefixPath_prefixPath h mount⟩
  · simp only [nOutcomes,nOutcomesForNonce,hkind]
  · simp only [nNonces,hkind]
  · rintro o rfl hvalid
    exact ⟨hvalid.prefixPath hr.eventKind mount,Outcome.outcomeString_prefixPath hr.eventKind mount,
      Outcome.attestationIndexes_prefixPath hr.eventKind mount⟩

theorem prefixPath_preserves_below_root :
    (prefixPath ⟨⟨"/A_B.vs=A_win".toList⟩⟩ ⟨"/s/EPL".toList⟩).Accepted ∧
      (prefixPath ⟨⟨"/A_B.vs=A_win".toList⟩⟩ ⟨"/s/EPL".toList⟩).stripPrefixPath ⟨"/s/EPL".toList⟩ =
        ⟨⟨"/A_B.vs=A_win".toList⟩⟩ := by
  have h : Accepted ⟨⟨"/A_B.vs=A_win".toList⟩⟩ := by decide +kernel
  have hm : Path.fromStr "/s/EPL".toList = .ok ⟨"/s/EPL".toList⟩ := by decide
  obtain ⟨haccepted,_,_,_,_,_,_,hundone⟩ := prefixPath_preserves h hm
  exact ⟨haccepted,hundone⟩

end EventId
end Olivia
