import Mathlib.Logic.Function.Basic
import Mathlib.Data.List.Basic

/-! # Messages about one key each

A machine takes messages one after the other and may stop at one. Every message is about one
key: what it does to the view of that key depends on this view alone, and every other view
stays. What is seen at a key after a run is then the run of the messages about it, so only
their order matters, and the machine stops exactly where the messages of some key stop it.
-/
namespace Runs

structure Local (σ Msg κ View ε : Type*) where
  step : Msg → σ → Except ε σ
  key : Msg → κ
  view : σ → κ → View
  /-- What a message does to the view of its key. -/
  effect : Msg → View → Except ε View
  Inv : σ → Prop
  keeps : ∀ {m s t}, Inv s → step m s = .ok t → Inv t
  own : ∀ {m s}, Inv s → (step m s).map (fun t => view t (key m)) = effect m (view s (key m))
  others : ∀ {m s t k}, Inv s → step m s = .ok t → k ≠ key m → view t k = view s k

namespace Local
variable {σ Msg κ View ε : Type*} (P : Local σ Msg κ View ε)

def run (msgs : List Msg) (s : σ) : Except ε σ := msgs.foldlM (fun s m => P.step m s) s

def effects (msgs : List Msg) (v : View) : Except ε View := msgs.foldlM (fun v m => P.effect m v) v

variable {P} {msgs msgs' : List Msg} {s t s' : σ} {m : Msg}

theorem run_cons_eq_ok : P.run (m :: msgs) s = .ok t ↔ ∃ u, P.step m s = .ok u ∧ P.run msgs u = .ok t := by
  rw [run,List.foldlM_cons]
  cases P.step m s with
  | error e => exact iff_of_false (fun h => nomatch h) (fun ⟨_,h,_⟩ => nomatch h)
  | ok u => exact ⟨fun h => ⟨u,rfl,h⟩,fun ⟨_,h,hrest⟩ => Except.ok.inj h ▸ hrest⟩

theorem effects_cons_eq_ok {v w : View} : P.effects (m :: msgs) v = .ok w ↔
    ∃ u, P.effect m v = .ok u ∧ P.effects msgs u = .ok w := by
  rw [effects,List.foldlM_cons]
  cases P.effect m v with
  | error e => exact iff_of_false (fun h => nomatch h) (fun ⟨_,h,_⟩ => nomatch h)
  | ok u => exact ⟨fun h => ⟨u,rfl,h⟩,fun ⟨_,h,hrest⟩ => Except.ok.inj h ▸ hrest⟩

theorem run_append (h : P.run msgs s = .ok s') (h' : P.run msgs' s' = .ok t) : P.run (msgs ++ msgs') s = .ok t := by
  rw [run,List.foldlM_append]
  change (P.run msgs s >>= fun s => P.run msgs' s) = .ok t
  rw [h]
  exact h'

theorem run_keeps (hs : P.Inv s) (h : P.run msgs s = .ok t) : P.Inv t := by
  induction msgs generalizing s with
  | nil => exact Except.ok.inj h ▸ hs
  | cons m msgs ih =>
    obtain ⟨u,hstep,hrest⟩ := run_cons_eq_ok.mp h
    exact ih (P.keeps hs hstep) hrest

theorem effect_of_step (hs : P.Inv s) (h : P.step m s = .ok t) :
    P.effect m (P.view s (P.key m)) = .ok (P.view t (P.key m)) := by
  rw [← P.own hs,h]
  rfl

theorem step_of_effect {v : View} (hs : P.Inv s) (h : P.effect m (P.view s (P.key m)) = .ok v) :
    ∃ t, P.step m s = .ok t := by
  rw [← P.own hs] at h
  cases hs : P.step m s with
  | error e =>
    rw [hs] at h
    cases h
  | ok t => exact ⟨t,rfl⟩

variable [DecidableEq κ]

/-- The messages about one key, in their order. -/
def about (P : Local σ Msg κ View ε) (k : κ) (msgs : List Msg) : List Msg := msgs.filter (fun m => P.key m = k)

/-- After a run every view is what the messages about its key make of it. -/
theorem effects_about (hs : P.Inv s) (h : P.run msgs s = .ok t) (k : κ) :
    P.effects (P.about k msgs) (P.view s k) = .ok (P.view t k) := by
  induction msgs generalizing s with
  | nil =>
    obtain rfl := Except.ok.inj h
    rfl
  | cons m msgs ih =>
    obtain ⟨u,hstep,hrest⟩ := run_cons_eq_ok.mp h
    have hafter := ih (P.keeps hs hstep) hrest
    by_cases hk : P.key m = k
    · subst hk
      rw [about,List.filter_cons_of_pos (by simp)]
      exact effects_cons_eq_ok.mpr ⟨_,effect_of_step hs hstep,hafter⟩
    · rw [about,List.filter_cons_of_neg (by simpa using hk),← P.others hs hstep (Ne.symm hk)]
      exact hafter

/-- A run goes through where the messages about every key do. -/
theorem run_isOk_iff (hs : P.Inv s) : (∃ t, P.run msgs s = .ok t) ↔
    ∀ k, ∃ v, P.effects (P.about k msgs) (P.view s k) = .ok v := by
  constructor
  · rintro ⟨t,h⟩ k
    exact ⟨_,effects_about hs h k⟩
  · intro h
    induction msgs generalizing s with
    | nil => exact ⟨s,rfl⟩
    | cons m msgs ih =>
      obtain ⟨v,hv⟩ := h (P.key m)
      rw [about,List.filter_cons_of_pos (by simp)] at hv
      obtain ⟨w,hw,_⟩ := effects_cons_eq_ok.mp hv
      obtain ⟨u,hstep⟩ := step_of_effect hs hw
      obtain ⟨t,ht⟩ := ih (s := u) (P.keeps hs hstep) (by
        intro k
        obtain ⟨v,hv⟩ := h k
        by_cases hk : P.key m = k
        · subst hk
          rw [about,List.filter_cons_of_pos (by simp)] at hv
          obtain ⟨w,hw,hrest⟩ := effects_cons_eq_ok.mp hv
          obtain rfl := Except.ok.inj ((effect_of_step hs hstep).symm.trans hw)
          exact ⟨v,hrest⟩
        · rw [about,List.filter_cons_of_neg (by simpa using hk),← P.others hs hstep (Ne.symm hk)] at hv
          exact ⟨v,hv⟩)
      exact ⟨t,run_cons_eq_ok.mpr ⟨u,hstep,ht⟩⟩

/-- What is seen at a key is decided by what was seen there and the messages about it. -/
theorem view_eq_of_about (hs : P.Inv s) (hs' : P.Inv s') (h : P.run msgs s = .ok t) {t' : σ}
    (h' : P.run msgs' s' = .ok t') {k : κ} (hview : P.view s k = P.view s' k)
    (habout : P.about k msgs = P.about k msgs') : P.view t k = P.view t' k := by
  have hafter := effects_about hs' h' k
  rw [← hview,← habout,effects_about hs h k] at hafter
  exact Except.ok.inj hafter

/-- Two runs from states that look alike, of messages that come in the same order for every
key, go equally far and lead to states that look alike. -/
theorem run_of_about_eq (hs : P.Inv s) (hs' : P.Inv s') (hviews : ∀ k, P.view s k = P.view s' k)
    (habout : ∀ k, P.about k msgs = P.about k msgs') (h : P.run msgs s = .ok t) :
    ∃ t', P.run msgs' s' = .ok t' ∧ ∀ k, P.view t k = P.view t' k := by
  obtain ⟨t',ht'⟩ : ∃ t', P.run msgs' s' = .ok t' := by
    refine (run_isOk_iff hs').mpr ?_
    intro k
    rw [← hviews,← habout]
    exact ⟨_,effects_about hs h k⟩
  exact ⟨t',ht',fun k => view_eq_of_about hs hs' h ht' (hviews k) (habout k)⟩

end Local
end Runs
