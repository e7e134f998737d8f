import Mathlib.Data.List.Basic

/-! # Two machines in lockstep

Two machines take the same operations. They agree on a list of operations when they look
alike before, between and after them and answer every operation alike. Where a relation
between their states is kept by one operation exactly under a condition, they agree on a
list exactly when every operation of it meets the condition where it is applied. A machine
that ends at an error is one whose state may be this error.
-/
namespace Runs

variable {Op σ τ Out Out' : Type*}

/-- Both machines look alike now, and they answer and look alike all the way. -/
def AgreeOn (f : Op → σ → Out × σ) (g : Op → τ → Out' × τ) (same : Out → Out' → Prop)
    (alike : σ → τ → Prop) : List Op → σ → τ → Prop
  | [],s,t => alike s t
  | op :: ops,s,t => alike s t ∧ same (f op s).1 (g op t).1 ∧ AgreeOn f g same alike ops (f op s).2 (g op t).2

/-- Every operation meets the condition in the state it is applied to. -/
def Along (f : Op → σ → Out × σ) (condition : Op → σ → Prop) : List Op → σ → Prop
  | [],_ => True
  | op :: ops,s => condition op s ∧ Along f condition ops (f op s).2

variable {f : Op → σ → Out × σ} {g : Op → τ → Out' × τ} {same : Out → Out' → Prop}
variable {alike : σ → τ → Prop} {condition : Op → σ → Prop} {ops : List Op} {s : σ} {t : τ}

theorem AgreeOn.looks (h : AgreeOn f g same alike ops s t) : alike s t := by
  cases ops with
  | nil => exact h
  | cons op ops => exact h.1

/-- Of a condition that holds of the operations in every state. -/
theorem Along.of_forall (h : ∀ op ∈ ops, ∀ s, condition op s) (s : σ) : Along f condition ops s := by
  induction ops generalizing s with
  | nil => trivial
  | cons op ops ih =>
    exact ⟨h op List.mem_cons_self s,ih (fun op' hmem => h op' (List.mem_cons_of_mem op hmem)) _⟩

/-- What has to be checked of a relation `R` of the states: it makes them look alike, one
operation is answered and leaves them alike exactly under the condition, and then `R` is kept. -/
structure LockstepWhen (f : Op → σ → Out × σ) (g : Op → τ → Out' × τ) (same : Out → Out' → Prop)
    (alike : σ → τ → Prop) (condition : Op → σ → Prop) (R : σ → τ → Prop) : Prop where
  looks : ∀ {s t}, R s t → alike s t
  keeps : ∀ {op s t}, R s t → condition op s → same (f op s).1 (g op t).1 ∧ R (f op s).2 (g op t).2
  needs : ∀ {op s t}, R s t → same (f op s).1 (g op t).1 → alike (f op s).2 (g op t).2 → condition op s

theorem LockstepWhen.agreeOn_iff {R : σ → τ → Prop} (h : LockstepWhen f g same alike condition R)
    (hR : R s t) : AgreeOn f g same alike ops s t ↔ Along f condition ops s := by
  induction ops generalizing s t with
  | nil => exact iff_of_true (h.looks hR) trivial
  | cons op ops ih =>
    constructor
    · rintro ⟨_,hsame,hrest⟩
      have hcondition : condition op s := h.needs hR hsame hrest.looks
      exact ⟨hcondition,(ih (h.keeps hR hcondition).2).mp hrest⟩
    · rintro ⟨hcondition,hrest⟩
      obtain ⟨hsame,hkept⟩ := h.keeps hR hcondition
      exact ⟨h.looks hR,hsame,(ih hkept).mpr hrest⟩

/-- What the operations leave of a state. -/
def after (f : Op → σ → Out × σ) (ops : List Op) (s : σ) : σ := ops.foldl (fun s op => (f op s).2) s

theorem after_keeps {I : σ → Prop} (hs : I s) (h : ∀ op s, I s → I (f op s).2) : I (after f ops s) :=
  List.foldlRecOn _ _ hs (fun s hs op _ => h op s hs)

/-- The states stay related as long as the condition is met. -/
theorem LockstepWhen.related_after {R : σ → τ → Prop} (h : LockstepWhen f g same alike condition R)
    (hR : R s t) (hops : Along f condition ops s) : R (after f ops s) (after g ops t) := by
  induction ops generalizing s t with
  | nil => exact hR
  | cons op ops ih => exact ih (h.keeps hR hops.1).2 hops.2

section Errors
variable {ε : Type*}

/-- A machine that ends at its first error and answers with it from then on. -/
def untilError (step : Op → σ → Except ε (Out × σ)) (op : Op) : Except ε σ → Except ε Out × Except ε σ
  | .error e => (.error e,.error e)
  | .ok s => ((step op s).map Prod.fst,(step op s).map Prod.snd)

/-- Both machines have ended at one error, or both go on. -/
def Both (R : σ → τ → Prop) : Except ε σ → Except ε τ → Prop
  | .error e,.error e' => e = e'
  | .ok s,.ok t => R s t
  | _,_ => False

/-- A condition on the states of a machine that goes on. -/
def Ongoing (condition : Op → σ → Prop) (op : Op) : Except ε σ → Prop
  | .error _ => True
  | .ok s => condition op s

/-- Both steps end at one error, or both answer alike and go on alike. -/
def StepAlike (alike : σ → τ → Prop) (r : Except ε (Out × σ)) (r' : Except ε (Out × τ)) : Prop :=
  (∃ e, r = .error e ∧ r' = .error e) ∨ ∃ out s t, r = .ok (out,s) ∧ r' = .ok (out,t) ∧ alike s t

variable {step : Op → σ → Except ε (Out × σ)} {step' : Op → τ → Except ε (Out × τ)} {R : σ → τ → Prop}

theorem stepAlike_iff {r : Except ε (Out × σ)} {r' : Except ε (Out × τ)} :
    StepAlike alike r r' ↔ r.map Prod.fst = r'.map Prod.fst ∧ Both alike (r.map Prod.snd) (r'.map Prod.snd) := by
  rcases r with e | ⟨out,s⟩ <;> rcases r' with e' | ⟨out',t⟩ <;> simp [StepAlike,Both,Except.map,eq_comm]

/-- Alike steps on the parts of larger states. -/
theorem StepAlike.map_iff {σ' τ' : Type*} {alike' : σ' → τ' → Prop} {f : σ → σ'} {g : τ → τ'}
    {r : Except ε (Out × σ)} {r' : Except ε (Out × τ)} (h : ∀ s t, alike' (f s) (g t) ↔ alike s t) :
    StepAlike alike' (r.map (Prod.map id f)) (r'.map (Prod.map id g)) ↔ StepAlike alike r r' := by
  rcases r with e | ⟨out,s⟩ <;> rcases r' with e' | ⟨out',t⟩ <;> simp [StepAlike,Except.map,h]

/-- Machines that may end are in lockstep when their steps are. -/
theorem lockstep_untilError (looks : ∀ {s t}, R s t → alike s t)
    (keeps : ∀ {op s t}, R s t → condition op s → StepAlike R (step op s) (step' op t))
    (needs : ∀ {op s t}, R s t → StepAlike alike (step op s) (step' op t) → condition op s) :
    LockstepWhen (untilError step) (untilError step') Eq (Both alike) (Ongoing condition) (Both R) where
  looks {s t} h := by
    cases s <;> cases t
    case ok.ok => exact looks h
    all_goals exact h
  keeps {op s t} h hcondition := by
    cases s <;> cases t
    case ok.ok => exact stepAlike_iff.mp (keeps h hcondition)
    case error.error => exact ⟨congrArg Except.error h,h⟩
    all_goals exact h.elim
  needs {op s t} h hsame halike := by
    cases s <;> cases t
    case ok.ok => exact needs h (stepAlike_iff.mpr ⟨hsame,halike⟩)
    case error.error => trivial
    all_goals exact h.elim

end Errors

end Runs
