import Olivia.Runs.CheckThenAct

/-! # Interleaved calls as calls one after the other

A call takes effect when it returns. Where a write that was checked earlier does to the store
what the whole call would do there now, the calls that have returned left the store that they
leave one after the other in the order of their returns, and were answered alike.
-/
namespace Runs.CheckThenAct
variable {σ Call Write Result : Type*} (P : CheckThenAct σ Call Write Result)

/-- Calls that nobody interrupts, each with its slot, and what they are answered. -/
def sequential : List (ℕ × Call) → σ → σ × List (ℕ × Call × Result)
  | [],s => (s,[])
  | (i,c) :: calls,s =>
    let (t,answers) := sequential calls (P.run c s).2
    (t,(i,c,(P.run c s).1) :: answers)

/-- A configuration whose returned calls were made one after the other, up to answers that are the same. -/
structure Linearized (same : Result → Result → Prop) (s : σ) (calls : List (ℕ × Call))
    (t : Config σ Call Write Result) : Prop where
  slots : (calls.map Prod.fst).Nodup
  returns : ∀ i c, (i,c) ∈ calls → ∃ r, t.phase i = .returned c r
  store : t.store = (P.sequential calls s).1
  answers : ∀ i c r, t.phase i = .returned c r → ∃ r', (i,c,r') ∈ (P.sequential calls s).2 ∧ same r r'

/-- What has to be checked of the promise of a pending write: kept long enough, it lets the write
do what the call would do. -/
structure Serial (guard : Write → σ → Prop) (I : σ → Prop) (Q : Call → Write → σ → Prop)
    (same : Result → Result → Prop) : Prop extends P.Inductive guard I Q (fun _ _ => True) where
  refl : ∀ r, same r r
  late : ∀ {c w s}, I s → Q c w s → guard w s → (P.act w s).2 = (P.run c s).2 ∧ same (P.act w s).1 (P.run c s).1

variable {P} {guard : Write → σ → Prop} {I : σ → Prop} {Q : Call → Write → σ → Prop}
variable {same : Result → Result → Prop} {s : σ} {t u : Config σ Call Write Result} {calls : List (ℕ × Call)}
variable {i : ℕ} {c : Call} {r : Result}

theorem sequential_append (calls : List (ℕ × Call)) (i : ℕ) (c : Call) (s : σ) :
    P.sequential (calls ++ [(i,c)]) s = ((P.run c (P.sequential calls s).1).2,
      (P.sequential calls s).2 ++ [(i,c,(P.run c (P.sequential calls s).1).1)]) := by
  induction calls generalizing s with
  | nil => rfl
  | cons call calls ih =>
    obtain ⟨j,d⟩ := call
    simp only [List.cons_append,sequential,ih]

theorem Linearized.start (s : σ) : P.Linearized same s [] (.start s) where
  slots := List.nodup_nil
  returns _ _ h := nomatch h
  store := rfl
  answers _ _ _ h := nomatch h

/-- A slot that has not returned stays out of the order as long as it does not return. -/
theorem Linearized.pass (h : P.Linearized same s calls t) {p : Phase Call Write Result}
    (hold : ∀ c r, t.phase i ≠ .returned c r) (hp : ∀ c r, p ≠ .returned c r) :
    P.Linearized same s calls (t.set i t.store p) where
  slots := h.slots
  returns j d hmem := by
    obtain ⟨r,hr⟩ := h.returns j d hmem
    have hj : j ≠ i := fun he => hold d r (he ▸ hr)
    exact ⟨r,by rwa [Config.set_phase_ne t hj]⟩
  store := h.store
  answers j d r hr := by
    by_cases hj : j = i
    · subst hj
      exact absurd ((Config.set_phase_self ..).symm.trans hr) (hp d r)
    · rw [Config.set_phase_ne t hj] at hr
      exact h.answers j d r hr

/-- A call that returns is the next one in the order. -/
theorem Linearized.snoc (h : P.Linearized same s calls t) (hold : ∀ c r, t.phase i ≠ .returned c r) {store : σ}
    (hstore : store = (P.run c t.store).2) (hsame : same r (P.run c t.store).1) :
    P.Linearized same s (calls ++ [(i,c)]) (t.set i store (.returned c r)) := by
  have hnew : i ∉ calls.map Prod.fst := by
    intro hmem
    obtain ⟨⟨j,d⟩,hd,rfl⟩ := List.mem_map.mp hmem
    obtain ⟨r',hr'⟩ := h.returns j d hd
    exact hold d r' hr'
  refine ⟨?_,?_,?_,?_⟩
  · rw [List.map_append,List.map_singleton]
    refine List.nodup_append.mpr ⟨h.slots,List.pairwise_singleton _ i,?_⟩
    rintro j hj _ hmem rfl
    obtain rfl : j = i := List.mem_singleton.mp hmem
    exact hnew hj
  · intro j d hmem
    rcases List.mem_append.mp hmem with hmem | hmem
    · obtain ⟨r',hr'⟩ := h.returns j d hmem
      have hj : j ≠ i := fun he => hold d r' (he ▸ hr')
      exact ⟨r',by rwa [Config.set_phase_ne t hj]⟩
    · obtain ⟨rfl,rfl⟩ := Prod.mk.inj (List.mem_singleton.mp hmem)
      exact ⟨r,Config.set_phase_self ..⟩
  · rw [sequential_append,← h.store]
    exact hstore
  · intro j d r' hr'
    rw [sequential_append,← h.store]
    by_cases hj : j = i
    · subst hj
      rw [Config.set_phase_self] at hr'
      obtain ⟨rfl,rfl⟩ := Phase.returned.inj hr'
      exact ⟨_,List.mem_append_right _ List.mem_cons_self,hsame⟩
    · rw [Config.set_phase_ne t hj] at hr'
      obtain ⟨r'',hmem,hsame'⟩ := h.answers j d r' hr'
      exact ⟨r'',List.mem_append_left _ hmem,hsame'⟩

/-- One access puts at most one call behind those that have returned. -/
theorem Serial.step (h : P.Serial guard I Q same) (ht : Holds I Q (fun _ _ => True) t)
    (hlin : P.Linearized same s calls t) (hst : P.StepWhen guard i t u) :
    ∃ more, P.Linearized same s (calls ++ more) u := by
  cases hst with
  | call c hidle =>
    have hold : ∀ d r, t.phase i ≠ .returned d r := fun _ _ he => nomatch hidle.symm.trans he
    exact ⟨[],by simpa using hlin.pass hold (fun _ _ he => by cases he)⟩
  | @check c hcalled =>
    have hold : ∀ d r, t.phase i ≠ .returned d r := fun _ _ he => nomatch hcalled.symm.trans he
    unfold CheckThenAct.answer
    cases hc : P.check c t.store with
    | inl r =>
      have hrun : P.run c t.store = (r,t.store) := by rw [run,hc]
      exact ⟨[(i,c)],hlin.snoc hold (by rw [hrun]) (by rw [hrun]; exact h.refl r)⟩
    | inr w => exact ⟨[],by simpa using hlin.pass hold (fun _ _ he => by cases he)⟩
  | @act c w hchecked hg =>
    have hold : ∀ d r, t.phase i ≠ .returned d r := fun _ _ he => nomatch hchecked.symm.trans he
    obtain ⟨hstore,hsame⟩ := h.late ht.store (ht.pending hchecked) hg
    exact ⟨[(i,c)],hlin.snoc hold hstore hsame⟩

/-- The order of the calls grows with the run, so that a call that has returned before another
one is made comes first. -/
theorem Serial.linearized (h : P.Serial guard I Q same) (ht : Holds I Q (fun _ _ => True) t)
    (hlin : P.Linearized same s calls t) (hr : P.ReachesWhen guard t u) :
    ∃ more, P.Linearized same s (calls ++ more) u := by
  induction hr with
  | refl => exact ⟨[],by simpa using hlin⟩
  | tail hr hst ih =>
    obtain ⟨more,hmore⟩ := ih
    obtain ⟨i,hst⟩ := hst
    obtain ⟨more',hmore'⟩ := h.step (h.runs ht hr) hmore hst
    exact ⟨more ++ more',by rwa [← List.append_assoc]⟩

theorem Serial.linearizable (h : P.Serial guard I Q same) (hs : I s) (ht : P.ReachesWhen guard (.start s) t)
    (hu : P.ReachesWhen guard t u) : (∃ calls, P.Linearized same s calls t) ∧
    ∀ calls, P.Linearized same s calls t → ∃ more, P.Linearized same s (calls ++ more) u := by
  refine ⟨?_,fun calls hcalls => h.linearized (h.runs (.start hs) ht) hcalls hu⟩
  obtain ⟨calls,hcalls⟩ := h.linearized (.start hs) (.start s) ht
  exact ⟨_,hcalls⟩

end Runs.CheckThenAct
