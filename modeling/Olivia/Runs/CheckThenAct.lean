import Mathlib.Logic.Relation
import Mathlib.Logic.Function.Basic
import Mathlib.Data.Nat.Notation

/-! # Interleaved check-then-act calls on a shared store

A call reads the store once and, unless that already answers it, writes it once. Both
accesses are atomic and nothing holds between them, so a write acts on a store that may
have moved since its check. The induction over interleavings is done once, for a store
invariant together with the promise every pending write carries.
-/
namespace Runs

/-- The two atomic accesses of a call. -/
structure CheckThenAct (σ Call Write Result : Type*) where
  check : Call → σ → Result ⊕ Write
  act : Write → σ → Result × σ

inductive Phase (Call Write Result : Type*)
  | idle
  | called (c : Call)
  | checked (c : Call) (w : Write)
  | returned (c : Call) (r : Result)

/-- A store and the progress of every call slot, all of them independent. -/
structure Config (σ Call Write Result : Type*) where
  store : σ
  phase : ℕ → Phase Call Write Result

variable {σ Call Write Result : Type*}

def Config.start (s : σ) : Config σ Call Write Result := ⟨s,fun _ => .idle⟩

def Config.set (s : Config σ Call Write Result) (i : ℕ) (store : σ)
    (p : Phase Call Write Result) : Config σ Call Write Result :=
  ⟨store,Function.update s.phase i p⟩

@[simp] theorem Config.set_store (s : Config σ Call Write Result) (i : ℕ) (store : σ)
    (p : Phase Call Write Result) : (s.set i store p).store = store := rfl
@[simp] theorem Config.set_phase_self (s : Config σ Call Write Result) (i : ℕ) (store : σ)
    (p : Phase Call Write Result) : (s.set i store p).phase i = p := Function.update_self ..
theorem Config.set_phase_ne (s : Config σ Call Write Result) {i j : ℕ} (h : j ≠ i) (store : σ)
    (p : Phase Call Write Result) : (s.set i store p).phase j = s.phase j := Function.update_of_ne h ..

namespace CheckThenAct
variable (P : CheckThenAct σ Call Write Result)

def answer (c : Call) (s : σ) : Phase Call Write Result :=
  match P.check c s with
  | .inl r => .returned c r
  | .inr w => .checked c w

/-- A call that nobody interrupts. -/
def run (c : Call) (s : σ) : Result × σ :=
  match P.check c s with
  | .inl r => (r,s)
  | .inr w => P.act w s

/-- What slot `i` leaves when its call runs on its own. -/
def ran (i : ℕ) (c : Call) (s : Config σ Call Write Result) : Config σ Call Write Result :=
  s.set i (P.run c s.store).2 (.returned c (P.run c s.store).1)

/-- The stores after the first and the second write of two calls that both check first. -/
def overlap (c d : Call) (s : σ) : Option (σ × σ) :=
  (P.check c s).getRight?.bind (fun w => (P.check d s).getRight?.map (fun v =>
    ((P.act w s).2,(P.act v (P.act w s).2).2)))

/-- One atomic access of call `i`, writes being taken only where the guard allows. -/
inductive StepWhen (guard : Write → σ → Prop) (i : ℕ) :
    Config σ Call Write Result → Config σ Call Write Result → Prop
  | call {s} (c : Call) (h : s.phase i = .idle) : StepWhen guard i s (s.set i s.store (.called c))
  | check {s c} (h : s.phase i = .called c) :
      StepWhen guard i s (s.set i s.store (P.answer c s.store))
  | act {s c w} (h : s.phase i = .checked c w) (hg : guard w s.store) :
      StepWhen guard i s (s.set i (P.act w s.store).2 (.returned c (P.act w s.store).1))

def ReachesWhen (guard : Write → σ → Prop) :
    Config σ Call Write Result → Config σ Call Write Result → Prop :=
  Relation.ReflTransGen (fun s t => ∃ i, P.StepWhen guard i s t)

abbrev Step := P.StepWhen (fun _ _ => True)
abbrev Reaches := P.ReachesWhen (fun _ _ => True)

/-- What has to be checked of a store invariant `I`, the promise `Q` a pending write makes
about the store and the meaning `R` of a returned result. -/
structure Inductive (guard : Write → σ → Prop) (I : σ → Prop) (Q : Call → Write → σ → Prop)
    (R : Call → Result → Prop) : Prop where
  check : ∀ {c w s}, I s → P.check c s = .inr w → Q c w s
  answer : ∀ {c r s}, I s → P.check c s = .inl r → R c r
  act : ∀ {c w s}, I s → Q c w s → guard w s → I (P.act w s).2
  result : ∀ {c w s}, I s → Q c w s → guard w s → R c (P.act w s).1
  stable : ∀ {c w c' w' s}, I s → Q c w s → Q c' w' s → guard w' s → Q c w (P.act w' s).2

/-- The invariant of a configuration that an inductive triple maintains. -/
structure Holds (I : σ → Prop) (Q : Call → Write → σ → Prop) (R : Call → Result → Prop)
    (s : Config σ Call Write Result) : Prop where
  store : I s.store
  pending : ∀ {i c w}, s.phase i = .checked c w → Q c w s.store
  returned : ∀ {i c r}, s.phase i = .returned c r → R c r

variable {P} {guard : Write → σ → Prop} {I : σ → Prop} {Q : Call → Write → σ → Prop}
variable {R : Call → Result → Prop} {s t : Config σ Call Write Result}

theorem Holds.start {s : σ} (h : I s) : Holds I Q R (Config.start s : Config σ Call Write Result) :=
  ⟨h,fun h => (by cases h),fun h => (by cases h)⟩

/-- Only the slot that moved has to be looked at again, against the new store. -/
theorem Holds.set (hs : Holds I Q R s) (i : ℕ) {store : σ} {p : Phase Call Write Result}
    (hI : I store) (hQ : ∀ {c w}, Q c w s.store → Q c w store)
    (hpending : ∀ {c w}, p = .checked c w → Q c w store)
    (hreturned : ∀ {c r}, p = .returned c r → R c r) : Holds I Q R (s.set i store p) where
  store := hI
  pending {j c w} h := by
    by_cases hj : j = i
    · subst j
      exact hpending (by simpa using h)
    · exact hQ (hs.pending (by simpa [s.set_phase_ne hj] using h))
  returned {j c r} h := by
    by_cases hj : j = i
    · subst j
      exact hreturned (by simpa using h)
    · exact hs.returned (by simpa [s.set_phase_ne hj] using h)

theorem Inductive.step (h : P.Inductive guard I Q R) (hs : Holds I Q R s) {i : ℕ}
    (hst : P.StepWhen guard i s t) : Holds I Q R t := by
  cases hst with
  | call c _ => exact hs.set i hs.store id (fun h => by cases h) (fun h => by cases h)
  | @check c _ =>
    unfold CheckThenAct.answer
    cases hc : P.check c s.store with
    | inl r =>
      refine hs.set i hs.store id (fun h => by cases h) (fun he => ?_)
      cases he
      exact h.answer hs.store hc
    | inr w =>
      refine hs.set i hs.store id (fun he => ?_) (fun h => by cases h)
      cases he
      exact h.check hs.store hc
  | act hp hg =>
    have hq := hs.pending hp
    refine hs.set i (h.act hs.store hq hg) (fun hQ => h.stable hs.store hQ hq hg)
      (fun h => by cases h) (fun he => ?_)
    cases he
    exact h.result hs.store hq hg

/-- What one access preserves, every interleaving preserves. -/
theorem Inductive.runs (h : P.Inductive guard I Q R) (hs : Holds I Q R s)
    (hr : P.ReachesWhen guard s t) : Holds I Q R t := by
  induction hr with
  | refl => exact hs
  | tail _ hst ih =>
    obtain ⟨i,hst⟩ := hst
    exact h.step ih hst

/-- The triple of calls that have nothing to maintain. -/
theorem Inductive.trivially :
    P.Inductive guard (fun _ => True) (fun _ _ _ => True) (fun _ _ => True) where
  check _ _ := trivial
  answer _ _ := trivial
  act _ _ _ := trivial
  result _ _ _ := trivial
  stable _ _ _ _ := trivial

theorem Holds.trivially : Holds (fun _ => True) (fun _ _ _ => True) (fun _ _ => True) s :=
  ⟨trivial,fun _ => trivial,fun _ => trivial⟩

/-- A preorder that every promised write moves along relates the two ends of a run. -/
theorem Inductive.relates (h : P.Inductive guard I Q R) {E : σ → σ → Prop} (hrefl : ∀ s, E s s)
    (htrans : ∀ {a b c}, E a b → E b c → E a c)
    (hE : ∀ {c w s}, I s → Q c w s → guard w s → E s (P.act w s).2) (hs : Holds I Q R s)
    (hr : P.ReachesWhen guard s t) : E s.store t.store := by
  induction hr with
  | refl => exact hrefl _
  | tail hr hst ih =>
    obtain ⟨i,hst⟩ := hst
    have hb := h.runs hs hr
    cases hst with
    | call => exact ih
    | check => exact ih
    | act hp hg => exact htrans ih (hE hb.store (hb.pending hp) hg)

/-- What a result says of the store stays true where it is true when the call returns and no
write takes it back. -/
theorem Inductive.settles (h : P.Inductive guard I Q R) {S : Call → Result → σ → Prop}
    (hanswer : ∀ {c r s}, I s → P.check c s = .inl r → S c r s)
    (hact : ∀ {c w s}, I s → Q c w s → guard w s → S c (P.act w s).1 (P.act w s).2)
    (hstable : ∀ {c r c' w s}, I s → S c r s → Q c' w s → guard w s → S c r (P.act w s).2)
    (hs : Holds I Q R s) (hstart : ∀ i c r, s.phase i = .returned c r → S c r s.store)
    (hr : P.ReachesWhen guard s t) : ∀ i c r, t.phase i = .returned c r → S c r t.store := by
  induction hr with
  | refl => exact hstart
  | @tail u v hr hst ih =>
    obtain ⟨j,hst⟩ := hst
    have hu := h.runs hs hr
    intro i c r hi
    by_cases hij : i = j
    · subst hij
      cases hst with
      | call c' _ => simp at hi
      | @check c' _ =>
        rw [Config.set_phase_self] at hi
        unfold CheckThenAct.answer at hi
        split at hi
        next hc =>
          cases hi
          exact hanswer hu.store hc
        next => cases hi
      | act hp hg =>
        rw [Config.set_phase_self] at hi
        cases hi
        exact hact hu.store (hu.pending hp) hg
    · cases hst with
      | call c' _ =>
        rw [Config.set_phase_ne _ hij] at hi
        exact ih i c r hi
      | check =>
        rw [Config.set_phase_ne _ hij] at hi
        exact ih i c r hi
      | act hp hg =>
        rw [Config.set_phase_ne _ hij] at hi
        exact hstable hu.store (ih i c r hi) (hu.pending hp) hg

/-- Calls and checks leave the store alone; a write returns the result it computes. -/
theorem StepWhen.store_eq {i : ℕ} (h : P.StepWhen guard i s t) :
    t.store = s.store ∨ ∃ c w, s.phase i = .checked c w ∧
      t = s.set i (P.act w s.store).2 (.returned c (P.act w s.store).1) := by
  cases h with
  | call => exact Or.inl rfl
  | check => exact Or.inl rfl
  | act hp _ => exact Or.inr ⟨_,_,hp,rfl⟩

/-- Two accesses of one call overwrite each other's trace in the configuration. -/
theorem Config.set_set (s : Config σ Call Write Result) (i : ℕ) (store store' : σ)
    (p q : Phase Call Write Result) : (s.set i store p).set i store' q = s.set i store' q := by
  simp [Config.set]

/-- The first two accesses of an idle slot. -/
theorem reaches_checked {i : ℕ} {c : Call} (h : s.phase i = .idle) :
    P.ReachesWhen guard s (s.set i s.store (P.answer c s.store)) := by
  refine .tail (.single ⟨i,.call c h⟩) ⟨i,?_⟩
  have hc : P.StepWhen guard i (s.set i s.store (.called c)) _ := .check (s.set_phase_self ..)
  rwa [Config.set_store,Config.set_set] at hc

/-- A call that nobody interrupts is a run of its own, and writes to the store it checked. -/
theorem reachesWhen_ran {i : ℕ} (c : Call) (h : s.phase i = .idle)
    (hg : ∀ w, P.check c s.store = .inr w → guard w s.store) : P.ReachesWhen guard s (P.ran i c s) := by
  have hr : P.ReachesWhen guard s (s.set i s.store (P.answer c s.store)) := reaches_checked h
  unfold answer at hr
  unfold ran run
  cases hc : P.check c s.store with
  | inl r => simpa only [hc] using hr
  | inr w =>
    simp only [hc] at hr
    refine .tail hr ⟨i,?_⟩
    have ha : P.StepWhen guard i (s.set i s.store (.checked c w)) _ := .act (s.set_phase_self ..) (hg w hc)
    rwa [Config.set_store,Config.set_set] at ha

theorem reaches_ran {i : ℕ} (c : Call) (h : s.phase i = .idle) : P.Reaches s (P.ran i c s) :=
  reachesWhen_ran c h (fun _ _ => trivial)

theorem overlap_eq_some {c d : Call} {s a b : σ} (h : P.overlap c d s = some (a,b)) :
    ∃ w v, P.check c s = .inr w ∧ P.check d s = .inr v ∧ (P.act w s).2 = a ∧ (P.act v (P.act w s).2).2 = b := by
  obtain ⟨w,hw,h⟩ := Option.bind_eq_some_iff.mp h
  obtain ⟨v,hv,h⟩ := Option.map_eq_some_iff.mp h
  obtain ⟨ha,hb⟩ := Prod.mk.inj h
  exact ⟨w,v,Sum.getRight?_eq_some_iff.mp hw,Sum.getRight?_eq_some_iff.mp hv,ha,hb⟩

/-- What two calls that both checked leave when the first one has written, and when both have. -/
def overlapped (i j : ℕ) (c d : Call) (w v : Write) (s : Config σ Call Write Result) :
    Config σ Call Write Result × Config σ Call Write Result :=
  let t := ((s.set i s.store (.checked c w)).set j s.store (.checked d v)).set i (P.act w s.store).2
    (.returned c (P.act w s.store).1)
  (t,t.set j (P.act v t.store).2 (.returned d (P.act v t.store).1))

/-- Two calls in different slots can overlap, the second one writing to what the first one left. -/
theorem reachesWhen_overlapped {i j : ℕ} (hij : i ≠ j) {c d : Call} {w v : Write} (hi : s.phase i = .idle)
    (hj : s.phase j = .idle) (hw : P.check c s.store = .inr w) (hv : P.check d s.store = .inr v)
    (hc : guard w s.store) (hd : guard v (P.act w s.store).2) :
    P.ReachesWhen guard s (P.overlapped i j c d w v s).1 ∧
      P.ReachesWhen guard (P.overlapped i j c d w v s).1 (P.overlapped i j c d w v s).2 := by
  let s₁ := s.set i s.store (.checked c w)
  let s₂ := s₁.set j s.store (.checked d v)
  let t := s₂.set i (P.act w s.store).2 (.returned c (P.act w s.store).1)
  have hs₁ : P.ReachesWhen guard s s₁ := by
    simpa only [answer,hw] using reaches_checked (P := P) (c := c) hi
  have hs₂ : P.ReachesWhen guard s₁ s₂ := by
    have hr : P.ReachesWhen guard s₁ (s₁.set j s.store (P.answer d s.store)) :=
      reaches_checked (by rw [s.set_phase_ne hij.symm,hj])
    rwa [answer,hv] at hr
  have hact : P.StepWhen guard i s₂ t := .act (by rw [s₁.set_phase_ne hij,Config.set_phase_self]) hc
  have hact' : P.StepWhen guard j t (t.set j (P.act v t.store).2 (.returned d (P.act v t.store).1)) :=
    .act (by rw [s₂.set_phase_ne hij.symm,Config.set_phase_self]) hd
  exact ⟨(hs₁.trans hs₂).tail ⟨i,hact⟩,.single ⟨j,hact'⟩⟩

section Overlapped
variable {i j k : ℕ} {c d : Call} {w v : Write}

/-- The first call has returned, and the second one still has its write to do. -/
theorem overlapped_phases (hij : i ≠ j) : (P.overlapped i j c d w v s).1.phase i = .returned c (P.act w s.store).1 ∧
    (P.overlapped i j c d w v s).1.phase j = .checked d v ∧
    (P.overlapped i j c d w v s).2.phase j = .returned d (P.act v (P.act w s.store).2).1 := by
  refine ⟨Config.set_phase_self ..,?_,Config.set_phase_self ..⟩
  rw [overlapped,Config.set_phase_ne _ hij.symm,Config.set_phase_self]

theorem overlapped_phase_ne (hi : k ≠ i) (hj : k ≠ j) : (P.overlapped i j c d w v s).2.phase k = s.phase k := by
  simp only [overlapped,Config.set_phase_ne _ hi,Config.set_phase_ne _ hj]

end Overlapped

theorem reaches_overlap {i j : ℕ} (hij : i ≠ j) {c d : Call} (hi : s.phase i = .idle)
    (hj : s.phase j = .idle) {a b : σ} (h : P.overlap c d s.store = some (a,b)) :
    ∃ t u, P.Reaches s t ∧ P.Reaches t u ∧ t.store = a ∧ u.store = b := by
  obtain ⟨w,v,hw,hv,rfl,rfl⟩ := overlap_eq_some h
  have hruns : P.Reaches s (P.overlapped i j c d w v s).1 ∧
      P.Reaches (P.overlapped i j c d w v s).1 (P.overlapped i j c d w v s).2 :=
    reachesWhen_overlapped hij hi hj hw hv trivial trivial
  exact ⟨_,_,hruns.1,hruns.2,rfl,rfl⟩

end CheckThenAct
end Runs
