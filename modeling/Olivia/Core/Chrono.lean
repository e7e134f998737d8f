import Mathlib.Algebra.Order.Ring.Int
import Mathlib.Tactic.Positivity
import Mathlib.Tactic.Ring
import Olivia.Core.Event
import Olivia.Runs.Schedule

/-! # Dates of the time library

The library that adds durations to dates and prints them is not part of the repository.
What the code uses of it is a parameter, with the laws that its addition is documented to
have: a date moves forward, and two steps forward are one longer step.
-/
namespace Olivia

/-- A signed duration, in nanoseconds. -/
abbrev Duration := ℤ

structure Chrono where
  add : NaiveDateTime → Duration → MayPanic NaiveDateTime
  sub : NaiveDateTime → Duration → MayPanic NaiveDateTime
  /-- A date printed with `%FT%T`, to the second. -/
  format : NaiveDateTime → Str

def Path.fromDt (chrono : Chrono) (dt : NaiveDateTime) : Path := ⟨'/' :: chrono.format dt⟩

def NaiveDateTime.le (t u : NaiveDateTime) : Bool :=
  t.seconds < u.seconds || t.seconds = u.seconds && t.nanosecond ≤ u.nanosecond

def timeLe : Option NaiveDateTime → Option NaiveDateTime → Bool
  | none, _ => true
  | some _, none => false
  | some t, some u => t.le u

namespace NaiveDateTime
variable {t u v : NaiveDateTime}

theorem le_iff : t.le u = true ↔ t.seconds < u.seconds ∨
    t.seconds = u.seconds ∧ t.nanosecond.toNat ≤ u.nanosecond.toNat := by
  simp [le,UInt32.le_iff_toNat_le]

theorem le_total (t u : NaiveDateTime) : t.le u = true ∨ u.le t = true := by
  rw [le_iff,le_iff]
  omega

theorem le_trans (htu : t.le u = true) (huv : u.le v = true) : t.le v = true := by
  rw [le_iff] at *
  omega

theorem le_antisymm (htu : t.le u = true) (hut : u.le t = true) : t = u := by
  rw [le_iff] at htu hut
  obtain ⟨seconds,nanosecond⟩ := t
  obtain ⟨seconds',nanosecond'⟩ := u
  have hseconds : seconds = seconds' := by
    dsimp only at htu hut
    omega
  have hnanosecond : nanosecond = nanosecond' := by
    rw [← UInt32.toNat_inj]
    dsimp only at htu hut
    omega
  rw [hseconds,hnanosecond]

end NaiveDateTime

theorem timeLe_total (t u : Option NaiveDateTime) : timeLe t u = true ∨ timeLe u t = true := by
  cases t with
  | none => exact Or.inl rfl
  | some t =>
    cases u with
    | none => exact Or.inr rfl
    | some u => exact t.le_total u

theorem timeLe_trans {t u v : Option NaiveDateTime} (htu : timeLe t u = true) (huv : timeLe u v = true) :
    timeLe t v = true := by
  cases t with
  | none => rfl
  | some t =>
    cases u with
    | none => cases htu
    | some u =>
      cases v with
      | none => cases huv
      | some v => exact NaiveDateTime.le_trans htu huv

namespace Chrono
variable (chrono : Chrono)

/-- Two steps forward are one, and a step forward ends later. -/
structure Additive : Prop where
  add_zero (t : NaiveDateTime) : chrono.add t 0 = .ok t
  add_add {t u : NaiveDateTime} {a b : Duration} (ha : 0 ≤ a) (hb : 0 ≤ b) (h : chrono.add t a = .ok u) :
    chrono.add u b = chrono.add t (a+b)
  later {t u : NaiveDateTime} {a : Duration} (ha : 0 < a) (h : chrono.add t a = .ok u) : u.le t = false

/-- A time that is `k` intervals after `t₀`. -/
def Tick (t₀ : NaiveDateTime) (interval : Duration) (k : ℕ) (time : Option NaiveDateTime) : Prop :=
  ∃ t, chrono.add t₀ (k*interval) = .ok t ∧ time = some t

variable {chrono} {t₀ : NaiveDateTime} {interval : Duration} {k : ℕ} {time : Option NaiveDateTime}

theorem Additive.tick_zero (h : chrono.Additive) : chrono.Tick t₀ interval 0 (some t₀) :=
  ⟨t₀,by simp [h.add_zero],rfl⟩

theorem Additive.tick_succ (h : chrono.Additive) (hinterval : 0 < interval) {t u : NaiveDateTime}
    (ht : chrono.Tick t₀ interval k (some t)) (hu : chrono.add t interval = .ok u) :
    chrono.Tick t₀ interval (k+1) (some u) := by
  obtain ⟨t,hadd,he⟩ := ht
  obtain rfl := Option.some.inj he
  refine ⟨u,?_,rfl⟩
  have hk : 0 ≤ (k : ℤ)*interval := by positivity
  have hsum : ((k+1 : ℕ) : ℤ)*interval = k*interval+interval := by
    push_cast
    ring
  rw [hsum,← h.add_add hk hinterval.le hadd,hu]

/-- The ticks of an interval are a schedule. -/
theorem Additive.schedule (h : chrono.Additive) (hinterval : 0 < interval) :
    Runs.Schedule (fun t u => timeLe t u = true) (chrono.Tick t₀ interval) where
  unique {k time time'} ht hu := by
    obtain ⟨t,ht,rfl⟩ := ht
    obtain ⟨u,hu,rfl⟩ := hu
    rw [Except.ok.inj (ht.symm.trans hu)]
  increasing {k l time time'} hlt ht hu := by
    obtain ⟨t,ht,rfl⟩ := ht
    obtain ⟨u,hu,rfl⟩ := hu
    have hk : 0 ≤ (k : ℤ)*interval := by positivity
    have hrest : 0 < ((l : ℤ)-k)*interval := mul_pos (by omega) hinterval
    have hsum : (k : ℤ)*interval+((l : ℤ)-k)*interval = l*interval := by ring
    have hstep : chrono.add t (((l : ℤ)-k)*interval) = .ok u := by
      rw [h.add_add hk hrest.le ht,hsum,hu]
    simp [timeLe,h.later hrest hstep]

end Chrono
end Olivia
