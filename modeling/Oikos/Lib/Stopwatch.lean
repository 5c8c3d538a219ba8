/-
A stopwatch: the time it has been running, over any number of pauses.
-/
import Mathlib.Algebra.Order.Ring.Nat

namespace Oikos

/-- The time of the finished laps, and when the current one began. -/
structure Stopwatch where
  banked : Nat
  since : Option Nat

namespace Stopwatch

def start (t : Nat) : Stopwatch :=
  ⟨0, some t⟩

def pause (w : Stopwatch) (t : Nat) : Stopwatch :=
  match w.since with
  | some s => ⟨w.banked + (t - s), none⟩
  | none => w

def resume (w : Stopwatch) (t : Nat) : Stopwatch :=
  match w.since with
  | some _ => w
  | none => ⟨w.banked, some t⟩

/-- The running time up to `t`. -/
def elapsed (w : Stopwatch) (t : Nat) : Nat :=
  match w.since with
  | some s => w.banked + (t - s)
  | none => w.banked

def Running (w : Stopwatch) : Prop :=
  w.since.isSome = true

variable {w : Stopwatch} {t t' : Nat}

@[simp] theorem running_start : (start t).Running := rfl

@[simp] theorem elapsed_start : (start t).elapsed t' = t' - t :=
  zero_add _

theorem not_running_pause : ¬ (w.pause t).Running := by
  unfold pause Running
  cases h : w.since with
  | none => simp [h]
  | some s => simp

theorem running_resume : (w.resume t).Running := by
  unfold resume Running
  cases h : w.since with
  | none => rfl
  | some s => simp [h]

theorem elapsed_pause : (w.pause t).elapsed t' = w.elapsed t := by
  unfold pause elapsed
  cases h : w.since with
  | none => simp [h]
  | some s => rfl

theorem pause_of_not_running (h : ¬ w.Running) : w.pause t = w := by
  unfold pause
  cases hs : w.since with
  | none => rfl
  | some s => exact absurd (by simp [Running, hs]) h

theorem resume_of_running (h : w.Running) : w.resume t = w := by
  unfold resume
  cases hs : w.since with
  | none => simp [Running, hs] at h
  | some s => rfl

theorem elapsed_of_not_running (h : ¬ w.Running) : w.elapsed t = w.elapsed t' := by
  unfold elapsed
  cases hs : w.since with
  | none => rfl
  | some s => exact absurd (by simp [Running, hs]) h

/-- After a pause the time goes on from where it stood. -/
theorem elapsed_resume (h : ¬ w.Running) : (w.resume t).elapsed t' = w.elapsed t + (t' - t) := by
  unfold resume elapsed
  cases hs : w.since with
  | none => rfl
  | some s => exact absurd (by simp [Running, hs]) h

end Stopwatch

end Oikos
