import Mathlib.Tactic.Common

/-!
# ObjcRuntime.Lib.RecursiveMutex

A mutex that its owner may lock again.

`none` is free, and `some (t, n)` is held by `t`, which has locked it `n + 1` times;
so a mutex that is held zero times cannot be written down. What a thread sees of the
mutex is its `depth`, how often it has locked it.
-/

namespace ObjcRuntime.Lib

variable {τ : Type*} [DecidableEq τ]

def RecursiveMutex (τ : Type*) := Option (τ × Nat)

namespace RecursiveMutex

def free : RecursiveMutex τ := none

/-- Locking, or `none` as long as another thread holds the mutex. -/
def lock (t : τ) : RecursiveMutex τ → Option (RecursiveMutex τ)
  | none => some (some (t, 0))
  | some (u, n) => if u = t then some (some (u, n + 1)) else none

/-- Unlocking, or `none` if the thread does not hold the mutex. -/
def tryUnlock (t : τ) : RecursiveMutex τ → Option (RecursiveMutex τ)
  | none => none
  | some (u, 0) => if u = t then some none else none
  | some (u, n + 1) => if u = t then some (some (u, n)) else none

/-- How often a thread has locked the mutex. -/
def depth (t : τ) : RecursiveMutex τ → Nat
  | none => 0
  | some (u, n) => if u = t then n + 1 else 0

variable {t u : τ} {m m' : RecursiveMutex τ}

@[simp] theorem depth_free : depth t free = 0 := rfl

/-- **Only one thread holds a mutex.** -/
theorem eq_of_depth_pos (ht : 0 < depth t m) (hu : 0 < depth u m) : t = u := by
  cases m with
  | none => simp [depth] at ht
  | some owner =>
    obtain ⟨v, n⟩ := owner
    have hv : v = t := by
      by_contra hne
      simp [depth, hne] at ht
    have hv' : v = u := by
      by_contra hne
      simp [depth, hne] at hu
    exact hv ▸ hv'

theorem depth_lock (h : lock t m = some m') :
    depth t m' = depth t m + 1 ∧ ∀ u, u ≠ t → depth u m' = depth u m := by
  cases m with
  | none =>
    cases h
    exact ⟨by simp [depth], fun u hu => by simp [depth, hu.symm]⟩
  | some owner =>
    simp only [lock] at h
    split at h
    next hv =>
      cases h
      exact ⟨by simp [depth, hv], fun u hu => by simp [depth, hv, hu.symm]⟩
    · cases h

theorem lock_eq_none (h : lock t m = none) : ∃ u, u ≠ t ∧ 0 < depth u m := by
  cases m with
  | none => cases h
  | some owner =>
    obtain ⟨v, n⟩ := owner
    simp only [lock] at h
    split at h
    · cases h
    next hv => exact ⟨v, hv, by simp [depth]⟩

theorem depth_tryUnlock (h : tryUnlock t m = some m') :
    depth t m = depth t m' + 1 ∧ ∀ u, u ≠ t → depth u m' = depth u m := by
  cases m with
  | none => cases h
  | some owner =>
    obtain ⟨v, n⟩ := owner
    cases n with
    | zero | succ n =>
      simp only [tryUnlock] at h
      split at h
      next hv =>
        cases h
        exact ⟨by simp [depth, hv], fun u hu => by simp [depth, hv, hu.symm]⟩
      · cases h

theorem tryUnlock_of_depth_pos (h : 0 < depth t m) : ∃ m', tryUnlock t m = some m' := by
  cases m with
  | none => simp [depth] at h
  | some owner =>
    obtain ⟨v, n⟩ := owner
    have hv : v = t := by
      by_contra hne
      simp [depth, hne] at h
    cases n with
    | zero => exact ⟨none, by simp [tryUnlock, hv]⟩
    | succ n => exact ⟨some (v, n), by simp [tryUnlock, hv]⟩

end RecursiveMutex

end ObjcRuntime.Lib
