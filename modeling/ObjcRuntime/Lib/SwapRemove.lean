import Mathlib.Data.List.Perm.Basic

/-!
# ObjcRuntime.Lib.SwapRemove

Removing an element of an array by moving the last one into its place.
-/

namespace ObjcRuntime.Lib

open List

variable {α : Type*}

/-- `list[i] = list[--used]` -/
def swapRemove (l : List α) (i : Nat) : List α :=
  match l.getLast? with
  | some last => (l.set i last).dropLast
  | none => l

/-- **What is left is the rest**, in some order. -/
theorem swapRemove_perm {l : List α} {i} (h : i < l.length) :
    (swapRemove l i).Perm (l.eraseIdx i) := by
  rcases eq_nil_or_concat l with rfl | ⟨init, last, rfl⟩
  · simp at h
  · rw [concat_eq_append] at h ⊢
    have hswap : swapRemove (init ++ [last]) i = ((init ++ [last]).set i last).dropLast := by
      simp [swapRemove]
    rw [hswap]
    by_cases hi : i < init.length
    · rw [set_append_left _ _ hi, dropLast_concat, eraseIdx_append_of_lt_length hi]
      exact (set_perm_cons_eraseIdx hi last).trans (perm_append_singleton _ _).symm
    · have heq : i = init.length := by simp at h; omega
      subst heq
      rw [eraseIdx_append_of_length_le (Nat.le_refl _), Nat.sub_self]
      simp

end ObjcRuntime.Lib
