import Mathlib.Data.List.Basic

/-!
# ObjcRuntime.Lib.Log

Cutting a log that grows at its end.

A statement about what came before an event is a statement about every way to cut
the log at that event. These lemmas say where the cut can be after events were
appended.
-/

namespace ObjcRuntime.Lib

open List

universe u

variable {α : Type u} {l events pre post : List α} {a b : α}

/-- A cut at an event that is not among the new ones is a cut of the old log. -/
theorem cut_of_notMem (ha : a ∉ events) (h : l ++ events = pre ++ a :: post) :
    ∃ post', l = pre ++ a :: post' := by
  rcases append_eq_append_iff.1 h with ⟨l', rfl, hevents⟩ | ⟨l', rfl, hpost⟩
  · exact absurd (hevents ▸ mem_append_right l' mem_cons_self) ha
  · cases l' with
    | nil =>
      rw [nil_append] at hpost
      exact absurd (hpost ▸ mem_cons_self) ha
    | cons c l' =>
      obtain ⟨rfl, -⟩ := cons.inj hpost
      exact ⟨l', rfl⟩

theorem cut_concat (h : l ++ [a] = pre ++ b :: post) :
    (∃ post', l = pre ++ b :: post') ∨ l = pre ∧ a = b := by
  rcases eq_nil_or_concat post with rfl | ⟨post', c, rfl⟩
  · obtain ⟨rfl, hab⟩ := append_inj' h rfl
    exact .inr ⟨rfl, by simpa using hab⟩
  · rw [concat_eq_append, ← cons_append, ← append_assoc] at h
    obtain ⟨rfl, -⟩ := append_inj' h rfl
    exact .inl ⟨post', rfl⟩

end ObjcRuntime.Lib
