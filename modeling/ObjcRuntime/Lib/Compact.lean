import Mathlib.Data.List.Basic

/-!
# ObjcRuntime.Lib.Compact

Taking the empty slots out of an array in place.

The loop looks at every slot once and moves the full ones towards the front by the
number of empty slots it has met. The slots that count afterwards are the full ones
in their old order (`compact_eq`).
-/

namespace ObjcRuntime.Lib

open List

universe u

variable {α : Type u}

/-- The loop from slot `i` on, for so many slots; `shift` empty ones are behind it. -/
def compactLoop : Nat → Nat → Nat → List (Option α) → List (Option α) × Nat
  | 0, _, shift, slots => (slots, shift)
  | n + 1, i, shift, slots =>
    match slots[i]? with
    | some (some a) => compactLoop n (i + 1) shift (slots.set (i - shift) (some a))
    | _ => compactLoop n (i + 1) (shift + 1) slots

/-- The array as far as it is in use after the loop. -/
def compact (slots : List (Option α)) : List (Option α) :=
  let r := compactLoop slots.length 0 0 slots
  r.1.take (slots.length - r.2)

/-- The slots are what has been kept, a gap as long as the shift, and what has not
been looked at. -/
theorem compactLoop_eq (rest : List (Option α)) : ∀ front gap,
    ∃ gap', compactLoop rest.length (front.length + gap.length) gap.length (front ++ gap ++ rest) =
        (front ++ rest.filter (·.isSome) ++ gap', gap'.length) ∧
      (rest.filter (·.isSome)).length + gap'.length = rest.length + gap.length := by
  induction rest with
  | nil =>
    intro front gap
    exact ⟨gap, by simp [compactLoop], rfl⟩
  | cons slot rest ih =>
    intro front gap
    have hget : (front ++ gap ++ slot :: rest)[front.length + gap.length]? = some slot := by simp
    cases slot with
    | none =>
      obtain ⟨gap', h, hlen⟩ := ih front (gap ++ [none])
      refine ⟨gap', ?_, ?_⟩
      · rw [length_cons, compactLoop, hget]
        simpa [Nat.add_assoc] using h
      · rw [length_append, length_singleton] at hlen
        rw [filter_cons_of_neg (by simp), length_cons, hlen]
        omega
    | some a =>
      -- the first slot of the gap is filled and the slot that was moved joins it
      have hset : (front ++ gap ++ some a :: rest).set front.length (some a) =
          (front ++ [some a]) ++ (gap ++ [some a]).tail ++ rest := by
        cases gap <;> simp
      have hlen : ((gap ++ [some a]).tail).length = gap.length := by simp
      obtain ⟨gap', h, hlen'⟩ := ih (front ++ [some a]) (gap ++ [some a]).tail
      refine ⟨gap', ?_, ?_⟩
      · rw [length_cons, compactLoop, hget]
        dsimp only
        rw [Nat.add_sub_cancel, hset]
        rw [hlen, length_append, length_singleton, Nat.add_right_comm] at h
        rw [h]
        simp
      · rw [filter_cons_of_pos (by simp), length_cons, length_cons]
        omega

theorem compact_eq (slots : List (Option α)) : compact slots = slots.filter (·.isSome) := by
  obtain ⟨gap, h, hlen⟩ := compactLoop_eq slots [] []
  simp only [length_nil, Nat.add_zero, nil_append] at h hlen
  unfold compact
  rw [h]
  dsimp only
  rw [← hlen, Nat.add_sub_cancel, take_left]

end ObjcRuntime.Lib
