import Mathlib.Logic.Function.Iterate
import Mathlib.Data.Nat.Bitwise
import Mathlib.Data.Finset.Card
import Mathlib.Order.Interval.Finset.Nat

/-!
# ObjcRuntime.Lib.Probe

Probing a ring of slots.

An open-addressed table is searched by stepping from a start slot with some
`next` function until a slot answers, or until the walk is back at the start.
`scan` is that loop; `check` is what is asked at each slot, with the number of
steps made so far. `Cycles` says that `next` visits `n` different slots before
it returns, which is all the loop needs: `scan_eq_some` gives its result from
the first slot that answers.

Two walks are provided: upwards with wrap-around by a power-of-two mask
(`ascend`), and downwards (`descend`). `FirstAt` names the slot where a walk
first meets a property; it is how the entries of a table that is only ever
filled are found again.
-/

namespace ObjcRuntime.Lib

open Function Nat Finset

universe u

variable {β : Type u}

/-- Walk from `index` until a slot answers; `none` when the walk is back at
`start` (or the fuel is used up, which `n` steps never do). -/
def scan (next : Nat → Nat) (start : Nat) (check : Nat → Nat → Option β) :
    Nat → Nat → Nat → Option β
  | 0, _, _ => none
  | fuel + 1, index, steps =>
    match check steps index with
    | some r => some r
    | none =>
      if next index = start then none
      else scan next start check fuel (next index) (steps + 1)

/-- `next` visits `n` different slots from `start` before it is back. -/
structure Cycles (next : Nat → Nat) (start n : Nat) : Prop where
  inj : ∀ d e, d < n → e < n → next^[d] start = next^[e] start → d = e
  back : next^[n] start = start

variable {next : Nat → Nat} {start n : Nat}

theorem Cycles.iterate_ne (h : Cycles next start n) {d}
    (hd : d + 1 < n) : next (next^[d] start) ≠ start := by
  intro heq
  rw [← iterate_succ_apply' next d start] at heq
  have := h.inj (d + 1) 0 hd (by omega) heq
  omega

theorem scan_eq_some (h : Cycles next start n) {check : Nat → Nat → Option β} {d : Nat} {r : β}
    (hd : d < n) (hfirst : ∀ e, e < d → check e (next^[e] start) = none)
    (hr : check d (next^[d] start) = some r) : scan next start check n start 0 = some r := by
  -- generalise to a walk that has made `k` silent steps
  have hwalk : ∀ m k, k + m = d → ∀ fuel, m < fuel →
      scan next start check fuel (next^[k] start) k = some r := by
    intro m
    induction m with
    | zero =>
      intro k hk fuel hf
      obtain ⟨fuel, rfl⟩ : ∃ f, fuel = f + 1 := ⟨fuel - 1, by omega⟩
      obtain rfl : k = d := by omega
      rw [scan, hr]
    | succ m ih =>
      intro k hk fuel hf
      obtain ⟨fuel, rfl⟩ : ∃ f, fuel = f + 1 := ⟨fuel - 1, by omega⟩
      rw [scan, hfirst k (by omega)]
      rw [if_neg (h.iterate_ne (by omega)), ← iterate_succ_apply' next k start]
      exact ih (k + 1) (by omega) fuel (by omega)
  exact hwalk d 0 (by omega) n hd

/-! ### Walking upwards and downwards -/

/-- `(index + 1) & mask`. -/
def ascend (mask index : Nat) : Nat := (index + 1) &&& mask

/-- `index ? index - 1 : mask`. -/
def descend (mask index : Nat) : Nat := if index = 0 then mask else index - 1

/-- `hash & mask` is a slot of a table of `mask + 1 = 2 ^ k` slots. -/
theorem and_mask_eq {mask k} (hk : mask + 1 = 2 ^ k) (x : Nat) : x &&& mask = x % (mask + 1) := by
  obtain rfl : mask = 2 ^ k - 1 := by omega
  rw [Nat.and_two_pow_sub_one_eq_mod, Nat.sub_add_cancel Nat.one_le_two_pow]

theorem ascend_iterate {mask k start} (hk : mask + 1 = 2 ^ k) (hs : start ≤ mask) (d : Nat) :
    (ascend mask)^[d] start = (start + d) % (mask + 1) := by
  induction d with
  | zero => rw [iterate_zero, id, Nat.add_zero, Nat.mod_eq_of_lt (by omega)]
  | succ d ih =>
    rw [iterate_succ_apply', ih, ascend, and_mask_eq hk, mod_add_mod, add_assoc]

theorem descend_iterate {mask start} (hs : start ≤ mask) {d} (hd : d ≤ mask + 1) :
    (descend mask)^[d] start = (start + (mask + 1 - d)) % (mask + 1) := by
  induction d with
  | zero =>
    rw [Nat.sub_zero, Nat.add_mod_right, Nat.mod_eq_of_lt (by omega), iterate_zero, id]
  | succ d ih =>
    rw [iterate_succ_apply', ih (by omega), descend]
    by_cases hlt : d ≤ start
    · rw [show start + (mask + 1 - d) = start - d + (mask + 1) by omega, Nat.add_mod_right,
        Nat.mod_eq_of_lt (by omega)]
      split
      · rw [Nat.mod_eq_of_lt (by omega)]; omega
      · rw [show start + (mask + 1 - (d + 1)) = start - d - 1 + (mask + 1) by omega,
          Nat.add_mod_right, Nat.mod_eq_of_lt (by omega)]
    · rw [Nat.mod_eq_of_lt (by omega), if_neg (by omega), Nat.mod_eq_of_lt (by omega)]
      omega

theorem mod_inj_of_lt {n s d e : Nat} (hs : s < n) (hd : d < n) (he : e < n)
    (h : (s + d) % n = (s + e) % n) : d = e := by
  have hsplit : ∀ x, x < n → (s + x) % n = if s + x < n then s + x else s + x - n := by
    intro x hx
    split
    · exact Nat.mod_eq_of_lt (by omega)
    · rw [mod_eq_sub_mod (by omega), Nat.mod_eq_of_lt (by omega)]
  rw [hsplit d hd, hsplit e he] at h
  split_ifs at h <;> omega

theorem ascend_cycles {mask k start} (hk : mask + 1 = 2 ^ k) (hs : start ≤ mask) :
    Cycles (ascend mask) start (mask + 1) := by
  refine ⟨fun d e hd he h => ?_, ?_⟩
  · rw [ascend_iterate hk hs, ascend_iterate hk hs] at h
    exact mod_inj_of_lt (by omega) hd he h
  · rw [ascend_iterate hk hs, Nat.add_mod_right, Nat.mod_eq_of_lt (by omega)]

theorem descend_cycles {mask start} (hs : start ≤ mask) :
    Cycles (descend mask) start (mask + 1) := by
  refine ⟨fun d e hd he h => ?_, ?_⟩
  · rw [descend_iterate hs (by omega), descend_iterate hs (by omega)] at h
    by_cases hd0 : d = 0
    · subst hd0
      by_contra hne
      rw [Nat.sub_zero, Nat.add_mod_right] at h
      have := mod_inj_of_lt (d := 0) (e := mask + 1 - e) (show start < mask + 1 by omega)
        (by omega) (by omega) (by rw [Nat.add_zero]; exact h)
      omega
    · by_cases he0 : e = 0
      · subst he0
        rw [Nat.sub_zero, Nat.add_mod_right] at h
        have := mod_inj_of_lt (d := mask + 1 - d) (e := 0) (show start < mask + 1 by omega)
          (by omega) (by omega) (by rw [Nat.add_zero]; exact h)
        omega
      · have := mod_inj_of_lt (show start < mask + 1 by omega) (by omega) (by omega) h
        omega
  · rw [descend_iterate hs (by omega), Nat.sub_self, Nat.add_zero, Nat.mod_eq_of_lt (by omega)]

theorem Cycles.surj (h : Cycles next start n)
    (hmaps : ∀ d, d < n → next^[d] start < n) {i} (hi : i < n) :
    ∃ d, d < n ∧ next^[d] start = i := by
  have hinj : Set.InjOn (fun d => next^[d] start) (range n : Set Nat) := by
    intro d hd e he heq
    exact h.inj d e (by simpa using hd) (by simpa using he) heq
  have himg : (range n).image (fun d => next^[d] start) = range n := by
    apply eq_of_subset_of_card_le
    · intro x hx
      obtain ⟨d, hd, rfl⟩ := mem_image.1 hx
      exact mem_range.2 (hmaps d (mem_range.1 hd))
    · rw [Finset.card_image_of_injOn hinj]
  have hmem : i ∈ (range n).image (fun d => next^[d] start) := by
    rw [himg]; exact mem_range.2 hi
  obtain ⟨d, hd, hdi⟩ := mem_image.1 hmem
  exact ⟨d, mem_range.1 hd, hdi⟩

/-- As many silent steps as the walk makes, so many slots satisfy `P`. -/
theorem Cycles.le_card (h : Cycles next start n)
    {P : Finset Nat} {d} (hd : d ≤ n) (hP : ∀ e, e < d → next^[e] start ∈ P) : d ≤ P.card := by
  have hinj : Set.InjOn (fun e => next^[e] start) (range d : Set Nat) := by
    intro a ha b hb heq
    have ha' : a < d := by simpa using ha
    have hb' : b < d := by simpa using hb
    exact h.inj a b (by omega) (by omega) heq
  calc d = (range d).card := (card_range d).symm
    _ = ((range d).image (fun e => next^[e] start)).card :=
        (Finset.card_image_of_injOn hinj).symm
    _ ≤ P.card := by
        apply card_le_card
        intro x hx
        obtain ⟨e, he, rfl⟩ := mem_image.1 hx
        exact hP e (mem_range.1 he)

/-! ### The first slot with a property -/

/-- Walking from `start`, slot `i` is the first of `n` slots that satisfies `P`. -/
def FirstAt (next : Nat → Nat) (start n : Nat) (P : Nat → Prop) (i : Nat) : Prop :=
  ∃ d, d < n ∧ next^[d] start = i ∧ P i ∧ ∀ e, e < d → ¬ P (next^[e] start)

section FirstAt

variable {next : Nat → Nat} {start n i j : Nat} {P Q : Nat → Prop}

theorem FirstAt.unique (hi : FirstAt next start n P i) (hj : FirstAt next start n P j) : i = j := by
  obtain ⟨d, -, rfl, hPd, hd⟩ := hi
  obtain ⟨e, -, rfl, hPe, he⟩ := hj
  rcases lt_trichotomy d e with hlt | rfl | hlt
  · exact absurd hPd (he d hlt)
  · rfl
  · exact absurd hPe (hd e hlt)

theorem FirstAt.congr (h : FirstAt next start n P i) (hi : Q i)
    (hQ : ∀ j, j ≠ i → ¬ P j → ¬ Q j) : FirstAt next start n Q i := by
  obtain ⟨d, hd, rfl, hP, hfirst⟩ := h
  refine ⟨d, hd, rfl, hi, fun e he => hQ _ ?_ (hfirst e he)⟩
  intro heq
  exact hfirst e he (by rw [heq]; exact hP)

theorem Cycles.exists_firstAt (h : Cycles next start n)
    (hmaps : ∀ d, d < n → next^[d] start < n) (hi : i < n) (hP : P i) :
    ∃ j, FirstAt next start n P j := by
  classical
  obtain ⟨d, hd, hdi⟩ := h.surj hmaps hi
  have hex : ∃ d, P (next^[d] start) := ⟨d, by rw [hdi]; exact hP⟩
  have hle : Nat.find hex ≤ d := Nat.find_min' hex (by rw [hdi]; exact hP)
  exact ⟨_, Nat.find hex, Nat.lt_of_le_of_lt hle hd, rfl, Nat.find_spec hex,
    fun e he => Nat.find_min hex he⟩

theorem FirstAt.scan (h : FirstAt next start n P i) (hc : Cycles next start n)
    {check : Nat → Option β} (hcheck : ∀ j, ¬ P j → check j = none) {r : β}
    (hr : check i = some r) : scan next start (fun _ => check) n start 0 = some r := by
  obtain ⟨d, hd, rfl, -, hfirst⟩ := h
  exact scan_eq_some hc hd (fun e he => hcheck _ (hfirst e he)) hr

/-- A walk downwards meets the slots below its start, then those above from the
last one down. -/
theorem FirstAt.descend_cases {mask} (hs : start ≤ mask)
    (h : FirstAt (descend mask) start (mask + 1) P i) :
    P i ∧ (i ≤ start ∧ (∀ j, i < j → j ≤ start → ¬ P j) ∨
      start < i ∧ i ≤ mask ∧ (∀ j, j ≤ start → ¬ P j) ∧ ∀ j, i < j → j ≤ mask → ¬ P j) := by
  obtain ⟨d, hd, rfl, hP, hfirst⟩ := h
  -- the slot that is met after `e` steps
  have hlow : ∀ e, e ≤ start → (descend mask)^[e] start = start - e := by
    intro e he
    rw [descend_iterate hs (by omega),
      show start + (mask + 1 - e) = start - e + (mask + 1) by omega,
      Nat.add_mod_right, Nat.mod_eq_of_lt (by omega)]
  have hhigh : ∀ e, start < e → e ≤ mask → (descend mask)^[e] start = start + (mask + 1 - e) := by
    intro e he hle
    rw [descend_iterate hs (by omega), Nat.mod_eq_of_lt (by omega)]
  have hno : ∀ j e, e < d → (descend mask)^[e] start = j → ¬ P j := by
    intro j e he heq
    rw [← heq]
    exact hfirst e he
  refine ⟨hP, ?_⟩
  by_cases hds : d ≤ start
  · rw [hlow d hds]
    refine .inl ⟨sub_le _ _, fun j hj hjs => hno j (start - j) (by omega) ?_⟩
    rw [hlow _ (by omega)]
    omega
  · rw [hhigh d (by omega) (by omega)]
    refine .inr ⟨by omega, by omega, fun j hj => ?_, fun j hj hjm => ?_⟩
    · refine hno j (start - j) (by omega) ?_
      rw [hlow _ (by omega)]
      omega
    · refine hno j (start + (mask + 1) - j) (by omega) ?_
      rw [hhigh _ (by omega) (by omega)]
      omega

end FirstAt

end ObjcRuntime.Lib
