import Mathlib.Data.Nat.Bitwise
import Mathlib.Tactic.Common

/-!
# ObjcRuntime.Lib.Align

Rounding to powers of two with masks.
-/

namespace ObjcRuntime.Lib

open List Nat

theorem and_complement_mask {w k x} (hk : k ≤ w) (hx : x < 2 ^ w) :
    x &&& (2 ^ w - 1 - (2 ^ k - 1)) = x / 2 ^ k * 2 ^ k := by
  have hmask : 2 ^ w - 1 - (2 ^ k - 1) = 2 ^ w - ((2 ^ k - 1) + 1) := by omega
  have hlt : 2 ^ k - 1 < 2 ^ w :=
    Nat.lt_of_lt_of_le (Nat.sub_lt (Nat.two_pow_pos k) Nat.one_pos)
      (Nat.pow_le_pow_right (by decide) hk)
  apply eq_of_testBit_eq
  intro i
  rw [hmask, testBit_and, testBit_two_pow_sub_succ hlt, testBit_two_pow_sub_one,
    testBit_mul_two_pow, testBit_div_two_pow]
  by_cases hi : k ≤ i
  · rw [Nat.sub_add_cancel hi]
    by_cases hw : i < w
    · simp [hi, hw]
    · rw [testBit_lt_two_pow (Nat.lt_of_lt_of_le hx
        (Nat.pow_le_pow_right (by decide) (not_lt.1 hw)))]
      simp
  · simp [hi, Nat.not_le.1 hi]

/-- Of a number of more than `w` bits the mask keeps what it keeps of the lowest. -/
theorem and_complement_mask_mod {w k} (hk : k ≤ w) (x : Nat) :
    x &&& (2 ^ w - 1 - (2 ^ k - 1)) = x % 2 ^ w / 2 ^ k * 2 ^ k := by
  have hmask : 2 ^ w - 1 &&& (2 ^ w - 1 - (2 ^ k - 1)) = 2 ^ w - 1 - (2 ^ k - 1) := by
    rw [Nat.and_comm, Nat.and_two_pow_sub_one_eq_mod]
    have hpos := Nat.two_pow_pos w
    exact mod_eq_of_lt (by omega)
  rw [← and_complement_mask hk (Nat.mod_lt _ (Nat.two_pow_pos w)),
    ← Nat.and_two_pow_sub_one_eq_mod, Nat.and_assoc, hmask]

/-- The next multiple of `2 ^ k`. -/
def roundUp (k x : Nat) : Nat := (x + (2 ^ k - 1)) / 2 ^ k * 2 ^ k

theorem dvd_roundUp (k x : Nat) : 2 ^ k ∣ roundUp k x := dvd_mul_left _ _

theorem le_roundUp (k x : Nat) : x ≤ roundUp k x := by
  have hdiv := div_add_mod' (x + (2 ^ k - 1)) (2 ^ k)
  unfold roundUp
  omega

/-- **Rounding up**: the result is a multiple of the alignment and not below. -/
theorem round_up_spec {w k x} (hk : k ≤ w) (hx : x + (2 ^ k - 1) < 2 ^ w) :
    x ≤ (x + (2 ^ k - 1)) &&& (2 ^ w - 1 - (2 ^ k - 1)) ∧
      2 ^ k ∣ (x + (2 ^ k - 1)) &&& (2 ^ w - 1 - (2 ^ k - 1)) := by
  rw [and_complement_mask hk hx]
  exact ⟨le_roundUp k x, dvd_roundUp k x⟩

theorem roundUp_lt (k x : Nat) : roundUp k x < x + 2 ^ k := by
  have hpos := Nat.two_pow_pos k
  have hle := Nat.div_mul_le_self (x + (2 ^ k - 1)) (2 ^ k)
  unfold roundUp
  omega

theorem roundUp_le_two_pow {w k x} (hk : k ≤ w) (hx : x ≤ 2 ^ w) : roundUp k x ≤ 2 ^ w := by
  have hpos := Nat.two_pow_pos k
  have hsplit : 2 ^ (w - k) * 2 ^ k = 2 ^ w := by rw [← Nat.pow_add, Nat.sub_add_cancel hk]
  rw [← hsplit] at hx ⊢
  refine Nat.mul_le_mul_right _ (Nat.le_of_lt_succ ((Nat.div_lt_iff_lt_mul hpos).2 ?_))
  rw [Nat.succ_mul]
  omega

/-- A mask rounds up in `w` bits as far as the carry is lost. -/
theorem mask_eq_roundUp {w k} (hk : k ≤ w) (x : Nat) :
    (x + (2 ^ k - 1)) % 2 ^ w &&& (2 ^ w - 1 - (2 ^ k - 1)) = roundUp k x % 2 ^ w := by
  have hsplit : 2 ^ w = 2 ^ k * 2 ^ (w - k) := by rw [← Nat.pow_add, Nat.add_sub_cancel' hk]
  rw [and_complement_mask hk (Nat.mod_lt _ (Nat.two_pow_pos w)), hsplit, mod_mul_right_div_self]
  unfold roundUp
  rw [mul_comm (2 ^ k) (2 ^ (w - k)), mul_mod_mul_right]

/-- The largest of some numbers, and of one more. -/
def maxOf (m : Nat) (l : List Nat) : Nat := l.foldl (fun m a => if a > m then a else m) m

theorem maxOf_spec {w l} (hl : ∀ a ∈ l, ∃ k, k < w ∧ a = 2 ^ k) :
    ∀ m, (∃ k, k < w ∧ m = 2 ^ k) →
      (∃ k, k < w ∧ maxOf m l = 2 ^ k) ∧ m ∣ maxOf m l ∧ ∀ a ∈ l, a ∣ maxOf m l := by
  induction l with
  | nil => exact fun m hm => ⟨hm, dvd_refl _, by simp⟩
  | cons a l ih =>
    intro m hm
    have ha := hl a mem_cons_self
    have ih := ih fun b hb => hl b (mem_cons_of_mem _ hb)
    have ⟨i, _, hmi⟩ := hm
    have ⟨j, _, haj⟩ := ha
    change (∃ k, k < w ∧ maxOf (if a > m then a else m) l = 2 ^ k) ∧
      m ∣ maxOf (if a > m then a else m) l ∧ ∀ b ∈ a :: l, b ∣ maxOf (if a > m then a else m) l
    split
    next hlt =>
      obtain ⟨hpow, hdvd, hall⟩ := ih a ha
      have hij : i ≤ j := (Nat.pow_le_pow_iff_right (a := 2) (by decide)).1 (by omega)
      refine ⟨hpow, dvd_trans ?_ hdvd, forall_mem_cons.2 ⟨hdvd, hall⟩⟩
      rw [hmi, haj]
      exact pow_dvd_pow 2 hij
    next hlt =>
      obtain ⟨hpow, hdvd, hall⟩ := ih m hm
      have hji : j ≤ i := (Nat.pow_le_pow_iff_right (a := 2) (by decide)).1 (by omega)
      refine ⟨hpow, hdvd, forall_mem_cons.2 ⟨dvd_trans ?_ hdvd, hall⟩⟩
      rw [hmi, haj]
      exact pow_dvd_pow 2 hji

end ObjcRuntime.Lib
