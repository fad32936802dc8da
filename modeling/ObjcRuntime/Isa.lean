import Mathlib.Data.Nat.Bitwise
import Mathlib.Tactic.Ring
import Mathlib.Tactic.Linarith

/-!
# ObjcRuntime.Isa

The packed `isa` word of `isa.h`, seen from the reference count.

Every nonpointer layout puts `extra_rc` in the top bits of the word (so that its
carry is the carry of the word), `has_sidetable_rc` in the bit right below it and
`nonpointer` in bit 0. The layouts differ in the position of `extra_rc` and in
what lies between those fields, so a layout is the position and the width of
`extra_rc`; the remaining bits are carried along untouched.

The arithmetic of the runtime is on whole words (`addc`, `subc`); the lemmas
below say what it does to the fields, through the decomposition `pack`.
-/

namespace ObjcRuntime

open Nat

/-- One of the `ISA_BITFIELD` layouts: `extra_rc` occupies the `rcBits` bits from
bit `rcShift` to the top of the word. -/
structure IsaLayout where
  rcShift : Nat
  rcBits : Nat
  two_le_rcShift : 2 ≤ rcShift
  two_le_rcBits : 2 ≤ rcBits

namespace IsaLayout

/-- arm64e devices and arm64 simulators. -/
def arm64e : IsaLayout := ⟨56, 8, by decide, by decide⟩
/-- arm64 devices without pointer authentication. -/
def arm64 : IsaLayout := ⟨45, 19, by decide, by decide⟩
def x86_64 : IsaLayout := ⟨56, 8, by decide, by decide⟩
/-- The indexed isa of armv7k and arm64_32. -/
def armv7k : IsaLayout := ⟨25, 7, by decide, by decide⟩

variable (L : IsaLayout)

/-- `WORD_BITS`. -/
def wordBits : Nat := L.rcShift + L.rcBits

/-- `RC_ONE`. -/
def rcOne : Nat := 2 ^ L.rcShift

/-- `RC_HALF`, the high bit of `extra_rc`. -/
def rcHalf : Nat := 2 ^ (L.rcBits - 1)

/-- The number of values of `extra_rc`. -/
def rcRange : Nat := 2 ^ L.rcBits

/-- The word is a bit string of the layout's size (`uintptr_t`). -/
abbrev Word : Type := BitVec L.wordBits

theorem rcOne_pos : 0 < L.rcOne := Nat.two_pow_pos _

theorem two_le_rcHalf : 2 ≤ L.rcHalf := by
  have h := L.two_le_rcBits
  calc 2 = 2 ^ 1 := rfl
    _ ≤ 2 ^ (L.rcBits - 1) := Nat.pow_le_pow_right (by decide) (by omega)

theorem rcRange_eq : L.rcRange = 2 * L.rcHalf := by
  have h := L.two_le_rcBits
  unfold rcRange rcHalf
  rw [← Nat.pow_succ', Nat.succ_eq_add_one, Nat.sub_add_cancel (by omega)]

theorem two_pow_wordBits : 2 ^ L.wordBits = L.rcRange * L.rcOne := by
  unfold wordBits rcRange rcOne
  rw [pow_add, Nat.mul_comm]

end IsaLayout

variable {L : IsaLayout}

/-! ### Word arithmetic -/

/-- `__builtin_addcl` with no carry in: the sum and the carry out. -/
def addc (lhs rhs : L.Word) : L.Word × Bool :=
  (lhs + rhs, decide (2 ^ L.wordBits ≤ lhs.toNat + rhs.toNat))

/-- `__builtin_subcl` with no borrow in: the difference and the borrow out. -/
def subc (lhs rhs : L.Word) : L.Word × Bool :=
  (lhs - rhs, decide (lhs.toNat < rhs.toNat))

/-! ### Fields -/

namespace Isa

/-- The position of `has_sidetable_rc`, as a weight. -/
def sideBit (L : IsaLayout) : Nat := 2 ^ (L.rcShift - 1)

def nonpointer (isa : L.Word) : Bool := isa.toNat % 2 = 1

def extraRc (isa : L.Word) : Nat := isa.toNat / L.rcOne

def hasSidetableRc (isa : L.Word) : Bool := isa.toNat / sideBit L % 2 = 1

/-- `isa.extra_rc = v`: the bitfield store keeps the low `rcBits` bits of `v`. -/
def setExtraRc (isa : L.Word) (v : Nat) : L.Word :=
  BitVec.ofNat _ (isa.toNat % L.rcOne + v % L.rcRange * L.rcOne)

/-- `isa.has_sidetable_rc = v`. -/
def setHasSidetableRc (isa : L.Word) (v : Bool) : L.Word :=
  BitVec.ofNat _ (isa.toNat % sideBit L + v.toNat * sideBit L + extraRc isa * L.rcOne)

def isDeallocating (isa : L.Word) : Bool :=
  extraRc isa == 0 && !hasSidetableRc isa

/-! ### The decomposition of a word into its fields -/

/-- The word with other fields `low`, `has_sidetable_rc = h` and `extra_rc = x`. -/
def pack (L : IsaLayout) (low : Nat) (h : Bool) (x : Nat) : L.Word :=
  BitVec.ofNat _ (low + h.toNat * sideBit L + x * L.rcOne)

/-- The bits below `has_sidetable_rc`. -/
def low (isa : L.Word) : Nat := isa.toNat % sideBit L

theorem sideBit_pos (L) : 0 < sideBit L := Nat.two_pow_pos _

theorem rcOne_eq (L) : L.rcOne = 2 * sideBit L := by
  have h := L.two_le_rcShift
  unfold IsaLayout.rcOne sideBit
  rw [← Nat.pow_succ', Nat.succ_eq_add_one, Nat.sub_add_cancel (by omega)]

theorem two_dvd_sideBit (L) : 2 ∣ sideBit L := by
  have h := L.two_le_rcShift
  exact dvd_pow_self 2 (by omega)

theorem low_lt (isa : L.Word) : low isa < sideBit L :=
  mod_lt _ (sideBit_pos L)

theorem extraRc_lt (isa : L.Word) : extraRc isa < L.rcRange := by
  unfold extraRc
  rw [div_lt_iff_lt_mul L.rcOne_pos, ← L.two_pow_wordBits]
  exact isa.isLt

/-- The fields below `extra_rc` never carry into it. -/
theorem fields_lt {l} (hl : l < sideBit L) (h : Bool) : l + h.toNat * sideBit L < L.rcOne := by
  rw [rcOne_eq]
  cases h <;> simp <;> omega

variable {l x : Nat}

variable (hl : l < sideBit L)
include hl

variable (h : Bool) (hx : x < L.rcRange)
include h hx

theorem pack_lt : l + h.toNat * sideBit L + x * L.rcOne < 2 ^ L.wordBits := by
  rw [L.two_pow_wordBits]
  have h1 := fields_lt hl h
  have h2 : (x + 1) * L.rcOne ≤ L.rcRange * L.rcOne := mul_le_mul_right _ hx
  rw [add_mul] at h2
  omega

theorem toNat_pack : (pack L l h x).toNat = l + h.toNat * sideBit L + x * L.rcOne := by
  unfold pack
  rw [BitVec.toNat_ofNat, mod_eq_of_lt (pack_lt hl h hx)]

theorem extraRc_pack : extraRc (pack L l h x) = x := by
  unfold extraRc
  rw [toNat_pack hl h hx, add_mul_div_right _ _ L.rcOne_pos,
    div_eq_of_lt (fields_lt hl h), zero_add]

theorem hasSidetableRc_pack : hasSidetableRc (pack L l h x) = h := by
  unfold hasSidetableRc
  have hsum : l + h.toNat * sideBit L + x * L.rcOne = l + (h.toNat + 2 * x) * sideBit L := by
    rw [rcOne_eq]; ring
  rw [toNat_pack hl h hx, hsum, add_mul_div_right _ _ (sideBit_pos L), div_eq_of_lt hl, zero_add]
  cases h <;> simp

theorem low_pack : low (pack L l h x) = l := by
  unfold low
  have hsum : l + h.toNat * sideBit L + x * L.rcOne = l + (h.toNat + 2 * x) * sideBit L := by
    rw [rcOne_eq]; ring
  rw [toNat_pack hl h hx, hsum, add_mul_mod_self_right, mod_eq_of_lt hl]

omit h hx

omit hl

theorem toNat_eq (isa : L.Word) :
    isa.toNat = low isa + (hasSidetableRc isa).toNat * sideBit L + extraRc isa * L.rcOne := by
  have h1 := div_add_mod isa.toNat (sideBit L)
  have h2 := div_add_mod (isa.toNat / sideBit L) 2
  have h3 : isa.toNat / sideBit L / 2 = extraRc isa := by
    unfold extraRc
    rw [Nat.div_div_eq_div_mul, rcOne_eq, Nat.mul_comm]
  have h4 : (hasSidetableRc isa).toNat = isa.toNat / sideBit L % 2 := by
    unfold hasSidetableRc
    rcases mod_two_eq_zero_or_one (isa.toNat / sideBit L) with h | h <;> simp [h]
  rw [h4, rcOne_eq, ← h3]
  conv_lhs => rw [← h1, ← h2]
  unfold low
  ring

theorem nonpointer_eq_low (isa : L.Word) : nonpointer isa = decide (low isa % 2 = 1) := by
  unfold nonpointer low
  rw [mod_mod_of_dvd _ (two_dvd_sideBit L)]

theorem nonpointer_pack (isa : L.Word) (h : Bool) {x} (hx : x < L.rcRange) :
    nonpointer (pack L (low isa) h x) = nonpointer isa := by
  rw [nonpointer_eq_low, low_pack (low_lt isa) h hx, ← nonpointer_eq_low]

theorem isDeallocating_pack (hl : l < sideBit L) (h : Bool) (hx : x < L.rcRange) :
    isDeallocating (pack L l h x) = (x == 0 && !h) := by
  unfold isDeallocating
  rw [extraRc_pack hl h hx, hasSidetableRc_pack hl h hx]

/-! ### What the word operations do to the fields -/

/-- `RC_ONE * n` as a word. -/
def rcOnes (L : IsaLayout) (n : Nat) : L.Word := BitVec.ofNat _ (L.rcOne * n)

theorem toNat_rcOnes {n} (hn : n < L.rcRange) : (rcOnes L n).toNat = n * L.rcOne := by
  unfold rcOnes
  rw [BitVec.toNat_ofNat, Nat.mul_comm, mod_eq_of_lt]
  rw [L.two_pow_wordBits]
  exact mul_lt_mul_of_pos_right hn L.rcOne_pos

variable {isa : L.Word}

/-- Adding `RC_ONE * n` below the top of the range adds `n` to `extra_rc` and
leaves the other fields alone. -/
theorem addc_of_lt {n} (h : extraRc isa + n < L.rcRange) :
    addc isa (rcOnes L n) =
      (pack L (low isa) (hasSidetableRc isa) (extraRc isa + n), false) := by
  have hlt := pack_lt (low_lt isa) (hasSidetableRc isa) h
  have hsum : isa.toNat + n * L.rcOne =
      low isa + (hasSidetableRc isa).toNat * sideBit L + (extraRc isa + n) * L.rcOne := by
    rw [toNat_eq isa, add_mul]; ring
  have hn : n < L.rcRange := by omega
  unfold addc
  refine Prod.ext ?_ ?_
  · apply BitVec.eq_of_toNat_eq
    rw [BitVec.toNat_add, toNat_rcOnes hn, hsum, mod_eq_of_lt hlt, toNat_pack (low_lt isa) _ h]
  · simp only [toNat_rcOnes hn, hsum, decide_eq_false_iff_not, not_le]
    exact hlt

/-- When `extra_rc` overflows by one it wraps to 0 and the other fields stay. -/
theorem addc_wrap (h : extraRc isa + 1 = L.rcRange) :
    (addc isa (rcOnes L 1)).1 = pack L (low isa) (hasSidetableRc isa) 0 := by
  have hr : 1 < L.rcRange := by
    rw [L.rcRange_eq]; have := L.two_le_rcHalf; omega
  have hle : L.rcOne ≤ 2 ^ L.wordBits := by
    rw [L.two_pow_wordBits]; exact Nat.le_mul_of_pos_left _ (by omega)
  have hsum : isa.toNat + 1 * L.rcOne =
      low isa + (hasSidetableRc isa).toNat * sideBit L + 2 ^ L.wordBits := by
    rw [toNat_eq isa, L.two_pow_wordBits, ← h, add_mul]; ring
  apply BitVec.eq_of_toNat_eq
  unfold addc
  rw [BitVec.toNat_add, toNat_rcOnes hr, hsum, add_mod_right, mod_eq_of_lt (by omega),
    toNat_pack (low_lt isa) _ (by omega), zero_mul, add_zero]

/-- The carry out of the word is the overflow of `extra_rc`. -/
theorem addc_carry {n} (hn : n < L.rcRange) :
    (addc isa (rcOnes L n)).2 ↔ L.rcRange ≤ extraRc isa + n := by
  constructor
  · intro h
    by_contra hlt
    rw [addc_of_lt (by omega)] at h
    cases h
  · intro h
    unfold addc
    simp only [toNat_rcOnes hn, decide_eq_true_eq]
    rw [toNat_eq isa, L.two_pow_wordBits]
    calc L.rcRange * L.rcOne ≤ (extraRc isa + n) * L.rcOne := mul_le_mul_right _ h
      _ ≤ _ := by rw [add_mul]; omega

theorem subc_of_pos (h : 0 < extraRc isa) :
    subc isa (rcOnes L 1) =
      (pack L (low isa) (hasSidetableRc isa) (extraRc isa - 1), false) := by
  have hx := extraRc_lt isa
  have hr : 1 < L.rcRange := by
    rw [L.rcRange_eq]; have := L.two_le_rcHalf; omega
  obtain ⟨x, hxe⟩ : ∃ x, extraRc isa = x + 1 := ⟨extraRc isa - 1, by omega⟩
  have hnat : isa.toNat =
      low isa + (hasSidetableRc isa).toNat * sideBit L + x * L.rcOne + L.rcOne := by
    rw [toNat_eq isa, hxe, add_mul]; omega
  unfold subc
  refine Prod.ext ?_ ?_
  · apply BitVec.eq_of_toNat_eq
    rw [BitVec.toNat_sub, toNat_rcOnes hr, hxe, Nat.add_sub_cancel,
      toNat_pack (low_lt isa) _ (by omega)]
    rw [show 2 ^ L.wordBits - 1 * L.rcOne + isa.toNat =
      isa.toNat - L.rcOne + 2 ^ L.wordBits by omega, add_mod_right,
      mod_eq_of_lt (by omega)]
    omega
  · simp only [toNat_rcOnes hr, decide_eq_false_iff_not, not_lt]
    omega

theorem subc_borrow : (subc isa (rcOnes L 1)).2 ↔ extraRc isa = 0 := by
  constructor
  · intro h
    by_contra hpos
    rw [subc_of_pos (by omega)] at h
    cases h
  · intro h
    have hr : 1 < L.rcRange := by
      rw [L.rcRange_eq]; have := L.two_le_rcHalf; omega
    have hf := fields_lt (low_lt isa) (hasSidetableRc isa)
    have hnat := toNat_eq isa
    rw [h, zero_mul, add_zero] at hnat
    unfold subc
    simp only [toNat_rcOnes hr, decide_eq_true_eq]
    omega

theorem setExtraRc_eq (isa) {v} (hv : v < L.rcRange) :
    setExtraRc isa v = pack L (low isa) (hasSidetableRc isa) v := by
  have hmod : isa.toNat % L.rcOne = low isa + (hasSidetableRc isa).toNat * sideBit L := by
    rw [toNat_eq isa, add_mul_mod_self_right, mod_eq_of_lt (fields_lt (low_lt isa) _)]
  unfold setExtraRc pack
  rw [hmod, mod_eq_of_lt hv]

theorem setHasSidetableRc_eq (isa) (v) :
    setHasSidetableRc isa v = pack L (low isa) v (extraRc isa) := rfl

end Isa

end ObjcRuntime
