import ObjcRuntime.Isa

/-!
# ObjcRuntime.RefCount.SideTable

The side-table half of a reference count: the entry of one object in
`SideTable::refcnts` and the functions of `NSObject.mm` that move counts in and
out of it.

An entry is a word: bit 0 says weakly referenced, bit 1 deallocating, the count
starts at bit 2 and the top bit pins it. `none` is an object without an entry;
`refcnts[this]` creates one with value 0. The caller holds the side-table lock
in all of these functions, so each of them is one atomic step of the machine.
-/

namespace ObjcRuntime

open Option Nat BitVec

variable {L : IsaLayout}

/-- `SIDE_TABLE_WEAKLY_REFERENCED`. -/
def sideTableWeaklyReferenced (L : IsaLayout) : L.Word := BitVec.ofNat _ 1
/-- `SIDE_TABLE_DEALLOCATING`. -/
def sideTableDeallocating (L : IsaLayout) : L.Word := BitVec.ofNat _ 2
/-- `SIDE_TABLE_RC_ONE`. -/
def sideTableRcOne (L : IsaLayout) : L.Word := BitVec.ofNat _ 4
/-- `SIDE_TABLE_FLAG_MASK`. -/
def sideTableFlagMask (L : IsaLayout) : L.Word := BitVec.ofNat _ 3
/-- `SIDE_TABLE_RC_PINNED`. -/
def sideTableRcPinned (L : IsaLayout) : L.Word := BitVec.ofNat _ (2 ^ (L.wordBits - 1))

/-- `refcnt & SIDE_TABLE_RC_PINNED`. -/
def isPinned (refcnt : L.Word) : Bool := 2 ^ (L.wordBits - 1) ≤ refcnt.toNat

/-- `n << SIDE_TABLE_RC_SHIFT`. -/
def sideTableRc (L : IsaLayout) (n : Nat) : L.Word := BitVec.ofNat _ (n * 4)

/-- `sidetable_getExtraRC_nolock`: the count held by an entry. -/
def sidetableGetExtraRCNolock (entry : Option L.Word) : Nat :=
  match entry with
  | none => 0
  | some refcnt => refcnt.toNat / 4

/-- `sidetable_addExtraRC_nolock`: the new entry, and whether it is pinned. -/
def sidetableAddExtraRCNolock (entry : Option L.Word) (deltaRc : Nat) : Option L.Word × Bool :=
  let oldRefcnt := entry.getD 0
  if isPinned oldRefcnt then (some oldRefcnt, true)
  else
    let (newRefcnt, carry) := addc oldRefcnt (sideTableRc L deltaRc)
    if carry then
      (some (sideTableRcPinned L ||| (oldRefcnt &&& sideTableFlagMask L)), true)
    else (some newRefcnt, false)

/-- `SidetableBorrow`. -/
structure SidetableBorrow where
  borrowed : Nat
  remaining : Nat
  deriving Repr, DecidableEq

/-- `sidetable_subExtraRC_nolock`: what was taken, and the new entry. -/
def sidetableSubExtraRCNolock (entry : Option L.Word) (deltaRc : Nat) :
    SidetableBorrow × Option L.Word :=
  match entry with
  | none => (⟨0, 0⟩, none)
  | some oldRefcnt =>
    if oldRefcnt = 0 then (⟨0, 0⟩, some oldRefcnt)
    else
      let newRefcnt := oldRefcnt - sideTableRc L deltaRc
      (⟨deltaRc, newRefcnt.toNat / 4⟩, some newRefcnt)

/-- `sidetable_clearExtraRC_nolock`. -/
def sidetableClearExtraRCNolock (_entry : Option L.Word) : Option L.Word := none

/-! ### Raw isa objects keep the whole count here -/

/-- `sidetable_retain`, between its lock and its unlock. -/
def sidetableRetain (entry : Option L.Word) : Option L.Word :=
  let refcnt := entry.getD 0
  if isPinned refcnt then some refcnt else some (refcnt + sideTableRcOne L)

/-- `sidetable_tryRetain`: the new entry and the result. -/
def sidetableTryRetain (entry : Option L.Word) : Option L.Word × Bool :=
  match entry with
  | none => (some (sideTableRcOne L), true)
  | some refcnt =>
    if refcnt &&& sideTableDeallocating L ≠ 0 then (some refcnt, false)
    else if isPinned refcnt then (some refcnt, true)
    else (some (refcnt + sideTableRcOne L), true)

/-- `sidetable_release`, between its lock and its unlock: the new entry and
`do_dealloc`. -/
def sidetableRelease (entry : Option L.Word) : Option L.Word × Bool :=
  match entry with
  | none => (some (sideTableDeallocating L), true)
  | some refcnt =>
    if refcnt.toNat < (sideTableDeallocating L).toNat then
      (some (refcnt ||| sideTableDeallocating L), true)
    else if isPinned refcnt then (some refcnt, false)
    else (some (refcnt - sideTableRcOne L), false)

/-! ### Entries that hold a plain count -/

/-- An entry with the flag bits clear that holds the count `n`. -/
def HoldsCount (entry : Option L.Word) (n : Nat) : Prop :=
  (entry.getD 0).toNat = n * 4

theorem HoldsCount.none : HoldsCount (none : Option L.Word) 0 := by
  simp [HoldsCount]

theorem HoldsCount.getExtraRC {entry : Option L.Word} {n : Nat} (h : HoldsCount entry n) :
    sidetableGetExtraRCNolock entry = n := by
  unfold HoldsCount at h
  cases entry with
  | none =>
    simp only [getD_none, ofNat_eq_ofNat, toNat_zero] at h
    simp only [sidetableGetExtraRCNolock]
    omega
  | some refcnt =>
    simp only [getD_some] at h
    simp only [sidetableGetExtraRCNolock, h]
    omega

theorem three_le_wordBits (L : IsaLayout) : 3 ≤ L.wordBits := by
  have h1 := L.two_le_rcBits
  have h2 := L.two_le_rcShift
  unfold IsaLayout.wordBits
  omega

/-- The largest number of counts below the pinned bit. -/
def maxCount (L : IsaLayout) : Nat := 2 ^ (L.wordBits - 3)

theorem two_pow_wordBits_eq (L : IsaLayout) : 2 ^ L.wordBits = 8 * maxCount L := by
  have h := three_le_wordBits L
  unfold maxCount
  rw [show (8 : Nat) = 2 ^ 3 from rfl, ← pow_add]
  congr 1
  omega

theorem two_pow_pinned_eq (L : IsaLayout) : 2 ^ (L.wordBits - 1) = 4 * maxCount L := by
  have h := three_le_wordBits L
  unfold maxCount
  rw [show (4 : Nat) = 2 ^ 2 from rfl, ← pow_add]
  congr 1
  omega

theorem HoldsCount.add {entry : Option L.Word} {n d : Nat} (h : HoldsCount entry n)
    (hlt : n + d < maxCount L) : HoldsCount (sidetableAddExtraRCNolock entry d).1 (n + d) := by
  have hw := two_pow_wordBits_eq L
  have hp := two_pow_pinned_eq L
  unfold HoldsCount at h
  have hd : (sideTableRc L d).toNat = d * 4 := by
    unfold sideTableRc
    rw [toNat_ofNat, mod_eq_of_lt (by omega)]
  have hpin : isPinned (entry.getD 0) = false := by
    simp only [isPinned, h, decide_eq_false_iff_not]
    omega
  have hcarry : (addc (entry.getD 0) (sideTableRc L d)).2 = false := by
    simp only [addc, h, hd, decide_eq_false_iff_not]
    omega
  unfold sidetableAddExtraRCNolock
  simp only [hpin, hcarry, Bool.false_eq_true, if_false]
  simp only [HoldsCount, getD_some, addc, toNat_add, h, hd]
  rw [mod_eq_of_lt (by omega)]
  omega

theorem HoldsCount.sub {entry : Option L.Word} {n d : Nat} (h : HoldsCount entry n)
    (hd : 0 < d) (hle : d ≤ n) :
    (sidetableSubExtraRCNolock entry d).1 = ⟨d, n - d⟩ ∧
      HoldsCount (sidetableSubExtraRCNolock entry d).2 (n - d) := by
  unfold HoldsCount at h
  cases entry with
  | none =>
    simp only [getD_none, ofNat_eq_ofNat, toNat_zero] at h
    omega
  | some refcnt =>
    simp only [getD_some] at h
    have hne : refcnt ≠ 0 := by
      rintro rfl
      simp only [ofNat_eq_ofNat, toNat_zero] at h
      omega
    have hrc : (sideTableRc L d).toNat = d * 4 := by
      unfold sideTableRc
      rw [toNat_ofNat, mod_eq_of_lt (by omega)]
    have hsub : (refcnt - sideTableRc L d).toNat = (n - d) * 4 := by
      rw [toNat_sub_of_le, h, hrc, Nat.sub_mul]
      rw [le_def, h, hrc]
      omega
    unfold sidetableSubExtraRCNolock
    simp only [hne, if_false, HoldsCount, getD_some, hsub]
    refine ⟨?_, trivial⟩
    rw [Nat.mul_div_cancel _ (by decide)]

end ObjcRuntime
