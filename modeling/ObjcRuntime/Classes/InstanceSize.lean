import ObjcRuntime.Ivars.Add

/-!
# ObjcRuntime.Classes.InstanceSize

The size of an instance, as `setInstanceSize` records it and `instanceSize` reads it, on
LP64.

A size of at most 0x1ff0 is packed into the flags word, 8 above the size in words. With a
constant 0 for the extra bytes it is unpacked by a mask, which rounds to 16 and takes the
size 0 for none. Otherwise the 8 are subtracted again, and the size 0 stays 0.
-/

namespace ObjcRuntime.Classes.Duplicate

open Lib Ivars.Add

variable {Imp : Type}

def ClassObject.setInstanceSize (c : ClassObject Imp) (newSize : BitVec 32) : ClassObject Imp :=
  { c with ro := { c.ro with instanceSize := newSize } }.setFastInstanceSize (newSize.setWidth 64)

/-- The size is right for the bytes of the ivars and the extra bytes. -/
def Suffices (aligned extra size : Nat) : Prop :=
  16 ≤ size ∧ aligned + extra ≤ size ∧ size < max 16 (aligned + extra) + 16
deriving Decidable

/-- No sum of sizes exceeds 64 bits; packed sizes are rounded to 16. -/
def NoOverflow (newSize : BitVec 32) (extra : BitVec 64) : Prop :=
  roundUp 3 newSize.toNat + extra.toNat + (if newSize.toNat ≤ 0x1ff0 then 15 else 0) < 2 ^ 64
deriving Decidable

/-! ### The flags word -/

theorem setFlags_and {flags bits mask part : BitVec 16} (hpart : mask &&& part = part) :
    (flags &&& ~~~mask ||| bits) &&& part = bits &&& part := by
  rw [BitVec.and_or_distrib_right, BitVec.and_assoc, ← hpart, ← BitVec.and_assoc (~~~mask)]
  simp

theorem cacheFlags_setInstanceSize (c : ClassObject Imp) (newSize : BitVec 32)
    {part} (hpart : fastCacheAllocMask &&& part = part) :
    (c.setInstanceSize newSize).cacheFlags &&& part =
      fastSizeBits (newSize.setWidth 64) &&& part := by
  unfold ClassObject.setInstanceSize ClassObject.setFastInstanceSize fastSizeBits
  dsimp only
  split
  · exact setFlags_and hpart
  · have hnone := @setFlags_and c.cacheFlags 0 _ _ hpart
    simpa using hnone

variable (c : ClassObject Imp) (newSize : BitVec 32)

theorem toNat_alloc : ((c.setInstanceSize newSize).cacheFlags &&& fastCacheAllocMask).toNat =
    if newSize.toNat ≤ 0x1ff0 then roundUp 3 newSize.toNat + 8 else 0 := by
  have hle := roundUp_lt 3 newSize.toNat
  obtain ⟨k, hk⟩ := dvd_roundUp 3 newSize.toNat
  rw [cacheFlags_setInstanceSize c newSize (by decide), BitVec.toNat_and]
  refine (and_complement_mask_mod (show 3 ≤ 13 by decide) _).trans ?_
  rw [toNat_fastSizeBits]
  split
  · omega
  · rfl

theorem toNat_alloc16 : ((c.setInstanceSize newSize).cacheFlags &&& fastCacheAllocMask16).toNat =
    if newSize.toNat ≤ 0x1ff0 then (roundUp 3 newSize.toNat + 8) / 2 ^ 4 * 2 ^ 4 else 0 := by
  have hle := roundUp_lt 3 newSize.toNat
  rw [cacheFlags_setInstanceSize c newSize (by decide), toNat_and_mask16, toNat_fastSizeBits]
  split
  · omega
  · rfl

theorem getBit_iff {flags} : c.getBit flags ↔ (c.cacheFlags &&& flags).toNat ≠ 0 := by
  unfold ClassObject.getBit
  rw [decide_eq_true_iff, ne_eq, ne_eq, BitVec.toNat_eq]
  rfl

/-! ### The two paths -/

theorem toNat_wordAlign32 : (wordAlign32 newSize).toNat = roundUp 3 newSize.toNat % 2 ^ 32 :=
  mask_eq_roundUp (show 3 ≤ 32 by decide) _

theorem hasFastInstanceSize_iff (zero) :
    (c.setInstanceSize newSize).hasFastInstanceSize zero = true ↔
      newSize.toNat ≤ 0x1ff0 ∧ ¬(newSize.toNat = 0 ∧ zero = true) := by
  have hle := le_roundUp 3 newSize.toNat
  have hlt := roundUp_lt 3 newSize.toNat
  obtain ⟨k, hk⟩ := dvd_roundUp 3 newSize.toNat
  unfold ClassObject.hasFastInstanceSize
  cases zero with
  | true =>
    rw [if_pos rfl, getBit_iff, toNat_alloc16]
    grind
  | false =>
    rw [if_neg Bool.false_ne_true, getBit_iff, toNat_alloc]
    grind

/-- A packed size is rounded up, in either way. -/
theorem toNat_fastInstanceSize {zero extra} (hsmall : newSize.toNat ≤ 0x1ff0)
    (hzero : zero = true → extra.toNat = 0)
    (h : roundUp 3 newSize.toNat + extra.toNat + 15 < 2 ^ 64) :
    ((c.setInstanceSize newSize).fastInstanceSize zero extra).toNat =
      roundUp 4 (roundUp 3 newSize.toNat + extra.toNat) := by
  have hle := le_roundUp 4 (roundUp 3 newSize.toNat + extra.toNat)
  have hlt := roundUp_lt 4 (roundUp 3 newSize.toNat + extra.toNat)
  obtain ⟨k, hk⟩ := dvd_roundUp 3 newSize.toNat
  obtain ⟨m, hm⟩ := dvd_roundUp 4 (roundUp 3 newSize.toNat + extra.toNat)
  unfold ClassObject.fastInstanceSize
  cases zero with
  | true =>
    rw [if_pos rfl, BitVec.toNat_setWidth, toNat_alloc16, if_pos hsmall]
    have hextra := hzero rfl
    omega
  | false =>
    have hsum : (((c.setInstanceSize newSize).cacheFlags &&& fastCacheAllocMask).setWidth 64 +
        extra - fastCacheAllocDelta16).toNat = roundUp 3 newSize.toNat + extra.toNat := by
      rw [BitVec.toNat_sub, BitVec.toNat_add, BitVec.toNat_setWidth, toNat_alloc, if_pos hsmall,
        show fastCacheAllocDelta16.toNat = 8 from rfl]
      omega
    have hround := mask_eq_roundUp (show 4 ≤ 64 by decide) (roundUp 3 newSize.toNat + extra.toNat)
    rw [← hsum] at hround hlt ⊢
    exact hround.trans (Nat.mod_eq_of_lt (by omega))

/-- **Sizes suffice**, except that nothing is allocated for the size 0 if it is not known
that there are no extra bytes. -/
theorem instanceSize_suffices_iff (constant : Bool) (extra : BitVec 64)
    (h : NoOverflow newSize extra) :
    (Suffices (wordAlign32 newSize).toNat extra.toNat
        ((c.setInstanceSize newSize).instanceSize constant extra).toNat ↔
      ¬(newSize = 0 ∧ constant = false ∧ extra = 0)) ∧
    (Suffices (roundUp 3 newSize.toNat) extra.toNat
        ((c.setInstanceSize newSize).instanceSize constant extra).toNat ↔
      ¬(newSize = 0 ∧ constant = false ∧ extra = 0) ∧ newSize.toNat ≤ 2 ^ 32 - 8) := by
  have hlt := roundUp_lt 3 newSize.toNat
  have hle := le_roundUp 3 newSize.toNat
  obtain ⟨k, hk⟩ := dvd_roundUp 3 newSize.toNat
  have hx := newSize.isLt
  have hsize : newSize = 0 ↔ newSize.toNat = 0 := BitVec.toNat_eq
  have hextra : extra = 0 ↔ extra.toNat = 0 := BitVec.toNat_eq
  obtain ⟨zero, hzero, hdef⟩ : ∃ zero, (zero = true ↔ constant = true ∧ extra.toNat = 0) ∧
      (constant && decide (extra = 0)) = zero := ⟨_, by simp [BitVec.toNat_eq], rfl⟩
  have hfast := hasFastInstanceSize_iff c newSize zero
  unfold NoOverflow at h
  unfold ClassObject.instanceSize
  rw [hdef, toNat_wordAlign32, hsize, hextra]
  dsimp only
  split
  next hpacked =>
    obtain ⟨hsmall, hnot⟩ := hfast.1 hpacked
    rw [if_pos hsmall] at h
    have hround := le_roundUp 4 (roundUp 3 newSize.toNat + extra.toNat)
    have hround' := roundUp_lt 4 (roundUp 3 newSize.toNat + extra.toNat)
    obtain ⟨m, hm⟩ := dvd_roundUp 4 (roundUp 3 newSize.toNat + extra.toNat)
    rw [toNat_fastInstanceSize c newSize hsmall (fun hz => (hzero.1 hz).2) h]
    unfold Suffices
    grind
  next hplain =>
    have hnot := mt hfast.2 hplain
    have hsum : ((c.setInstanceSize newSize).alignedInstanceSize.setWidth 64 + extra).toNat =
        roundUp 3 newSize.toNat % 2 ^ 32 + extra.toNat := by
      change ((wordAlign32 newSize).setWidth 64 + extra).toNat = _
      rw [BitVec.toNat_add, BitVec.toNat_setWidth, toNat_wordAlign32]
      omega
    have hslow : (if (c.setInstanceSize newSize).alignedInstanceSize.setWidth 64 + extra < 16
        then 16 else (c.setInstanceSize newSize).alignedInstanceSize.setWidth 64 + extra).toNat =
        max 16 (roundUp 3 newSize.toNat % 2 ^ 32 + extra.toNat) := by
      rw [← hsum]
      split
      next hsmall => exact (max_eq_left (Nat.le_of_lt (BitVec.lt_def.1 hsmall))).symm
      next hlarge => exact (max_eq_right (Nat.not_lt.1 (mt BitVec.lt_def.2 hlarge))).symm
    rw [hslow]
    unfold Suffices
    grind

/-- A class as it is made, before it has a size. -/
def blankClass : ClassObject Nat := ⟨0, none, 0, false, 0, ⟨"", 0, none, none, none⟩, none⟩

/-- 24 bytes and 4 more. -/
theorem instanceSize_suffices_extra : NoOverflow 24 4 ∧
    Suffices 24 4 ((blankClass.setInstanceSize 24).instanceSize false 4).toNat :=
  ⟨by decide, ((instanceSize_suffices_iff blankClass 24 false 4 (by decide)).2.2 (by decide))⟩

/-- For the size 0 nothing is allocated. -/
theorem instanceSize_zero : ((blankClass.setInstanceSize 0).instanceSize false 0).toNat = 0 ∧
    ¬Suffices (wordAlign32 0).toNat 0
      ((blankClass.setInstanceSize 0).instanceSize false 0).toNat := by
  decide

end ObjcRuntime.Classes.Duplicate
