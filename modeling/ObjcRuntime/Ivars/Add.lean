import Mathlib.Order.CompletePartialOrder
import Mathlib.Order.Interval.Set.Disjoint
import ObjcRuntime.Lib.Align
import ObjcRuntime.Classes.Duplicate

/-!
# ObjcRuntime.Ivars.Add

`class_addIvar` on a class that `objc_allocateClassPair` has made and that is not
registered yet, on LP64.

An ivar goes behind the instance size that the class has so far, rounded up to the
ivar's alignment. Only the size of the ivar is compared with `UINT32_MAX`: rounding
is done in 32 bits, and the new instance size is cut to 32 bits. What a call adds is
laid out well exactly if neither of them loses a carry (`addIvars_sound_iff`).
-/

namespace ObjcRuntime.Ivars.Add

open Lib Classes.Duplicate List Nat

/-! ### The class under construction -/

/-- `ivar_t`, without the type. -/
structure Ivar where
  name : Option String
  offset : BitVec 32
  alignmentRaw : Fin 32
  size : BitVec 32

structure ClassData where
  isMetaClass : Bool
  /-- `RW_CONSTRUCTING` -/
  constructing : Bool
  instanceStart : BitVec 32
  instanceSize : BitVec 32
  ivars : List Ivar
  /-- `cache._flags & FAST_CACHE_ALLOC_MASK` -/
  fastSize : BitVec 16

/-- The bits that `setFastInstanceSize` leaves. -/
def fastSizeBits (newSize : BitVec 64) : BitVec 16 :=
  let sizeBits := (wordAlign newSize + fastCacheAllocDelta16).setWidth 16 &&& fastCacheAllocMask
  if newSize ≤ sizeBits.setWidth 64 then sizeBits else 0

def ClassData.setInstanceSize (newSize : BitVec 32) (c : ClassData) : ClassData :=
  { c with instanceSize := newSize, fastSize := fastSizeBits (newSize.setWidth 64) }

/-- The class of `objc_initializeClassPair_internal`, for the instance size of the
superclass if there is one. Emptying the cache clears the fast size. -/
def initializeClassPair (superclass : Option (BitVec 32)) : ClassData where
  isMetaClass := false
  constructing := true
  instanceStart := superclass.getD 0
  -- just an isa
  instanceSize := superclass.getD 8
  ivars := []
  fastSize := 0

def ClassData.getIvar (c : ClassData) (name : String) : Option Ivar :=
  c.ivars.find? fun ivar => ivar.name = some name

/-- The arguments of `class_addIvar`. -/
structure Request where
  name : Option String
  size : BitVec 64
  alignment : Fin 32

/-- The name of the ivar: the empty string names no ivar. -/
def Request.ivarName (r : Request) : Option String :=
  if r.name = some "" then none else r.name

def Request.alignMask (r : Request) : BitVec 32 := (1#32 <<< r.alignment.1) - 1#32

/-- The offset of the new ivar. -/
def Request.offset (r : Request) (instanceSize : BitVec 32) : BitVec 32 :=
  (instanceSize + r.alignMask) &&& ~~~r.alignMask

def Request.ivar (r : Request) (instanceSize : BitVec 32) : Ivar where
  name := r.ivarName
  offset := r.offset instanceSize
  alignmentRaw := r.alignment
  size := r.size.setWidth 32

/-- `class_addIvar` -/
def classAddIvar (r : Request) (c : ClassData) : Bool × ClassData :=
  -- No class variables
  if c.isMetaClass then (false, c)
  -- Can only add ivars to in-construction classes.
  else if !c.constructing then (false, c)
  -- Check for existing ivar with this name, unless it's anonymous.
  -- Check for too-big ivar.
  else if (r.ivarName.bind c.getIvar).isSome || 0xffffffff < r.size then (false, c)
  else
    let offset := r.offset c.instanceSize
    let c := { c with ivars := c.ivars ++ [r.ivar c.instanceSize] }
    (true, c.setInstanceSize ((offset.setWidth 64 + r.size).setWidth 32))

/-! ### What a good layout is -/

/-- The bytes of an ivar. -/
def Ivar.range (ivar : Ivar) : Set Nat :=
  Set.Ico ivar.offset.toNat (ivar.offset.toNat + ivar.size.toNat)

/-- The bytes of the superclass. -/
def ClassData.superRange (c : ClassData) : Set Nat := Set.Ico 0 c.instanceStart.toNat

/-- The sizes that are recorded for the class: the one in `ro`, and the one in the
cache if there is one. -/
def ClassData.recordedSizes (c : ClassData) : List Nat :=
  c.instanceSize.toNat ::
    if c.fastSize &&& fastCacheAllocMask16 = 0 then []
    else [(c.fastSize &&& fastCacheAllocMask16).toNat]

/-- The new ivar lies well in the class as it is after the call. -/
structure WellPlaced (r : Request) (c : ClassData) : Prop where
  after : c.instanceSize.toNat ≤ (r.ivar c.instanceSize).offset.toNat
  aligned : 2 ^ r.alignment.1 ∣ (r.ivar c.instanceSize).offset.toNat
  apart : ∀ old ∈ c.ivars, Disjoint (r.ivar c.instanceSize).range old.range
  apartSuper : Disjoint (r.ivar c.instanceSize).range c.superRange
  inside : ∀ size ∈ (classAddIvar r c).2.recordedSizes,
    (r.ivar c.instanceSize).offset.toNat + r.size.toNat ≤ size

/-- Every call in a sequence of calls that returns `YES` has the property. -/
def EachAdded (property : Request → ClassData → Prop) : List Request → ClassData → Prop
  | [], _ => True
  | r :: rest, c =>
    ((classAddIvar r c).1 = true → property r c) ∧ EachAdded property rest (classAddIvar r c).2

/-- Neither the offset nor the new instance size exceeds 32 bits. -/
def Fits (r : Request) (c : ClassData) : Prop :=
  roundUp r.alignment c.instanceSize.toNat + r.size.toNat < 2 ^ 32

/-! ### The sums -/

theorem toNat_alignMask (r : Request) : r.alignMask.toNat = 2 ^ r.alignment.1 - 1 := by
  have hlt : 2 ^ r.alignment.1 < 2 ^ 32 := Nat.pow_lt_pow_right (by decide) r.alignment.2
  have hshift : (1#32 <<< r.alignment.1).toNat = 2 ^ r.alignment.1 := by
    rw [BitVec.toNat_shiftLeft, shiftLeft_eq]
    exact (mod_eq_of_lt (by simpa using hlt)).trans (one_mul _)
  have hle : 1#32 ≤ 1#32 <<< r.alignment.1 := by
    rw [BitVec.le_def, hshift]
    exact Nat.one_le_two_pow
  unfold Request.alignMask
  rw [BitVec.toNat_sub_of_le hle, hshift]
  rfl

theorem toNat_offset (r : Request) (instanceSize : BitVec 32) :
    (r.offset instanceSize).toNat = roundUp r.alignment instanceSize.toNat % 2 ^ 32 := by
  unfold Request.offset
  rw [BitVec.toNat_and, BitVec.toNat_not, BitVec.toNat_add, toNat_alignMask]
  exact mask_eq_roundUp (le_of_lt r.alignment.2) _

theorem toNat_newSize (offset : BitVec 32) (size : BitVec 64) (hsize : size.toNat < 2 ^ 32) :
    ((offset.setWidth 64 + size).setWidth 32).toNat = (offset.toNat + size.toNat) % 2 ^ 32 := by
  rw [BitVec.toNat_setWidth, BitVec.toNat_add, BitVec.toNat_setWidth,
    mod_eq_of_lt (show offset.toNat < 2 ^ 64 by omega),
    mod_eq_of_lt (show offset.toNat + size.toNat < 2 ^ 64 by omega)]

theorem toNat_wordAlign (x : BitVec 32) :
    (wordAlign (x.setWidth 64)).toNat = roundUp 3 x.toNat := by
  have hx := x.isLt
  have hle := roundUp_le_two_pow (show 3 ≤ 32 by decide) (le_of_lt hx)
  have hmask := mask_eq_roundUp (show 3 ≤ 64 by decide) x.toNat
  exact hmask.trans (mod_eq_of_lt (by omega))

theorem toNat_fastSizeBits (x : BitVec 32) : (fastSizeBits (x.setWidth 64)).toNat =
    if x.toNat ≤ 0x1ff0 then roundUp 3 x.toNat + 8 else 0 := by
  have hbits : ((wordAlign (x.setWidth 64) + fastCacheAllocDelta16).setWidth 16 &&&
      fastCacheAllocMask).toNat = (roundUp 3 x.toNat + 8) % 2 ^ 13 / 2 ^ 3 * 2 ^ 3 := by
    rw [BitVec.toNat_and, BitVec.toNat_setWidth, BitVec.toNat_add, toNat_wordAlign]
    refine (and_complement_mask_mod (show 3 ≤ 13 by decide) _).trans ?_
    rw [show fastCacheAllocDelta16.toNat = 8 from rfl]
    omega
  have hx := x.isLt
  have hle := le_roundUp 3 x.toNat
  have hlt := roundUp_lt 3 x.toNat
  obtain ⟨k, hk⟩ := dvd_roundUp 3 x.toNat
  unfold fastSizeBits
  dsimp only
  split
  next hsize =>
    rw [BitVec.le_def, BitVec.toNat_setWidth, BitVec.toNat_setWidth, hbits] at hsize
    rw [hbits, if_pos (by omega)]
    omega
  next hsize =>
    rw [BitVec.le_def, BitVec.toNat_setWidth, BitVec.toNat_setWidth, hbits] at hsize
    rw [if_neg (by omega)]
    rfl

theorem toNat_and_mask16 (bits) :
    (bits &&& fastCacheAllocMask16).toNat = bits.toNat % 2 ^ 13 / 2 ^ 4 * 2 ^ 4 := by
  rw [BitVec.toNat_and]
  exact and_complement_mask_mod (show 4 ≤ 13 by decide) _

theorem le_fastSizeBits (x : BitVec 32)
    (h : fastSizeBits (x.setWidth 64) &&& fastCacheAllocMask16 ≠ 0) :
    x.toNat ≤ (fastSizeBits (x.setWidth 64) &&& fastCacheAllocMask16).toNat := by
  have hle := le_roundUp 3 x.toNat
  have hlt := roundUp_lt 3 x.toNat
  obtain ⟨k, hk⟩ := dvd_roundUp 3 x.toNat
  have hne : (fastSizeBits (x.setWidth 64) &&& fastCacheAllocMask16).toNat ≠ 0 :=
    fun hzero => h (BitVec.eq_of_toNat_eq hzero)
  rw [toNat_and_mask16, toNat_fastSizeBits] at hne ⊢
  split at hne
  next hsmall =>
    rw [if_pos hsmall]
    omega
  · omega

/-! ### A call -/

section Call

variable {r : Request} {c : ClassData}

theorem classAddIvar_no (h : (classAddIvar r c).1 ≠ true) : (classAddIvar r c).2 = c := by
  unfold classAddIvar at h ⊢
  split
  · rfl
  · split
    · rfl
    · split
      · rfl
      next hmeta hconstructing hrefused =>
        rw [if_neg hmeta, if_neg hconstructing, if_neg hrefused] at h
        exact absurd rfl h

theorem classAddIvar_yes (h : (classAddIvar r c).1) :
    r.size.toNat < 2 ^ 32 ∧
      (classAddIvar r c).2 = ClassData.setInstanceSize
        (((r.offset c.instanceSize).setWidth 64 + r.size).setWidth 32)
        { c with ivars := c.ivars ++ [r.ivar c.instanceSize] } := by
  unfold classAddIvar at h ⊢
  split at h
  · cases h
  next hmeta =>
    split at h
    · cases h
    next hconstructing =>
      split at h
      · cases h
      next hrefused =>
        rw [if_neg hmeta, if_neg hconstructing, if_neg hrefused]
        refine ⟨?_, rfl⟩
        simp only [Bool.or_eq_true, decide_eq_true_eq, not_or, BitVec.lt_def] at hrefused
        have hle : ¬ 2 ^ 32 - 1 < r.size.toNat := hrefused.2
        omega

/-- The superclass and the ivars so far are inside the instance size. -/
structure LaidOut (c : ClassData) : Prop where
  start : c.instanceStart.toNat ≤ c.instanceSize.toNat
  ivars : ∀ ivar ∈ c.ivars, ivar.offset.toNat + ivar.size.toNat ≤ c.instanceSize.toNat

theorem laidOut_initializeClassPair (superclass) : LaidOut (initializeClassPair superclass) := by
  refine ⟨?_, forall_mem_nil _⟩
  cases superclass with
  | none => decide
  | some size => exact le_rfl

theorem Fits.toNat_offset (h : Fits r c) :
    (r.ivar c.instanceSize).offset.toNat = roundUp r.alignment c.instanceSize.toNat := by
  unfold Fits at h
  exact (Add.toNat_offset r c.instanceSize).trans (mod_eq_of_lt (by omega))

theorem Fits.toNat_instanceSize (h : Fits r c) (hyes : (classAddIvar r c).1) :
    (classAddIvar r c).2.instanceSize.toNat =
      (r.ivar c.instanceSize).offset.toNat + r.size.toNat := by
  obtain ⟨hsize, hnext⟩ := classAddIvar_yes hyes
  have hoffset := h.toNat_offset
  rw [hnext]
  refine (toNat_newSize _ _ hsize).trans (mod_eq_of_lt ?_)
  unfold Fits at h
  rw [← hoffset] at h
  exact h

theorem toNat_ivar_size (h : r.size.toNat < 2 ^ 32) (instanceSize) :
    (r.ivar instanceSize).size.toNat = r.size.toNat :=
  (BitVec.toNat_setWidth _ _).trans (mod_eq_of_lt h)

theorem LaidOut.classAddIvar (h : LaidOut c) (hfits : (classAddIvar r c).1 → Fits r c) :
    LaidOut (classAddIvar r c).2 := by
  by_cases hyes : (Add.classAddIvar r c).1
  · obtain ⟨hsize, hnext⟩ := classAddIvar_yes hyes
    have hnew := (hfits hyes).toNat_instanceSize hyes
    have hafter := le_roundUp r.alignment c.instanceSize.toNat
    rw [← (hfits hyes).toNat_offset] at hafter
    have hstart := h.start
    constructor
    · rw [hnew, hnext]
      exact le_trans hstart (by omega)
    · rw [hnew, hnext]
      intro ivar hivar
      rcases mem_append.1 hivar with hold | hlast
      · have := h.ivars ivar hold
        omega
      · rw [mem_singleton.1 hlast, toNat_ivar_size hsize]
  · rw [classAddIvar_no hyes]
    exact h

theorem le_of_mem_recordedSizes {size newSize}
    (h : size ∈ (ClassData.setInstanceSize newSize c).recordedSizes) : newSize.toNat ≤ size := by
  rcases mem_cons.1 h with rfl | hfast
  · exact le_rfl
  · split at hfast
    · cases hfast
    next hne =>
      rw [mem_singleton.1 hfast]
      exact le_fastSizeBits newSize hne

theorem Fits.wellPlaced (h : Fits r c) (hyes : (classAddIvar r c).1) (hc : LaidOut c) :
    WellPlaced r c := by
  have hafter := le_roundUp r.alignment c.instanceSize.toNat
  rw [← h.toNat_offset] at hafter
  refine ⟨hafter, ?_, fun old hold => ?_, ?_, fun size hsize => ?_⟩
  · rw [h.toNat_offset]
    exact dvd_roundUp _ _
  · refine (Set.Ico_disjoint_Ico.2 ?_).symm
    exact le_trans (min_le_left _ _)
      (le_trans (hc.ivars old hold) (le_trans hafter (le_max_right _ _)))
  · refine (Set.Ico_disjoint_Ico.2 ?_).symm
    exact le_trans (min_le_left _ _) (le_trans hc.start (le_trans hafter (le_max_right _ _)))
  · rw [← h.toNat_instanceSize hyes]
    obtain ⟨-, hnext⟩ := classAddIvar_yes hyes
    rw [hnext] at hsize ⊢
    exact le_of_mem_recordedSizes hsize

theorem WellPlaced.fits (h : WellPlaced r c) (hyes : (classAddIvar r c).1) : Fits r c := by
  obtain ⟨hsize, hnext⟩ := classAddIvar_yes hyes
  have hle : roundUp r.alignment c.instanceSize.toNat ≤ 2 ^ 32 :=
    roundUp_le_two_pow (le_of_lt r.alignment.2) (le_of_lt c.instanceSize.isLt)
  have hoffset := toNat_offset r c.instanceSize
  have hafter : c.instanceSize.toNat ≤ (r.offset c.instanceSize).toNat := h.after
  have hinside := h.inside (classAddIvar r c).2.instanceSize.toNat mem_cons_self
  have hnewSize : (classAddIvar r c).2.instanceSize.toNat =
      ((r.offset c.instanceSize).toNat + r.size.toNat) % 2 ^ 32 := by
    rw [hnext]
    exact toNat_newSize _ _ hsize
  have hend : (r.offset c.instanceSize).toNat + r.size.toNat < 2 ^ 32 := by
    rw [hnewSize] at hinside
    exact Nat.lt_of_le_of_lt hinside (Nat.mod_lt _ (Nat.two_pow_pos 32))
  unfold Fits
  rcases lt_or_eq_of_le hle with hlt | heq
  · rw [mod_eq_of_lt hlt] at hoffset
    rw [← hoffset]
    exact hend
  · -- the offset has become zero, so there was nothing to round up
    rw [heq, mod_self] at hoffset
    rw [hoffset, le_zero] at hafter
    rw [hafter] at heq
    have hlt := roundUp_lt r.alignment 0
    have hpow : 2 ^ r.alignment.1 < 2 ^ 32 := Nat.pow_lt_pow_right (by decide) r.alignment.2
    omega

end Call

/-! ### Sequences of calls -/

theorem eachAdded_wellPlaced_iff {c} (h : LaidOut c) (requests) :
    EachAdded WellPlaced requests c ↔ EachAdded Fits requests c := by
  induction requests generalizing c with
  | nil => exact Iff.rfl
  | cons r rest ih =>
    constructor
    · rintro ⟨hplaced, hrest⟩
      have hfits := fun hyes => (hplaced hyes).fits hyes
      exact ⟨hfits, (ih (h.classAddIvar hfits)).1 hrest⟩
    · rintro ⟨hfits, hrest⟩
      exact ⟨fun hyes => (hfits hyes).wellPlaced hyes h, (ih (h.classAddIvar hfits)).2 hrest⟩

theorem addIvars_sound_iff (superclass : Option (BitVec 32)) (requests : List Request) :
    EachAdded WellPlaced requests (initializeClassPair superclass) ↔
      EachAdded Fits requests (initializeClassPair superclass) :=
  eachAdded_wellPlaced_iff (laidOut_initializeClassPair superclass) requests

/-- An ivar of 4 GiB less one byte behind the isa: the class ends up with 7 bytes. -/
theorem addIvar_size_wraps :
    ¬ EachAdded WellPlaced [⟨some "a", 0xffffffff, 0⟩] (initializeClassPair (some 8)) := by
  rintro ⟨hplaced, -⟩
  have hinside := (hplaced (by decide)).inside 7 (by decide)
  exact absurd hinside (by decide)

end ObjcRuntime.Ivars.Add
