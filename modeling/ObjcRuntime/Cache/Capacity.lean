import Mathlib.Tactic.IntervalCases
import ObjcRuntime.Lib.Probe

/-!
# ObjcRuntime.Cache.Capacity

The sizes of the bucket arrays of method caches, for both widths of `mask_t`.

`cache_t::insert` computes with an `unsigned` capacity. The capacity passes through
parameters of type `mask_t` on its way to the allocation, and the mask that is
installed is computed from it by subtraction. With 16 bits the largest capacity,
2^16, arrives there as 0: no bucket is allocated, and the mask becomes 2^16 - 1.

All architectures are here. Of a bucket only the selector is kept; the caches are
dynamic, and their classes initialized. An access beyond an array is not an error of
the model. What an insertion touches is part of its result instead.
-/

namespace ObjcRuntime.Cache.Capacity

open Function Lib List Option

/-! ### Configurations -/

inductive Arch
  | i386
  | arm
  /-- `__arm64__` without `__LP64__` -/
  | arm64_32
  | x86_64
  /-- With or without `CONFIG_USE_PREOPT_CACHES`. -/
  | arm64 (preoptCaches : Bool)
  deriving DecidableEq

structure Target where
  arch : Arch
  debug : Bool
  deriving DecidableEq

/-- `MAX_CACHE_SIZE` -/
def maxCacheSize : Nat := 1 <<< 16

/-- `FULL_UTILIZATION_CACHE_SIZE` -/
def fullUtilizationCacheSize : Nat := 1 <<< 3

namespace Target

variable (t : Target)

/-- `__LP64__` -/
def lp64 : Bool :=
  match t.arch with
  | .x86_64 | .arm64 _ => true
  | _ => false

/-- The width of `mask_t`. -/
def maskBits : Nat := if t.lp64 then 32 else 16

/-- A conversion to `mask_t`. -/
def toMask (x : Nat) : Nat := x % 2 ^ t.maskBits

/-- `sizeof(bucket_t)` -/
def bucketSize : Nat := if t.lp64 then 16 else 8

/-- `CACHE_END_MARKER` -/
def cacheEndMarker : Nat :=
  match t.arch with
  | .i386 | .arm | .x86_64 => 1
  | .arm64_32 | .arm64 _ => 0

/-- `CACHE_ALLOW_FULL_UTILIZATION` -/
def allowFullUtilization : Bool :=
  match t.arch with
  | .arm64 _ => true
  | _ => false

/-- `cache_fill_ratio` of a `mask_t`. -/
def cacheFillRatio (capacity : Nat) : Nat :=
  match t.arch with
  | .arm64 _ => t.toMask capacity * 7 / 8
  | _ => t.toMask capacity * 3 / 4

/-- `INIT_CACHE_SIZE` -/
def initCacheSize : Nat :=
  match t.arch with
  | .arm64 _ => 1 <<< 1
  | _ => 1 <<< 2

/-- `EMPTY_BYTES` -/
def emptyBytes : Nat := if t.debug then (8 + 1) * 16 else (1024 + 1) * 16

def bytesForCapacity (capacity : Nat) : Nat := t.bucketSize * capacity

def cacheNext (mask i : Nat) : Nat :=
  if t.cacheEndMarker = 1 then ascend mask i else descend mask i

def cacheHash (sel mask : Nat) : Nat :=
  match t.arch with
  | .arm64 true => (sel ^^^ (sel >>> 7)) &&& mask
  | _ => sel &&& mask

/-- The mask of `initializeToEmpty()`. Where the low bits of the pointer say by how
much `0xffff` is shifted, those of `_objc_empty_cache` are set. -/
def initialMask : Nat :=
  match t.arch with
  | .arm64_32 => 1
  | _ => 0

/-- What `mask()` gives after `setBucketsAndMask`: the mask has a word of its own, or
the upper 16 bits of a word, or is stored as the shift of `0xffff`, for masks that are
not zero. -/
def storedMask (newMask : Nat) : Nat :=
  match t.arch with
  | .arm64_32 => 0xffff >>> (15 - Nat.log2 newMask)
  | .arm64 _ => newMask % 2 ^ 16
  | _ => newMask

end Target

/-! ### The memory -/

/-- The number of a bucket array. -/
abbrev ArrayId := Nat

/-- `_objc_empty_cache` -/
def emptyBuckets : ArrayId := 0

/-- `cache_t` -/
structure CacheT where
  buckets : ArrayId
  mask : Nat
  occupied : Nat
  deriving DecidableEq

def CacheT.capacity (k : CacheT) : Nat := if k.mask ≠ 0 then k.mask + 1 else 0

/-- The memory that the caches of all classes share: the selectors in the buckets that
are allocated for each array. -/
structure World (κ : Type) where
  arrays : ArrayId → List Nat
  /-- The arrays below are allocated. -/
  fresh : ArrayId
  emptyBucketsList : List ArrayId
  cache : κ → CacheT

variable {κ : Type}

/-- No class has cached anything. -/
def World.init (t : Target) : World κ where
  arrays _ := List.replicate (t.emptyBytes / t.bucketSize) 0
  fresh := emptyBuckets + 1
  emptyBucketsList := []
  cache _ := ⟨emptyBuckets, t.initialMask, 0⟩

/-- `b[i].sel()`; beyond the array it is taken to be 0. -/
def selAt (buckets : List Nat) (i : Nat) : Nat := buckets[i]?.getD 0

section Operations

variable [DecidableEq κ] (t : Target)

def World.setCache (c : κ) (k : CacheT) (w : World κ) : World κ :=
  { w with cache := update w.cache c k }

/-- `calloc`, with what is stored in the new array. -/
def World.alloc (buckets : List Nat) (w : World κ) : World κ :=
  { w with arrays := update w.arrays w.fresh buckets, fresh := w.fresh + 1 }

/-- `setBucketsAndMask`, which also clears `_occupied`. -/
def setBucketsAndMask (c : κ) (newBuckets : ArrayId) (newMask : Nat) (w : World κ) : World κ :=
  w.setCache c ⟨newBuckets, t.storedMask newMask, 0⟩

/-- `allocateBuckets`: the end marker's sel is 1. -/
def allocateBuckets (newCapacity : Nat) : List Nat :=
  if t.cacheEndMarker = 1 then (List.replicate newCapacity 0).set (newCapacity - 1) 1
  else List.replicate newCapacity 0

/-- The shared array for a capacity; `none` is `nil`. -/
def emptyBucketsForCapacity (capacity : Nat) (allocate : Bool) (w : World κ) :
    Option ArrayId × World κ :=
  let capacity := t.toMask capacity
  if t.bytesForCapacity capacity ≤ t.emptyBytes then (some emptyBuckets, w)
  else
    let index := Nat.log2 capacity
    if w.emptyBucketsList.length ≤ index then
      if !allocate then (none, w)
      else
        let newListCount := index + 1
        let unallocated := newListCount - w.emptyBucketsList.length
        (some w.fresh,
          { w.alloc (List.replicate capacity 0) with
            emptyBucketsList := w.emptyBucketsList ++ List.replicate unallocated w.fresh })
    else (w.emptyBucketsList[index]?, w)

def isConstantEmptyCache (w : World κ) (k : CacheT) : Bool :=
  k.occupied = 0 && some k.buckets = (emptyBucketsForCapacity t k.capacity false w).1

/-- `reallocate`, with parameters of type `mask_t`. -/
def reallocate (c : κ) (newCapacity : Nat) (w : World κ) : World κ :=
  let newCapacity := t.toMask newCapacity
  setBucketsAndMask t c w.fresh (t.toMask (newCapacity + 2 ^ t.maskBits - 1))
    (w.alloc (allocateBuckets t newCapacity))

/-- The capacity that `cache_t::insert` reallocates to, if it does. -/
def newCapacity (w : World κ) (k : CacheT) : Option Nat :=
  let newOccupied := t.toMask (k.occupied + 1)
  let capacity := k.capacity
  -- cache is read-only: replace it
  if isConstantEmptyCache t w k then
    some (if capacity = 0 then t.initCacheSize else capacity)
  -- less than 3/4 or 7/8 full: use it as-is
  else if newOccupied + t.cacheEndMarker ≤ t.cacheFillRatio capacity then none
  -- 100% utilization for small buckets: use it as-is
  else if t.allowFullUtilization ∧ capacity ≤ fullUtilizationCacheSize ∧
      newOccupied + t.cacheEndMarker ≤ capacity then none
  else
    let doubled := if capacity ≠ 0 then capacity * 2 else t.initCacheSize
    some (if doubled > maxCacheSize then maxCacheSize else doubled)

/-- The part of `cache_t::insert` before its loop: the world, and the capacity. -/
def makeRoom (c : κ) (w : World κ) : World κ × Nat :=
  match newCapacity t w (w.cache c) with
  | some capacity => (reallocate t c capacity w, capacity)
  | none => (w, (w.cache c).capacity)

/-- Where the loop of `cache_t::insert` stops. -/
inductive Slot
  | unused (i : Nat)
  | present
  deriving DecidableEq

/-- The loop of `cache_t::insert` at `i`: the indices of the buckets it looks at, and
where it stops. -/
def insertLoop (buckets : List Nat) (sel m start : Nat) : Nat → Nat → List Nat × Option Slot
  | 0, _ => ([], none)
  | fuel + 1, i =>
    if selAt buckets i = 0 then ([i], some (.unused i))
    else if selAt buckets i = sel then ([i], some .present)
    else if t.cacheNext m i = start then ([i], none)
    else
      let rest := insertLoop buckets sel m start fuel (t.cacheNext m i)
      (i :: rest.1, rest.2)

/-- What an insertion does: the memory it leaves, the buckets it looks at, and whether
it ends in `bad_cache`. -/
structure Inserted (κ : Type) where
  world : World κ
  touched : List Nat
  badCache : Bool

/-- `cache_t::insert` from the loop on, with the mask `m`. -/
def fillSlot (c : κ) (sel m : Nat) (w : World κ) : Inserted κ :=
  let k := w.cache c
  let b := w.arrays k.buckets
  let start := t.cacheHash sel m
  let loop := insertLoop t b sel m start (m + 1) start
  match loop.2 with
  | some (.unused i) =>
    { world :=
        { w.setCache c { k with occupied := (k.occupied + 1) % 2 ^ 16 } with
          arrays := update w.arrays k.buckets (b.set i sel) }
      touched := loop.1
      badCache := false }
  | some .present => ⟨w, loop.1, false⟩
  | none => ⟨w, loop.1, true⟩

/-- `cache_t::insert` -/
def insert (c : κ) (sel : Nat) (w : World κ) : Inserted κ :=
  let room := makeRoom t c w
  fillSlot t c sel (t.toMask (room.2 + 2 ^ 32 - 1)) room.1

/-- `cache_t::eraseNolock` -/
def eraseNolock (c : κ) (w : World κ) : World κ :=
  let k := w.cache c
  if k.occupied > 0 then
    match emptyBucketsForCapacity t k.capacity true w with
    | (some buckets, w) => setBucketsAndMask t c buckets (t.toMask (k.capacity + 2 ^ 32 - 1)) w
    | (none, w) => w
  else w

/-- A call, under the lock. -/
inductive Op (κ : Type)
  | insert (c : κ) (sel : Nat)
  | erase (c : κ)

/-- What the call does; an erasure looks at no bucket. -/
def Op.run (w : World κ) : Op κ → Inserted κ
  | .insert c sel => Capacity.insert t c sel w
  | .erase c => ⟨eraseNolock t c w, [], false⟩

/-- Each call of a sequence has a property; after `bad_cache` there are no more
calls. -/
def EachCall (property : Op κ → World κ → Prop) : List (Op κ) → World κ → Prop
  | [], _ => True
  | op :: rest, w =>
    property op w ∧ ((op.run t w).badCache = false → EachCall property rest (op.run t w).world)

end Operations

/-! ### Sizes -/

/-- The array is one of those that are always empty. -/
def Shared (w : World κ) (a : ArrayId) : Prop := a = emptyBuckets ∨ a ∈ w.emptyBucketsList

/-- The array has a bucket for each index below the mask. If the cache has it for
itself, it has no more, and the end marker is the last of them. -/
structure Sized (t : Target) (w : World κ) (c : κ) : Prop where
  le : (w.cache c).mask + 1 ≤ (w.arrays (w.cache c).buckets).length
  endMarker : t.cacheEndMarker = 1 → ¬ Shared w (w.cache c).buckets →
    (w.arrays (w.cache c).buckets).length = (w.cache c).mask + 1 ∧
      (w.arrays (w.cache c).buckets).getLast? = some 1

/-- The class whose cache a call is about. -/
def Op.cls : Op κ → κ
  | .insert c _ => c
  | .erase c => c

/-- All caches are as large as their masks say after the call, and the call has not
looked beyond its array. -/
structure InBounds [DecidableEq κ] (t : Target) (op : Op κ) (w : World κ) : Prop where
  sized : ∀ c, Sized t (op.run t w).world c
  touched : ∀ i ∈ (op.run t w).touched,
    i < ((op.run t w).world.arrays ((op.run t w).world.cache op.cls).buckets).length

/-- With a `mask_t` of 16 bits, nothing is inserted into a cache of 2^15 buckets that
would have to grow. -/
def Roomy [DecidableEq κ] (t : Target) (op : Op κ) (w : World κ) : Prop :=
  match op with
  | .insert c _ =>
    t.maskBits = 16 → (w.cache c).capacity = 2 ^ 15 →
      isConstantEmptyCache t w (w.cache c) = true ∨
        t.toMask ((w.cache c).occupied + 1) + t.cacheEndMarker ≤ 3 * 2 ^ 13
  | .erase _ => True

/-! ### Masks -/

section Masks

variable {t : Target} {j : Nat}

/-- The largest capacity for which a mask is right, as a power of two. -/
def Target.maxLog (t : Target) : Nat := if t.lp64 then 16 else 15

theorem Target.maxLog_lt (t : Target) : t.maxLog < t.maskBits := by
  unfold Target.maxLog Target.maskBits
  split <;> decide

theorem Target.maxLog_le (t : Target) : t.maxLog ≤ 16 := by
  unfold Target.maxLog
  split <;> decide

theorem Target.maskBits_le (t : Target) : t.maskBits ≤ 32 := by
  unfold Target.maskBits
  split <;> decide

theorem toMask_two_pow (hj : j ≤ t.maxLog) : t.toMask (2 ^ j) = 2 ^ j :=
  Nat.mod_eq_of_lt (Nat.pow_lt_pow_right (by decide) (Nat.lt_of_le_of_lt hj t.maxLog_lt))

theorem toMask_pred {w} (hw : t.maskBits ≤ w) (hj : j ≤ t.maxLog) :
    t.toMask (2 ^ j + 2 ^ w - 1) = 2 ^ j - 1 := by
  have hpos := Nat.two_pow_pos j
  have hlt : 2 ^ j < 2 ^ t.maskBits :=
    Nat.pow_lt_pow_right (by decide) (Nat.lt_of_le_of_lt hj t.maxLog_lt)
  obtain ⟨q, hq⟩ := pow_dvd_pow 2 hw
  unfold Target.toMask
  rw [show 2 ^ j + 2 ^ w - 1 = 2 ^ j - 1 + 2 ^ w by omega, hq, Nat.add_mul_mod_self_left]
  exact Nat.mod_eq_of_lt (by omega)

theorem storedMask_two_pow (hpos : 1 ≤ j) (hj : j ≤ 16) : t.storedMask (2 ^ j - 1) = 2 ^ j - 1 := by
  have hlog : 0xffff >>> (15 - Nat.log2 (2 ^ j - 1)) = 2 ^ j - 1 := by
    interval_cases j <;> decide
  unfold Target.storedMask
  split
  · exact hlog
  · have hle := Nat.pow_le_pow_right Nat.two_pos hj
    exact Nat.mod_eq_of_lt (by omega)
  · rfl

theorem cacheHash_le (t : Target) (sel mask : Nat) : t.cacheHash sel mask ≤ mask := by
  unfold Target.cacheHash
  split
  · exact Nat.and_le_right
  · exact Nat.and_le_right

theorem cacheNext_le {mask i} (hi : i ≤ mask) : t.cacheNext mask i ≤ mask := by
  unfold Target.cacheNext
  split
  · exact Nat.and_le_right
  · unfold descend
    split
    · exact le_rfl
    · omega

theorem touched_le {buckets sel m start fuel i} (hi : i ≤ m) :
    ∀ x ∈ (insertLoop t buckets sel m start fuel i).1, x ≤ m := by
  induction fuel generalizing i with
  | zero => exact forall_mem_nil _
  | succ fuel ih =>
    rw [insertLoop]
    split
    · exact forall_mem_singleton.2 hi
    · split
      · exact forall_mem_singleton.2 hi
      · split
        · exact forall_mem_singleton.2 hi
        · exact forall_mem_cons.2 ⟨hi, ih (cacheNext_le hi)⟩

theorem selAt_of_unused {buckets sel m start fuel i x}
    (h : (insertLoop t buckets sel m start fuel i).2 = some (.unused x)) : selAt buckets x = 0 := by
  induction fuel generalizing i with
  | zero => cases h
  | succ fuel ih =>
    rw [insertLoop] at h
    split at h
    next hzero =>
      obtain rfl := Slot.unused.inj (some.inj h)
      exact hzero
    · split at h
      · cases h
      · split at h
        · cases h
        · exact ih h

end Masks

/-! ### The invariant -/

section Invariant

variable {t : Target} {w : World κ} {c : κ}

structure Inv (t : Target) (w : World κ) : Prop where
  mask : ∀ c, ∃ j, (w.cache c).mask + 1 = 2 ^ j ∧ j ≤ t.maxLog
  idle : ∀ c, (w.cache c).mask = 0 → (w.cache c).occupied = 0
  sized : ∀ c, Sized t w c
  allocated : ∀ c, (w.cache c).buckets < w.fresh
  shared : ∀ i a, w.emptyBucketsList[i]? = some a → a < w.fresh ∧ 2 ^ i ≤ (w.arrays a).length
  empty : emptyBuckets < w.fresh
  emptyLength : (w.arrays emptyBuckets).length = t.emptyBytes / t.bucketSize

theorem inv_init (t) : Inv t (World.init t : World κ) := by
  have hlen : 2 ≤ t.emptyBytes / t.bucketSize := by
    unfold Target.emptyBytes Target.bucketSize
    split <;> split <;> decide
  have hmask : t.initialMask = 0 ∨ t.initialMask = 1 := by
    unfold Target.initialMask
    split
    · exact .inr rfl
    · exact .inl rfl
  have hmax : 1 ≤ t.maxLog := by
    unfold Target.maxLog
    split <;> decide
  constructor
  case mask =>
    intro _
    rcases hmask with h0 | h1
    · exact ⟨0, congrArg (· + 1) h0, Nat.zero_le _⟩
    · exact ⟨1, congrArg (· + 1) h1, hmax⟩
  case idle => exact fun _ _ => rfl
  case sized =>
    intro c
    constructor
    · refine le_trans ?_ (le_of_eq length_replicate.symm)
      change t.initialMask + 1 ≤ _
      omega
    · exact fun _ hshared => absurd (.inl rfl) hshared
  case allocated => exact fun _ => zero_lt_one
  case shared =>
    intro i a h
    cases h
  case empty => exact zero_lt_one
  case emptyLength => exact length_replicate

theorem Inv.install [DecidableEq κ] (h : Inv t w) {a j} (hpos : 1 ≤ j)
    (hj : j ≤ t.maxLog) (ha : a < w.fresh) (hlen : 2 ^ j ≤ (w.arrays a).length)
    (hend : t.cacheEndMarker = 1 → ¬ Shared w a →
      (w.arrays a).length = 2 ^ j ∧ (w.arrays a).getLast? = some 1) :
    Inv t (setBucketsAndMask t c a (2 ^ j - 1) w) := by
  have hmask := storedMask_two_pow (t := t) hpos (Nat.le_trans hj t.maxLog_le)
  have htwo := Nat.two_pow_pos j
  have hcache : ∀ c', (setBucketsAndMask t c a (2 ^ j - 1) w).cache c' =
      if c' = c then ⟨a, 2 ^ j - 1, 0⟩ else w.cache c' := by
    intro c'
    unfold setBucketsAndMask World.setCache
    rw [hmask]
    exact update_apply ..
  constructor
  case mask =>
    intro c'
    rw [hcache]
    split
    · exact ⟨j, Nat.sub_add_cancel htwo, hj⟩
    · exact h.mask c'
  case idle =>
    intro c'
    rw [hcache]
    split
    · exact fun _ => rfl
    · exact h.idle c'
  case sized =>
    intro c'
    by_cases hc : c' = c
    · constructor
      · rw [hcache, if_pos hc]
        exact (Nat.sub_add_cancel htwo).trans_le hlen
      · rw [hcache, if_pos hc]
        intro hmark hshared
        obtain ⟨hlength, hlast⟩ := hend hmark hshared
        exact ⟨hlength.trans (Nat.sub_add_cancel htwo).symm, hlast⟩
    · constructor
      · rw [hcache, if_neg hc]
        exact (h.sized c').le
      · rw [hcache, if_neg hc]
        exact (h.sized c').endMarker
  case allocated =>
    intro c'
    rw [hcache]
    split
    · exact ha
    · exact h.allocated c'
  case shared => exact h.shared
  case empty => exact h.empty
  case emptyLength => exact h.emptyLength

theorem arrays_alloc {a} (h : a < w.fresh) (buckets) : (w.alloc buckets).arrays a = w.arrays a :=
  update_of_ne (ne_of_lt h) ..

theorem arrays_alloc_fresh (buckets) : (w.alloc buckets).arrays w.fresh = buckets :=
  update_self ..

theorem Inv.alloc (h : Inv t w) (buckets) : Inv t (w.alloc buckets) := by
  constructor
  case mask => exact h.mask
  case idle => exact h.idle
  case sized =>
    intro c
    have harray := arrays_alloc (h.allocated c) buckets
    constructor
    · exact (h.sized c).le.trans_eq (congrArg length harray).symm
    · intro hmark hshared
      have hlast := (h.sized c).endMarker hmark hshared
      rw [← harray] at hlast
      exact hlast
  case allocated => exact fun c => Nat.lt_succ_of_lt (h.allocated c)
  case shared =>
    intro i a hi
    obtain ⟨hlt, hlen⟩ := h.shared i a hi
    rw [arrays_alloc hlt]
    exact ⟨Nat.lt_succ_of_lt hlt, hlen⟩
  case empty => exact Nat.lt_succ_of_lt h.empty
  case emptyLength =>
    rw [arrays_alloc h.empty]
    exact h.emptyLength

theorem Inv.share (h : Inv t w) {a n} (ha : a < w.fresh)
    (hlen : 2 ^ (w.emptyBucketsList.length + n - 1) ≤ (w.arrays a).length) :
    Inv t { w with emptyBucketsList := w.emptyBucketsList ++ replicate n a } := by
  constructor
  case mask => exact h.mask
  case idle => exact h.idle
  case sized =>
    intro c
    refine ⟨(h.sized c).le, fun hmark hshared => (h.sized c).endMarker hmark fun hold => ?_⟩
    exact hshared (hold.imp_right (mem_append_left _))
  case allocated => exact h.allocated
  case shared =>
    intro i a' hi
    rw [getElem?_append] at hi
    split at hi
    · exact h.shared i a' hi
    · obtain ⟨hlt, heq⟩ := List.getElem?_eq_some_iff.1 hi
      rw [getElem_replicate] at heq
      rw [length_replicate] at hlt
      subst heq
      exact ⟨ha, (Nat.pow_le_pow_right (by decide) (by omega)).trans hlen⟩
  case empty => exact h.empty
  case emptyLength => exact h.emptyLength

theorem selAt_getLast {buckets} (h : buckets.getLast? = some 1) :
    selAt buckets (buckets.length - 1) = 1 := by
  unfold selAt
  rw [← getLast?_eq_getElem?, h]
  rfl

theorem getLast?_set {buckets i} (h : buckets.getLast? = some 1)
    (hzero : selAt buckets i = 0) (sel : Nat) : (buckets.set i sel).getLast? = some 1 := by
  have hne : buckets.length - 1 ≠ i := by
    rintro rfl
    rw [selAt_getLast h] at hzero
    cases hzero
  rw [getLast?_eq_getElem?, length_set, getElem?_set_ne (Ne.symm hne), ← getLast?_eq_getElem?, h]

theorem Inv.fill [DecidableEq κ] (h : Inv t w) {i} (sel occupied : Nat)
    (hmask : (w.cache c).mask ≠ 0) (hzero : selAt (w.arrays (w.cache c).buckets) i = 0) :
    Inv t { w.setCache c { w.cache c with occupied } with
      arrays := update w.arrays (w.cache c).buckets
        ((w.arrays (w.cache c).buckets).set i sel) } := by
  have hcache : ∀ c', (w.setCache c { w.cache c with occupied }).cache c' =
      { w.cache c' with occupied := if c' = c then occupied else (w.cache c').occupied } := by
    intro c'
    unfold World.setCache
    dsimp only
    rw [update_apply]
    split
    next hc => rw [hc]
    · rfl
  have hlength : ∀ a, (update w.arrays (w.cache c).buckets
      ((w.arrays (w.cache c).buckets).set i sel) a).length = (w.arrays a).length := by
    intro a
    rw [update_apply]
    split
    next ha => rw [ha, length_set]
    · rfl
  constructor
  case mask =>
    intro c'
    simp only [hcache]
    exact h.mask c'
  case idle =>
    intro c'
    simp only [hcache]
    split
    next hc =>
      rw [hc]
      exact fun h0 => absurd h0 hmask
    · exact h.idle c'
  case sized =>
    intro c'
    constructor
    · simp only [hcache, hlength]
      exact (h.sized c').le
    · simp only [hcache, hlength]
      intro hmark hshared
      obtain ⟨hlen, hlast⟩ := (h.sized c').endMarker hmark hshared
      refine ⟨hlen, ?_⟩
      rw [update_apply]
      split
      next ha =>
        rw [ha] at hlast
        exact getLast?_set hlast hzero sel
      · exact hlast
  case allocated =>
    intro c'
    simp only [hcache]
    exact h.allocated c'
  case shared =>
    intro i' a hi
    rw [hlength]
    exact h.shared i' a hi
  case empty => exact h.empty
  case emptyLength =>
    rw [hlength]
    exact h.emptyLength

/-! ### Calls -/

theorem length_allocateBuckets (n : Nat) : (allocateBuckets t n).length = n := by
  unfold allocateBuckets
  split
  · rw [length_set, length_replicate]
  · exact length_replicate

theorem getLast?_allocateBuckets {n} (hmark : t.cacheEndMarker = 1) (hn : 0 < n) :
    (allocateBuckets t n).getLast? = some 1 := by
  unfold allocateBuckets
  rw [if_pos hmark, getLast?_eq_getElem?, length_set, length_replicate,
    getElem?_set_self (by rw [length_replicate]; omega)]

section Grow

variable [DecidableEq κ]

theorem Inv.reallocate (h : Inv t w) {j} (hpos : 1 ≤ j) (hj : j ≤ t.maxLog) :
    Inv t (reallocate t c (2 ^ j) w) ∧
      ((Capacity.reallocate t c (2 ^ j) w).cache c).mask = 2 ^ j - 1 := by
  unfold Capacity.reallocate
  dsimp only
  rw [toMask_two_pow hj, toMask_pred le_rfl hj]
  constructor
  · refine (h.alloc _).install hpos hj (Nat.lt_succ_self _) ?_ fun hmark _ => ?_
    · rw [arrays_alloc_fresh, length_allocateBuckets]
    · rw [arrays_alloc_fresh]
      exact ⟨length_allocateBuckets _, getLast?_allocateBuckets hmark (Nat.two_pow_pos j)⟩
  · unfold setBucketsAndMask World.setCache
    dsimp only
    rw [update_self]
    exact storedMask_two_pow hpos (le_trans hj t.maxLog_le)

omit [DecidableEq κ] in
theorem Inv.capacity_eq (h : Inv t w) (hmask : (w.cache c).mask ≠ 0) :
    ∃ j, 1 ≤ j ∧ j ≤ t.maxLog ∧ (w.cache c).mask = 2 ^ j - 1 ∧ (w.cache c).capacity = 2 ^ j := by
  obtain ⟨j, heq, hj⟩ := h.mask c
  have hcapacity : (w.cache c).capacity = (w.cache c).mask + 1 := if_pos hmask
  refine ⟨j, ?_, hj, by omega, hcapacity.trans heq⟩
  refine Nat.one_le_iff_ne_zero.2 fun h0 => hmask ?_
  rw [h0] at heq
  omega

theorem exists_initCacheSize (t : Target) :
    ∃ j, 1 ≤ j ∧ j ≤ t.maxLog ∧ t.initCacheSize = 2 ^ j := by
  have hmax : 2 ≤ t.maxLog := by
    unfold Target.maxLog
    split <;> decide
  unfold Target.initCacheSize
  split
  · exact ⟨1, le_refl _, by omega, rfl⟩
  · exact ⟨2, by omega, hmax, rfl⟩

omit [DecidableEq κ] in
theorem Inv.mask_ne_zero (h : Inv t w) (hnone : newCapacity t w (w.cache c) = none) :
    (w.cache c).mask ≠ 0 := by
  intro hmask
  have hcapacity : (w.cache c).capacity = 0 := if_neg (not_not.2 hmask)
  have hone : t.toMask 1 = 1 := toMask_two_pow (j := 0) (Nat.zero_le _)
  unfold newCapacity at hnone
  rw [h.idle c hmask, hcapacity] at hnone
  dsimp only at hnone
  rw [Nat.zero_add, hone] at hnone
  have hratio : t.cacheFillRatio 0 = 0 := by
    unfold Target.cacheFillRatio Target.toMask
    split <;> simp
  rw [hratio, if_neg (show ¬ 1 + t.cacheEndMarker ≤ 0 by omega),
    if_neg (show ¬ (_ ∧ _ ∧ 1 + t.cacheEndMarker ≤ 0) by omega)] at hnone
  split at hnone
  · cases hnone
  · cases hnone

theorem cacheFillRatio_of_maskBits (h : t.maskBits = 16) :
    t.cacheFillRatio (2 ^ 15) = 3 * 2 ^ 13 := by
  have hlp64 : t.lp64 = false := by
    unfold Target.maskBits at h
    split at h
    · cases h
    next hlp64 => exact Bool.eq_false_iff.2 hlp64
  unfold Target.cacheFillRatio Target.toMask
  rw [h]
  split
  next harch =>
    unfold Target.lp64 at hlp64
    rw [harch] at hlp64
    cases hlp64
  · rfl

omit [DecidableEq κ] in
/-- A full cache of 2^15 buckets is reallocated to twice as many. -/
theorem newCapacity_of_full {k} (hbits : t.maskBits = 16) (hcapacity : k.capacity = 2 ^ 15)
    (hempty : isConstantEmptyCache t w k ≠ true)
    (hfull : ¬ t.toMask (k.occupied + 1) + t.cacheEndMarker ≤ 3 * 2 ^ 13) :
    newCapacity t w k = some (2 ^ 16) := by
  unfold newCapacity
  rw [if_neg hempty, hcapacity, cacheFillRatio_of_maskBits hbits, if_neg hfull,
    if_neg fun hsmall => absurd hsmall.2.1 (by decide)]
  rfl

/-- Otherwise the new capacity is one that masks can express. -/
theorem Inv.newCapacity_eq (h : Inv t w) {sel capacity} (hroomy : Roomy t (.insert c sel) w)
    (hsome : newCapacity t w (w.cache c) = some capacity) :
    ∃ j, 1 ≤ j ∧ j ≤ t.maxLog ∧ capacity = 2 ^ j := by
  have hinit := exists_initCacheSize t
  by_cases hmask : (w.cache c).mask = 0
  · have hcapacity : (w.cache c).capacity = 0 := if_neg (not_not.2 hmask)
    have hsmall : ¬ t.initCacheSize > maxCacheSize := by
      unfold Target.initCacheSize
      split <;> decide
    obtain ⟨j, hpos, hj, hsize⟩ := hinit
    refine ⟨j, hpos, hj, ?_⟩
    unfold newCapacity at hsome
    rw [hcapacity] at hsome
    dsimp only at hsome
    rw [if_pos rfl, if_neg (not_not.2 rfl), if_neg hsmall] at hsome
    rw [← hsize]
    split at hsome
    · exact (some.inj hsome).symm
    · split at hsome
      · cases hsome
      · split at hsome
        · cases hsome
        · exact (some.inj hsome).symm
  · obtain ⟨j, hpos, hj, -, hcapacity⟩ := h.capacity_eq hmask
    have htwo := Nat.two_pow_pos j
    by_cases hempty : isConstantEmptyCache t w (w.cache c)
    · refine ⟨j, hpos, hj, ?_⟩
      unfold newCapacity at hsome
      rw [if_pos hempty, hcapacity, if_neg (Nat.ne_of_gt htwo)] at hsome
      exact (some.inj hsome).symm
    · have hgrow : some capacity =
          some (if 2 ^ j * 2 > maxCacheSize then maxCacheSize else 2 ^ j * 2) ∧
            (t.maskBits = 16 → j ≠ 15) := by
        unfold newCapacity at hsome
        rw [if_neg hempty, hcapacity] at hsome
        split at hsome
        · cases hsome
        next hfull =>
          split at hsome
          · cases hsome
          · rw [if_pos (Nat.ne_of_gt htwo)] at hsome
            refine ⟨hsome.symm, fun hbits hj15 => ?_⟩
            rw [hj15, cacheFillRatio_of_maskBits hbits] at hfull
            rw [hj15] at hcapacity
            exact (hroomy hbits hcapacity).elim hempty hfull
      obtain ⟨heq, hnot⟩ := hgrow
      rw [some.inj heq]
      have hmax := t.maxLog_le
      split
      next hbig =>
        -- the largest capacity has been reached before
        have hj16 : j = 16 := by
          refine Nat.le_antisymm (hj.trans hmax) (Nat.le_of_not_lt fun hlt => ?_)
          have hle := Nat.pow_le_pow_right Nat.two_pos (Nat.le_of_lt_succ hlt)
          exact absurd hbig (by unfold maxCacheSize; omega)
        exact ⟨16, by decide, hj16 ▸ hj, rfl⟩
      · refine ⟨j + 1, by omega, ?_, (Nat.pow_succ 2 j).symm⟩
        next hsmall =>
          have hlt : j < 16 := by
            refine Nat.lt_of_not_le fun hge => hsmall ?_
            have hle := Nat.pow_le_pow_right Nat.two_pos hge
            unfold maxCacheSize
            omega
          unfold Target.maxLog at hj ⊢
          unfold Target.maskBits at hnot
          cases hlp64 : t.lp64 with
          | true => exact hlt
          | false =>
            rw [hlp64] at hj hnot
            have hne := hnot rfl
            rw [if_neg Bool.false_ne_true] at hj ⊢
            omega

theorem Inv.makeRoom (h : Inv t w) {sel} (hroomy : Roomy t (.insert c sel) w) :
    Inv t (makeRoom t c w).1 ∧ ∃ j, 1 ≤ j ∧ j ≤ t.maxLog ∧
      ((Capacity.makeRoom t c w).1.cache c).mask = 2 ^ j - 1 ∧
      (Capacity.makeRoom t c w).2 = 2 ^ j := by
  unfold Capacity.makeRoom
  cases hnew : newCapacity t w (w.cache c) with
  | none =>
    obtain ⟨j, hpos, hj, hmask, hcapacity⟩ := h.capacity_eq (h.mask_ne_zero hnew)
    exact ⟨h, j, hpos, hj, hmask, hcapacity⟩
  | some capacity =>
    obtain ⟨j, hpos, hj, rfl⟩ := h.newCapacity_eq hroomy hnew
    obtain ⟨hinv, hmask⟩ := h.reallocate hpos hj
    exact ⟨hinv, j, hpos, hj, hmask, rfl⟩

theorem touched_fillSlot_le (sel m : Nat) : ∀ i ∈ (fillSlot t c sel m w).touched, i ≤ m := by
  have h : (fillSlot t c sel m w).touched =
      (insertLoop t (w.arrays (w.cache c).buckets) sel m (t.cacheHash sel m) (m + 1)
        (t.cacheHash sel m)).1 := by
    unfold fillSlot
    dsimp only
    split
    · rfl
    · rfl
    · rfl
  rw [h]
  exact touched_le (cacheHash_le t sel m)

theorem length_fillSlot (sel m : Nat) (c' : κ) :
    ((fillSlot t c sel m w).world.arrays ((fillSlot t c sel m w).world.cache c').buckets).length =
      (w.arrays (w.cache c').buckets).length := by
  unfold fillSlot World.setCache
  dsimp only
  split
  · have hbuckets : ∀ occupied, (update w.cache c { w.cache c with occupied } c').buckets =
        (w.cache c').buckets := by
      intro occupied
      rw [update_apply]
      split
      next hc => rw [hc]
      · rfl
    dsimp only
    rw [hbuckets, update_apply]
    split
    next ha => rw [length_set, ha]
    · rfl
  · rfl
  · rfl

theorem Inv.fillSlot (h : Inv t w) (hmask : (w.cache c).mask ≠ 0) (sel m : Nat) :
    Inv t (fillSlot t c sel m w).world := by
  unfold Capacity.fillSlot
  dsimp only
  split
  next hslot => exact h.fill sel _ hmask (selAt_of_unused hslot)
  · exact h
  · exact h

theorem Inv.insert_eq (h : Inv t w) {sel} (hroomy : Roomy t (.insert c sel) w) :
    insert t c sel w = Capacity.fillSlot t c sel ((Capacity.makeRoom t c w).1.cache c).mask
      (Capacity.makeRoom t c w).1 := by
  obtain ⟨-, j, -, hj, hmask, hcapacity⟩ := h.makeRoom hroomy
  unfold Capacity.insert
  dsimp only
  rw [hcapacity, toMask_pred t.maskBits_le hj, hmask]

theorem Inv.insert (h : Inv t w) {sel} (hroomy : Roomy t (.insert c sel) w) :
    Inv t ((Op.insert c sel).run t w).world ∧ InBounds t (.insert c sel) w := by
  obtain ⟨hroom, j, hpos, -, hmask, -⟩ := h.makeRoom hroomy
  have hrun : (Op.insert c sel).run t w = Capacity.fillSlot t c sel
      ((Capacity.makeRoom t c w).1.cache c).mask (Capacity.makeRoom t c w).1 := h.insert_eq hroomy
  have hne : ((Capacity.makeRoom t c w).1.cache c).mask ≠ 0 := by
    have hle := Nat.pow_le_pow_right Nat.two_pos hpos
    omega
  have hinv : Inv t ((Op.insert c sel).run t w).world := hroom.fillSlot hne sel _
  refine ⟨hinv, hinv.sized, ?_⟩
  rw [hrun]
  intro i hi
  have hle := touched_fillSlot_le _ _ i hi
  exact Nat.lt_of_le_of_lt hle ((hroom.sized c).le.trans_eq (length_fillSlot sel _ c).symm)

end Grow

theorem Inv.exists_emptyBucketsForCapacity (h : Inv t w) {j} (hj : j ≤ t.maxLog) :
    ∃ a w', emptyBucketsForCapacity t (2 ^ j) true w = (some a, w') ∧
      Inv t w' ∧ a < w'.fresh ∧ 2 ^ j ≤ (w'.arrays a).length ∧ Shared w' a := by
  have hsize : 0 < t.bucketSize := by
    unfold Target.bucketSize
    split <;> decide
  unfold Capacity.emptyBucketsForCapacity
  dsimp only
  rw [toMask_two_pow hj, Nat.log2_two_pow]
  split
  next hbytes =>
    refine ⟨_, _, rfl, h, h.empty, ?_, .inl rfl⟩
    rw [h.emptyLength]
    refine (Nat.le_div_iff_mul_le hsize).2 ?_
    rwa [Nat.mul_comm]
  · split
    next hindex =>
      have hlen : ((w.alloc (replicate (2 ^ j) 0)).arrays w.fresh).length = 2 ^ j := by
        rw [arrays_alloc_fresh, length_replicate]
      refine ⟨_, _, rfl, (h.alloc _).share (Nat.lt_succ_self _) ?_, Nat.lt_succ_self _, hlen.ge,
        .inr ?_⟩
      · have hcount : (w.alloc (replicate (2 ^ j) 0)).emptyBucketsList.length +
            (j + 1 - w.emptyBucketsList.length) - 1 = j := by
          change w.emptyBucketsList.length + (j + 1 - w.emptyBucketsList.length) - 1 = j
          omega
        rw [hcount, hlen]
      · refine mem_append_right _ (mem_replicate.2 ⟨?_, rfl⟩)
        omega
    next hindex =>
      have hget := getElem?_eq_getElem (Nat.lt_of_not_le hindex)
      obtain ⟨hlt, hlen⟩ := h.shared j _ hget
      rw [hget]
      exact ⟨_, _, rfl, h, hlt, hlen, .inr (mem_of_getElem? hget)⟩

theorem Inv.eraseNolock [DecidableEq κ] (h : Inv t w) : Inv t (eraseNolock t c w) := by
  unfold Capacity.eraseNolock
  dsimp only
  split
  next hoccupied =>
    have hmask : (w.cache c).mask ≠ 0 := by
      intro h0
      rw [h.idle c h0] at hoccupied
      cases hoccupied
    obtain ⟨j, hpos, hj, -, hcapacity⟩ := h.capacity_eq hmask
    obtain ⟨a, w', heq, hinv, ha, hlen, hshared⟩ := h.exists_emptyBucketsForCapacity hj
    rw [hcapacity, toMask_pred t.maskBits_le hj, heq]
    exact hinv.install hpos hj ha hlen fun _ hown => absurd hshared hown
  · exact h

/-- The capacity 2^16 does not fit into 16 bits. -/
theorem not_inBounds_of_full [DecidableEq κ] {sel} (h : ¬ Roomy t (.insert c sel) w) :
    ¬ InBounds t (.insert c sel) w := by
  unfold Roomy at h
  push Not at h
  obtain ⟨hbits, hcapacity, hempty, hfull⟩ := h
  have hnew := newCapacity_of_full hbits hcapacity hempty (not_le.2 hfull)
  have hroom : Capacity.makeRoom t c w = (reallocate t c (2 ^ 16) w, 2 ^ 16) := by
    unfold Capacity.makeRoom
    rw [hnew]
  have harray : ((reallocate t c (2 ^ 16) w).arrays
      ((reallocate t c (2 ^ 16) w).cache c).buckets).length = 0 := by
    unfold reallocate setBucketsAndMask World.setCache Target.toMask
    dsimp only
    rw [hbits, update_self]
    rw [arrays_alloc_fresh, length_allocateBuckets, Nat.mod_self]
  intro hbounds
  have hlen := (hbounds.sized c).le
  have hrun : (Op.insert c sel).run t w = Capacity.fillSlot t c sel
      (t.toMask ((Capacity.makeRoom t c w).2 + 2 ^ 32 - 1)) (Capacity.makeRoom t c w).1 := rfl
  rw [hrun, length_fillSlot, hroom, harray] at hlen
  exact absurd hlen (Nat.not_succ_le_zero _)

end Invariant

/-! ### Sequences of calls -/

theorem Inv.run [DecidableEq κ] {t w} (h : Inv t w) {op : Op κ}
    (hroomy : Roomy t op w) : Inv t (op.run t w).world ∧ InBounds t op w := by
  cases op with
  | insert c sel => exact h.insert hroomy
  | erase c =>
    have hinv : Inv t ((Op.erase c).run t w).world := h.eraseNolock
    exact ⟨hinv, hinv.sized, forall_mem_nil _⟩

theorem InBounds.roomy [DecidableEq κ] {t : Target} {w : World κ} {op : Op κ}
    (h : InBounds t op w) : Roomy t op w := by
  cases op with
  | insert c sel => exact not_not.1 fun hfull => not_inBounds_of_full hfull h
  | erase c => trivial

theorem eachCall_inBounds_iff [DecidableEq κ] {t w} (h : Inv t w)
    (ops : List (Op κ)) : EachCall t (InBounds t) ops w ↔ EachCall t (Roomy t) ops w := by
  induction ops generalizing w with
  | nil => exact Iff.rfl
  | cons op rest ih =>
    constructor
    · rintro ⟨hbounds, hrest⟩
      have hroomy := hbounds.roomy
      exact ⟨hroomy, fun hok => (ih (h.run hroomy).1).1 (hrest hok)⟩
    · rintro ⟨hroomy, hrest⟩
      obtain ⟨hinv, hbounds⟩ := h.run hroomy
      exact ⟨hbounds, fun hok => (ih hinv).2 (hrest hok)⟩

theorem caches_in_bounds_iff [DecidableEq κ] (t : Target) (ops : List (Op κ)) :
    EachCall t (InBounds t) ops (World.init t) ↔ EachCall t (Roomy t) ops (World.init t) :=
  eachCall_inBounds_iff (inv_init t) ops

/-! ### Selectors that fill a cache -/

section Full

/-- A watch: a `mask_t` of 16 bits and no end marker. -/
def watch : Target := ⟨.arm64_32, false⟩

/-- All sequences of calls stay in bounds. -/
def Good (w : World Unit) : Prop := ∀ ops, EachCall watch (InBounds watch) ops w

variable {w : World Unit} {j k n : Nat}

theorem Good.run (h : Good w) {op : Op Unit} (hok : (op.run watch w).badCache = false) :
    Good (op.run watch w).world :=
  fun ops => (h (op :: ops)).2 hok

/-- The cache has 2^j buckets. The selectors from `k` on are going into it, `n` of them
are there, and there is a bucket for each of the next ones. -/
structure Filling (w : World Unit) (j k n : Nat) : Prop where
  mask : (w.cache ()).mask = 2 ^ j - 1
  occupied : (w.cache ()).occupied = n
  free : ∀ sel, k + n ≤ sel → sel < k + 2 ^ j →
    selAt (w.arrays (w.cache ()).buckets) (sel % 2 ^ j) = 0

theorem selAt_set {buckets i i'} (h : i' ≠ i) (sel : Nat) :
    selAt (buckets.set i sel) i' = selAt buckets i' := by
  unfold selAt
  rw [getElem?_set_ne (Ne.symm h)]

theorem mod_ne_mod {m a b : Nat} (hlt : a < b) (hdist : b < a + m) : b % m ≠ a % m := by
  intro heq
  have hzero := Nat.sub_mod_eq_zero_of_mod_eq heq
  rw [Nat.mod_eq_of_lt (show b - a < m by omega)] at hzero
  omega

theorem Filling.fillSlot (h : Filling w j k n) (hsmall : n + 1 < 2 ^ 16) (hroom : n < 2 ^ j) :
    (fillSlot watch () (k + n) (2 ^ j - 1) w).badCache = false ∧
      Filling (fillSlot watch () (k + n) (2 ^ j - 1) w).world j k (n + 1) := by
  have hhash : watch.cacheHash (k + n) (2 ^ j - 1) = (k + n) % 2 ^ j :=
    Nat.and_two_pow_sub_one_eq_mod (k + n) j
  have hloop : insertLoop watch (w.arrays (w.cache ()).buckets) (k + n) (2 ^ j - 1)
      (watch.cacheHash (k + n) (2 ^ j - 1)) (2 ^ j - 1 + 1)
      (watch.cacheHash (k + n) (2 ^ j - 1)) =
        ([(k + n) % 2 ^ j], some (.unused ((k + n) % 2 ^ j))) := by
    rw [hhash, insertLoop, if_pos (h.free (k + n) le_rfl (by omega))]
  unfold Capacity.fillSlot World.setCache
  dsimp only
  rw [hloop]
  refine ⟨rfl, ?_, ?_, fun sel hsel hlast => ?_⟩
  · exact h.mask
  · dsimp only
    rw [update_self, h.occupied]
    exact Nat.mod_eq_of_lt hsmall
  · dsimp only
    rw [update_self, update_self, selAt_set (mod_ne_mod (by omega) (by omega))]
    exact h.free sel (by omega) hlast

theorem watch_cacheFillRatio (hj : j ≤ 15) : watch.cacheFillRatio (2 ^ j) = 2 ^ j * 3 / 4 :=
  congrArg (· * 3 / 4) (toMask_two_pow (t := watch) hj)

theorem Filling.capacity (h : Filling w j k n) (hpos : 1 ≤ j) : (w.cache ()).capacity = 2 ^ j := by
  have hle := Nat.pow_le_pow_right Nat.two_pos hpos
  unfold CacheT.capacity
  rw [h.mask, if_pos (by omega)]
  omega

theorem Filling.not_isConstantEmptyCache (h : Filling w j k n) (hn : 1 ≤ n) :
    isConstantEmptyCache watch w (w.cache ()) ≠ true := by
  intro hempty
  unfold isConstantEmptyCache at hempty
  rw [Bool.and_eq_true, decide_eq_true_eq, h.occupied] at hempty
  omega

theorem watch_toMask {x} (h : x < 2 ^ 16) : watch.toMask x = x := Nat.mod_eq_of_lt h

theorem Filling.insert (h : Filling w j k n) (hpos : 1 ≤ j) (hj : j ≤ 15) (hn : 1 ≤ n)
    (hfill : n + 1 ≤ 2 ^ j * 3 / 4) :
    ((Op.insert () (k + n)).run watch w).badCache = false ∧
      Filling ((Op.insert () (k + n)).run watch w).world j k (n + 1) := by
  have hle := Nat.pow_le_pow_right Nat.two_pos hj
  have hnew : newCapacity watch w (w.cache ()) = none := by
    unfold newCapacity
    rw [if_neg (h.not_isConstantEmptyCache hn), h.occupied, h.capacity hpos,
      watch_cacheFillRatio hj, watch_toMask (by omega)]
    exact if_pos hfill
  have hrun : (Op.insert () (k + n)).run watch w =
      Capacity.fillSlot watch () (k + n) (2 ^ j - 1) w := by
    unfold Op.run Capacity.insert makeRoom
    dsimp only
    rw [hnew]
    rw [h.capacity hpos, toMask_pred watch.maskBits_le hj]
  rw [hrun]
  exact h.fillSlot (by omega) (by omega)

theorem filling_reallocate (w) (hpos : 1 ≤ j) (hj : j ≤ 15) (k : Nat) :
    Filling (Capacity.reallocate watch () (2 ^ j) w) j k 0 := by
  unfold Capacity.reallocate
  dsimp only
  rw [toMask_two_pow (t := watch) hj, toMask_pred (t := watch) le_rfl hj]
  unfold setBucketsAndMask World.setCache
  rw [storedMask_two_pow hpos (by omega)]
  constructor
  · dsimp only
    rw [update_self]
  · dsimp only
    rw [update_self]
  · intro sel _ _
    dsimp only
    rw [update_self, arrays_alloc_fresh]
    change selAt (replicate (2 ^ j) 0) _ = 0
    unfold selAt
    rw [getElem?_replicate]
    split
    · rfl
    · rfl

theorem filling_of_newCapacity (hpos : 1 ≤ j) (hj : j ≤ 15)
    (hnew : newCapacity watch w (w.cache ()) = some (2 ^ j)) (sel : Nat) :
    ((Op.insert () sel).run watch w).badCache = false ∧
      Filling ((Op.insert () sel).run watch w).world j sel 1 := by
  have hrun : (Op.insert () sel).run watch w = Capacity.fillSlot watch () sel (2 ^ j - 1)
      (Capacity.reallocate watch () (2 ^ j) w) := by
    unfold Op.run Capacity.insert makeRoom
    dsimp only
    rw [hnew]
    rw [toMask_pred watch.maskBits_le hj]
  rw [hrun]
  exact (filling_reallocate w hpos hj sel).fillSlot (by decide) (Nat.two_pow_pos _)

theorem Filling.grow (h : Filling w j k n) (hpos : 1 ≤ j) (hj : j < 15) (hn : 1 ≤ n)
    (hsmall : n + 1 < 2 ^ 16) (hfull : ¬ n + 1 ≤ 2 ^ j * 3 / 4) :
    newCapacity watch w (w.cache ()) = some (2 ^ (j + 1)) := by
  have htwo := Nat.two_pow_pos j
  have hle := Nat.pow_le_pow_right Nat.two_pos hj
  have hfull : ¬ n + 1 + watch.cacheEndMarker ≤ 2 ^ j * 3 / 4 := hfull
  unfold newCapacity
  dsimp only
  rw [if_neg (h.not_isConstantEmptyCache hn), h.occupied, h.capacity hpos,
    watch_cacheFillRatio (Nat.le_of_lt hj), watch_toMask hsmall, if_neg hfull,
    if_neg fun hutil => absurd hutil.1 (by decide), if_pos (Nat.ne_of_gt htwo),
    ← Nat.pow_succ, if_neg]
  unfold maxCacheSize
  omega

/-- There is a sequence of calls up to this point. -/
def Reaches (j n : Nat) : Prop := ∃ k w, Good w ∧ Filling w j k n

theorem Reaches.fill (hpos : 1 ≤ j) (hj : j ≤ 15) (h : Reaches j 1) (hn : 1 ≤ n)
    (hfill : n ≤ 2 ^ j * 3 / 4) : Reaches j n := by
  induction n, hn using Nat.le_induction with
  | base => exact h
  | succ n hn ih =>
    obtain ⟨k, w, hgood, hw⟩ := ih (Nat.le_of_succ_le hfill)
    obtain ⟨hok, hnext⟩ := hw.insert hpos hj hn hfill
    exact ⟨k, _, hgood.run hok, hnext⟩

theorem Reaches.grow (hpos : 1 ≤ j) (hj : j < 15) (h : Reaches j 1) : Reaches (j + 1) 1 := by
  have hle := Nat.pow_le_pow_right Nat.two_pos hpos
  have hle' := Nat.pow_le_pow_right Nat.two_pos hj
  obtain ⟨k, w, hgood, hw⟩ := h.fill hpos (Nat.le_of_lt hj) (show 1 ≤ 2 ^ j * 3 / 4 by omega) le_rfl
  obtain ⟨hok, hnext⟩ := filling_of_newCapacity (Nat.le_succ_of_le hpos) hj
    (hw.grow hpos hj (by omega) (by omega) (by omega)) (k + 2 ^ j * 3 / 4)
  exact ⟨_, _, hgood.run hok, hnext⟩

theorem reaches_of_good (h : Good (World.init watch)) (hpos : 1 ≤ j) (hj : j ≤ 15) :
    Reaches j 1 := by
  induction j, hpos using Nat.le_induction with
  | base =>
    -- the empty cache of a watch has a mask for two buckets
    have hnew : newCapacity watch (World.init watch : World Unit) ((World.init watch).cache ()) =
        some (2 ^ 1) := by decide
    obtain ⟨hok, hnext⟩ := filling_of_newCapacity le_rfl hj hnew 1
    exact ⟨_, _, h.run hok, hnext⟩
  | succ j hpos ih => exact (ih (Nat.le_of_lt hj)).grow hpos hj

/-- After about fifty thousand selectors, on a watch. -/
theorem caches_out_of_bounds :
    ∃ ops : List (Op Unit), ¬ EachCall watch (InBounds watch) ops (World.init watch) := by
  by_contra hall
  push Not at hall
  obtain ⟨k, w, hgood, hw⟩ := (reaches_of_good hall (show 1 ≤ 15 by decide)
    le_rfl).fill (by decide) le_rfl (show 1 ≤ 2 ^ 15 * 3 / 4 by decide)
    le_rfl
  have hfull : ¬ Roomy watch (.insert () k) w := by
    intro hroomy
    rcases hroomy rfl (hw.capacity (by decide)) with hempty | hle
    · exact hw.not_isConstantEmptyCache (by decide) hempty
    · rw [hw.occupied] at hle
      exact absurd hle (by decide)
  exact not_inBounds_of_full hfull (hgood [.insert () k]).1

end Full

end ObjcRuntime.Cache.Capacity
