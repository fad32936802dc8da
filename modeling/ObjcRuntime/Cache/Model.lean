import ObjcRuntime.Lib.Probe

/-!
# ObjcRuntime.Cache.Model

The method caches of `objc-cache.mm`, down to the single store.

All caches share one memory (`World`): the bucket arrays ever allocated, by
number, and the list of shared empty arrays. Array 0 is `_objc_empty_cache`.
Readers look at this memory without a lock, so what an operation does is the
list of its stores in program order (`Write`); `World.writes` performs them. An
operation holds the runtime lock, hence it can be computed from the state it
starts in.

`Build` collects what the preprocessor decides. Both 64-bit layouts are here:
x86_64 with an end marker and an ascending probe, and arm64 with a descending
probe and full small caches. The caches are dynamic; a preoptimized cache only
occurs as the outcome of the checks for one.

An IMP is stored encoded with the class and decoded with the same class; the
model keeps it decoded. Retired arrays go to the garbage list and are not used
again, so they simply stay where they are.
-/

namespace ObjcRuntime.Cache

open Lib

/-! ### Buckets -/

/-- The number of a bucket array. -/
abbrev ArrayId := Nat

/-- What `bucket_t::_imp` holds. -/
inductive ImpField (ι : Type)
  | nil
  | imp (imp : ι)
  /-- The address of the first bucket of an array. -/
  | bucket (array : ArrayId)
  deriving Repr, DecidableEq

/-- `bucket_t`. The selector is the word that is stored: 0 in an empty bucket. -/
structure Bucket (ι : Type) where
  imp : ImpField ι
  sel : Nat
  deriving Repr, DecidableEq

variable {κ ι : Type}

/-- What `calloc` leaves in a bucket. -/
def Bucket.zero : Bucket ι := ⟨.nil, 0⟩

/-- `b[i]` -/
def at_ (buckets : List (Bucket ι)) (i : Nat) : Bucket ι := (buckets[i]?).getD .zero

/-- How arm64 packs the mask and the buckets into one word: `CACHE_MASK_STORAGE`. -/
inductive MaskStorage
  | high16BigAddrs
  /-- With or without `CONFIG_USE_PREOPT_CACHES`. -/
  | high16 (preoptCaches : Bool)
  deriving Repr, DecidableEq

/-- The 64-bit configurations. -/
inductive Arch
  | x86_64
  | arm64 (storage : MaskStorage)
  deriving Repr, DecidableEq

structure Build where
  arch : Arch
  debug : Bool
  deriving Repr, DecidableEq

/-! ### Sizes and probing -/

/-- `sizeof(bucket_t)` -/
def bucketSize : Nat := 16

/-- `MAX_CACHE_SIZE` -/
def maxCacheSize : Nat := 1 <<< 16

/-- `FULL_UTILIZATION_CACHE_SIZE` -/
def fullUtilizationCacheSize : Nat := 1 <<< 3

/-- `_objc_empty_cache` -/
def emptyBuckets : ArrayId := 0

namespace Build

variable (b : Build)

/-- `CONFIG_USE_PREOPT_CACHES` -/
def usePreoptCaches : Bool :=
  match b.arch with
  | .arm64 (.high16 preoptCaches) => preoptCaches
  | _ => false

/-- `CACHE_END_MARKER` -/
def cacheEndMarker : Nat :=
  match b.arch with
  | .x86_64 => 1
  | .arm64 _ => 0

/-- `CACHE_ALLOW_FULL_UTILIZATION` -/
def allowFullUtilization : Bool :=
  match b.arch with
  | .x86_64 => false
  | .arm64 _ => true

def cacheFillRatio (capacity : Nat) : Nat :=
  match b.arch with
  | .x86_64 => capacity * 3 / 4
  | .arm64 _ => capacity * 7 / 8

/-- `INIT_CACHE_SIZE` -/
def initCacheSize : Nat :=
  match b.arch with
  | .x86_64 => 1 <<< 2
  | .arm64 _ => 1 <<< 1

/-- `EMPTY_BYTES` -/
def emptyBytes : Nat := if b.debug then (8 + 1) * bucketSize else (1024 + 1) * bucketSize

def cacheNext (mask i : Nat) : Nat :=
  match b.arch with
  | .x86_64 => ascend mask i
  | .arm64 _ => descend mask i

def cacheHash (sel mask : Nat) : Nat :=
  (if b.usePreoptCaches then sel ^^^ (sel >>> 7) else sel) &&& mask

end Build

/-! ### The memory -/

/-- `cache_t`, with the mask apart from the buckets. -/
structure CacheT where
  buckets : ArrayId
  mask : Nat
  occupied : Nat
  deriving Repr, DecidableEq

/-- `cache_t::capacity()` -/
def CacheT.capacity (k : CacheT) : Nat := if k.mask ≠ 0 then k.mask + 1 else 0

/-- The memory that the caches of all classes share. -/
structure World (κ ι : Type) where
  arrays : ArrayId → List (Bucket ι)
  /-- The arrays below are allocated. -/
  fresh : ArrayId
  emptyBucketsList : List ArrayId
  cache : κ → CacheT

/-- No class has cached anything: `initializeToEmpty()`. -/
def World.init (b : Build) : World κ ι where
  arrays _ := List.replicate (b.emptyBytes / bucketSize) .zero
  fresh := emptyBuckets + 1
  emptyBucketsList := []
  cache _ := ⟨emptyBuckets, 0, 0⟩

/-- A single store, or the allocation of an array. -/
inductive Write (κ ι : Type)
  /-- A zeroed array, at `fresh`. -/
  | calloc (count : Nat)
  | emptyBucketsList (list : List ArrayId)
  | buckets (c : κ) (array : ArrayId)
  | mask (c : κ) (mask : Nat)
  /-- One word for both. -/
  | bucketsAndMask (c : κ) (array : ArrayId) (mask : Nat)
  | occupied (c : κ) (occupied : Nat)
  | imp (array : ArrayId) (i : Nat) (imp : ImpField ι)
  | sel (array : ArrayId) (i : Nat) (sel : Nat)
  /-- `stp` -/
  | bucket (array : ArrayId) (i : Nat) (bucket : Bucket ι)
  deriving Repr, DecidableEq

section World

variable [DecidableEq κ] (w : World κ ι)

def World.setCache (c : κ) (k : CacheT) : World κ ι :=
  { w with cache := Function.update w.cache c k }

def World.setBucket (array : ArrayId) (i : Nat) (bucket : Bucket ι) : World κ ι :=
  { w with arrays := Function.update w.arrays array ((w.arrays array).set i bucket) }

def World.write : Write κ ι → World κ ι
  | .calloc count =>
    { w with
      arrays := Function.update w.arrays w.fresh (List.replicate count .zero)
      fresh := w.fresh + 1 }
  | .emptyBucketsList list => { w with emptyBucketsList := list }
  | .buckets c array => w.setCache c { w.cache c with buckets := array }
  | .mask c mask => w.setCache c { w.cache c with mask }
  | .bucketsAndMask c buckets mask => w.setCache c { w.cache c with buckets, mask }
  | .occupied c occupied => w.setCache c { w.cache c with occupied }
  | .imp array i imp => w.setBucket array i { at_ (w.arrays array) i with imp }
  | .sel array i sel => w.setBucket array i { at_ (w.arrays array) i with sel }
  | .bucket array i bucket => w.setBucket array i bucket

/-- Perform stores one after the other. -/
def World.writes (ws : List (Write κ ι)) : World κ ι := ws.foldl World.write w

end World

/-! ### Operations -/

/-- The fatal outcomes of `cache_t::insert`. -/
inductive Fatal
  /-- "cache_t::insert() called with a preoptimized cache" -/
  | preoptimizedCache
  /-- "Method cache corrupted." -/
  | badCache
  deriving Repr, DecidableEq

section Operations

variable [DecidableEq κ] (b : Build) (w : World κ ι)

def setBucketsAndMask (c : κ) (newBuckets : ArrayId) (newMask : Nat) : List (Write κ ι) :=
  match b.arch with
  | .x86_64 => [.buckets c newBuckets, .mask c newMask, .occupied c 0]
  | .arm64 _ => [.bucketsAndMask c newBuckets newMask, .occupied c 0]

/-- The stores of `bucket_t::set` into an empty bucket. -/
def Bucket.set (array : ArrayId) (i : Nat) (newSel : Nat) (newImp : ImpField ι) :
    List (Write κ ι) :=
  match b.arch with
  | .x86_64 => [.imp array i newImp, .sel array i newSel]
  | .arm64 _ => [.bucket array i ⟨newImp, newSel⟩]

/-- The end marker's sel is 1 and its imp points to the first bucket. -/
def allocateBuckets (newCapacity : Nat) : List (Write κ ι) :=
  .calloc newCapacity ::
    if b.cacheEndMarker = 1 then Bucket.set b w.fresh (newCapacity - 1) 1 (.bucket w.fresh) else []

/-- The shared array for a capacity; `none` is `nil`. -/
def emptyBucketsForCapacity (capacity : Nat) (allocate : Bool) :
    List (Write κ ι) × Option ArrayId :=
  if bucketSize * capacity ≤ b.emptyBytes then ([], some emptyBuckets)
  else
    let index := Nat.log2 capacity
    if w.emptyBucketsList.length ≤ index then
      if !allocate then ([], none)
      else
        let newListCount := index + 1
        let unallocated := newListCount - w.emptyBucketsList.length
        ([.calloc capacity,
          .emptyBucketsList (w.emptyBucketsList ++ List.replicate unallocated w.fresh)],
         some w.fresh)
    else ([], w.emptyBucketsList[index]?)

def isConstantEmptyCache (k : CacheT) : Bool :=
  k.occupied = 0 ∧ some k.buckets = (emptyBucketsForCapacity b w k.capacity false).2

/-- A cache of mask 0 that is not the empty one is a preoptimized one in disguise. -/
def isConstantOptimizedCache (k : CacheT) : Bool :=
  b.usePreoptCaches ∧ k.mask = 0 ∧ k.buckets ≠ emptyBuckets

/-- The old contents are not propagated. -/
def reallocate (c : κ) (newCapacity : Nat) : List (Write κ ι) :=
  allocateBuckets b w newCapacity ++ setBucketsAndMask b c w.fresh (newCapacity - 1)

/-- The capacity that `cache_t::insert` reallocates to, if it does. -/
def newCapacity (k : CacheT) : Option Nat :=
  let newOccupied := k.occupied + 1
  let capacity := k.capacity
  -- cache is read-only: replace it
  if isConstantEmptyCache b w k then
    some (if capacity = 0 then b.initCacheSize else capacity)
  -- less than 3/4 or 7/8 full: use it as-is
  else if newOccupied + b.cacheEndMarker ≤ b.cacheFillRatio capacity then none
  -- 100% utilization for small buckets: use it as-is
  else if b.allowFullUtilization ∧ capacity ≤ fullUtilizationCacheSize ∧
      newOccupied + b.cacheEndMarker ≤ capacity then none
  else
    let doubled := if capacity ≠ 0 then capacity * 2 else b.initCacheSize
    some (if doubled > maxCacheSize then maxCacheSize else doubled)

/-- Where the loop of `cache_t::insert` stops. -/
inductive Slot
  | unused (i : Nat)
  | present
  deriving Repr, DecidableEq

/-- The loop of `cache_t::insert` from `cache_hash(sel, m)`. -/
def findSlot (buckets : List (Bucket ι)) (m sel : Nat) : Option Slot :=
  scan (b.cacheNext m) (b.cacheHash sel m)
    (fun _ i =>
      if (at_ buckets i).sel = 0 then some (.unused i)
      else if (at_ buckets i).sel = sel then some .present
      else none) (m + 1) (b.cacheHash sel m) 0

/-- The stores before the loop, and the capacity the loop uses. -/
def makeRoom (c : κ) : List (Write κ ι) × Nat :=
  match newCapacity b w (w.cache c) with
  | some capacity => (reallocate b w c capacity, capacity)
  | none => ([], (w.cache c).capacity)

/-- `cache_t::insert` for an initialized class. `_occupied` is 16 bits wide. -/
def insert (c : κ) (sel : Nat) (imp : ι) : Except Fatal (List (Write κ ι)) :=
  if isConstantOptimizedCache b (w.cache c) then .error .preoptimizedCache
  else
    let room := makeRoom b w c
    let w' := w.writes room.1
    let k := w'.cache c
    match findSlot b (w'.arrays k.buckets) (room.2 - 1) sel with
    | some (.unused i) =>
      .ok (room.1 ++ .occupied c ((k.occupied + 1) % 2 ^ 16) ::
        Bucket.set b k.buckets i sel (.imp imp))
    | some .present => .ok room.1
    | none => .error .badCache

/-- `cache_t::eraseNolock` -/
def eraseNolock (c : κ) : List (Write κ ι) :=
  let k := w.cache c
  if isConstantOptimizedCache b k then setBucketsAndMask b c emptyBuckets 0
  else if k.occupied > 0 then
    match emptyBucketsForCapacity b w k.capacity true with
    | (ws, some buckets) => ws ++ setBucketsAndMask b c buckets (k.capacity - 1)
    | (ws, none) => ws
  else []

end Operations

end ObjcRuntime.Cache
