import ObjcRuntime.Cache.Buckets

/-!
# ObjcRuntime.Cache.Sound

What every operation on the caches keeps (`Inv`).

A cache uses either an array of its own, which is `Filled` and has `_occupied`
selectors, or a shared empty array. The shared arrays stay empty: an insertion
into a cache that uses one always allocates first. No two caches own the same
array, so an operation on one cache does not change what another one holds.

The fill limits leave an empty bucket for every insertion, hence `insert` always
succeeds (`insert_spec`).
-/

namespace ObjcRuntime.Cache

open Function Lib List Finset World

variable {κ ι : Type} {b : Build}

/-! ### What the stores of an operation amount to -/

section Writes

variable (w : World κ ι)

@[simp] theorem World.setBucket_arrays (a) (i : Nat) (x) :
    (w.setBucket a i x).arrays a = (w.arrays a).set i x := update_self ..

@[simp] theorem World.setBucket_setBucket (a) (i : Nat) (x y) :
    (w.setBucket a i x).setBucket a i y = w.setBucket a i y := by
  unfold setBucket
  dsimp only
  rw [update_self, update_idem, set_set]

variable [DecidableEq κ]

@[simp] theorem World.writes_nil : w.writes [] = w := rfl

@[simp] theorem World.writes_cons (x) (ws) : w.writes (x :: ws) = (w.write x).writes ws := rfl

@[simp] theorem World.writes_append (ws ws') :
    w.writes (ws ++ ws') = (w.writes ws).writes ws' := foldl_append

@[simp] theorem World.setCache_cache (c : κ) (k) : (w.setCache c k).cache c = k :=
  update_self ..

@[simp] theorem World.setCache_setCache (c : κ) (k k') :
    (w.setCache c k).setCache c k' = w.setCache c k' := by
  unfold setCache
  rw [update_idem]

/-- A new array with these contents. -/
def World.alloc (l : List (Bucket ι)) : World κ ι :=
  { w with arrays := update w.arrays w.fresh l, fresh := w.fresh + 1 }

theorem writes_setBucketsAndMask (c : κ) (a) (m : Nat) :
    w.writes (setBucketsAndMask b c a m) = w.setCache c ⟨a, m, 0⟩ := by
  unfold setBucketsAndMask
  split <;> simp [write]

variable {w}

theorem writes_bucketSet {a i} (hi : i < (w.arrays a).length) (sel : Nat)
    (x) : w.writes (Bucket.set b a i sel x) = w.setBucket a i ⟨x, sel⟩ := by
  unfold Bucket.set
  split
  · rw [writes_cons, writes_cons, writes_nil, write, write,
      setBucket_arrays, at_set hi, if_pos rfl, setBucket_setBucket]
  · rfl

theorem writes_allocateBuckets (mask : Nat) :
    w.writes (allocateBuckets b w (mask + 1)) =
      w.alloc (freshBuckets b w.fresh (mask + 1)) := by
  unfold allocateBuckets freshBuckets
  have hat : (w.write (.calloc (mask + 1))).arrays w.fresh = replicate (mask + 1) .zero :=
    update_self ..
  rw [writes_cons]
  split
  · rw [writes_bucketSet (by rw [hat, length_replicate]; omega)]
    unfold setBucket
    rw [hat]
    unfold write alloc
    rw [update_idem]
  · rfl

theorem writes_reallocate (c : κ) (mask : Nat) :
    w.writes (reallocate b w c (mask + 1)) =
      (w.alloc (freshBuckets b w.fresh (mask + 1))).setCache c ⟨w.fresh, mask, 0⟩ := by
  unfold reallocate
  rw [writes_append, writes_allocateBuckets, writes_setBucketsAndMask, Nat.add_sub_cancel]

end Writes

/-! ### The invariant -/

/-- The arrays that no cache owns. -/
def World.Shared (w : World κ ι) (a : ArrayId) : Prop := a = emptyBuckets ∨ a ∈ w.emptyBucketsList

/-- The shared arrays are empty and as large as the capacities they serve. -/
structure SharedOk (b : Build) (w : World κ ι) : Prop where
  lt_fresh : ∀ a, w.Shared a → a < w.fresh
  zero : ∀ a, w.Shared a → ∀ i, at_ (w.arrays a) i = .zero
  length_empty : (w.arrays emptyBuckets).length = b.emptyBytes / bucketSize
  length_list : ∀ i a, w.emptyBucketsList[i]? = some a → 2 ^ i ≤ (w.arrays a).length

/-- The masks of allocated caches. -/
def SizeOk (mask : Nat) : Prop := ∃ j, 1 ≤ j ∧ j ≤ 16 ∧ mask + 1 = 2 ^ j

/-- The cache uses an array of its own. -/
structure Owns (b : Build) (w : World κ ι) (k : CacheT) : Prop where
  notShared : ¬ w.Shared k.buckets
  lt_fresh : k.buckets < w.fresh
  filled : Filled b k.buckets k.mask (w.arrays k.buckets)
  occupied : k.occupied = (stored b k.mask (w.arrays k.buckets)).card

inductive CacheOk (b : Build) (w : World κ ι) : CacheT → Prop
  | initial : CacheOk b w ⟨emptyBuckets, 0, 0⟩
  | erased {k} : SizeOk k.mask → k.occupied = 0 →
      (emptyBucketsForCapacity b w k.capacity false).2 = some k.buckets → CacheOk b w k
  | own {k} : SizeOk k.mask → Owns b w k → CacheOk b w k

structure Inv (b : Build) (w : World κ ι) : Prop where
  shared : SharedOk b w
  cache : ∀ c, CacheOk b w (w.cache c)
  own : ∀ c d, (w.cache c).buckets = (w.cache d).buckets → c = d ∨ w.Shared (w.cache c).buckets

/-! ### Capacities -/

section Capacity

variable {w : World κ ι} {k : CacheT}

theorem SizeOk.le {mask} (h : SizeOk mask) : 1 ≤ mask ∧ mask + 1 ≤ 2 ^ 16 := by
  obtain ⟨j, hj, hj', heq⟩ := h
  have hlow : 2 ^ 1 ≤ 2 ^ j := Nat.pow_le_pow_right (by omega) hj
  have hhigh : 2 ^ j ≤ 2 ^ 16 := Nat.pow_le_pow_right (by omega) hj'
  omega

theorem SizeOk.capacity (h : SizeOk k.mask) : k.capacity = k.mask + 1 := by
  have := h.le
  unfold CacheT.capacity
  rw [if_pos (by omega)]

theorem sizeOk_init (b : Build) : ∃ mask, SizeOk mask ∧ b.initCacheSize = mask + 1 := by
  unfold Build.initCacheSize
  split
  · exact ⟨3, ⟨2, by omega, by omega, rfl⟩, rfl⟩
  · exact ⟨1, ⟨1, by omega, by omega, rfl⟩, rfl⟩

theorem SizeOk.doubled {mask} (h : SizeOk mask) :
    ∃ mask', SizeOk mask' ∧ mask ≤ mask' ∧
      (if (mask + 1) * 2 > maxCacheSize then maxCacheSize else (mask + 1) * 2) = mask' + 1 := by
  obtain ⟨j, hj, hj', heq⟩ := id h
  have hle := h.le
  have hmax : maxCacheSize = 2 ^ 16 := rfl
  split
  · exact ⟨2 ^ 16 - 1, ⟨16, by omega, by omega, rfl⟩, by omega, rfl⟩
  next hsmall =>
    refine ⟨mask * 2 + 1, ⟨j + 1, by omega, ?_, by rw [pow_succ]; omega⟩, by omega, by omega⟩
    have hpow : 2 ^ (j + 1) ≤ 2 ^ 16 := by rw [pow_succ]; omega
    exact (Nat.pow_le_pow_iff_right (by omega)).1 hpow

theorem shared_of_emptyBucketsForCapacity {capacity a}
    (h : (emptyBucketsForCapacity b w capacity false).2 = some a) : w.Shared a := by
  unfold emptyBucketsForCapacity at h
  split at h
  · exact .inl (Option.some.inj h).symm
  · dsimp only at h
    split at h
    · cases h
    · exact .inr (mem_of_getElem? h)

theorem Owns.not_isConstantEmptyCache (h : Owns b w k) : isConstantEmptyCache b w k = false := by
  unfold isConstantEmptyCache
  rw [decide_eq_false_iff_not]
  intro hempty
  exact h.notShared (shared_of_emptyBucketsForCapacity hempty.2.symm)

theorem cacheFillRatio_le (b : Build) (capacity : Nat) :
    b.cacheFillRatio capacity ≤ capacity * 7 / 8 := by
  unfold Build.cacheFillRatio
  split <;> omega

/-- An insertion either moves to an array that is not smaller, or finds room in
the one that its cache owns. -/
theorem newCapacity_cases (h : CacheOk b w k) :
    (∃ mask, SizeOk mask ∧ k.mask ≤ mask ∧ newCapacity b w k = some (mask + 1)) ∨
    (newCapacity b w k = none ∧ SizeOk k.mask ∧ Owns b w k ∧
      k.occupied + b.cacheEndMarker ≤ k.mask ∧ k.occupied + 1 < 2 ^ 16) := by
  unfold newCapacity
  cases h with
  | initial =>
    have hempty : isConstantEmptyCache b w ⟨emptyBuckets, 0, 0⟩ := by
      unfold isConstantEmptyCache emptyBucketsForCapacity
      simp [CacheT.capacity]
    obtain ⟨mask, hsize, heq⟩ := sizeOk_init b
    left
    rw [if_pos hempty, if_pos (show CacheT.capacity ⟨emptyBuckets, 0, 0⟩ = 0 from rfl), heq]
    exact ⟨mask, hsize, Nat.zero_le _, rfl⟩
  | erased hsize hocc hbuckets =>
    have hempty : isConstantEmptyCache b w k := by
      unfold isConstantEmptyCache
      rw [decide_eq_true_iff]
      exact ⟨hocc, hbuckets.symm⟩
    left
    rw [if_pos hempty, hsize.capacity, if_neg (by omega)]
    exact ⟨k.mask, hsize, le_refl _, rfl⟩
  | own hsize hown =>
    have hle := hsize.le
    have hratio := cacheFillRatio_le b (k.mask + 1)
    rw [hown.not_isConstantEmptyCache, if_neg Bool.false_ne_true, hsize.capacity]
    by_cases hfast : k.occupied + 1 + b.cacheEndMarker ≤ b.cacheFillRatio (k.mask + 1)
    · rw [if_pos hfast]
      exact .inr ⟨rfl, hsize, hown, by omega, by omega⟩
    · rw [if_neg hfast]
      split
      next hfull =>
        have hsmall : k.mask + 1 ≤ 8 := hfull.2.1
        exact .inr ⟨rfl, hsize, hown, by omega, by omega⟩
      · obtain ⟨mask, hmask, hge, heq⟩ := hsize.doubled
        exact .inl ⟨mask, hmask, hge, congrArg some heq⟩

end Capacity

/-! ### Frames -/

section Frame

variable {w w' : World κ ι}

/-- What an operation may do to the shared arrays: list new ones. -/
structure Grows (w w' : World κ ι) : Prop where
  fresh : w.fresh ≤ w'.fresh
  list : ∃ added, w'.emptyBucketsList = w.emptyBucketsList ++ added ∧ ∀ a ∈ added, w.fresh ≤ a

theorem Grows.of_list_eq (hfresh : w.fresh ≤ w'.fresh)
    (hlist : w'.emptyBucketsList = w.emptyBucketsList) : Grows w w' :=
  ⟨hfresh, [], by rw [hlist, append_nil], fun _ h => absurd h not_mem_nil⟩

variable (h : Grows w w')
include h

theorem Grows.shared {a} (ha : w.Shared a) : w'.Shared a := by
  obtain ⟨added, hlist, -⟩ := h.list
  cases ha with
  | inl ha => exact .inl ha
  | inr ha =>
    refine .inr ?_
    rw [hlist]
    exact mem_append_left added ha

theorem Grows.not_shared {a} (ha : ¬ w.Shared a) (hlt : a < w.fresh) : ¬ w'.Shared a := by
  obtain ⟨added, hlist, hadded⟩ := h.list
  intro hshared
  cases hshared with
  | inl heq => exact ha (.inl heq)
  | inr hmem =>
    rw [hlist] at hmem
    rcases mem_append.1 hmem with hold | hnew
    · exact ha (.inr hold)
    · exact absurd (hadded a hnew) (Nat.not_le.2 hlt)

theorem Grows.emptyBucketsForCapacity {capacity a}
    (ha : (emptyBucketsForCapacity b w capacity false).2 = some a) :
    (Cache.emptyBucketsForCapacity b w' capacity false).2 = some a := by
  obtain ⟨added, hlist, -⟩ := h.list
  unfold Cache.emptyBucketsForCapacity at ha ⊢
  split at ha
  next hsmall => rw [if_pos hsmall]; exact ha
  next hlarge =>
    rw [if_neg hlarge]
    dsimp only at ha ⊢
    split at ha
    · cases ha
    next hindex =>
      have hlt := Nat.lt_of_not_le hindex
      rw [if_neg (by rw [hlist, length_append]; omega)]
      rw [hlist, getElem?_append_left hlt]
      exact ha

theorem Owns.frame {k} (hk : Owns b w k)
    (harray : w'.arrays k.buckets = w.arrays k.buckets) : Owns b w' k := by
  refine ⟨h.not_shared hk.notShared hk.lt_fresh, lt_of_lt_of_le hk.lt_fresh h.fresh, ?_, ?_⟩
  · rw [harray]
    exact hk.filled
  · rw [harray]
    exact hk.occupied

theorem CacheOk.frame {k} (hk : CacheOk b w k)
    (harray : Owns b w k → w'.arrays k.buckets = w.arrays k.buckets) : CacheOk b w' k := by
  cases hk with
  | initial => exact .initial
  | erased hsize hocc hbuckets => exact .erased hsize hocc (h.emptyBucketsForCapacity hbuckets)
  | own hsize hown => exact .own hsize (hown.frame h (harray hown))

omit h

theorem CacheOk.lt_fresh (hs : SharedOk b w) {k} (h : CacheOk b w k) : k.buckets < w.fresh := by
  cases h with
  | initial => exact hs.lt_fresh _ (.inl rfl)
  | erased _ _ hbuckets => exact hs.lt_fresh _ (shared_of_emptyBucketsForCapacity hbuckets)
  | own _ hown => exact hown.lt_fresh

theorem SharedOk.frame (h : SharedOk b w) (hfresh : w.fresh ≤ w'.fresh)
    (hlist : w'.emptyBucketsList = w.emptyBucketsList)
    (harrays : ∀ a, w.Shared a → w'.arrays a = w.arrays a) : SharedOk b w' := by
  have hshared : ∀ a, w'.Shared a → w.Shared a := by
    intro a ha
    unfold World.Shared at ha ⊢
    rw [hlist] at ha
    exact ha
  refine ⟨fun a ha => lt_of_lt_of_le (h.lt_fresh a (hshared a ha)) hfresh, fun a ha i => ?_, ?_,
    fun i a hi => ?_⟩
  · rw [harrays a (hshared a ha)]
    exact h.zero a (hshared a ha) i
  · rw [harrays _ (.inl rfl)]
    exact h.length_empty
  · rw [hlist] at hi
    rw [harrays a (.inr (mem_of_getElem? hi))]
    exact h.length_list i a hi

theorem Inv.update (h : Inv b w) (hgrows : Grows w w') (hshared : SharedOk b w') {c}
    (hcache : ∀ d, d ≠ c → w'.cache d = w.cache d) (harrays : ∀ d, d ≠ c → Owns b w (w.cache d) →
      w'.arrays (w.cache d).buckets = w.arrays (w.cache d).buckets) (hc : CacheOk b w' (w'.cache c))
    (hown : ∀ d, d ≠ c → (w'.cache c).buckets = (w.cache d).buckets →
      w'.Shared (w'.cache c).buckets) : Inv b w' := by
  refine ⟨hshared, fun d => ?_, fun d e heq => ?_⟩
  · by_cases hd : d = c
    · rw [hd]; exact hc
    · rw [hcache d hd]
      exact (h.cache d).frame hgrows (harrays d hd)
  · by_cases hd : d = c
    · by_cases he : e = c
      · exact .inl (hd.trans he.symm)
      · rw [hd] at heq ⊢
        rw [hcache e he] at heq
        exact .inr (hown e he heq)
    · by_cases he : e = c
      · rw [he] at heq
        rw [heq]
        rw [hcache d hd] at heq
        exact .inr (hown d hd heq.symm)
      · rw [hcache d hd, hcache e he] at heq
        rw [hcache d hd]
        exact (h.own d e heq).imp_right hgrows.shared

end Frame

/-! ### Insertion -/

/-- Cache `c` pairs `sel` with an imp. -/
def World.Holds (b : Build) (w : World κ ι) (c : κ) (sel : Nat) (x : ImpField ι) : Prop :=
  ∃ i, i ∈ stored b (w.cache c).mask (w.arrays (w.cache c).buckets) ∧
    at_ (w.arrays (w.cache c).buckets) i = ⟨x, sel⟩

section Insert

variable {w : World κ ι} {c : κ}

theorem Holds.congr {w' : World κ ι} {d sel x} (h : w'.Holds b d sel x)
    (hcache : w'.cache d = w.cache d)
    (harray : w'.arrays (w.cache d).buckets = w.arrays (w.cache d).buckets) :
    w.Holds b d sel x := by
  unfold World.Holds at h
  rw [hcache, harray] at h
  exact h

/-- The cache owns an array with room for one more selector. -/
structure HasRoom (b : Build) (w : World κ ι) (k : CacheT) : Prop where
  size : SizeOk k.mask
  owns : Owns b w k
  room : k.occupied + b.cacheEndMarker ≤ k.mask
  small : k.occupied + 1 < 2 ^ 16

theorem not_isConstantOptimizedCache {k} (h : CacheOk b w k) :
    isConstantOptimizedCache b k = false := by
  unfold isConstantOptimizedCache
  rw [decide_eq_false_iff_not]
  intro hpreopt
  have hmask : ∀ {k : CacheT}, SizeOk k.mask → k.mask ≠ 0 := fun hsize => by
    have := hsize.le
    omega
  cases h with
  | initial => exact hpreopt.2.2 rfl
  | erased hsize | own hsize => exact hmask hsize hpreopt.2.1

variable [DecidableEq κ]

theorem reallocate_spec (h : Inv b w) (c : κ) {mask} (hsize : SizeOk mask) :
    Inv b (w.writes (reallocate b w c (mask + 1))) ∧
    HasRoom b (w.writes (reallocate b w c (mask + 1))) ⟨w.fresh, mask, 0⟩ ∧
    (w.writes (reallocate b w c (mask + 1))).cache c = ⟨w.fresh, mask, 0⟩ ∧
    ∀ d sel x, (w.writes (reallocate b w c (mask + 1))).Holds b d sel x →
      d ≠ c ∧ w.Holds b d sel x := by
  rw [writes_reallocate]
  generalize hw' : (w.alloc (freshBuckets b w.fresh (mask + 1))).setCache c ⟨w.fresh, mask, 0⟩ = w'
  have hlist : w'.emptyBucketsList = w.emptyBucketsList := by rw [← hw']; rfl
  have hfresh : w'.fresh = w.fresh + 1 := by rw [← hw']; rfl
  have hnew : w'.arrays w.fresh = freshBuckets b w.fresh (mask + 1) := by
    rw [← hw']; exact update_self ..
  have harrays : ∀ a, a < w.fresh → w'.arrays a = w.arrays a := by
    intro a ha
    rw [← hw']
    exact update_of_ne (ne_of_lt ha) ..
  have hcache : ∀ d, d ≠ c → w'.cache d = w.cache d := by
    intro d hd
    rw [← hw']
    exact update_of_ne hd ..
  have hc : w'.cache c = ⟨w.fresh, mask, 0⟩ := by rw [← hw']; exact setCache_cache ..
  have hgrow : w.fresh ≤ w'.fresh := by rw [hfresh]; exact Nat.le_succ _
  have hgrows : Grows w w' := .of_list_eq hgrow hlist
  have hlt : ∀ d, (w.cache d).buckets < w.fresh := fun d => (h.cache d).lt_fresh h.shared
  have howns : Owns b w' ⟨w.fresh, mask, 0⟩ := by
    refine ⟨fun hshared => ?_, by rw [hfresh]; exact Nat.lt_succ_self _, ?_, ?_⟩
    · have hold : w.Shared w.fresh := by
        unfold World.Shared at hshared ⊢
        rw [hlist] at hshared
        exact hshared
      exact absurd (h.shared.lt_fresh _ hold) (lt_irrefl _)
    · rw [hnew]
      exact filled_freshBuckets
    · rw [hnew, stored_freshBuckets, card_empty]
  have hroom : HasRoom b w' ⟨w.fresh, mask, 0⟩ := by
    have hend := b.cacheEndMarker_le
    have hle := hsize.le
    exact ⟨hsize, howns, show 0 + b.cacheEndMarker ≤ mask by omega, show 0 + 1 < 2 ^ 16 by omega⟩
  have hkept : ∀ d sel x, w'.Holds b d sel x → d ≠ c ∧ w.Holds b d sel x := by
    intro d sel x hholds
    by_cases hd : d = c
    · obtain ⟨i, hi, -⟩ := hholds
      rw [hd, hc, hnew, stored_freshBuckets] at hi
      exact absurd hi (notMem_empty i)
    · exact ⟨hd, Holds.congr hholds (hcache d hd) (harrays _ (hlt d))⟩
  refine ⟨h.update hgrows ?_ hcache (fun d _ _ => harrays _ (hlt d)) ?_ ?_, hroom, hc, hkept⟩
  · exact h.shared.frame hgrow hlist fun a ha => harrays a (h.shared.lt_fresh a ha)
  · rw [hc]
    exact .own hsize howns
  · intro d _ heq
    rw [hc] at heq
    exact absurd (hlt d) (by rw [← heq]; exact lt_irrefl _)

theorem makeRoom_spec (h : Inv b w) (c : κ) :
    Inv b (w.writes (makeRoom b w c).1) ∧
    HasRoom b (w.writes (makeRoom b w c).1) ((w.writes (makeRoom b w c).1).cache c) ∧
    (makeRoom b w c).2 = ((w.writes (makeRoom b w c).1).cache c).mask + 1 ∧
    ∀ d sel x, (w.writes (makeRoom b w c).1).Holds b d sel x → w.Holds b d sel x := by
  unfold makeRoom
  rcases newCapacity_cases (h.cache c) with
    ⟨mask, hsize, -, hcap⟩ | ⟨hcap, hsize, hown, hroom, hsmall⟩
  · rw [hcap]
    obtain ⟨hinv, hroom, hc, hkept⟩ := reallocate_spec h c hsize
    refine ⟨hinv, ?_, ?_, fun d sel x hholds => (hkept d sel x hholds).2⟩
    · rw [hc]
      exact hroom
    · rw [hc]
  · rw [hcap]
    exact ⟨h, ⟨hsize, hown, hroom, hsmall⟩, hsize.capacity, fun d sel x hholds => hholds⟩

theorem fill_spec (h : Inv b w) (hroom : HasRoom b w (w.cache c)) {i sel} (hsel : sel ≠ 0)
    (hi : i ≤ (w.cache c).mask)
    (hstop : StopsAt b (w.cache c).mask (w.arrays (w.cache c).buckets) sel i)
    (hzero : (at_ (w.arrays (w.cache c).buckets) i).sel = 0) (x) {w'}
    (hw' : w' = (w.setCache c { w.cache c with occupied := (w.cache c).occupied + 1 }).setBucket
      (w.cache c).buckets i ⟨x, sel⟩) :
    Inv b w' ∧ ∀ d s y, w'.Holds b d s y → d = c ∧ s = sel ∧ y = x ∨ w.Holds b d s y := by
  obtain ⟨hsize, howns, -, -⟩ := hroom
  obtain ⟨hfilled, hstored, hnew⟩ := howns.filled.set hsel hi hstop hzero x
  have hlist : w'.emptyBucketsList = w.emptyBucketsList := by rw [hw']; rfl
  have hfresh : w'.fresh = w.fresh := by rw [hw']; rfl
  have hown : w'.arrays (w.cache c).buckets = (w.arrays (w.cache c).buckets).set i ⟨x, sel⟩ := by
    rw [hw']; exact setBucket_arrays ..
  have harrays : ∀ a, a ≠ (w.cache c).buckets → w'.arrays a = w.arrays a := by
    intro a ha
    rw [hw']
    exact update_of_ne ha ..
  have hc : w'.cache c = { w.cache c with occupied := (w.cache c).occupied + 1 } := by
    rw [hw']; exact setCache_cache ..
  have hcache : ∀ d, d ≠ c → w'.cache d = w.cache d := by
    intro d hd
    rw [hw']
    exact update_of_ne hd ..
  have hgrows : Grows w w' := .of_list_eq (le_of_eq hfresh.symm) hlist
  -- another cache with the same array would share it
  have hne : ∀ d, d ≠ c → (w.cache d).buckets ≠ (w.cache c).buckets := by
    intro d hd heq
    rcases h.own d c heq with hdc | hshared
    · exact hd hdc
    · rw [heq] at hshared
      exact howns.notShared hshared
  have hat := at_set (show i < (w.arrays (w.cache c).buckets).length by
    rw [howns.filled.length]; omega) (⟨x, sel⟩ : Bucket ι)
  refine ⟨h.update hgrows ?_ hcache (fun d hd _ => harrays _ (hne d hd)) ?_ ?_, ?_⟩
  · refine h.shared.frame (le_of_eq hfresh.symm) hlist fun a ha => harrays a ?_
    intro heq
    rw [heq] at ha
    exact howns.notShared ha
  · rw [hc]
    refine .own hsize ⟨hgrows.not_shared howns.notShared howns.lt_fresh, ?_, ?_, ?_⟩
    · rw [hfresh]
      exact howns.lt_fresh
    · rw [hown]
      exact hfilled
    · rw [hown, hstored, card_insert_of_notMem hnew, howns.occupied]
  · intro d hd heq
    rw [hc] at heq
    exact absurd heq.symm (hne d hd)
  · intro d s y hholds
    by_cases hd : d = c
    · obtain ⟨j, hj, hpair⟩ := hholds
      rw [hd, hc] at hj hpair
      rw [hown] at hj hpair
      rw [hat] at hpair
      split at hpair
      · obtain ⟨rfl, rfl⟩ := Bucket.mk.inj hpair
        exact .inl ⟨hd, rfl, rfl⟩
      next hji =>
        rw [hstored] at hj
        refine .inr ⟨j, ?_, ?_⟩
        · rw [hd]
          exact (mem_insert.1 hj).resolve_left hji
        · rw [hd]
          exact hpair
    · exact .inr (Holds.congr hholds (hcache d hd) (harrays _ (hne d hd)))

/-- **`cache_t::insert` always succeeds**, and the only pairing it can add is its
own. -/
theorem insert_spec (h : Inv b w) (c : κ) {sel} (hsel : sel ≠ 0) (imp : ι) :
    ∃ ws, insert b w c sel imp = .ok ws ∧ Inv b (w.writes ws) ∧
      ∀ d s x, (w.writes ws).Holds b d s x →
        d = c ∧ s = sel ∧ x = .imp imp ∨ w.Holds b d s x := by
  obtain ⟨hinv, hroom, hcap, hkept⟩ := makeRoom_spec h c
  unfold insert
  rw [not_isConstantOptimizedCache (h.cache c), if_neg Bool.false_ne_true]
  dsimp only
  generalize makeRoom b w c = room at hinv hroom hcap hkept ⊢
  rw [hcap, Nat.add_sub_cancel]
  generalize hw₁ : w.writes room.1 = w₁ at hinv hroom hcap hkept ⊢
  obtain ⟨j, -, -, hpow⟩ := id hroom.size
  have hfree := hroom.room
  rw [hroom.owns.occupied] at hfree
  obtain ⟨i, hi, hstop, hslot⟩ := findSlot_cases hpow hfree sel
  rcases hslot with ⟨hzero, hslot⟩ | ⟨-, -, hslot⟩
  · rw [hslot]
    refine ⟨_, rfl, ?_⟩
    have hwrites : w.writes (room.1 ++ Write.occupied c (((w₁.cache c).occupied + 1) % 2 ^ 16) ::
        Bucket.set b (w₁.cache c).buckets i sel (.imp imp)) =
        (w₁.setCache c { w₁.cache c with occupied := (w₁.cache c).occupied + 1 }).setBucket
          (w₁.cache c).buckets i ⟨.imp imp, sel⟩ := by
      rw [writes_append, hw₁, writes_cons, Nat.mod_eq_of_lt hroom.small]
      refine writes_bucketSet ?_ sel (.imp imp)
      change i < (w₁.arrays (w₁.cache c).buckets).length
      rw [hroom.owns.filled.length]
      exact Nat.lt_succ_of_le hi
    obtain ⟨hinv', hpairs⟩ := fill_spec hinv hroom hsel hi hstop hzero (.imp imp) hwrites
    exact ⟨hinv', fun d s x hholds => (hpairs d s x hholds).imp_right (hkept d s x)⟩
  · rw [hslot]
    refine ⟨_, rfl, ?_⟩
    rw [hw₁]
    exact ⟨hinv, fun d s x hholds => .inr (hkept d s x hholds)⟩

end Insert

/-! ### Erasing -/

section Erase

variable {w : World κ ι} {c : κ}

theorem not_holds_of_occupied (hs : SharedOk b w) (h : CacheOk b w (w.cache c))
    (hocc : (w.cache c).occupied = 0) {s x} : ¬ w.Holds b c s x := by
  rintro ⟨i, hi, -⟩
  have hshared : w.Shared (w.cache c).buckets → False := by
    intro hshared
    exact (mem_stored.1 hi).2.1 (congrArg Bucket.sel (hs.zero _ hshared i))
  generalize w.cache c = k at h hocc hi hshared
  cases h with
  | initial => exact hshared (.inl rfl)
  | erased _ _ hbuckets => exact hshared (shared_of_emptyBucketsForCapacity hbuckets)
  | own _ hown =>
    rw [hown.occupied] at hocc
    rw [card_eq_zero.1 hocc] at hi
    exact absurd hi (notMem_empty i)

variable [DecidableEq κ]

theorem SharedOk.list_alloc (h : SharedOk b w) {j} (hj : w.emptyBucketsList.length ≤ j) {w'}
    (hw' : w' = w.writes [.calloc (2 ^ j), .emptyBucketsList (w.emptyBucketsList ++
      replicate (j + 1 - w.emptyBucketsList.length) w.fresh)]) :
    SharedOk b w' ∧ Grows w w' ∧ w'.emptyBucketsList[j]? = some w.fresh := by
  have hlist : w'.emptyBucketsList = w.emptyBucketsList ++
      replicate (j + 1 - w.emptyBucketsList.length) w.fresh := by rw [hw']; rfl
  have hfresh : w'.fresh = w.fresh + 1 := by rw [hw']; rfl
  have hnew : w'.arrays w.fresh = replicate (2 ^ j) .zero := by
    rw [hw']; exact update_self ..
  have hold : ∀ a, w.Shared a → w'.arrays a = w.arrays a := by
    intro a ha
    rw [hw']
    exact update_of_ne (ne_of_lt (h.lt_fresh a ha)) ..
  have hcases : ∀ a, w'.Shared a → w.Shared a ∨ a = w.fresh := by
    intro a ha
    cases ha with
    | inl ha => exact .inl (.inl ha)
    | inr ha =>
      rw [hlist] at ha
      rcases mem_append.1 ha with ha | ha
      · exact .inl (.inr ha)
      · exact .inr (eq_of_mem_replicate ha)
  have hget : ∀ i, w.emptyBucketsList.length ≤ i → i ≤ j →
      w'.emptyBucketsList[i]? = some w.fresh := by
    intro i hlow hi
    rw [hlist, getElem?_append_right hlow, getElem?_replicate, if_pos (by omega)]
  refine ⟨⟨fun a ha => ?_, fun a ha i => ?_, ?_, fun i a hi => ?_⟩, ⟨?_, _, hlist, ?_⟩,
    hget j hj (le_refl j)⟩
  · rw [hfresh]
    rcases hcases a ha with ha | ha
    · exact Nat.lt_succ_of_lt (h.lt_fresh a ha)
    · rw [ha]; exact Nat.lt_succ_self _
  · rcases hcases a ha with ha | ha
    · rw [hold a ha]; exact h.zero a ha i
    · rw [ha, hnew, at_replicate]
  · rw [hold _ (.inl rfl)]
    exact h.length_empty
  · by_cases hlow : i < w.emptyBucketsList.length
    · rw [hlist, getElem?_append_left hlow] at hi
      rw [hold a (.inr (mem_of_getElem? hi))]
      exact h.length_list i a hi
    · have hij : i ≤ j := by
        have hlt := (List.getElem?_eq_some_iff.1 hi).1
        rw [hlist, length_append, length_replicate] at hlt
        omega
      rw [hget i (by omega) hij] at hi
      cases hi
      rw [hnew, length_replicate]
      exact Nat.pow_le_pow_right (by omega) hij
  · rw [hfresh]
    exact Nat.le_succ _
  · intro a ha
    exact le_of_eq (eq_of_mem_replicate ha).symm

theorem emptyBuckets_allocate (h : SharedOk b w) {mask} (hsize : SizeOk mask) :
    ∃ ws a, emptyBucketsForCapacity b w (mask + 1) true = (ws, some a) ∧
      SharedOk b (w.writes ws) ∧ Grows w (w.writes ws) ∧ (w.writes ws).cache = w.cache ∧
      (∀ a, a < w.fresh → (w.writes ws).arrays a = w.arrays a) ∧
      (emptyBucketsForCapacity b (w.writes ws) (mask + 1) false).2 = some a := by
  obtain ⟨j, -, -, hpow⟩ := hsize
  rw [hpow]
  by_cases hsmall : bucketSize * 2 ^ j ≤ b.emptyBytes
  · refine ⟨[], emptyBuckets, ?_, h, .of_list_eq le_rfl rfl, rfl, fun _ _ => rfl, ?_⟩
    · unfold emptyBucketsForCapacity
      rw [if_pos hsmall]
    · unfold emptyBucketsForCapacity
      rw [if_pos hsmall]
  · unfold emptyBucketsForCapacity
    simp only [if_neg hsmall, Nat.log2_two_pow]
    by_cases hindex : w.emptyBucketsList.length ≤ j
    · obtain ⟨hshared, hgrows, hget⟩ := h.list_alloc hindex rfl
      refine ⟨_, w.fresh, by rw [if_pos hindex]; rfl, hshared, hgrows, rfl, fun a ha => ?_, ?_⟩
      · exact update_of_ne (ne_of_lt ha) ..
      · rw [if_neg]
        · exact hget
        · exact Nat.not_le.2 (List.getElem?_eq_some_iff.1 hget).1
    · have hlt := Nat.lt_of_not_le hindex
      refine ⟨[], w.emptyBucketsList[j], ?_, h, .of_list_eq le_rfl rfl, rfl, fun _ _ => rfl, ?_⟩
      · rw [if_neg hindex, getElem?_eq_getElem hlt]
      · rw [writes_nil, if_neg hindex]
        exact getElem?_eq_getElem hlt

theorem Inv.share (h : Inv b w) {w'} (hgrows : Grows w w') (hshared : SharedOk b w')
    (hcache : w'.cache = w.cache) (harrays : ∀ a, a < w.fresh → w'.arrays a = w.arrays a)
    {k} (hk : CacheOk b w' k) (hbuckets : w'.Shared k.buckets) :
    Inv b (w'.setCache c k) ∧
      ∀ d s x, (w'.setCache c k).Holds b d s x → d ≠ c ∧ w.Holds b d s x := by
  have hlt : ∀ d, (w.cache d).buckets < w.fresh := fun d => (h.cache d).lt_fresh h.shared
  have hother : ∀ d, d ≠ c → (w'.setCache c k).cache d = w.cache d := by
    intro d hd
    rw [← hcache]
    exact update_of_ne hd ..
  have hgrows' : Grows w (w'.setCache c k) := ⟨hgrows.fresh, hgrows.list⟩
  have hshared' : SharedOk b (w'.setCache c k) := hshared.frame le_rfl rfl fun _ _ => rfl
  refine ⟨h.update hgrows' hshared' hother (fun d _ _ => harrays _ (hlt d)) ?_ ?_, ?_⟩
  · have hsame : Grows w' (w'.setCache c k) := .of_list_eq le_rfl rfl
    rw [setCache_cache]
    exact hk.frame hsame fun _ => rfl
  · intro d _ _
    rw [setCache_cache]
    exact hbuckets
  · intro d s x hholds
    by_cases hd : d = c
    · obtain ⟨i, hi, -⟩ := hholds
      rw [hd, setCache_cache] at hi
      have hzero : at_ (w'.arrays k.buckets) i = .zero := hshared.zero _ hbuckets i
      exact absurd (congrArg Bucket.sel hzero) (mem_stored.1 hi).2.1
    · exact ⟨hd, Holds.congr hholds (hother d hd) (harrays _ (hlt d))⟩

/-- Only a cache with an array of its own is occupied; it moves to a shared array
of the same size. -/
theorem eraseNolock_cases (h : Inv b w) (c : κ) :
    ((w.cache c).occupied = 0 ∧ eraseNolock b w c = []) ∨ ∃ ws a, SizeOk (w.cache c).mask ∧
      emptyBucketsForCapacity b w ((w.cache c).mask + 1) true = (ws, some a) ∧
      eraseNolock b w c = ws ++ setBucketsAndMask b c a (w.cache c).mask := by
  unfold eraseNolock
  dsimp only
  rw [not_isConstantOptimizedCache (h.cache c), if_neg Bool.false_ne_true]
  split
  next hocc =>
    have hsize : SizeOk (w.cache c).mask := by
      have hok := h.cache c
      generalize w.cache c = k at hok hocc
      cases hok with
      | initial => exact absurd hocc (lt_irrefl 0)
      | erased hsize | own hsize => exact hsize
    obtain ⟨ws, a, heq, -⟩ := emptyBuckets_allocate h.shared hsize
    refine .inr ⟨ws, a, hsize, heq, ?_⟩
    rw [hsize.capacity, heq, Nat.add_sub_cancel]
  next hocc => exact .inl ⟨Nat.eq_zero_of_not_pos hocc, rfl⟩

/-- **`eraseNolock` leaves nothing in its cache** and does not touch the others. -/
theorem eraseNolock_spec (h : Inv b w) (c : κ) :
    Inv b (w.writes (eraseNolock b w c)) ∧
      ∀ d s x, (w.writes (eraseNolock b w c)).Holds b d s x → d ≠ c ∧ w.Holds b d s x := by
  rcases eraseNolock_cases h c with ⟨hocc, herase⟩ | ⟨ws, a, hsize, hempty, herase⟩
  · rw [herase]
    refine ⟨h, fun d s x hholds => ⟨?_, hholds⟩⟩
    intro hd
    rw [hd] at hholds
    exact not_holds_of_occupied h.shared (h.cache c) hocc hholds
  · obtain ⟨ws', a', heq, hshared, hgrows, hcache, harrays, hget⟩ :=
      emptyBuckets_allocate h.shared hsize
    obtain ⟨rfl, ha⟩ := Prod.mk.inj (hempty.symm.trans heq)
    cases ha
    rw [herase, writes_append, writes_setBucketsAndMask]
    refine h.share hgrows hshared hcache harrays (.erased hsize rfl ?_)
      (shared_of_emptyBucketsForCapacity hget)
    rw [SizeOk.capacity (k := ⟨a, _, 0⟩) hsize]
    exact hget

end Erase

/-! ### What a cache holds -/

section Contents

variable {w : World κ ι}

theorem CacheOk.length_le (hs : SharedOk b w) {k} (h : CacheOk b w k) :
    k.mask + 1 ≤ (w.arrays k.buckets).length := by
  cases h with
  | initial =>
    rw [hs.length_empty]
    unfold Build.emptyBytes bucketSize
    split <;> decide
  | erased hsize _ hbuckets =>
    rw [hsize.capacity] at hbuckets
    obtain ⟨j, -, -, hpow⟩ := hsize
    unfold emptyBucketsForCapacity at hbuckets
    split at hbuckets
    next hsmall =>
      rw [← Option.some.inj hbuckets, hs.length_empty]
      exact (Nat.le_div_iff_mul_le (by decide)).2 (by rw [Nat.mul_comm]; exact hsmall)
    · dsimp only at hbuckets
      split at hbuckets
      · cases hbuckets
      · rw [hpow, Nat.log2_two_pow] at hbuckets
        rw [hpow]
        exact hs.length_list j _ hbuckets
  | own _ hown => exact le_of_eq hown.filled.length.symm

theorem CacheOk.pow {k} (h : CacheOk b w k) : ∃ j, k.mask + 1 = 2 ^ j := by
  cases h with
  | initial => exact ⟨0, rfl⟩
  | erased hsize | own hsize => obtain ⟨j, -, -, hpow⟩ := hsize; exact ⟨j, hpow⟩

theorem CacheOk.zero (hs : SharedOk b w) {k} (h : CacheOk b w k) {i}
    (hi : (at_ (w.arrays k.buckets) i).sel = 0) : at_ (w.arrays k.buckets) i = .zero := by
  cases h with
  | initial => exact hs.zero _ (.inl rfl) i
  | erased _ _ hbuckets => exact hs.zero _ (shared_of_emptyBucketsForCapacity hbuckets) i
  | own _ hown => exact hown.filled.zero i hi

theorem CacheOk.placed (hs : SharedOk b w) {k} (h : CacheOk b w k) {i}
    (hi : i ∈ stored b k.mask (w.arrays k.buckets)) :
    StopsAt b k.mask (w.arrays k.buckets) (at_ (w.arrays k.buckets) i).sel i := by
  have hshared : ¬ w.Shared k.buckets := fun hshared =>
    (mem_stored.1 hi).2.1 (congrArg Bucket.sel (hs.zero _ hshared i))
  cases h with
  | initial => exact absurd (.inl rfl) hshared
  | erased _ _ hbuckets => exact absurd (shared_of_emptyBucketsForCapacity hbuckets) hshared
  | own _ hown => exact hown.filled.placed i hi

theorem CacheOk.occupied_eq (hs : SharedOk b w) {k} (h : CacheOk b w k) :
    k.occupied = (stored b k.mask (w.arrays k.buckets)).card := by
  have hempty : w.Shared k.buckets → k.occupied = 0 →
      k.occupied = (stored b k.mask (w.arrays k.buckets)).card := by
    intro hshared hocc
    rw [hocc, eq_comm, card_eq_zero, eq_empty_iff_forall_notMem]
    intro i hi
    exact (mem_stored.1 hi).2.1 (congrArg Bucket.sel (hs.zero _ hshared i))
  cases h with
  | initial => exact hempty (.inl rfl) rfl
  | erased _ hocc hbuckets => exact hempty (shared_of_emptyBucketsForCapacity hbuckets) hocc
  | own _ hown => exact hown.occupied

end Contents

/-! ### All caches that can be reached -/

theorem init_inv (b) : Inv b (init b : World κ ι) := by
  have hshared : ∀ a, (init b : World κ ι).Shared a → a = emptyBuckets := by
    intro a ha
    exact ha.resolve_right not_mem_nil
  refine ⟨⟨fun a ha => ?_, fun a _ i => at_replicate _ _, length_replicate, fun i a hi => ?_⟩,
    fun c => .initial, fun c d _ => .inr (.inl rfl)⟩
  · rw [hshared a ha]
    exact Nat.lt_succ_self _
  · simp [init] at hi

/-- The caches that insertions and erasures reach; `imp c sel` is what every
insertion of `sel` into cache `c` brings until that cache is erased. -/
inductive Reachable [DecidableEq κ] (b : Build) : (κ → Nat → ι) → World κ ι → Prop
  | init (imp : κ → Nat → ι) : Reachable b imp (World.init b)
  | insert {imp w c sel ws} :
      Reachable b imp w → sel ≠ 0 → insert b w c sel (imp c sel) = .ok ws →
      Reachable b imp (w.writes ws)
  | erase {imp imp' w c} :
      Reachable b imp w → (∀ d, d ≠ c → imp' d = imp d) →
      Reachable b imp' (w.writes (eraseNolock b w c))

theorem reachable_inv [DecidableEq κ] {imp} {w : World κ ι} (h : Reachable b imp w) :
    Inv b w ∧ ∀ c sel x, w.Holds b c sel x → x = .imp (imp c sel) := by
  induction h with
  | init imp =>
    refine ⟨init_inv b, fun c sel x hholds => ?_⟩
    exact absurd hholds (not_holds_of_occupied (init_inv b).shared ((init_inv b).cache c) rfl)
  | @insert imp w c sel ws _ hsel hinsert ih =>
    obtain ⟨hinv, hpairs⟩ := ih
    obtain ⟨ws', heq, hinv', hpairs'⟩ := insert_spec hinv c hsel (imp c sel)
    obtain rfl := Except.ok.inj (heq.symm.trans hinsert)
    refine ⟨hinv', fun d s x hholds => ?_⟩
    rcases hpairs' d s x hholds with ⟨rfl, rfl, rfl⟩ | hold
    · rfl
    · exact hpairs d s x hold
  | @erase imp imp' w c _ himp ih =>
    obtain ⟨hinv, hpairs⟩ := ih
    obtain ⟨hinv', hpairs'⟩ := eraseNolock_spec hinv c
    refine ⟨hinv', fun d s x hholds => ?_⟩
    obtain ⟨hd, hold⟩ := hpairs' d s x hholds
    rw [himp d hd]
    exact hpairs d s x hold

end ObjcRuntime.Cache
