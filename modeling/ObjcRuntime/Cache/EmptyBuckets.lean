import ObjcRuntime.Cache.Sound

/-!
# ObjcRuntime.Cache.EmptyBuckets

The shared empty arrays are neither written nor freed.

Nothing records which arrays are shared: `isConstantEmptyCache` asks which array a cache
of this capacity would share. A run keeps the arrays that were stored to and those that
went to `collect_free`. Neither is shared when that happens, and since only new arrays
are listed it does not become shared later.
-/

namespace ObjcRuntime.Cache

open List Option Prod

variable {κ ι : Type} [DecidableEq κ] {b : Build} {w : World κ ι} {c : κ} {ws : List (Write κ ι)}

/-! ### Stores and frees -/

/-- The array that a store into a bucket goes to. -/
def Write.target : Write κ ι → Option ArrayId
  | .imp array _ _ => some array
  | .sel array _ _ => some array
  | .bucket array _ _ => some array
  | _ => none

/-- What `cache_t::insert` passes to `collect_free`: `reallocate` frees the old array unless the
cache is the read-only one. -/
def insertFrees (b : Build) (w : World κ ι) (c : κ) : Option ArrayId :=
  if isConstantEmptyCache b w (w.cache c) then none
  else (newCapacity b w (w.cache c)).map fun _ => (w.cache c).buckets

/-- What `cache_t::eraseNolock` passes to `collect_free`. -/
def eraseFrees (b : Build) (w : World κ ι) (c : κ) : Option ArrayId :=
  if isConstantOptimizedCache b (w.cache c) then none
  else if (w.cache c).occupied > 0 then some (w.cache c).buckets else none

/-- Insertions and erasures in any order, with the arrays stored to and freed so far. -/
inductive Runs (b : Build) : World κ ι → List ArrayId → List ArrayId → Prop
  | init : Runs b (World.init b) [] []
  | insert {w : World κ ι} {stored freed : List ArrayId} {c : κ} {sel : Nat} {imp : ι}
      {ws : List (Write κ ι)} : Runs b w stored freed → sel ≠ 0 → insert b w c sel imp = .ok ws →
      Runs b (w.writes ws) (stored ++ ws.filterMap Write.target)
        (freed ++ (insertFrees b w c).toList)
  | erase {w : World κ ι} {stored freed : List ArrayId} {c : κ} : Runs b w stored freed →
      Runs b (w.writes (eraseNolock b w c)) (stored ++ (eraseNolock b w c).filterMap Write.target)
        (freed ++ (eraseFrees b w c).toList)

/-! ### Caches -/

omit [DecidableEq κ] in
/-- A cache is the read-only one just if its array is shared. -/
theorem isConstantEmptyCache_iff (h : Inv b w) (c : κ) :
    isConstantEmptyCache b w (w.cache c) ↔ w.Shared (w.cache c).buckets := by
  constructor
  · intro hempty
    exact shared_of_emptyBucketsForCapacity (of_decide_eq_true hempty).2.symm
  · intro hshared
    have hcache := h.cache c
    generalize w.cache c = k at hcache hshared
    cases hcache with
    | initial => exact decide_eq_true ⟨rfl, by simp [emptyBucketsForCapacity, CacheT.capacity]⟩
    | erased _ hocc hbuckets => exact decide_eq_true ⟨hocc, hbuckets.symm⟩
    | own _ hown => exact absurd hshared hown.notShared

omit [DecidableEq κ] in
theorem not_shared_of_occupied (h : Inv b w) (hocc : 0 < (w.cache c).occupied) :
    ¬ w.Shared (w.cache c).buckets := by
  intro hshared
  have hempty := (of_decide_eq_true ((isConstantEmptyCache_iff h c).2 hshared)).1
  omega

/-! ### Steps -/

/-- Shared arrays are listed by one kind of store only. -/
theorem writes_emptyBucketsList (h : ∀ list, Write.emptyBucketsList list ∉ ws) :
    (w.writes ws).emptyBucketsList = w.emptyBucketsList := by
  induction ws generalizing w with
  | nil => rfl
  | cons x ws ih =>
    rw [World.writes_cons, ih fun list hmem => h list (mem_cons_of_mem _ hmem)]
    cases x with
    | emptyBucketsList list => exact absurd mem_cons_self (h list)
    | _ => rfl

theorem fresh_le_writes (w : World κ ι) (ws) : w.fresh ≤ (w.writes ws).fresh := by
  induction ws generalizing w with
  | nil => exact le_rfl
  | cons x ws ih =>
    refine le_trans ?_ (ih (w.write x))
    cases x with
    | calloc count => exact Nat.le_succ _
    | _ => exact le_rfl

theorem mem_makeRoom {x} (h : Inv b w) (hx : x ∈ (makeRoom b w c).1) :
    (∀ list, x ≠ .emptyBucketsList list) ∧
      ∀ a, x.target = some a → a = ((w.writes (makeRoom b w c).1).cache c).buckets := by
  unfold makeRoom at hx ⊢
  rcases newCapacity_cases (h.cache c) with ⟨mask, hsize, -, hcap⟩ | ⟨hcap, -⟩
  · rw [hcap] at hx ⊢
    rw [(reallocate_spec h c hsize).2.2.1]
    cases harch : b.arch with
    | x86_64 =>
      simp [reallocate, allocateBuckets, Build.cacheEndMarker, Bucket.set, setBucketsAndMask,
        harch] at hx
      rcases hx with rfl | rfl | rfl | rfl | rfl | rfl <;> simp [Write.target]
    | arm64 storage =>
      simp [reallocate, allocateBuckets, Build.cacheEndMarker, setBucketsAndMask, harch] at hx
      rcases hx with rfl | rfl | rfl <;> simp [Write.target]
  · rw [hcap] at hx
    cases hx

/-- An insertion lists no array, and stores into an array that is not shared. -/
theorem insert_stores (h : Inv b w) {sel imp} (hws : insert b w c sel imp = .ok ws) :
    (w.writes ws).emptyBucketsList = w.emptyBucketsList ∧
      ∀ a ∈ ws.filterMap Write.target, ¬ w.Shared a ∧ a < (w.writes ws).fresh := by
  obtain ⟨-, hroom, -⟩ := makeRoom_spec h c
  have hmake := fun x => mem_makeRoom (c := c) (x := x) h
  have hlist : (w.writes (makeRoom b w c).1).emptyBucketsList = w.emptyBucketsList :=
    writes_emptyBucketsList fun list hmem => (hmake _ hmem).1 list rfl
  unfold insert at hws
  rw [not_isConstantOptimizedCache (h.cache c), if_neg Bool.false_ne_true] at hws
  dsimp only at hws
  generalize makeRoom b w c = room at hroom hmake hlist hws
  have howns := hroom.owns
  -- the array that the cache has now
  have htarget : ∀ x ∈ ws, (∀ list, x ≠ .emptyBucketsList list) ∧
      ∀ a, x.target = some a → a = ((w.writes room.1).cache c).buckets := by
    split at hws
    next i _ =>
      cases hws
      intro x hx
      rcases mem_append.1 hx with hx | hx
      · exact hmake x hx
      · cases harch : b.arch with
        | x86_64 =>
          simp [Bucket.set, harch] at hx
          rcases hx with rfl | rfl | rfl <;> simp [Write.target]
        | arm64 storage =>
          simp [Bucket.set, harch] at hx
          rcases hx with rfl | rfl <;> simp [Write.target]
    · cases hws
      exact hmake
    · cases hws
  have hsuffix : ∃ rest, ws = room.1 ++ rest := by
    split at hws
    · cases hws
      exact ⟨_, rfl⟩
    · cases hws
      exact ⟨[], (append_nil _).symm⟩
    · cases hws
  refine ⟨writes_emptyBucketsList fun list hmem => (htarget _ hmem).1 list rfl, fun a ha => ?_⟩
  obtain ⟨x, hx, hxa⟩ := mem_filterMap.1 ha
  obtain rfl := (htarget x hx).2 a hxa
  constructor
  · intro hshared
    refine howns.notShared (hshared.imp_right fun hmem => ?_)
    rw [hlist]
    exact hmem
  · obtain ⟨rest, rfl⟩ := hsuffix
    rw [World.writes_append]
    exact lt_of_lt_of_le howns.lt_fresh (fresh_le_writes _ rest)

theorem eraseNolock_stores (h : Inv b w) (c : κ) :
    Grows w (w.writes (eraseNolock b w c)) ∧ (eraseNolock b w c).filterMap Write.target = [] := by
  rcases eraseNolock_cases h c with ⟨-, herase⟩ | ⟨ws, a, hsize, hempty, herase⟩
  · rw [herase]
    exact ⟨.of_list_eq le_rfl rfl, rfl⟩
  · obtain ⟨ws', a', heq, -, hgrows, -⟩ := emptyBuckets_allocate h.shared hsize
    obtain ⟨rfl, -⟩ := mk.inj (hempty.symm.trans heq)
    rw [herase, World.writes_append, writes_setBucketsAndMask, filterMap_append]
    refine ⟨⟨hgrows.fresh, hgrows.list⟩, append_eq_nil_iff.2 ⟨?_, ?_⟩⟩
    · unfold emptyBucketsForCapacity at hempty
      dsimp only at hempty
      split at hempty
      · obtain ⟨rfl, -⟩ := mk.inj hempty
        rfl
      · split at hempty
        · obtain ⟨rfl, -⟩ := mk.inj hempty
          rfl
        · obtain ⟨rfl, -⟩ := mk.inj hempty
          rfl
    · unfold setBucketsAndMask
      split <;> rfl

theorem Runs.inv {stored freed} (h : Runs b w stored freed) :
    Inv b w ∧ ∀ a ∈ stored ++ freed, ¬ w.Shared a ∧ a < w.fresh := by
  induction h with
  | init => exact ⟨init_inv b, forall_mem_nil _⟩
  | @insert w stored freed c sel imp ws _ hsel hws ih =>
    obtain ⟨hinv, hold⟩ := ih
    obtain ⟨ws', heq, hinv', -⟩ := insert_spec hinv c hsel imp
    obtain rfl := Except.ok.inj (heq.symm.trans hws)
    obtain ⟨hlist, hstores⟩ := insert_stores hinv hws
    have hgrows : Grows w (w.writes ws') := .of_list_eq (fresh_le_writes w ws') hlist
    refine ⟨hinv', fun a ha => ?_⟩
    have hcases : ¬ w.Shared a ∧ a < (w.writes ws').fresh := by
      simp only [mem_append, mem_toList] at ha
      rcases ha with (ha | ha) | ha | ha
      · exact (hold a (mem_append_left _ ha)).imp_right (·.trans_le hgrows.fresh)
      · exact hstores a ha
      · exact (hold a (mem_append_right _ ha)).imp_right (·.trans_le hgrows.fresh)
      · unfold insertFrees at ha
        split at ha
        · cases ha
        next hempty =>
          obtain ⟨_, -, rfl⟩ := map_eq_some_iff.1 ha
          exact ⟨fun hshared => hempty ((isConstantEmptyCache_iff hinv c).2 hshared),
            ((hinv.cache c).lt_fresh hinv.shared).trans_le hgrows.fresh⟩
    refine ⟨fun hshared => hcases.1 (hshared.imp_right fun hmem => ?_), hcases.2⟩
    rw [← hlist]
    exact hmem
  | @erase w stored freed c _ ih =>
    obtain ⟨hinv, hold⟩ := ih
    obtain ⟨hgrows, hstores⟩ := eraseNolock_stores hinv c
    refine ⟨(eraseNolock_spec hinv c).1, fun a ha => ?_⟩
    have hcases : ¬ w.Shared a ∧ a < w.fresh := by
      simp only [hstores, append_nil, mem_append, mem_toList] at ha
      rcases ha with ha | ha | ha
      · exact hold a (mem_append_left _ ha)
      · exact hold a (mem_append_right _ ha)
      · unfold eraseFrees at ha
        split at ha
        · cases ha
        · split at ha
          next hocc =>
            cases ha
            exact ⟨not_shared_of_occupied hinv hocc, (hinv.cache c).lt_fresh hinv.shared⟩
          · cases ha
    exact ⟨hgrows.not_shared hcases.1 hcases.2, hcases.2.trans_le hgrows.fresh⟩

/-- **Shared empty arrays are never stored to or freed**, two caches have an array in common only
if it is one of them, and `isConstantEmptyCache` tells just the caches that use one. -/
theorem shared_buckets_untouched {stored freed : List ArrayId} (h : Runs b w stored freed) :
    (∀ a, w.Shared a → a ∉ stored ∧ a ∉ freed) ∧
    (∀ c d, c ≠ d → (w.cache c).buckets = (w.cache d).buckets → w.Shared (w.cache c).buckets) ∧
    ∀ c, isConstantEmptyCache b w (w.cache c) = true ↔ w.Shared (w.cache c).buckets := by
  obtain ⟨hinv, harrays⟩ := h.inv
  refine ⟨fun a ha => ⟨fun hmem => ?_, fun hmem => ?_⟩, fun c d hne heq => ?_,
    isConstantEmptyCache_iff hinv⟩
  · exact (harrays a (mem_append_left _ hmem)).1 ha
  · exact (harrays a (mem_append_right _ hmem)).1 ha
  · exact (hinv.own c d heq).resolve_left hne

/-- Two classes cache a selector each, and both caches are erased: their arrays are freed,
and they share an array of the same capacity that nobody has stored to. -/
theorem shared_buckets_untouched_erase :
    ∃ (w : World Bool Nat) (stored freed : List ArrayId), Runs ⟨.x86_64, false⟩ w stored freed ∧
      freed.length = 2 ∧ stored ≠ [] ∧ (w.cache true).buckets = (w.cache false).buckets ∧
      w.Shared (w.cache true).buckets ∧
      (w.cache true).buckets ∉ stored ∧ (w.cache true).buckets ∉ freed := by
  have hrun : Runs ⟨.x86_64, false⟩ (World.init ⟨.x86_64, false⟩ : World Bool Nat) [] [] := .init
  replace hrun := hrun |>.insert (by decide) (rfl : Cache.insert _ _ true 1 7 = _)
    |>.insert (by decide) (rfl : Cache.insert _ _ false 2 8 = _)
    |>.erase (c := true)
    |>.erase (c := false)
  obtain ⟨huntouched, hown, -⟩ := shared_buckets_untouched hrun
  have hshared := hown true false (by decide) (by decide)
  exact ⟨_, _, _, hrun, by decide, by decide, by decide, hshared, huntouched _ hshared⟩

end ObjcRuntime.Cache
