import ObjcRuntime.Sync.Machine

/-!
# ObjcRuntime.Sync.Caches

The two caches of a thread as one map.

A thread records the records it uses in the fast cache or in its list. To the rest
of the development both are one map from records to lock counts, `Tls.recorded`, and
every function on the caches changes it in one place.
-/

namespace ObjcRuntime.Sync

open Lib List Option Function Nat

/-! ### Items -/

/-- The items of both caches. -/
def Tls.items (tls : Tls) : List SyncCacheItem :=
  (tls.fast.map (⟨·, tls.count⟩)).toList ++ tls.list

/-- The lock counts of some items together. -/
def lockCountOf (p : SyncCacheItem → Bool) : List SyncCacheItem → Nat
  | [] => 0
  | item :: items => (if p item then item.lockCount else 0) + lockCountOf p items

/-- The lock count of a record, zero if it is in neither cache. -/
def Tls.recorded (tls : Tls) (d : Nat) : Nat := lockCountOf (·.data = d) tls.items

/-- No record is in the caches twice, and the list has room for what it holds. -/
structure Tls.Ok (direct : Bool) (tls : Tls) : Prop where
  nodup : (tls.items.map SyncCacheItem.data).Nodup
  pos : ∀ item ∈ tls.items, 0 < item.lockCount
  fast : direct = false → tls.fast = none
  cache : ∀ c, tls.cache = some c → 0 < c.allocated ∧ c.list.length ≤ c.allocated

/-- The list has room for one more. -/
def Tls.HasRoom (tls : Tls) : Prop := ∀ c, tls.cache = some c → c.list.length < c.allocated

theorem lockCountOf_perm {items items'} (h : items.Perm items')
    (p : SyncCacheItem → Bool) : lockCountOf p items = lockCountOf p items' := by
  induction h with
  | nil => rfl
  | cons item _ ih => rw [lockCountOf, lockCountOf, ih]
  | swap item item' items => simp only [lockCountOf, Nat.add_left_comm]
  | trans _ _ ih ih' => rw [ih, ih']

variable {item : SyncCacheItem} {d : Nat}

theorem lockCountOf_cons_ne (h : d ≠ item.data) (items) :
    lockCountOf (·.data = d) (item :: items) = lockCountOf (·.data = d) items := by
  rw [lockCountOf, if_neg (by simpa using h.symm), Nat.zero_add]

theorem lockCountOf_eq_zero {items}
    (h : d ∉ items.map SyncCacheItem.data) : lockCountOf (·.data = d) items = 0 := by
  induction items with
  | nil => rfl
  | cons item items ih =>
    rw [map_cons, mem_cons, not_or] at h
    rw [lockCountOf_cons_ne h.1, ih h.2]

variable {w : Widths} {direct : Bool} {tls : Tls}

variable (h : tls.Ok direct)
include h

theorem Tls.Ok.recorded_eq (hmem : item ∈ tls.items) : tls.recorded item.data = item.lockCount := by
  obtain ⟨front, back, hsplit⟩ := append_of_mem hmem
  have hperm : tls.items.Perm (item :: (front ++ back)) := hsplit ▸ perm_middle
  have hnodup := (hperm.map SyncCacheItem.data).nodup_iff.1 h.nodup
  rw [map_cons, nodup_cons] at hnodup
  rw [Tls.recorded, lockCountOf_perm hperm, lockCountOf, if_pos (by simp),
    lockCountOf_eq_zero hnodup.1, Nat.add_zero]

theorem Tls.Ok.recorded_pos_iff (d : Nat) :
    0 < tls.recorded d ↔ ∃ item ∈ tls.items, item.data = d := by
  constructor
  · intro hpos
    by_contra hnone
    have hnotMem : d ∉ tls.items.map SyncCacheItem.data := by simpa using hnone
    rw [Tls.recorded, lockCountOf_eq_zero hnotMem] at hpos
    exact absurd hpos (lt_irrefl 0)
  · rintro ⟨item, hmem, rfl⟩
    rw [h.recorded_eq hmem]
    exact h.pos item hmem

theorem Tls.Ok.fastData_eq : fastData direct tls = tls.fast := by
  unfold fastData
  split
  · rfl
  next hdirect => exact (h.fast (Bool.eq_false_iff.2 hdirect)).symm

theorem Tls.Ok.recorded_fast (hd : tls.fast = some d) : 0 < tls.recorded d :=
  (h.recorded_pos_iff d).2 ⟨⟨d, tls.count⟩, by simp [Tls.items, hd], rfl⟩

theorem Tls.Ok.recorded_list {i : Nat}
    (hitem : tls.list[i]? = some item) : 0 < tls.recorded item.data :=
  (h.recorded_pos_iff _).2 ⟨item, mem_append_right _ (mem_of_getElem? hitem), rfl⟩

theorem Tls.Ok.fast_or_list (hd : 0 < tls.recorded d) :
    tls.fast = some d ∨
      ∃ (i : Nat) (item : SyncCacheItem), tls.list[i]? = some item ∧ item.data = d := by
  obtain ⟨item, hmem, rfl⟩ := (h.recorded_pos_iff d).1 hd
  rcases mem_append.1 hmem with hfast | hlist
  · rw [mem_toList, map_eq_some_iff] at hfast
    obtain ⟨d, hfast, rfl⟩ := hfast
    exact .inl hfast
  · obtain ⟨i, hi⟩ := getElem?_of_mem hlist
    exact .inr ⟨i, item, hi, rfl⟩

theorem Tls.Ok.update {rest} (tls' : Tls) (n : Nat) (hperm : tls.items.Perm (item :: rest))
    (hperm' : tls'.items.Perm (if n = 0 then rest else ⟨item.data, n⟩ :: rest))
    (hfast : direct = false → tls'.fast = none)
    (hcache : ∀ c, tls'.cache = some c → 0 < c.allocated ∧ c.list.length ≤ c.allocated) :
    tls'.Ok direct ∧ tls'.recorded = update tls.recorded item.data n := by
  have hnodup := (hperm.map SyncCacheItem.data).nodup_iff.1 h.nodup
  rw [map_cons, nodup_cons] at hnodup
  obtain ⟨hnotMem, hrest⟩ := hnodup
  have hzero := lockCountOf_eq_zero hnotMem
  have hpos : ∀ i ∈ rest, 0 < i.lockCount := fun i hi =>
    h.pos i (hperm.mem_iff.2 (mem_cons_of_mem _ hi))
  refine ⟨⟨?_, ?_, hfast, hcache⟩, ?_⟩
  · rw [(hperm'.map SyncCacheItem.data).nodup_iff]
    split
    · exact hrest
    · exact nodup_cons.2 ⟨hnotMem, hrest⟩
  · intro i hi
    rw [hperm'.mem_iff] at hi
    split at hi
    · exact hpos i hi
    next hn =>
      rcases mem_cons.1 hi with rfl | hi
      · exact Nat.pos_of_ne_zero hn
      · exact hpos i hi
  · funext d
    rw [Tls.recorded, lockCountOf_perm hperm']
    by_cases hd : d = item.data
    · subst hd
      rw [update_self]
      split
      next hn => rw [hzero, hn]
      · rw [lockCountOf, if_pos (by simp), hzero, Nat.add_zero]
    · rw [update_of_ne hd, Tls.recorded, lockCountOf_perm hperm, lockCountOf_cons_ne hd]
      split
      · rfl
      · rw [lockCountOf_cons_ne (show d ≠ (⟨item.data, n⟩ : SyncCacheItem).data from hd)]

theorem Tls.Ok.add (tls' : Tls) (hd : tls.recorded d = 0)
    (hperm : tls'.items.Perm (⟨d, 1⟩ :: tls.items)) (hfast : direct = false → tls'.fast = none)
    (hcache : ∀ c, tls'.cache = some c → 0 < c.allocated ∧ c.list.length ≤ c.allocated) :
    tls'.Ok direct ∧ tls'.recorded = Function.update tls.recorded d 1 := by
  have hnotMem : d ∉ tls.items.map SyncCacheItem.data := by
    intro hmem
    have hpos := (h.recorded_pos_iff d).2 (List.mem_map.1 hmem)
    omega
  refine ⟨⟨?_, ?_, hfast, hcache⟩, ?_⟩
  · rw [(hperm.map SyncCacheItem.data).nodup_iff]
    exact nodup_cons.2 ⟨hnotMem, h.nodup⟩
  · intro i hi
    rcases mem_cons.1 (hperm.mem_iff.1 hi) with rfl | hi
    · exact Nat.one_pos
    · exact h.pos i hi
  · funext e
    rw [Tls.recorded, lockCountOf_perm hperm]
    by_cases he : e = d
    · subst he
      rw [update_self, lockCountOf, if_pos (by simp), lockCountOf_eq_zero hnotMem]
    · rw [update_of_ne he, lockCountOf_cons_ne he]
      rfl

omit h

/-! ### The functions on the caches -/

/-- What a use does to a lock count. -/
def Usage.apply : Usage → Nat → Nat
  | .acquire, n => n + 1
  | .release, n => n - 1
  | .check, n => n

/-- The lock count of a record after one more enter can be written down. -/
def Widths.Counts (w : Widths) (n : Nat) : Prop :=
  w.unsignedInt (n + 1) = n + 1 ∧ w.uintptr (n + 1) = n + 1

theorem useFast_spec (h : tls.Ok direct) (hfast : tls.fast = some d) (why)
    (hw : why = .acquire → w.Counts (tls.recorded d)) :
    0 < tls.recorded d ∧ (useFast w why tls).1.Ok direct ∧
    (useFast w why tls).1.recorded = update tls.recorded d (why.apply (tls.recorded d)) ∧
    ((useFast w why tls).2 ↔ why = .release ∧ tls.recorded d = 1) := by
  obtain ⟨fast, count, cache⟩ := tls
  obtain rfl : fast = some d := hfast
  have hdirect : direct ≠ false := fun hdirect => by
    have hnone : some d = none := h.fast hdirect
    cases hnone
  have hcount : 0 < count := h.pos ⟨d, count⟩ mem_cons_self
  have hrec : Tls.recorded _ d = count := h.recorded_eq mem_cons_self
  rw [hrec] at hw ⊢
  refine ⟨hcount, ?_⟩
  cases why with
  | acquire =>
    have hspec := h.update ⟨some d, count + 1, cache⟩ (count + 1) (.refl _)
      (.of_eq (if_neg (succ_ne_zero _)).symm) (fun hf => absurd hf hdirect) h.cache
    simp only [useFast, (hw rfl).2]
    exact ⟨hspec.1, hspec.2, by simp⟩
  | release =>
    unfold useFast
    dsimp only
    split
    next hlast =>
      have hspec := h.update ⟨none, count - 1, cache⟩ (count - 1) (.refl _)
        (.of_eq (if_pos hlast).symm) (fun hf => absurd hf hdirect) h.cache
      refine ⟨hspec.1, hspec.2, ?_⟩
      simp
      omega
    next hlast =>
      have hspec := h.update ⟨some d, count - 1, cache⟩ (count - 1) (.refl _)
        (.of_eq (if_neg hlast).symm) (fun hf => absurd hf hdirect) h.cache
      refine ⟨hspec.1, hspec.2, ?_⟩
      simp
      omega
  | check =>
    exact ⟨h, (update_eq_self_iff.2 hrec.symm).symm, by simp [useFast]⟩

theorem items_perm_of_getElem? (fast) (count allocated : Nat)
    {i list} (hitem : list[i]? = some item) :
    (⟨fast, count, some ⟨allocated, list⟩⟩ : Tls).items.Perm
      (item :: ((fast.map (⟨·, count⟩)).toList ++ list.eraseIdx i)) := by
  obtain ⟨hi, rfl⟩ := List.getElem?_eq_some_iff.1 hitem
  refine .trans (.append_left _ (getElem_cons_eraseIdx_perm hi).symm) ?_
  exact perm_middle

theorem useItem_spec {cache i} (h : tls.Ok direct) (hcache : tls.cache = some cache)
    (hitem : cache.list[i]? = some item) (why)
    (hw : why = .acquire → w.Counts (tls.recorded item.data)) :
    0 < tls.recorded item.data ∧
    ({ tls with cache := some (useItem w why i item cache).1 } : Tls).Ok direct ∧
    ({ tls with cache := some (useItem w why i item cache).1 } : Tls).recorded =
      update tls.recorded item.data (why.apply (tls.recorded item.data)) ∧
    ((useItem w why i item cache).2 ↔ why = .release ∧ tls.recorded item.data = 1) := by
  obtain ⟨fast, count, cache'⟩ := tls
  obtain rfl : cache' = some cache := hcache
  obtain ⟨allocated, list⟩ := cache
  obtain ⟨hi, hitem'⟩ := List.getElem?_eq_some_iff.1 hitem
  have hperm := items_perm_of_getElem? fast count allocated hitem
  -- what the item is replaced by
  have hset : ∀ n, (⟨fast, count, some ⟨allocated, list.set i ⟨item.data, n⟩⟩⟩ : Tls).items.Perm
      (⟨item.data, n⟩ :: ((fast.map (⟨·, count⟩)).toList ++ list.eraseIdx i)) := fun n =>
    .trans (.append_left _ (set_perm_cons_eraseIdx hi _)) perm_middle
  have hroom := h.cache _ rfl
  have hcount : 0 < item.lockCount := h.pos item (hperm.mem_iff.2 mem_cons_self)
  have hrec := h.recorded_eq (hperm.mem_iff.2 mem_cons_self)
  rw [hrec] at hw ⊢
  refine ⟨hcount, ?_⟩
  cases why with
  | acquire =>
    have hspec := h.update ⟨fast, count, some ⟨allocated, list.set i
      ⟨item.data, item.lockCount + 1⟩⟩⟩ (item.lockCount + 1) hperm
      ((hset _).trans (.of_eq (if_neg (succ_ne_zero _)).symm)) h.fast
      (by rintro c ⟨rfl⟩; simpa using hroom)
    simp only [useItem, (hw rfl).1]
    exact ⟨hspec.1, hspec.2, by simp⟩
  | release =>
    unfold useItem
    dsimp only
    split
    next hlast =>
      have hremove := swapRemove_perm (l := list.set i ⟨item.data, item.lockCount - 1⟩) (i := i)
        (by simpa using hi)
      rw [eraseIdx_set_eq] at hremove
      have hspec := h.update ⟨fast, count, some ⟨allocated, swapRemove (list.set i
        ⟨item.data, item.lockCount - 1⟩) i⟩⟩ (item.lockCount - 1) hperm
        ((hremove.append_left _).trans (.of_eq (if_pos hlast).symm)) h.fast
        (by
          rintro c ⟨rfl⟩
          have hlen := hremove.length_eq
          have hle := length_eraseIdx_le list i
          exact ⟨hroom.1, by simp only at hroom ⊢; omega⟩)
      refine ⟨hspec.1, hspec.2, ?_⟩
      simp
      omega
    next hlast =>
      have hspec := h.update ⟨fast, count, some ⟨allocated, list.set i
        ⟨item.data, item.lockCount - 1⟩⟩⟩ (item.lockCount - 1) hperm
        ((hset _).trans (.of_eq (if_neg hlast).symm)) h.fast
        (by rintro c ⟨rfl⟩; simpa using hroom)
      refine ⟨hspec.1, hspec.2, ?_⟩
      simp
      omega
  | check =>
    exact ⟨h, (update_eq_self_iff.2 hrec.symm).symm, by simp [useItem]⟩

theorem fetchCache_spec (h : tls.Ok direct)
    (hw : w.unsignedInt (tls.list.length * 2) = tls.list.length * 2) :
    ({ tls with cache := fetchCache w false tls.cache } : Tls).recorded = tls.recorded ∧
    ({ tls with cache := fetchCache w false tls.cache } : Tls).Ok direct ∧
    ({ tls with cache := fetchCache w false tls.cache } : Tls).HasRoom := by
  obtain ⟨fast, count, cache⟩ := tls
  cases cache with
  | none => exact ⟨rfl, h, nofun⟩
  | some c =>
    have hroom := h.cache c rfl
    simp only [fetchCache, Bool.false_and, Bool.false_eq_true, if_false, map_some]
    split
    next hfull =>
      rw [hfull, show w.unsignedInt (c.list.length * 2) = c.list.length * 2 from hw]
      refine ⟨rfl, ⟨h.nodup, h.pos, h.fast, ?_⟩, ?_⟩
      · rintro c' ⟨rfl⟩
        exact ⟨by simp only; omega, by simp only; omega⟩
      · rintro c' ⟨rfl⟩
        simp only
        omega
    next hfull =>
      refine ⟨rfl, h, ?_⟩
      rintro c' ⟨rfl⟩
      omega

/-- **A new record goes into one of the caches.** -/
theorem saveData_spec (h : tls.Ok direct) (hroom : tls.HasRoom) (hd : tls.recorded d = 0) :
    ∃ tls', saveData w (fastCacheOccupied direct tls) d tls = some tls' ∧ tls'.Ok direct ∧
      tls'.recorded = update tls.recorded d 1 := by
  obtain ⟨fast, count, cache⟩ := tls
  cases hoccupied : fastCacheOccupied direct ⟨fast, count, cache⟩ with
  | false =>
    simp only [fastCacheOccupied, Bool.or_eq_false_iff, Bool.not_eq_false',
      isSome_eq_false_iff, isNone_iff_eq_none] at hoccupied
    obtain ⟨hdirect, rfl⟩ := hoccupied
    exact ⟨_, rfl, h.add ⟨some d, 1, cache⟩ hd (.refl _)
      (fun hf => by rw [hdirect] at hf; cases hf) h.cache⟩
  | true =>
    have happend : ∀ allocated list,
        (⟨fast, count, some ⟨allocated, list ++ [⟨d, 1⟩]⟩⟩ : Tls).items.Perm
          (⟨d, 1⟩ :: (⟨fast, count, some ⟨allocated, list⟩⟩ : Tls).items) := by
      intro allocated list
      change (_ ++ (list ++ [_])).Perm _
      rw [← append_assoc]
      exact perm_append_singleton _ _
    cases cache with
    | none =>
      refine ⟨_, rfl, h.add ⟨fast, count, some ⟨4, [⟨d, 1⟩]⟩⟩ hd (happend 4 []) h.fast ?_⟩
      rintro c ⟨rfl⟩
      exact ⟨by simp, by simp⟩
    | some c =>
      have hlt := hroom c rfl
      have hsave : saveData w true d ⟨fast, count, some c⟩ =
          some ⟨fast, count, some { c with list := c.list ++ [⟨d, 1⟩] }⟩ := by
        simp [saveData, hlt]
      refine ⟨_, hsave, h.add _ hd (happend _ _) h.fast ?_⟩
      rintro c' ⟨rfl⟩
      exact ⟨(h.cache c rfl).1, by rw [length_append]; exact hlt⟩

end ObjcRuntime.Sync
