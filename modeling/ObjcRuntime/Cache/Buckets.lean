import ObjcRuntime.Cache.Model

/-!
# ObjcRuntime.Cache.Buckets

One array of buckets, as the cache that owns it keeps it (`Filled`).

Each stored selector is in the first bucket its own probe meets that is empty or
holds it. Nothing is ever removed from an array, so filling the first empty
bucket of a probe keeps this. No selector is then stored twice, and as long as
there is room for one more selector, the loop of an insertion finds a bucket.
-/

namespace ObjcRuntime.Cache

open Lib List Finset

variable {κ ι : Type} {b : Build}

/-! ### Buckets and probes -/

theorem at_set {l i} (hi : i < l.length) (x : Bucket ι) (j : Nat) :
    at_ (l.set i x) j = if j = i then x else at_ l j := by
  unfold at_
  by_cases hij : j = i
  · rw [if_pos hij, hij, getElem?_set_self hi, Option.getD_some]
  · rw [if_neg hij, getElem?_set_ne (Ne.symm hij)]

@[simp] theorem at_replicate (n i : Nat) : at_ (List.replicate n (.zero : Bucket ι)) i = .zero := by
  unfold at_
  rw [getElem?_replicate]
  split <;> rfl

theorem Build.cacheEndMarker_le (b : Build) : b.cacheEndMarker ≤ 1 := by
  unfold Build.cacheEndMarker
  split <;> omega

section Probe

variable {mask k start : Nat}

theorem Build.cacheNext_cycles (b : Build) (hk : mask + 1 = 2 ^ k) (hs : start ≤ mask) :
    Cycles (b.cacheNext mask) start (mask + 1) := by
  obtain ⟨arch, debug⟩ := b
  cases arch with
  | x86_64 => exact ascend_cycles hk hs
  | arm64 storage => exact descend_cycles hs

theorem Build.cacheNext_lt (b : Build) (hk : mask + 1 = 2 ^ k) (hs : start ≤ mask) {d}
    (hd : d < mask + 1) : (b.cacheNext mask)^[d] start < mask + 1 := by
  obtain ⟨arch, debug⟩ := b
  cases arch with
  | x86_64 =>
    change (ascend mask)^[d] start < mask + 1
    rw [ascend_iterate hk hs]
    exact Nat.mod_lt _ (by omega)
  | arm64 storage =>
    change (descend mask)^[d] start < mask + 1
    rw [descend_iterate hs (by omega)]
    exact Nat.mod_lt _ (by omega)

theorem Build.cacheHash_le (b : Build) (hk : mask + 1 = 2 ^ k) (sel : Nat) :
    b.cacheHash sel mask ≤ mask := by
  unfold Build.cacheHash
  rw [and_mask_eq hk]
  exact Nat.lt_succ_iff.1 (Nat.mod_lt _ (by omega))

end Probe

/-! ### An array that a cache owns -/

/-- The last bucket, where the layout has an end marker. -/
def Build.isEndMarker (b : Build) (mask i : Nat) : Prop := b.cacheEndMarker = 1 ∧ i = mask

instance (mask i : Nat) : Decidable (b.isEndMarker mask i) := inferInstanceAs (Decidable (_ ∧ _))

/-- The buckets that hold a selector. -/
def stored (b : Build) (mask : Nat) (l : List (Bucket ι)) : Finset Nat :=
  (Finset.range (mask + 1)).filter fun i => (at_ l i).sel ≠ 0 ∧ ¬ b.isEndMarker mask i

/-- Where the probe for `sel` stops. -/
def Stops (l : List (Bucket ι)) (sel i : Nat) : Prop := (at_ l i).sel = 0 ∨ (at_ l i).sel = sel

/-- The first bucket where the probe for `sel` stops. -/
def StopsAt (b : Build) (mask : Nat) (l : List (Bucket ι)) (sel i : Nat) : Prop :=
  FirstAt (b.cacheNext mask) (b.cacheHash sel mask) (mask + 1) (Stops l sel) i

/-- Array `a` with `mask + 1` buckets, as its owner leaves it. -/
structure Filled (b : Build) (a : ArrayId) (mask : Nat) (l : List (Bucket ι)) : Prop where
  length : l.length = mask + 1
  endMarker : b.cacheEndMarker = 1 → at_ l mask = ⟨.bucket a, 1⟩
  zero : ∀ i, (at_ l i).sel = 0 → at_ l i = .zero
  placed : ∀ i ∈ stored b mask l, StopsAt b mask l (at_ l i).sel i

section Filled

variable {a : ArrayId} {mask k : Nat} {l : List (Bucket ι)}

theorem mem_stored {i} :
    i ∈ stored b mask l ↔ i ≤ mask ∧ (at_ l i).sel ≠ 0 ∧ ¬ b.isEndMarker mask i := by
  unfold stored
  rw [Finset.mem_filter, Finset.mem_range, Nat.lt_succ_iff]

theorem exists_empty (hroom : (stored b mask l).card + b.cacheEndMarker ≤ mask) :
    ∃ i, i ≤ mask ∧ (at_ l i).sel = 0 := by
  by_contra hall
  push Not at hall
  have hsub : Finset.range (mask + 1 - b.cacheEndMarker) ⊆ stored b mask l := by
    intro i hi
    have hlt := Finset.mem_range.1 hi
    refine mem_stored.2 ⟨by omega, hall i (by omega), fun hend => ?_⟩
    have hone := hend.1
    have hlast := hend.2
    omega
  have hcard := card_le_card hsub
  rw [card_range] at hcard
  omega

theorem exists_stopsAt (hk : mask + 1 = 2 ^ k)
    (hroom : (stored b mask l).card + b.cacheEndMarker ≤ mask) (sel : Nat) :
    ∃ i, i ≤ mask ∧ StopsAt b mask l sel i := by
  obtain ⟨i, hi, hzero⟩ := exists_empty hroom
  have hstart := b.cacheHash_le hk sel
  obtain ⟨j, hj⟩ := (b.cacheNext_cycles hk hstart).exists_firstAt
    (fun d hd => b.cacheNext_lt hk hstart hd) (Nat.lt_succ_of_le hi)
    (show Stops l sel i from .inl hzero)
  refine ⟨j, ?_, hj⟩
  obtain ⟨d, hd, rfl, -⟩ := hj
  exact Nat.lt_succ_iff.1 (b.cacheNext_lt hk hstart hd)

theorem findSlot_cases (hk : mask + 1 = 2 ^ k)
    (hroom : (stored b mask l).card + b.cacheEndMarker ≤ mask) (sel : Nat) :
    ∃ i, i ≤ mask ∧ StopsAt b mask l sel i ∧
      ((at_ l i).sel = 0 ∧ findSlot b l mask sel = some (.unused i) ∨
        (at_ l i).sel ≠ 0 ∧ (at_ l i).sel = sel ∧ findSlot b l mask sel = some .present) := by
  obtain ⟨i, hi, hstop⟩ := exists_stopsAt hk hroom sel
  have hcycles := b.cacheNext_cycles hk (b.cacheHash_le hk sel)
  have hsilent : ∀ j, ¬ Stops l sel j → (if (at_ l j).sel = 0 then some (Slot.unused j)
        else if (at_ l j).sel = sel then some .present else none) = none := by
    intro j hj
    rw [if_neg fun h0 => hj (.inl h0), if_neg fun hs => hj (.inr hs)]
  refine ⟨i, hi, hstop, ?_⟩
  by_cases hzero : (at_ l i).sel = 0
  · refine .inl ⟨hzero, hstop.scan hcycles hsilent ?_⟩
    rw [if_pos hzero]
  · obtain ⟨d, -, hd, hP, -⟩ := id hstop
    have hsel : (at_ l i).sel = sel := hP.resolve_left hzero
    refine .inr ⟨hzero, hsel, hstop.scan hcycles hsilent ?_⟩
    rw [if_neg hzero, if_pos hsel]

theorem Filled.set (h : Filled b a mask l) {i sel} (hsel : sel ≠ 0) (hi : i ≤ mask)
    (hstop : StopsAt b mask l sel i) (hzero : (at_ l i).sel = 0) (x) :
    Filled b a mask (l.set i ⟨x, sel⟩) ∧
      stored b mask (l.set i ⟨x, sel⟩) = Insert.insert i (stored b mask l) ∧
        i ∉ stored b mask l := by
  have hat := fun j => at_set (show i < l.length by rw [h.length]; omega) ⟨x, sel⟩ j
  have hnew : i ∉ stored b mask l := fun hmem => (mem_stored.1 hmem).2.1 hzero
  have hend : ¬ b.isEndMarker mask i := by
    intro hend
    have := h.endMarker hend.1
    rw [← hend.2] at this
    rw [this] at hzero
    exact absurd hzero one_ne_zero
  have hstored : stored b mask (l.set i ⟨x, sel⟩) = Insert.insert i (stored b mask l) := by
    ext j
    rw [mem_stored, mem_insert, mem_stored, hat]
    split
    next hji =>
      rw [hji]
      exact ⟨fun _ => .inl rfl, fun _ => ⟨hi, hsel, hend⟩⟩
    next hji => exact ⟨.inr, fun hj => hj.resolve_left hji⟩
  have hother : ∀ j s, j ≠ i → ¬ Stops l s j → ¬ Stops (l.set i ⟨x, sel⟩) s j := by
    intro j s hj hno
    unfold Stops
    rw [hat, if_neg hj]
    exact hno
  refine ⟨⟨length_set.trans h.length, ?_, ?_, ?_⟩, hstored, hnew⟩
  · intro hmark
    rw [hat, if_neg fun hlast => hend ⟨hmark, hlast.symm⟩]
    exact h.endMarker hmark
  · intro j hj
    rw [hat] at hj ⊢
    split at hj
    · exact absurd hj hsel
    next hji => rw [if_neg hji]; exact h.zero j hj
  · intro j hj
    rw [hstored] at hj
    by_cases hji : j = i
    · rw [hji, hat, if_pos rfl]
      refine hstop.congr (.inr ?_) (fun j' hj' => hother j' sel hj')
      rw [hat, if_pos rfl]
    · have hold := h.placed j ((mem_insert.1 hj).resolve_left hji)
      rw [hat, if_neg hji]
      refine hold.congr (.inr ?_) ?_
      · rw [hat, if_neg hji]
      · -- the probe to `j` met no empty bucket, so it did not meet `i`
        intro j' _ hno
        refine hother j' _ ?_ hno
        intro hj'
        rw [hj'] at hno
        exact hno (.inl hzero)

/-- What `allocateBuckets` leaves in the new array. -/
def freshBuckets (b : Build) (a : ArrayId) (capacity : Nat) : List (Bucket ι) :=
  if b.cacheEndMarker = 1 then (List.replicate capacity .zero).set (capacity - 1) ⟨.bucket a, 1⟩
  else List.replicate capacity .zero

theorem at_freshBuckets (i : Nat) :
    at_ (freshBuckets b a (mask + 1) : List (Bucket ι)) i =
      if b.isEndMarker mask i then ⟨.bucket a, 1⟩ else .zero := by
  unfold freshBuckets
  by_cases hmark : b.cacheEndMarker = 1
  · rw [if_pos hmark, at_set (by rw [length_replicate]; omega), at_replicate, Nat.add_sub_cancel]
    by_cases hi : i = mask
    · rw [if_pos hi, if_pos ⟨hmark, hi⟩]
    · rw [if_neg hi, if_neg fun h => hi h.2]
  · rw [if_neg hmark, at_replicate, if_neg fun h => hmark h.1]

theorem stored_freshBuckets :
    stored b mask (freshBuckets b a (mask + 1) : List (Bucket ι)) = ∅ := by
  ext i
  rw [mem_stored, at_freshBuckets]
  split
  next hend => exact ⟨fun h => absurd hend h.2.2, fun h => absurd h (notMem_empty i)⟩
  · exact ⟨fun h => absurd rfl h.2.1, fun h => absurd h (notMem_empty i)⟩

theorem filled_freshBuckets : Filled b a mask (freshBuckets b a (mask + 1) : List (Bucket ι)) := by
  refine ⟨?_, fun hmark => ?_, fun i hi => ?_, fun i hi => ?_⟩
  · unfold freshBuckets
    split
    · rw [length_set, length_replicate]
    · rw [length_replicate]
  · rw [at_freshBuckets, if_pos ⟨hmark, rfl⟩]
  · rw [at_freshBuckets] at hi ⊢
    split at hi
    · exact absurd hi one_ne_zero
    next hend => rw [if_neg hend]
  · rw [stored_freshBuckets] at hi
    exact absurd hi (notMem_empty i)

end Filled

end ObjcRuntime.Cache
