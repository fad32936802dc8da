import ObjcRuntime.Cache.Sound

/-!
# ObjcRuntime.Cache.Arm64

`CacheLookup` of `objc-msg-arm64.s`.

The assembly works on one word that packs the mask and the address of the
buckets. It scans downwards from the hashed bucket to the first one (label 1),
then from the last bucket down to the one it probed first (label 4); a full cache
has no empty bucket to stop at, so the second loop stops at the first probe.

`Placement` says where the arrays are; a load outside the array in use is a
fault. The scan meets the buckets in the order of `cache_next`, hence stops where
the insertion of the same selector would.
-/

namespace ObjcRuntime.Cache

open Lib Nat

variable {κ ι : Type}

/-! ### The assembly -/

/-- `cache_t::bucketsMask`, the largest address of an array. -/
def MaskStorage.bucketsMask : MaskStorage → Nat
  | .high16BigAddrs => 2 ^ 48 - 1
  | .high16 _ => 2 ^ (48 - 4) - 1

/-- The addresses of the bucket arrays. -/
structure Placement (storage : MaskStorage) where
  address : ArrayId → Nat
  /-- No array is in the first bucket of the address space. -/
  not_null : ∀ a, bucketSize ≤ address a
  /-- Asserted by `setBucketsAndMask`. -/
  le_bucketsMask : ∀ a, address a ≤ storage.bucketsMask
  aligned : ∀ a, address a % bucketSize = 0

/-- How a lookup ends. -/
inductive Outcome (ι : Type)
  | hit (imp : ImpField ι)
  | miss
  /-- `LLookupPreopt` -/
  | preopt
  /-- A load outside the array. -/
  | fault
  deriving Repr, DecidableEq

section Lookup

variable (load : Nat → Option (Bucket ι)) (cmd p10 p12 last : Nat)

/-- Label 4; `none` when the fuel runs out. -/
def wrapLoop : Nat → Nat → Option (Outcome ι)
  | 0, _ => none
  | fuel + 1, p13 =>
    match load p13 with
    | none => some .fault
    | some bucket =>
      if bucket.sel = cmd then some (.hit bucket.imp)
      else if bucket.sel ≠ 0 ∧ p13 - bucketSize > p12 then wrapLoop fuel (p13 - bucketSize)
      else some .miss

/-- Label 1. -/
def scanLoop : Nat → Nat → Option (Outcome ι)
  | 0, _ => none
  | fuel + 1, p13 =>
    match load p13 with
    | none => some .fault
    | some bucket =>
      if bucket.sel = cmd then some (.hit bucket.imp)
      else if bucket.sel = 0 then some .miss
      else if p13 - bucketSize ≥ p10 then scanLoop fuel (p13 - bucketSize)
      else wrapLoop load cmd p12 fuel last

end Lookup

/-- The bucket at an address inside an array. -/
def loadBucket (base : Nat) (buckets : List (Bucket ι)) (address : Nat) : Option (Bucket ι) :=
  if base ≤ address ∧ (address - base) % bucketSize = 0 then buckets[(address - base) / bucketSize]?
  else none

/-- `_bucketsAndMaybeMask` -/
def bucketsAndMaybeMask {storage : MaskStorage} (place : Placement storage) (k : CacheT) : Nat :=
  k.mask <<< 48 ||| place.address k.buckets

def cacheLookup {storage : MaskStorage} (place : Placement storage) (w : World κ ι) (c : κ)
    (cmd fuel : Nat) : Option (Outcome ι) :=
  let k := w.cache c
  let load := loadBucket (place.address k.buckets) (w.arrays k.buckets)
  let word := bucketsAndMaybeMask place k
  match storage with
  | .high16BigAddrs =>
    let p11 := word >>> 48
    let p10 := word &&& 0xffffffffffff
    let p12 := p10 + (cmd &&& p11) <<< 4
    scanLoop load cmd p10 p12 (p10 + p11 <<< 4) fuel p12
  | .high16 false =>
    let p10 := word &&& 0x0000ffffffffffff
    let p12 := p10 + (cmd &&& word >>> 48) <<< 4
    scanLoop load cmd p10 p12 (p10 + word >>> 44) fuel p12
  | .high16 true =>
    if word.testBit 0 then some .preopt
    else
      let p10 := word &&& 0x0000fffffffffffe
      let p12 := p10 + ((cmd ^^^ cmd >>> 7) &&& word >>> 48) <<< 4
      scanLoop load cmd p10 p12 (p10 + word >>> 44) fuel p12

/-! ### The two loops -/

section Loops

variable {base mask cmd h : Nat} {l : List (Bucket ι)}

/-- How the scan ends at bucket `i`, where it stops. -/
def outcomeAt (l : List (Bucket ι)) (cmd i : Nat) : Outcome ι :=
  if (at_ l i).sel = cmd then .hit (at_ l i).imp else .miss

theorem loadBucket_eq {i} (hi : i < l.length) :
    loadBucket base l (base + bucketSize * i) = some (at_ l i) := by
  unfold loadBucket at_
  rw [if_pos ⟨Nat.le_add_right _ _, by rw [Nat.add_sub_cancel_left, Nat.mul_mod_right]⟩,
    Nat.add_sub_cancel_left, Nat.mul_div_cancel_left i (by decide), List.getElem?_eq_getElem hi,
    Option.getD_some]

theorem sub_bucketSize (i : Nat) :
    base + bucketSize * (i + 1) - bucketSize = base + bucketSize * i := by
  unfold bucketSize
  omega

theorem wrapLoop_pass (hlength : mask + 1 ≤ l.length) {i fuel} (hi : h < i) (him : i + 1 ≤ mask)
    (hpass : ¬ Stops l cmd (i + 1)) :
    wrapLoop (loadBucket base l) cmd (base + bucketSize * h) (fuel + 1)
        (base + bucketSize * (i + 1)) =
      wrapLoop (loadBucket base l) cmd (base + bucketSize * h) fuel (base + bucketSize * i) := by
  have hcmd : (at_ l (i + 1)).sel ≠ cmd := fun heq => hpass (.inr heq)
  have hzero : (at_ l (i + 1)).sel ≠ 0 := fun heq => hpass (.inl heq)
  have hgt : base + bucketSize * i > base + bucketSize * h := by
    unfold bucketSize
    omega
  rw [wrapLoop, loadBucket_eq (by omega)]
  dsimp only
  rw [if_neg hcmd, sub_bucketSize, if_pos ⟨hzero, hgt⟩]

theorem wrapLoop_stop {i fuel} (hi : i < l.length) (hstop : Stops l cmd i) :
    wrapLoop (loadBucket base l) cmd (base + bucketSize * h) (fuel + 1) (base + bucketSize * i) =
      some (outcomeAt l cmd i) := by
  rw [wrapLoop, loadBucket_eq hi]
  unfold outcomeAt
  dsimp only
  split
  · rfl
  next hcmd => rw [if_neg fun hgo => hgo.1 (hstop.resolve_right hcmd)]

theorem of_descent {f : Nat → Nat → Option (Outcome ι)} {r i j fuel}
    (hpass : ∀ k fuel, j ≤ k → k < i → f (fuel + 1) (k + 1) = f fuel k)
    (hend : ∀ fuel, f (fuel + 1) j = r) (hji : j ≤ i) (hfuel : i - j < fuel) : f fuel i = r := by
  obtain ⟨fuel, rfl⟩ := Nat.exists_eq_succ_of_ne_zero (Nat.ne_zero_of_lt hfuel)
  induction i, hji using Nat.le_induction generalizing fuel with
  | base => exact hend fuel
  | succ i hji ih =>
    rw [hpass i fuel hji (lt_succ_self i)]
    obtain ⟨fuel, rfl⟩ := Nat.exists_eq_succ_of_ne_zero (show fuel ≠ 0 by omega)
    exact ih (fun k fuel hk hki => hpass k fuel hk (by omega)) fuel (by omega)

theorem wrapLoop_found (hlength : mask + 1 ≤ l.length) {i j fuel} (hj : h < j)
    (hstop : Stops l cmd j) (hji : j ≤ i) (him : i ≤ mask)
    (hpass : ∀ j', j < j' → j' ≤ i → ¬ Stops l cmd j') (hfuel : i - j < fuel) :
    wrapLoop (loadBucket base l) cmd (base + bucketSize * h) fuel (base + bucketSize * i) =
      some (outcomeAt l cmd j) :=
  of_descent (f := fun fuel i => wrapLoop _ cmd _ fuel (base + bucketSize * i))
    (fun k _ hk hki => wrapLoop_pass hlength (by omega) (by omega) (hpass _ (by omega) hki))
    (fun _ => wrapLoop_stop (by omega) hstop) hji hfuel

/-- The last bucket is probed once more when it was the first one probed. -/
theorem wrapLoop_missed (hlength : mask + 1 ≤ l.length) {i fuel} (hi : h ≤ i) (him : i ≤ mask)
    (hpass : ∀ j, h ≤ j → j ≤ i → ¬ Stops l cmd j) (hfuel : i - h < fuel) :
    wrapLoop (loadBucket base l) cmd (base + bucketSize * h) fuel (base + bucketSize * i) =
      some .miss := by
  have hend : ∀ j fuel, h ≤ j → j ≤ i → j ≤ h + 1 →
      wrapLoop (loadBucket base l) cmd (base + bucketSize * h) (fuel + 1) (base + bucketSize * j) =
        some .miss := by
    intro j fuel hj hji hlast
    have hno := hpass j hj hji
    rw [wrapLoop, loadBucket_eq (by omega)]
    dsimp only
    rw [if_neg fun heq => hno (.inr heq), if_neg fun hgo => absurd hgo.2 ?_]
    unfold bucketSize
    omega
  rcases Nat.eq_or_lt_of_le hi with rfl | hlt
  · obtain ⟨fuel, rfl⟩ := Nat.exists_eq_succ_of_ne_zero (Nat.ne_zero_of_lt hfuel)
    exact hend h fuel le_rfl le_rfl (by omega)
  · exact of_descent (f := fun fuel i => wrapLoop _ cmd _ fuel (base + bucketSize * i))
      (fun k _ hk hki => wrapLoop_pass hlength hk (by omega) (hpass _ (by omega) hki))
      (fun fuel => hend (h + 1) fuel (by omega) hlt le_rfl) hlt (by omega)

variable {p12 last : Nat}

theorem scanLoop_pass (hlength : mask + 1 ≤ l.length) {i fuel} (him : i + 1 ≤ mask)
    (hpass : ¬ Stops l cmd (i + 1)) :
    scanLoop (loadBucket base l) cmd base p12 last (fuel + 1) (base + bucketSize * (i + 1)) =
      scanLoop (loadBucket base l) cmd base p12 last fuel (base + bucketSize * i) := by
  rw [scanLoop, loadBucket_eq (by omega)]
  dsimp only
  rw [if_neg fun heq => hpass (.inr heq), if_neg fun heq => hpass (.inl heq), sub_bucketSize,
    if_pos (Nat.le_add_right _ _)]

theorem scanLoop_found (hlength : mask + 1 ≤ l.length) {i j fuel} (hstop : Stops l cmd j)
    (hji : j ≤ i) (him : i ≤ mask) (hpass : ∀ j', j < j' → j' ≤ i → ¬ Stops l cmd j')
    (hfuel : i - j < fuel) :
    scanLoop (loadBucket base l) cmd base p12 last fuel (base + bucketSize * i) =
      some (outcomeAt l cmd j) := by
  refine of_descent (f := fun fuel i => scanLoop _ cmd base _ _ fuel (base + bucketSize * i))
    (fun k _ hk hki => scanLoop_pass hlength (by omega) (hpass _ (by omega) hki)) (fun fuel => ?_)
    hji hfuel
  rw [scanLoop, loadBucket_eq (by omega)]
  unfold outcomeAt
  dsimp only
  split
  · rfl
  next hcmd => rw [if_pos (hstop.resolve_right hcmd)]

variable (hbase : bucketSize ≤ base) (hlength : mask + 1 ≤ l.length)
include hbase hlength

theorem scanLoop_missed {i} :
    i ≤ mask → (∀ j, j ≤ i → ¬ Stops l cmd j) → ∀ fuel,
      scanLoop (loadBucket base l) cmd base p12 last (fuel + (i + 1)) (base + bucketSize * i) =
        wrapLoop (loadBucket base l) cmd p12 fuel last := by
  induction i with
  | zero =>
    intro him hpass fuel
    have hno := hpass 0 (le_refl 0)
    rw [scanLoop, loadBucket_eq (by omega)]
    dsimp only
    rw [if_neg fun heq => hno (.inr heq), if_neg fun heq => hno (.inl heq), if_neg]
    unfold bucketSize at hbase ⊢
    omega
  | succ i ih =>
    intro him hpass fuel
    rw [← add_assoc fuel, scanLoop_pass hlength him (hpass _ le_rfl)]
    exact ih (by omega) (fun j hj => hpass j (by omega)) fuel

theorem scan_found (hh : h ≤ mask)
    {i fuel} (hi : FirstAt (descend mask) h (mask + 1) (Stops l cmd) i) (hfuel : mask + 2 ≤ fuel) :
    scanLoop (loadBucket base l) cmd base (base + bucketSize * h) (base + bucketSize * mask) fuel
      (base + bucketSize * h) = some (outcomeAt l cmd i) := by
  obtain ⟨hstop, ⟨hlow, hpass⟩ | ⟨hlow, hhigh, hpass, hpass'⟩⟩ := hi.descend_cases hh
  · exact scanLoop_found hlength hstop hlow hh hpass (by omega)
  · obtain ⟨fuel, rfl⟩ : ∃ f, fuel = f + (h + 1) := ⟨fuel - (h + 1), by omega⟩
    rw [scanLoop_missed hbase hlength hh hpass]
    exact wrapLoop_found hlength hlow hstop hhigh le_rfl hpass' (by omega)

theorem scan_missed (hh : h ≤ mask)
    {fuel} (hpass : ∀ i, i ≤ mask → ¬ Stops l cmd i) (hfuel : mask + 2 ≤ fuel) :
    scanLoop (loadBucket base l) cmd base (base + bucketSize * h) (base + bucketSize * mask) fuel
      (base + bucketSize * h) = some .miss := by
  obtain ⟨fuel, rfl⟩ : ∃ f, fuel = f + (h + 1) := ⟨fuel - (h + 1), by omega⟩
  rw [scanLoop_missed hbase hlength hh fun j hj => hpass j (by omega)]
  exact wrapLoop_missed hlength hh le_rfl (fun j _ hj => hpass j hj) (by omega)

omit hbase hlength

end Loops

/-! ### The packed word -/

section Word

variable {mask address : Nat}

variable (h : address < 2 ^ 48)
include h

theorem word_eq : mask <<< 48 ||| address = mask * 2 ^ 48 + address := by
  rw [← shiftLeft_add_eq_or_of_lt h, shiftLeft_eq]

theorem word_mask : (mask <<< 48 ||| address) >>> 48 = mask := by
  rw [word_eq h, shiftRight_eq_div_pow]
  omega

theorem word_buckets : (mask <<< 48 ||| address) &&& 0xffffffffffff = address := by
  rw [show 0xffffffffffff = 2 ^ 48 - 1 from rfl, and_two_pow_sub_one_eq_mod, word_eq h]
  omega

theorem word_buckets_even (heven : address % 2 = 0) :
    (mask <<< 48 ||| address) &&& 0xfffffffffffe = address := by
  have hword : mask <<< 48 ||| address = mask * 2 ^ 48 + address := word_eq h
  generalize mask <<< 48 ||| address = word at hword ⊢
  have hhalf : word = (word / 2) <<< 1 := by
    omega
  rw [hhalf, show 0xfffffffffffe = (2 ^ 47 - 1) <<< 1 from rfl, ← shiftLeft_and_distrib,
    and_two_pow_sub_one_eq_mod, shiftLeft_eq]
  omega

omit h

/-- `mask << 4` in one shift, as the four bits below the mask are zero. -/
theorem word_last (h : address < 2 ^ 44) : (mask <<< 48 ||| address) >>> 44 = mask <<< 4 := by
  rw [word_eq (by omega), shiftRight_eq_div_pow, shiftLeft_eq]
  omega

end Word

/-- All variants of the assembly scan from the hashed bucket. -/
theorem cacheLookup_eq {storage} (place : Placement storage) (w : World κ ι) (c : κ)
    (cmd fuel : Nat) {b : Build} (hb : b.arch = .arm64 storage) :
    cacheLookup place w c cmd fuel =
      scanLoop (loadBucket (place.address (w.cache c).buckets) (w.arrays (w.cache c).buckets)) cmd
        (place.address (w.cache c).buckets)
        (place.address (w.cache c).buckets + bucketSize * b.cacheHash cmd (w.cache c).mask)
        (place.address (w.cache c).buckets + bucketSize * (w.cache c).mask) fuel
        (place.address (w.cache c).buckets + bucketSize * b.cacheHash cmd (w.cache c).mask) := by
  have hshift : ∀ x, x <<< 4 = bucketSize * x := fun x => by
    rw [shiftLeft_eq, mul_comm]
    rfl
  have hfits := place.le_bucketsMask (w.cache c).buckets
  have haligned := place.aligned (w.cache c).buckets
  unfold bucketSize at haligned
  unfold cacheLookup bucketsAndMaybeMask Build.cacheHash Build.usePreoptCaches
  rw [hb]
  dsimp only
  generalize place.address (w.cache c).buckets = address at hfits haligned ⊢
  cases storage with
  | high16BigAddrs =>
    have h48 : address < 2 ^ 48 := lt_of_le_of_lt hfits (by decide)
    simp only [word_mask h48, word_buckets h48, hshift, Bool.false_eq_true, if_false]
  | high16 preoptCaches =>
    have h44 : address < 2 ^ 44 := lt_of_le_of_lt hfits (show 2 ^ (48 - 4) - 1 < 2 ^ 44 by decide)
    have h48 : address < 2 ^ 48 := by omega
    cases preoptCaches with
    | false =>
      simp only [word_mask h48, word_buckets h48, word_last h44, hshift, Bool.false_eq_true,
        if_false]
    | true =>
      have hbit : ((w.cache c).mask <<< 48 ||| address).testBit 0 = false := by
        rw [word_eq h48, testBit_zero, decide_eq_false_iff_not]
        omega
      simp only [hbit, word_mask h48, word_buckets_even h48 (by omega), word_last h44, hshift,
        Bool.false_eq_true, if_false, if_true]

/-! ### Lookups agree with insertions -/

section Agree

variable {b : Build} {w : World κ ι} {c : κ}

variable {storage : MaskStorage}

theorem not_isEndMarker (hb : b.arch = .arm64 storage) (mask i : Nat) : ¬ b.isEndMarker mask i := by
  intro hend
  have hone : b.cacheEndMarker = 1 := hend.1
  unfold Build.cacheEndMarker at hone
  rw [hb] at hone
  exact absurd hone zero_ne_one

theorem cacheLookup_stopsAt (h : Inv b w) (hb : b.arch = .arm64 storage)
    (place : Placement storage) {cmd i fuel : Nat} (hfuel : (w.cache c).mask + 2 ≤ fuel)
    (hi : StopsAt b (w.cache c).mask (w.arrays (w.cache c).buckets) cmd i) :
    cacheLookup place w c cmd fuel =
      some (outcomeAt (w.arrays (w.cache c).buckets) cmd i) := by
  obtain ⟨j, hpow⟩ := (h.cache c).pow
  have hnext : b.cacheNext (w.cache c).mask = descend (w.cache c).mask := by
    unfold Build.cacheNext
    rw [hb]
  unfold StopsAt at hi
  rw [hnext] at hi
  rw [cacheLookup_eq place w c cmd fuel hb]
  exact scan_found (place.not_null _) ((h.cache c).length_le h.shared) (b.cacheHash_le hpow cmd) hi
    hfuel

/-- **The scan of the assembly finds exactly what is in a bucket.** -/
theorem cacheLookup_spec (h : Inv b w) (c : κ) (hb : b.arch = .arm64 storage)
    (place : Placement storage) (cmd : Nat) {fuel} (hfuel : (w.cache c).mask + 2 ≤ fuel) :
    (∀ i, i ≤ (w.cache c).mask → (at_ (w.arrays (w.cache c).buckets) i).sel = cmd →
      cacheLookup place w c cmd fuel =
        some (.hit (at_ (w.arrays (w.cache c).buckets) i).imp)) ∧
    ((∀ i, i ≤ (w.cache c).mask → (at_ (w.arrays (w.cache c).buckets) i).sel ≠ cmd) →
      cacheLookup place w c cmd fuel = some .miss) := by
  obtain ⟨j, hpow⟩ := (h.cache c).pow
  have hstart := b.cacheHash_le hpow cmd
  have hfirst : ∀ i, i ≤ (w.cache c).mask → Stops (w.arrays (w.cache c).buckets) cmd i →
      ∃ j, StopsAt b (w.cache c).mask (w.arrays (w.cache c).buckets) cmd j := fun i hi hstop =>
    (b.cacheNext_cycles hpow hstart).exists_firstAt (fun d hd => b.cacheNext_lt hpow hstart hd)
      (lt_succ_of_le hi) hstop
  constructor
  · intro i hi hsel
    by_cases hcmd : cmd = 0
    · -- an empty bucket answers the null selector, with a nil imp
      obtain ⟨j, hj⟩ := hfirst i hi (.inr hsel)
      have hj0 : (at_ (w.arrays (w.cache c).buckets) j).sel = 0 := by
        obtain ⟨-, -, -, hstop, -⟩ := id hj
        rcases hstop with hstop | hstop
        · exact hstop
        · rw [hstop, hcmd]
      rw [hcmd] at hsel
      rw [cacheLookup_stopsAt h hb place hfuel hj]
      unfold outcomeAt
      rw [if_pos (by rw [hj0, hcmd]), (h.cache c).zero h.shared hj0, (h.cache c).zero h.shared hsel]
    · have hstored : i ∈ stored b (w.cache c).mask (w.arrays (w.cache c).buckets) :=
        mem_stored.2 ⟨hi, by rw [hsel]; exact hcmd, not_isEndMarker hb _ i⟩
      have hplaced := (h.cache c).placed h.shared hstored
      rw [hsel] at hplaced
      rw [cacheLookup_stopsAt h hb place hfuel hplaced]
      unfold outcomeAt
      rw [if_pos hsel]
  · intro hnone
    by_cases hany : ∃ i, i ≤ (w.cache c).mask ∧ Stops (w.arrays (w.cache c).buckets) cmd i
    · obtain ⟨i, hi, hstop⟩ := hany
      obtain ⟨j, hj⟩ := hfirst i hi hstop
      have hjm : j ≤ (w.cache c).mask := by
        obtain ⟨d, hd, rfl, -⟩ := id hj
        exact Nat.lt_succ_iff.1 (b.cacheNext_lt hpow hstart hd)
      rw [cacheLookup_stopsAt h hb place hfuel hj]
      unfold outcomeAt
      rw [if_neg (hnone j hjm)]
    · push Not at hany
      rw [cacheLookup_eq place w c cmd fuel hb]
      exact scan_missed (place.not_null _) ((h.cache c).length_le h.shared) hstart hany hfuel

variable [DecidableEq κ]

/-- **The fast path and the insertions agree.** In every memory that insertions
and erasures reach, whatever the layout, for every cache:

* on arm64 the scan of `CacheLookup` ends for every selector; it returns the imp
  of the bucket that holds the selector, which is the one that was inserted, and
  misses if there is none;
* `_occupied` is the number of buckets with a selector, the end marker apart;
* no selector is stored twice;
* an insertion finds a free or a matching bucket, so it is not fatal. -/
theorem lookup_agrees_with_insert (b : Build) (imp : κ → Nat → ι) (w : World κ ι)
    (h : Reachable b imp w) (c : κ) :
    (∀ storage, b.arch = .arm64 storage → ∀ (place : Placement storage) (cmd fuel : Nat),
      (w.cache c).mask + 2 ≤ fuel →
      (∀ i, i ≤ (w.cache c).mask → (at_ (w.arrays (w.cache c).buckets) i).sel = cmd →
        cacheLookup place w c cmd fuel =
          some (.hit (at_ (w.arrays (w.cache c).buckets) i).imp) ∧
        (cmd ≠ 0 → (at_ (w.arrays (w.cache c).buckets) i).imp = .imp (imp c cmd))) ∧
      ((∀ i, i ≤ (w.cache c).mask → (at_ (w.arrays (w.cache c).buckets) i).sel ≠ cmd) →
        cacheLookup place w c cmd fuel = some .miss)) ∧ (w.cache c).occupied =
      ((Finset.range ((w.cache c).mask + 1)).filter fun i =>
        (at_ (w.arrays (w.cache c).buckets) i).sel ≠ 0 ∧
          ¬ b.isEndMarker (w.cache c).mask i).card ∧
    (∀ i j, i ≤ (w.cache c).mask → j ≤ (w.cache c).mask →
      ¬ b.isEndMarker (w.cache c).mask i → ¬ b.isEndMarker (w.cache c).mask j →
      (at_ (w.arrays (w.cache c).buckets) i).sel ≠ 0 →
      (at_ (w.arrays (w.cache c).buckets) i).sel = (at_ (w.arrays (w.cache c).buckets) j).sel →
      i = j) ∧ (∀ sel imp', sel ≠ 0 → ∃ ws, insert b w c sel imp' = .ok ws) := by
  obtain ⟨hinv, hpairs⟩ := reachable_inv h
  refine ⟨?_, (hinv.cache c).occupied_eq hinv.shared, ?_, ?_⟩
  · intro storage hb place cmd fuel hfuel
    obtain ⟨hhit, hmiss⟩ := cacheLookup_spec hinv c hb place cmd hfuel
    refine ⟨fun i hi hsel => ⟨hhit i hi hsel, fun hcmd => ?_⟩, hmiss⟩
    have hstored : i ∈ stored b (w.cache c).mask (w.arrays (w.cache c).buckets) :=
      mem_stored.2 ⟨hi, by rw [hsel]; exact hcmd, not_isEndMarker hb _ i⟩
    refine hpairs c cmd _ ⟨i, hstored, ?_⟩
    rw [← hsel]
  · intro i j hi hj hendi hendj hzero heq
    have hplaced := (hinv.cache c).placed hinv.shared (mem_stored.2 ⟨hi, hzero, hendi⟩)
    rw [heq] at hplaced hzero
    exact hplaced.unique ((hinv.cache c).placed hinv.shared (mem_stored.2 ⟨hj, hzero, hendj⟩))
  · intro sel imp' hsel
    obtain ⟨ws, hws, -⟩ := insert_spec hinv c hsel imp'
    exact ⟨ws, hws⟩

end Agree

/-! A cache of two buckets with two selectors that hash to the same one. -/

def smallBuild : Build := ⟨.arm64 (.high16 false), false⟩

def smallPlacement : Placement (.high16 false) where
  address a := bucketSize * (a % 2 ^ 32 + 1)
  not_null a := Nat.le_mul_of_pos_right _ (Nat.succ_pos _)
  le_bucketsMask a := by
    change 16 * (a % 2 ^ 32 + 1) ≤ 2 ^ (48 - 4) - 1
    have := Nat.mod_lt a (show 0 < 2 ^ 32 by decide)
    omega
  aligned a := Nat.mul_mod_right _ _

/-- The stores of the insertions of two selectors. -/
def fullWorld : World Unit Nat :=
  ((World.init smallBuild).writes
    [.calloc 2, .bucketsAndMask () 1 1, .occupied () 0, .occupied () 1,
      .bucket 1 0 ⟨.imp 104, 4⟩]).writes
    [.occupied () 2, .bucket 1 1 ⟨.imp 108, 8⟩]

theorem fullWorld_reachable : Reachable smallBuild (fun _ sel => sel + 100) fullWorld :=
  .insert (c := ()) (.insert (c := ()) (.init _) (by decide : 4 ≠ 0) rfl) (by decide : 8 ≠ 0) rfl

/-- The second selector is found after the scan has wrapped around, and a third
one that hashes to the same bucket is missed although no bucket is empty. -/
theorem lookup_agrees_with_insert_full :
    Reachable smallBuild (fun _ sel => sel + 100) fullWorld ∧
      cacheLookup smallPlacement fullWorld () 8 3 = some (.hit (.imp 108)) ∧
      cacheLookup smallPlacement fullWorld () 12 3 = some .miss ∧
        (fullWorld.cache ()).occupied = 2 := by
  obtain ⟨hlookup, hocc, -, -⟩ := lookup_agrees_with_insert smallBuild _ _ fullWorld_reachable ()
  refine ⟨fullWorld_reachable, ?_, ?_, ?_⟩
  · exact ((hlookup _ rfl smallPlacement 8 3 (by decide)).1 1 (by decide) rfl).1
  · exact (hlookup _ rfl smallPlacement 12 3 (by decide)).2 (by decide)
  · rfl

end ObjcRuntime.Cache
