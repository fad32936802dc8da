import ObjcRuntime.Cache.Sound

/-!
# ObjcRuntime.Cache.Stores

The caches between two stores of an operation, as a reader without a lock finds
them (x86_64).

`Memory` adds to the caches what has happened to them: which cache an array was
allocated for, and which pairings insertions brought. `Safe` is what holds after
every single store. It is weaker than `Inv`, which only holds between
operations: the mask may still be the one of a smaller array.

A store that is `Harmless` in the state where it is made keeps `Safe`, and
changes nothing that a reader may rely on (`Evolves`): arrays keep their length,
a bucket with a selector never changes, and the mask of a cache never decreases.
All stores of `insert` and `eraseNolock` are harmless.
-/

namespace ObjcRuntime.Cache

open Function List Prod World

variable {κ ι : Type} {b : Build}

/-! ### The memory with its history -/

structure Memory (κ ι : Type) where
  world : World κ ι
  /-- The cache that an array was allocated for. -/
  owner : ArrayId → Option κ
  /-- What was inserted, into which cache. -/
  inserted : List (κ × Nat × ι)

section Writes

variable [DecidableEq κ]

/-- A store of an operation that allocates arrays for `client`. -/
def Memory.write (m : Memory κ ι) (client : Option κ) : Write κ ι → Memory κ ι
  | .calloc count =>
    { m with
      world := m.world.write (.calloc count)
      owner := update m.owner m.world.fresh client }
  | x => { m with world := m.world.write x }

def Memory.writes (m : Memory κ ι) (client : Option κ) (ws : List (Write κ ι)) : Memory κ ι :=
  ws.foldl (fun m x => m.write client x) m

@[simp] theorem Memory.write_world (m : Memory κ ι) (client) (x) :
    (m.write client x).world = m.world.write x := by
  cases x <;> rfl

@[simp] theorem Memory.write_inserted (m : Memory κ ι) (client) (x) :
    (m.write client x).inserted = m.inserted := by
  cases x <;> rfl

@[simp] theorem Memory.writes_world (m : Memory κ ι) (client) (ws) :
    (m.writes client ws).world = m.world.writes ws := by
  induction ws generalizing m with
  | nil => rfl
  | cons x ws ih => exact (ih _).trans (by rw [Memory.write_world, writes_cons])

@[simp] theorem Memory.writes_inserted (m : Memory κ ι) (client)
    (ws) : (m.writes client ws).inserted = m.inserted := by
  induction ws generalizing m with
  | nil => rfl
  | cons x ws ih => exact (ih _).trans (Memory.write_inserted ..)

end Writes

/-! ### What holds after every store -/

/-- The last bucket, and no other, is an end marker. -/
def EndMarked (w : World κ ι) (a : ArrayId) : Prop :=
  ∃ last, (w.arrays a).length = last + 1 ∧ at_ (w.arrays a) last = ⟨.bucket a, 1⟩ ∧
    ∀ i, (at_ (w.arrays a) i).sel = 1 → i = last

/-- A reader of cache `c` may scan array `a`. -/
structure Scannable (m : Memory κ ι) (c : κ) (a : ArrayId) : Prop where
  lt_fresh : a < m.world.fresh
  own : m.world.Shared a ∨ m.owner a = some c ∧ EndMarked m.world a

/-- The buckets and the mask `k` suit cache `c`. -/
structure Fits (m : Memory κ ι) (c : κ) (k : CacheT) : Prop where
  scannable : Scannable m c k.buckets
  length : k.mask + 1 ≤ (m.world.arrays k.buckets).length
  placed : ∀ i, 1 < (at_ (m.world.arrays k.buckets) i).sel → i < k.mask

structure Safe (m : Memory κ ι) : Prop where
  shared_lt : ∀ a, m.world.Shared a → a < m.world.fresh
  shared_zero : ∀ a, m.world.Shared a → ∀ i, at_ (m.world.arrays a) i = .zero
  shared_owner : ∀ a, m.world.Shared a → m.owner a = none
  fits : ∀ c, Fits m c (m.world.cache c)
  pairs : ∀ a i, 1 < (at_ (m.world.arrays a) i).sel → ∃ c imp, m.owner a = some c ∧
    (at_ (m.world.arrays a) i).imp = .imp imp ∧
    (c, (at_ (m.world.arrays a) i).sel, imp) ∈ m.inserted

/-- What a reader may rely on while others store. -/
structure Evolves (b : Build) (m m' : Memory κ ι) : Prop where
  fresh : m.world.fresh ≤ m'.world.fresh
  shared : ∀ a, m.world.Shared a → m'.world.Shared a
  owner : ∀ a, a < m.world.fresh → m'.owner a = m.owner a
  length : ∀ a, a < m.world.fresh → (m'.world.arrays a).length = (m.world.arrays a).length
  kept : ∀ a i, a < m.world.fresh → (at_ (m.world.arrays a) i).sel ≠ 0 →
    at_ (m'.world.arrays a) i = at_ (m.world.arrays a) i
  endMarked : ∀ a, a < m.world.fresh → EndMarked m.world a → EndMarked m'.world a
  mask : ∀ c, (m.world.cache c).mask ≤ (m'.world.cache c).mask
  /-- A bucket only gets a selector in the array that its cache is using. -/
  filled : ∀ a i, a < m.world.fresh → 1 < (at_ (m'.world.arrays a) i).sel →
    at_ (m'.world.arrays a) i = at_ (m.world.arrays a) i ∨
    ∃ c, m'.owner a = some c ∧
      m'.world.Holds b c (at_ (m'.world.arrays a) i).sel (at_ (m'.world.arrays a) i).imp

/-! ### Harmless stores -/

/-- The bucket may be written: it has no selector yet. -/
structure Unused (m : Memory κ ι) (a : ArrayId) (i : Nat) : Prop where
  notShared : ¬ m.world.Shared a
  lt_length : i < (m.world.arrays a).length
  sel : (at_ (m.world.arrays a) i).sel = 0

/-- `sel = 1` completes the end marker of a new array. -/
structure Marks (m : Memory κ ι) (a : ArrayId) (sel : Nat) : Prop where
  eq_one : sel = 1
  unused : ∀ j, (at_ (m.world.arrays a) j).sel = 0

/-- `sel` completes a pairing in the array that its cache uses. -/
structure Completes (m : Memory κ ι) (a : ArrayId) (i sel : Nat) (c : κ) (imp : ι) : Prop where
  one_lt : 1 < sel
  owner : m.owner a = some c
  stored : (at_ (m.world.arrays a) i).imp = .imp imp
  inserted : (c, sel, imp) ∈ m.inserted
  buckets : (m.world.cache c).buckets = a
  lt_mask : i < (m.world.cache c).mask

def Harmless (m : Memory κ ι) : Write κ ι → Prop
  | .calloc _ => True
  | .emptyBucketsList list =>
    (∀ a ∈ m.world.emptyBucketsList, a ∈ list) ∧
    ∀ a ∈ list, a ∈ m.world.emptyBucketsList ∨
      a < m.world.fresh ∧ m.owner a = none ∧ ∀ i, at_ (m.world.arrays a) i = .zero
  | .buckets c array => Fits m c { m.world.cache c with buckets := array }
  | .mask c mask => (m.world.cache c).mask ≤ mask ∧ Fits m c { m.world.cache c with mask }
  | .occupied _ _ => True
  | .imp array i _ => Unused m array i
  | .sel array i sel =>
    Unused m array i ∧ (Marks m array sel ∨ ∃ c imp, Completes m array i sel c imp)
  -- x86_64 makes no such stores
  | .bucketsAndMask _ _ _ => False
  | .bucket _ _ _ => False

section Stores

variable {m m' : Memory κ ι}

theorem Fits.frame {c k} (h : Fits m c k) (hfresh : m.world.fresh ≤ m'.world.fresh)
    (hshared : m.world.Shared k.buckets → m'.world.Shared k.buckets)
    (howner : m'.owner k.buckets = m.owner k.buckets)
    (harray : m'.world.arrays k.buckets = m.world.arrays k.buckets) : Fits m' c k := by
  obtain ⟨⟨hlt, hown⟩, hlength, hplaced⟩ := h
  refine ⟨⟨lt_of_lt_of_le hlt hfresh, ?_⟩, ?_, ?_⟩
  · refine hown.imp hshared (And.imp ?_ ?_)
    · intro h
      rw [howner]
      exact h
    · intro h
      unfold EndMarked
      rw [harray]
      exact h
  · rw [harray]
    exact hlength
  · rw [harray]
    exact hplaced

theorem Safe.setBucket (h : Safe m) {a i} (hunused : Unused m a i) {x}
    (hx : x.sel = 0 ∨ Marks m a x.sel ∨
      ∃ c imp, x.imp = .imp imp ∧ Completes m a i x.sel c imp)
    (hm' : m' = { m with world := m.world.setBucket a i x }) : Safe m' ∧ Evolves b m m' := by
  have hat := fun j => at_set hunused.lt_length x j
  have harrays : ∀ a', a' ≠ a → m'.world.arrays a' = m.world.arrays a' := by
    intro a' ha
    rw [hm']
    exact update_of_ne ha ..
  have hown : m'.world.arrays a = (m.world.arrays a).set i x := by
    rw [hm']; exact setBucket_arrays ..
  have hlength : ∀ a', (m'.world.arrays a').length = (m.world.arrays a').length := by
    intro a'
    by_cases ha : a' = a
    · rw [ha, hown, length_set]
    · rw [harrays a' ha]
  have hkept : ∀ a' j, (at_ (m.world.arrays a') j).sel ≠ 0 →
      at_ (m'.world.arrays a') j = at_ (m.world.arrays a') j := by
    intro a' j hj
    by_cases ha : a' = a
    · rw [ha] at hj ⊢
      rw [hown, hat, if_neg]
      intro hji
      rw [hji] at hj
      exact hj hunused.sel
    · rw [harrays a' ha]
  -- where a selector can have appeared
  have hcases : ∀ a' j, at_ (m'.world.arrays a') j = at_ (m.world.arrays a') j ∨
      a' = a ∧ j = i ∧ at_ (m'.world.arrays a') j = x := by
    intro a' j
    by_cases ha : a' = a
    · rw [ha, hown, hat]
      by_cases hji : j = i
      · rw [if_pos hji]
        exact .inr ⟨rfl, hji, rfl⟩
      · rw [if_neg hji]
        exact .inl rfl
    · rw [harrays a' ha]
      exact .inl rfl
  have hpaired : 1 < x.sel → ∃ c imp, x.imp = .imp imp ∧ Completes m a i x.sel c imp := by
    intro hsel
    rcases hx with hzero | hmarks | hpair
    · omega
    · have := hmarks.eq_one
      omega
    · exact hpair
  have hend : ∀ a', EndMarked m.world a' → EndMarked m'.world a' := by
    rintro a' ⟨last, hlast, hmark, honly⟩
    refine ⟨last, (hlength a').trans hlast, ?_, fun j hj => ?_⟩
    · rw [hkept a' last (by rw [hmark]; exact one_ne_zero), hmark]
    · rcases hcases a' j with hsame | ⟨ha, hji, hnew⟩
      · rw [hsame] at hj
        exact honly j hj
      · rw [hnew] at hj
        rcases hx with hzero | hmarks | ⟨c, imp, -, hpair⟩
        · exact absurd (hj.symm.trans hzero) one_ne_zero
        · have hfree := hmarks.unused last
          rw [← ha, hmark] at hfree
          exact absurd hfree one_ne_zero
        · exact absurd hj (ne_of_gt hpair.one_lt)
  have hworld : m'.world.cache = m.world.cache ∧ m'.world.fresh = m.world.fresh ∧
      m'.owner = m.owner ∧ m'.inserted = m.inserted := by
    rw [hm']; exact ⟨rfl, rfl, rfl, rfl⟩
  obtain ⟨hcache, hfresh, howner, hinserted⟩ := hworld
  have hshared : ∀ a, m'.world.Shared a ↔ m.world.Shared a := by rw [hm']; exact fun _ => Iff.rfl
  refine ⟨⟨fun a' ha => ?_, fun a' ha j => ?_, fun a' ha => ?_, fun c => ?_, fun a' j hj => ?_⟩, ?_⟩
  · rw [hfresh]
    exact h.shared_lt a' ((hshared a').1 ha)
  · have ha' := (hshared a').1 ha
    rw [harrays a' fun heq => hunused.notShared (heq ▸ ha')]
    exact h.shared_zero a' ha' j
  · rw [howner]
    exact h.shared_owner a' ((hshared a').1 ha)
  · have hfits := h.fits c
    rw [hcache]
    refine ⟨⟨by rw [hfresh]; exact hfits.scannable.lt_fresh, ?_⟩, ?_, fun j hj => ?_⟩
    · rw [howner]
      exact hfits.scannable.own.imp (hshared _).2 (And.imp_right (hend _))
    · rw [hlength]
      exact hfits.length
    · rcases hcases (m.world.cache c).buckets j with hsame | ⟨ha, hji, hnew⟩
      · rw [hsame] at hj
        exact hfits.placed j hj
      · rw [hnew] at hj
        obtain ⟨d, imp, -, hpair⟩ := hpaired hj
        -- the array belongs to one cache only
        have hdc : d = c := by
          rcases hfits.scannable.own with hs | ⟨ho, -⟩
          · rw [ha] at hs
            exact absurd hs hunused.notShared
          · rw [ha, hpair.owner] at ho
            exact Option.some.inj ho
        rw [hji, ← hdc]
        exact hpair.lt_mask
  · rw [howner, hinserted]
    rcases hcases a' j with hsame | ⟨ha, hji, hnew⟩
    · rw [hsame] at hj ⊢
      exact h.pairs a' j hj
    · rw [hnew] at hj ⊢
      obtain ⟨c, imp, himp, hpair⟩ := hpaired hj
      rw [ha]
      exact ⟨c, imp, hpair.owner, himp, hpair.inserted⟩
  · refine ⟨le_of_eq hfresh.symm, fun a' => (hshared a').2, fun _ _ => by rw [howner],
      fun a' _ => hlength a', fun a' j _ => hkept a' j, fun a' _ => hend a',
      fun c => by rw [hcache], fun a' j _ hj => ?_⟩
    rcases hcases a' j with hsame | ⟨ha, hji, hnew⟩
    · exact .inl hsame
    · rw [hnew] at hj ⊢
      obtain ⟨c, imp, -, hpair⟩ := hpaired hj
      refine .inr ⟨c, by rw [ha, howner]; exact hpair.owner, i, ?_, ?_⟩
      · rw [hcache, mem_stored, hpair.buckets, hown, hat, if_pos rfl]
        refine ⟨le_of_lt hpair.lt_mask, by omega, fun hlast => ?_⟩
        exact absurd hlast.2 (ne_of_lt hpair.lt_mask)
      · rw [hcache, hpair.buckets, hown, hat, if_pos rfl]

variable [DecidableEq κ]

theorem Safe.setCache (h : Safe m) {c k} (hk : Fits m c k)
    (hmask : (m.world.cache c).mask ≤ k.mask)
    (hm' : m' = { m with world := m.world.setCache c k }) :
    Safe m' ∧ Evolves b m m' := by
  subst hm'
  have hcache : ∀ d, d ≠ c → (m.world.setCache c k).cache d = m.world.cache d :=
    fun d hd => update_of_ne hd ..
  refine ⟨⟨h.shared_lt, h.shared_zero, h.shared_owner, fun d => ?_, h.pairs⟩, ⟨le_rfl, fun _ => id,
    fun _ _ => rfl, fun _ _ => rfl, fun _ _ _ _ => rfl, fun _ _ => id, fun d => ?_,
    fun _ _ _ _ => .inl rfl⟩⟩
  · by_cases hd : d = c
    · rw [hd, setCache_cache]
      exact hk.frame le_rfl id rfl rfl
    · rw [hcache d hd]
      exact (h.fits d).frame le_rfl id rfl rfl
  · by_cases hd : d = c
    · rw [hd, setCache_cache]
      exact hmask
    · rw [hcache d hd]

theorem Safe.calloc (h : Safe m) (client) (count : Nat) :
    Safe (m.write client (.calloc count)) ∧ Evolves b m (m.write client (.calloc count)) := by
  generalize hm' : m.write client (.calloc count) = m'
  have hfresh : m'.world.fresh = m.world.fresh + 1 := by rw [← hm']; rfl
  have hnew : m'.world.arrays m.world.fresh = List.replicate count .zero := by
    rw [← hm']; exact update_self ..
  have harrays : ∀ a, a ≠ m.world.fresh → m'.world.arrays a = m.world.arrays a := by
    intro a ha
    rw [← hm']
    exact update_of_ne ha ..
  have howner : ∀ a, a ≠ m.world.fresh → m'.owner a = m.owner a := by
    intro a ha
    rw [← hm']
    exact update_of_ne ha ..
  have hcache : m'.world.cache = m.world.cache := by rw [← hm']; rfl
  have hshared : ∀ a, m'.world.Shared a ↔ m.world.Shared a := by rw [← hm']; exact fun _ => Iff.rfl
  have hne : ∀ a, a < m.world.fresh → a ≠ m.world.fresh := fun a => ne_of_lt
  refine ⟨⟨fun a ha => ?_, fun a ha i => ?_, fun a ha => ?_, fun c => ?_, fun a i hi => ?_⟩, ?_⟩
  · rw [hfresh]
    exact Nat.lt_succ_of_lt (h.shared_lt a ((hshared a).1 ha))
  · have ha' := (hshared a).1 ha
    rw [harrays a (hne a (h.shared_lt a ha'))]
    exact h.shared_zero a ha' i
  · have ha' := (hshared a).1 ha
    rw [howner a (hne a (h.shared_lt a ha'))]
    exact h.shared_owner a ha'
  · have hlt := hne _ (h.fits c).scannable.lt_fresh
    rw [hcache]
    exact (h.fits c).frame (by rw [hfresh]; exact Nat.le_succ _) (hshared _).2 (howner _ hlt)
      (harrays _ hlt)
  · by_cases ha : a = m.world.fresh
    · rw [ha, hnew, at_replicate] at hi
      exact absurd hi (Nat.not_lt_zero 1)
    · rw [harrays a ha] at hi ⊢
      rw [howner a ha, ← hm', Memory.write_inserted]
      exact h.pairs a i hi
  · refine ⟨?_, fun a => (hshared a).2, fun a ha => howner a (hne a ha), fun a ha => ?_,
      fun a i ha _ => ?_, fun a ha hend => ?_, fun c => ?_, fun a i ha _ => .inl ?_⟩
    · rw [hfresh]
      exact Nat.le_succ _
    · rw [harrays a (hne a ha)]
    · rw [harrays a (hne a ha)]
    · unfold EndMarked
      rw [harrays a (hne a ha)]
      exact hend
    · rw [hcache]
    · rw [harrays a (hne a ha)]

theorem Safe.emptyBucketsList (h : Safe m) {client list}
    (hlist : Harmless m (.emptyBucketsList list)) :
    Safe (m.write client (.emptyBucketsList list)) ∧
      Evolves b m (m.write client (.emptyBucketsList list)) := by
  obtain ⟨hkeep, hnew⟩ := hlist
  have hshared : ∀ a, m.world.Shared a → (m.write client (.emptyBucketsList list)).world.Shared a :=
    fun a ha => ha.imp_right (hkeep a)
  have hcases : ∀ a, (m.write client (.emptyBucketsList list)).world.Shared a → m.world.Shared a ∨
      a < m.world.fresh ∧ m.owner a = none ∧ ∀ i, at_ (m.world.arrays a) i = .zero := by
    intro a ha
    cases ha with
    | inl ha => exact .inl (.inl ha)
    | inr ha => exact (hnew a ha).imp_left .inr
  refine ⟨⟨fun a ha => ?_, fun a ha => ?_, fun a ha => ?_, fun c => ?_, h.pairs⟩, ?_⟩
  · exact (hcases a ha).elim (h.shared_lt a) fun hzero => hzero.1
  · exact (hcases a ha).elim (h.shared_zero a) fun hzero => hzero.2.2
  · exact (hcases a ha).elim (h.shared_owner a) fun hzero => hzero.2.1
  · exact (h.fits c).frame le_rfl (hshared _) rfl rfl
  · exact ⟨le_refl _, hshared, fun _ _ => rfl, fun _ _ => rfl, fun _ _ _ _ => rfl,
      fun _ _ => id, fun _ => le_refl _, fun _ _ _ _ => .inl rfl⟩

/-- **A harmless store keeps the memory safe and disturbs no reader.** -/
theorem Safe.write (h : Safe m) {x} (hx : Harmless m x) (client) :
    Safe (m.write client x) ∧ Evolves b m (m.write client x) := by
  cases x with
  | calloc count => exact h.calloc client count
  | emptyBucketsList list => exact h.emptyBucketsList hx
  | buckets c array => exact h.setCache hx le_rfl rfl
  | mask c mask => exact h.setCache hx.2 hx.1 rfl
  | occupied c occupied =>
    obtain ⟨hscan, hlength, hplaced⟩ := h.fits c
    exact h.setCache (k := { m.world.cache c with occupied }) ⟨hscan, hlength, hplaced⟩ le_rfl rfl
  | imp array i imp =>
    exact h.setBucket (x := { at_ (m.world.arrays array) i with imp }) hx (.inl hx.sel) rfl
  | sel array i sel =>
    refine h.setBucket hx.1 (.inr ?_) rfl
    refine hx.2.imp_right ?_
    rintro ⟨c, imp, hpair⟩
    exact ⟨c, imp, hpair.stored, hpair⟩
  | bucketsAndMask c array mask | bucket array i bucket => exact hx.elim

end Stores

variable [DecidableEq κ]

/-! ### The stores of an operation -/

/-- Every store is harmless in the state where it is made. -/
def AllHarmless (client : Option κ) : Memory κ ι → List (Write κ ι) → Prop
  | _, [] => True
  | m, x :: ws => Harmless m x ∧ AllHarmless client (m.write client x) ws

section Operations

variable {m : Memory κ ι} {client : Option κ} {c : κ}

theorem allHarmless_append {ws ws'} (h : AllHarmless client m ws)
    (h' : AllHarmless client (m.writes client ws) ws') : AllHarmless client m (ws ++ ws') := by
  induction ws generalizing m with
  | nil => exact h'
  | cons x ws ih => exact ⟨h.1, ih h.2 h'⟩

theorem Safe.writes (h : Safe m) {ws} (hws : AllHarmless client m ws) :
    Safe (m.writes client ws) := by
  induction ws generalizing m with
  | nil => exact h
  | cons x ws ih => exact ih (h.write (b := ⟨.x86_64, false⟩) hws.1 client).1 hws.2

/-- The buckets first, then the mask: the new array is large enough for both. -/
theorem allHarmless_setBucketsAndMask (hb : b.arch = .x86_64) {a mask}
    (hmask : (m.world.cache c).mask ≤ mask) (hscan : Scannable m c a)
    (hlength : mask + 1 ≤ (m.world.arrays a).length)
    (hempty : ∀ i, ¬ 1 < (at_ (m.world.arrays a) i).sel) :
    AllHarmless client m (setBucketsAndMask b c a mask) := by
  unfold setBucketsAndMask
  rw [hb]
  have hfits : ∀ k, k.buckets = a → k.mask ≤ mask → Fits m c k := by
    rintro k rfl hk
    exact ⟨hscan, Nat.le_trans (Nat.succ_le_succ hk) hlength, fun i hi => absurd hi (hempty i)⟩
  have hc : (m.write client (.buckets c a)).world.cache c =
      { m.world.cache c with buckets := a } := setCache_cache ..
  refine ⟨hfits _ rfl hmask, ?_, trivial, trivial⟩
  change ((m.write client (.buckets c a)).world.cache c).mask ≤ mask ∧ Fits _ _ _
  rw [hc]
  exact ⟨hmask, (hfits _ rfl le_rfl).frame le_rfl id rfl rfl⟩

/-- The end marker is complete before anybody can see the new array. -/
theorem allHarmless_reallocate (h : Safe m) (hb : b.arch = .x86_64) {mask}
    (hmask : (m.world.cache c).mask ≤ mask) :
    AllHarmless (some c) m (reallocate b m.world c (mask + 1)) := by
  have hend : b.cacheEndMarker = 1 := by unfold Build.cacheEndMarker; rw [hb]
  have hworld := writes_allocateBuckets (b := b) (w := m.world) mask
  have hshared : ¬ m.world.Shared m.world.fresh := fun hs =>
    lt_irrefl _ (h.shared_lt _ hs)
  have halloc : (allocateBuckets b m.world (mask + 1) : List (Write κ ι)) =
      [.calloc (mask + 1), .imp m.world.fresh mask (.bucket m.world.fresh),
        .sel m.world.fresh mask 1] := by
    unfold allocateBuckets Bucket.set
    rw [if_pos hend, hb, Nat.add_sub_cancel]
  unfold reallocate
  rw [Nat.add_sub_cancel]
  refine allHarmless_append ?_ ?_
  · rw [halloc]
    have hnew : (m.write (some c) (.calloc (mask + 1))).world.arrays m.world.fresh =
        List.replicate (mask + 1) .zero := update_self ..
    have hat : ∀ j, (at_ (((m.write (some c) (.calloc (mask + 1))).write (some c)
        (.imp m.world.fresh mask (.bucket m.world.fresh))).world.arrays m.world.fresh) j).sel =
          0 := by
      intro j
      rw [Memory.write_world, write, setBucket_arrays, hnew,
        at_set (by rw [length_replicate]; omega), at_replicate]
      split
      · rfl
      · rw [at_replicate]
        rfl
    refine ⟨trivial, ⟨hshared, ?_, ?_⟩, ⟨⟨hshared, ?_, hat mask⟩, .inl ⟨rfl, hat⟩⟩, trivial⟩
    · rw [hnew, length_replicate]
      exact Nat.lt_succ_self _
    · rw [hnew, at_replicate]
      rfl
    · rw [Memory.write_world, write, setBucket_arrays, hnew, length_set, length_replicate]
      exact Nat.lt_succ_self _
  · have harray : (m.writes (some c) (allocateBuckets b m.world (mask + 1))).world.arrays
        m.world.fresh = freshBuckets b m.world.fresh (mask + 1) := by
      rw [Memory.writes_world, hworld]
      exact update_self ..
    have hat : ∀ i, at_ ((m.writes (some c) (allocateBuckets b m.world (mask + 1))).world.arrays
        m.world.fresh) i = if i = mask then ⟨.bucket m.world.fresh, 1⟩ else .zero := by
      intro i
      rw [harray, at_freshBuckets]
      unfold Build.isEndMarker
      simp only [hend, true_and]
    have hlength : ((m.writes (some c) (allocateBuckets b m.world (mask + 1))).world.arrays
        m.world.fresh).length = mask + 1 := by
      rw [harray]
      exact (filled_freshBuckets (b := b)).length
    refine allHarmless_setBucketsAndMask hb ?_ ⟨?_, .inr ⟨?_, mask, hlength, ?_, ?_⟩⟩
      (le_of_eq hlength.symm) ?_
    · rw [Memory.writes_world, hworld]
      exact hmask
    · rw [Memory.writes_world, hworld]
      exact Nat.lt_succ_self _
    · rw [halloc]
      exact update_self ..
    · rw [hat, if_pos rfl]
    · intro i hi
      rw [hat] at hi
      by_contra hne
      rw [if_neg hne] at hi
      exact absurd hi zero_ne_one
    · intro i hi
      rw [hat] at hi
      split at hi
      · exact lt_irrefl 1 hi
      · exact Nat.not_lt_zero 1 hi

theorem allHarmless_makeRoom (h : Safe m) (hinv : Inv b m.world) (hb : b.arch = .x86_64) (c : κ) :
    AllHarmless (some c) m (makeRoom b m.world c).1 := by
  unfold makeRoom
  rcases newCapacity_cases (hinv.cache c) with ⟨mask, -, hmask, hcap⟩ | ⟨hcap, -⟩
  · rw [hcap]
    exact allHarmless_reallocate h hb hmask
  · rw [hcap]
    trivial

/-- The imp is stored before the selector, into the array in use. -/
theorem allHarmless_fill (h : Safe m) (hb : b.arch = .x86_64)
    (howns : Owns b m.world (m.world.cache c)) {i sel n} (hsel : 1 < sel)
    (hi : i ≤ (m.world.cache c).mask)
    (hzero : (at_ (m.world.arrays (m.world.cache c).buckets) i).sel = 0) {imp}
    (hinserted : (c, sel, imp) ∈ m.inserted) :
    AllHarmless client m (.occupied c n ::
      Bucket.set b (m.world.cache c).buckets i sel (.imp imp)) := by
  have hend : b.cacheEndMarker = 1 := by unfold Build.cacheEndMarker; rw [hb]
  have hmarker := howns.filled.endMarker hend
  have hlt : i < (m.world.cache c).mask := by
    refine Nat.lt_of_le_of_ne hi fun heq => ?_
    rw [heq, hmarker] at hzero
    exact Nat.one_ne_zero hzero
  have hlength : i < (m.world.arrays (m.world.cache c).buckets).length := by
    rw [howns.filled.length]
    exact Nat.lt_succ_of_lt hlt
  have howner := ((h.fits c).scannable.own.resolve_left howns.notShared).1
  have hcache : ((m.write client (.occupied c n)).write client
      (.imp (m.world.cache c).buckets i (.imp imp))).world.cache c =
      { m.world.cache c with occupied := n } := setCache_cache ..
  unfold Bucket.set
  rw [hb]
  have hat : at_ (((m.write client (.occupied c n)).write client
      (.imp (m.world.cache c).buckets i (.imp imp))).world.arrays (m.world.cache c).buckets) i =
      ⟨.imp imp, 0⟩ := by
    have hnew : at_ (((m.world.arrays (m.world.cache c).buckets)).set i
        ⟨.imp imp, (at_ (m.world.arrays (m.world.cache c).buckets) i).sel⟩) i = ⟨.imp imp, 0⟩ := by
      rw [at_set hlength, if_pos rfl, hzero]
    rw [Memory.write_world, write, setBucket_arrays]
    exact hnew
  refine ⟨trivial, ⟨howns.notShared, hlength, hzero⟩, ⟨⟨howns.notShared, ?_, ?_⟩, .inr ?_⟩, trivial⟩
  · rw [Memory.write_world, write, setBucket_arrays, length_set]
    exact hlength
  · rw [hat]
  · refine ⟨c, imp, hsel, howner, ?_, hinserted, ?_, ?_⟩
    · rw [hat]
    · rw [hcache]
    · rw [hcache]
      exact hlt

/-- **Every store of an insertion is harmless**, once the pairing counts as
inserted. -/
theorem allHarmless_insert (h : Safe m) (hinv : Inv b m.world) (hb : b.arch = .x86_64) {sel}
    (hsel : 1 < sel) {imp} (hinserted : (c, sel, imp) ∈ m.inserted) {ws}
    (hws : insert b m.world c sel imp = .ok ws) : AllHarmless (some c) m ws := by
  obtain ⟨-, hroom, hcap, -⟩ := makeRoom_spec hinv c
  have hmake := allHarmless_makeRoom h hinv hb c
  unfold insert at hws
  rw [not_isConstantOptimizedCache (hinv.cache c), if_neg Bool.false_ne_true] at hws
  dsimp only at hws
  rw [hcap, Nat.add_sub_cancel] at hws
  rw [← Memory.writes_world m (some c)] at hroom hws
  have hfree := hroom.room
  rw [hroom.owns.occupied] at hfree
  obtain ⟨j, -, -, hpow⟩ := id hroom.size
  obtain ⟨i, hi, -, hslot⟩ := findSlot_cases hpow hfree sel
  rcases hslot with ⟨hzero, hslot⟩ | ⟨-, -, hslot⟩
  · rw [hslot] at hws
    cases hws
    refine allHarmless_append hmake ?_
    exact allHarmless_fill (h.writes hmake) hb hroom.owns hsel hi hzero
      (by rw [Memory.writes_inserted]; exact hinserted)
  · rw [hslot] at hws
    cases hws
    exact hmake

/-- **Every store of `eraseNolock` is harmless**: the shared array has the size
of the one it replaces. -/
theorem allHarmless_eraseNolock (hinv : Inv b m.world) (hb : b.arch = .x86_64)
    (c : κ) : AllHarmless none m (eraseNolock b m.world c) := by
  rcases eraseNolock_cases hinv c with ⟨-, herase⟩ | ⟨ws, a, hsize, hempty, herase⟩
  · rw [herase]
    trivial
  · obtain ⟨ws', a', heq, hshared, -, hcache, -, hget⟩ := emptyBuckets_allocate hinv.shared hsize
    obtain ⟨rfl, ha⟩ := mk.inj (hempty.symm.trans heq)
    cases ha
    have hmine := shared_of_emptyBucketsForCapacity hget
    have hlength : (m.world.cache c).mask + 1 ≤ ((m.world.writes ws).arrays a).length := by
      refine CacheOk.length_le (k := ⟨a, (m.world.cache c).mask, 0⟩) hshared (.erased hsize rfl ?_)
      rw [SizeOk.capacity (k := ⟨a, _, 0⟩) hsize]
      exact hget
    have hws : AllHarmless none m ws := by
      unfold emptyBucketsForCapacity at hempty
      split at hempty
      · obtain ⟨rfl, -⟩ := mk.inj hempty
        trivial
      · dsimp only at hempty
        split at hempty
        · obtain ⟨rfl, -⟩ := mk.inj hempty
          refine ⟨trivial, ⟨fun a ha => mem_append_left _ ha, fun a ha => ?_⟩, trivial⟩
          refine (mem_append.1 ha).imp_right fun hnew => ?_
          rw [eq_of_mem_replicate hnew]
          refine ⟨Nat.lt_succ_self _, update_self .., fun i => ?_⟩
          have hzero : (m.write none (.calloc ((m.world.cache c).mask + 1))).world.arrays
              m.world.fresh = List.replicate ((m.world.cache c).mask + 1) .zero :=
            update_self ..
          rw [hzero, at_replicate]
        · obtain ⟨rfl, -⟩ := mk.inj hempty
          trivial
    rw [herase]
    refine allHarmless_append hws ?_
    rw [← Memory.writes_world m none] at hshared hcache hlength hmine
    refine allHarmless_setBucketsAndMask hb (by rw [hcache]) ⟨hshared.lt_fresh a hmine, .inl hmine⟩
      hlength fun i hi => ?_
    rw [hshared.zero a hmine i] at hi
    exact absurd hi (Nat.not_lt_zero 1)

end Operations

end ObjcRuntime.Cache
