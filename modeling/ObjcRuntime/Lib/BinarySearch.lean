import Mathlib.Data.List.Basic

/-!
# ObjcRuntime.Lib.BinarySearch

A binary search for a key in a list of named entries, which steps back from the
match it hits to the first one. On a list sorted by name it finds what a linear
search finds (`binarySearch_eq_find?`); on any list, what it finds has the key
(`name_of_binarySearch`). A list of distinct names whose entries are all found is
sorted (`sortedBy_of_binarySearch`). Sorting a list does not change what a linear
search finds in it (`find?_mergeSort`).
-/

namespace ObjcRuntime.Lib

open List Option

variable {α : Type} (name : α → Nat) (key : Nat) (l : List α)

/-- Back to the first of the entries with the key. -/
def rewind : Nat → Nat
  | 0 => 0
  | probe + 1 => if l[probe]?.map name = some key then rewind probe else probe + 1

/-- The search among `count` entries from `base` on. -/
def searchLoop : Nat → Nat → Nat → Option α
  | 0, _, _ => none
  | fuel + 1, count, base =>
    if count = 0 then none
    else
      match l[base + count / 2]? with
      | none => none
      | some entry =>
        if name entry = key then l[rewind name key l (base + count / 2)]?
        else if name entry < key then searchLoop fuel ((count - 1) / 2) (base + count / 2 + 1)
        else searchLoop fuel (count / 2) base

def binarySearch : Option α := searchLoop name key l l.length l.length 0

/-- The names do not decrease. -/
def SortedBy : Prop := l.Pairwise fun a b => name a ≤ name b

variable {name} {key} {l}

theorem SortedBy.le (h : SortedBy name l) {i j : Nat} (hij : i ≤ j) {a b : α} (ha : l[i]? = some a)
    (hb : l[j]? = some b) : name a ≤ name b := by
  obtain ⟨hi, rfl⟩ := List.getElem?_eq_some_iff.1 ha
  obtain ⟨hj, rfl⟩ := List.getElem?_eq_some_iff.1 hb
  rcases Nat.lt_or_eq_of_le hij with hlt | rfl
  · exact pairwise_iff_getElem.1 h i j hi hj hlt
  · exact Nat.le_refl _

theorem rewind_spec {probe entry} (hentry : l[probe]? = some entry) (hkey : name entry = key) :
    (∃ first, l[rewind name key l probe]? = some first ∧ name first = key) ∧
      ∀ i, rewind name key l probe = i + 1 → ∀ before, l[i]? = some before → name before ≠ key := by
  induction probe generalizing entry with
  | zero => exact ⟨⟨entry, hentry, hkey⟩, by simp [rewind]⟩
  | succ probe ih =>
    rw [rewind]
    split
    next hback =>
      obtain ⟨entry', hentry', hkey'⟩ := map_eq_some_iff.1 hback
      exact ih hentry' hkey'
    next hstop =>
      refine ⟨⟨entry, hentry, hkey⟩, fun i hi before hbefore hmatch => hstop ?_⟩
      obtain rfl := Nat.succ.inj hi
      rw [hbefore, map_some, hmatch]

theorem name_of_searchLoop {fuel} :
    ∀ {count base} {entry}, searchLoop name key l fuel count base = some entry →
      entry ∈ l ∧ name entry = key := by
  induction fuel with
  | zero => exact nofun
  | succ fuel ih =>
    intro count base entry h
    rw [searchLoop] at h
    split at h
    · cases h
    · split at h
      · cases h
      next hprobe =>
        split at h
        next hkey =>
          obtain ⟨⟨first, hfirst, hname⟩, -⟩ := rewind_spec hprobe hkey
          obtain rfl := some.inj (hfirst.symm.trans h)
          exact ⟨mem_of_getElem? hfirst, hname⟩
        · split at h
          · exact ih h
          · exact ih h

theorem name_of_binarySearch {entry} (h : binarySearch name key l = some entry) :
    entry ∈ l ∧ name entry = key :=
  name_of_searchLoop h

theorem SortedBy.rewind_eq_find? (h : SortedBy name l) {probe : Nat} {entry : α}
    (hentry : l[probe]? = some entry) (hkey : name entry = key) :
    l[rewind name key l probe]? = l.find? fun a => name a = key := by
  obtain ⟨⟨first, hfirst, hname⟩, hbefore⟩ := rewind_spec hentry hkey
  rw [hfirst, eq_comm, find?_eq_some_iff_getElem]
  obtain ⟨hlt, heq⟩ := List.getElem?_eq_some_iff.1 hfirst
  refine ⟨by simpa using hname, _, hlt, heq, fun j hj => ?_⟩
  -- an earlier match would stand right before the first one, too
  obtain ⟨i, hpos⟩ := Nat.exists_eq_succ_of_ne_zero (Nat.ne_zero_of_lt hj)
  have hi : i < l.length := by omega
  have hlast := getElem?_eq_getElem hi
  have hle := h.le (show j ≤ i by omega) (getElem?_eq_getElem (by omega)) hlast
  have hle' := h.le (show i ≤ rewind name key l probe by omega) hlast hfirst
  have hne := hbefore i hpos _ hlast
  simp only [Bool.not_eq_eq_eq_not, Bool.not_true, decide_eq_false_iff_not]
  omega

/-- The search keeps all matches between `base` and `base + count`. -/
theorem SortedBy.searchLoop_eq_find? (h : SortedBy name l) {fuel} :
    ∀ {count base}, count ≤ fuel → base + count ≤ l.length →
      (∀ i a, l[i]? = some a → name a = key → base ≤ i ∧ i < base + count) →
      searchLoop name key l fuel count base = l.find? fun a => name a = key := by
  have hnone : ∀ base, (∀ i a, l[i]? = some a → name a = key → base ≤ i ∧ i < base + 0) →
      none = l.find? fun a => name a = key := by
    intro base hin
    rw [eq_comm, find?_eq_none]
    intro a ha hmatch
    obtain ⟨i, hi⟩ := getElem?_of_mem ha
    have := hin i a hi (by simpa using hmatch)
    omega
  induction fuel with
  | zero =>
    intro count base hcount _ hin
    obtain rfl := Nat.le_zero.1 hcount
    exact hnone base hin
  | succ fuel ih =>
    intro count base hcount hlen hin
    rw [searchLoop]
    split
    next hzero =>
      subst hzero
      exact hnone base hin
    next hpos =>
      have hprobe : base + count / 2 < l.length := by omega
      have hget := getElem?_eq_getElem hprobe
      rw [hget]
      dsimp only
      split
      next hkey => exact h.rewind_eq_find? hget hkey
      next hne =>
        split
        next hlt =>
          refine ih (by omega) (by omega) fun i a hi ha => ?_
          obtain ⟨hlo, hhi⟩ := hin i a hi ha
          by_contra hout
          have hle := h.le (show i ≤ base + count / 2 by omega) hi hget
          omega
        next hnlt =>
          refine ih (by omega) (by omega) fun i a hi ha => ?_
          obtain ⟨hlo, hhi⟩ := hin i a hi ha
          by_contra hout
          have hle := h.le (show base + count / 2 ≤ i by omega) hget hi
          omega

theorem SortedBy.binarySearch_eq_find? (h : SortedBy name l) :
    binarySearch name key l = l.find? fun a => name a = key := by
  refine h.searchLoop_eq_find? (Nat.le_refl _) (by omega) fun i a hi _ => ?_
  obtain ⟨hlt, -⟩ := List.getElem?_eq_some_iff.1 hi
  omega

theorem exists_of_searchLoop {fuel} :
    ∀ {count base}, (searchLoop name key l fuel count base).isSome →
      ∃ i a, base ≤ i ∧ i < base + count ∧ l[i]? = some a ∧ name a = key := by
  induction fuel with
  | zero => exact nofun
  | succ fuel ih =>
    intro count base h
    rw [searchLoop] at h
    split at h
    · cases h
    next hpos =>
      split at h
      · cases h
      next entry hprobe =>
        split at h
        next hkey => exact ⟨_, entry, by omega, by omega, hprobe, hkey⟩
        · split at h
          · obtain ⟨i, a, hlo, hhi, hi, ha⟩ := ih h
            exact ⟨i, a, by omega, by omega, hi, ha⟩
          · obtain ⟨i, a, hlo, hhi, hi, ha⟩ := ih h
            exact ⟨i, a, by omega, by omega, hi, ha⟩

/-- Where all entries of a stretch are found, it is sorted: what lies before the
probe is found there, so it is below the probe. -/
theorem lt_of_searchLoop (hdistinct : l.Pairwise fun a b => name a ≠ name b) {fuel} :
    ∀ {count base},
      (∀ i a, base ≤ i → i < base + count → l[i]? = some a →
        (searchLoop name (name a) l fuel count base).isSome) →
      ∀ i j a b, base ≤ i → i < j → j < base + count → l[i]? = some a → l[j]? = some b →
        name a < name b := by
  have hinj : ∀ (i j : Nat) a b, l[i]? = some a → l[j]? = some b → name a = name b → i = j := by
    intro i j a b hi hj heq
    obtain ⟨hi', rfl⟩ := List.getElem?_eq_some_iff.1 hi
    obtain ⟨hj', rfl⟩ := List.getElem?_eq_some_iff.1 hj
    rcases Nat.lt_trichotomy i j with hlt | rfl | hlt
    · exact absurd heq (pairwise_iff_getElem.1 hdistinct i j hi' hj' hlt)
    · rfl
    · exact absurd heq.symm (pairwise_iff_getElem.1 hdistinct j i hj' hi' hlt)
  induction fuel with
  | zero =>
    intro count base hall i j a b hlo hlt hhi hi
    exact absurd (hall i a hlo (by omega) hi) (by simp [searchLoop])
  | succ fuel ih =>
    intro count base hall i j a b hlo hlt hhi hi hj
    obtain ⟨probe, hprobe⟩ : ∃ probe, l[base + count / 2]? = some probe := by
      refine ne_none_iff_exists'.1 fun hnone => ?_
      have hfound := hall i a hlo (by omega) hi
      rw [searchLoop, if_neg (by omega), hnone] at hfound
      cases hfound
    have hstep : ∀ k c, base ≤ k → k < base + count → l[k]? = some c → k ≠ base + count / 2 →
        (if name probe < name c then
          searchLoop name (name c) l fuel ((count - 1) / 2) (base + count / 2 + 1)
        else searchLoop name (name c) l fuel (count / 2) base).isSome := by
      intro k c hklo hkhi hk hne
      have hfound := hall k c hklo hkhi hk
      rw [searchLoop, if_neg (by omega), hprobe] at hfound
      dsimp only at hfound
      rwa [if_neg fun heq => hne (hinj _ _ _ _ hk hprobe heq.symm)] at hfound
    have hbefore : ∀ k c, base ≤ k → k < base + count / 2 → l[k]? = some c →
        name c < name probe ∧ (searchLoop name (name c) l fuel (count / 2) base).isSome := by
      intro k c hklo hkhi hk
      have hfound := hstep k c hklo (by omega) hk (by omega)
      split at hfound
      · obtain ⟨k', c', hlo', -, hk', heq⟩ := exists_of_searchLoop hfound
        have := hinj _ _ _ _ hk' hk heq
        omega
      · have hne : name c ≠ name probe := fun heq => by
          have := hinj _ _ _ _ hk hprobe heq
          omega
        exact ⟨by omega, hfound⟩
    have hafter : ∀ k c, base + count / 2 < k → k < base + count → l[k]? = some c →
        name probe < name c ∧
          (searchLoop name (name c) l fuel ((count - 1) / 2) (base + count / 2 + 1)).isSome := by
      intro k c hklo hkhi hk
      have hfound := hstep k c (by omega) hkhi hk (by omega)
      split at hfound
      next hless => exact ⟨hless, hfound⟩
      · obtain ⟨k', c', -, hhi', hk', heq⟩ := exists_of_searchLoop hfound
        have := hinj _ _ _ _ hk' hk heq
        omega
    rcases Nat.lt_trichotomy j (base + count / 2) with hj' | hj' | hj'
    · exact ih (fun k c hklo hkhi hk => (hbefore k c hklo hkhi hk).2) i j a b hlo hlt hj' hi hj
    · obtain rfl := some.inj ((hj' ▸ hj).symm.trans hprobe)
      exact (hbefore i a hlo (by omega) hi).1
    · rcases Nat.lt_trichotomy i (base + count / 2) with hi' | hi' | hi'
      · exact Nat.lt_trans (hbefore i a hlo hi' hi).1 (hafter j b hj' hhi hj).1
      · obtain rfl := some.inj ((hi' ▸ hi).symm.trans hprobe)
        exact (hafter j b hj' hhi hj).1
      · exact ih (fun k c hklo hkhi hk => (hafter k c (by omega) (by omega) hk).2) i j a b
          (by omega) hlt (by omega) hi hj

theorem sortedBy_of_binarySearch (hdistinct : l.Pairwise fun a b => name a ≠ name b)
    (hall : ∀ a ∈ l, (binarySearch name (name a) l).isSome) : SortedBy name l := by
  refine pairwise_iff_getElem.2 fun i j hi hj hlt => Nat.le_of_lt ?_
  exact lt_of_searchLoop hdistinct
    (fun k a _ _ hk => hall a (mem_of_getElem? hk)) i j _ _ (Nat.zero_le _) hlt
    (by omega) (getElem?_eq_getElem hi) (getElem?_eq_getElem hj)

/-! ### Sorting -/

theorem nameLe_trans (a b c : α) (hab : decide (name a ≤ name b))
    (hbc : decide (name b ≤ name c)) : decide (name a ≤ name c) := by
  simp only [decide_eq_true_eq] at hab hbc ⊢
  exact Nat.le_trans hab hbc

theorem nameLe_total (a b : α) : (decide (name a ≤ name b) || decide (name b ≤ name a)) := by
  simpa using Nat.le_total (name a) (name b)

theorem sortedBy_mergeSort (l : List α) : SortedBy name (l.mergeSort fun a b => name a ≤ name b) :=
  (pairwise_mergeSort nameLe_trans nameLe_total l).imp of_decide_eq_true

/-- The sort is stable, so it does not change which of the matches comes first. -/
theorem find?_mergeSort (l : List α) :
    (l.mergeSort fun a b => name a ≤ name b).find? (fun a => name a = key) =
      l.find? fun a => name a = key := by
  have hsub : (l.filter fun a => name a = key).Sublist
      (l.mergeSort fun a b => name a ≤ name b) := by
    refine sublist_mergeSort nameLe_trans nameLe_total ?_ filter_sublist
    refine pairwise_of_forall_mem_list fun a ha b hb => ?_
    rw [mem_filter, decide_eq_true_eq] at ha hb
    simp only [ha.2, hb.2, Nat.le_refl, decide_true]
  -- a sublist with all of the matches in it has them in the same order
  have hfilter := (hsub.filter fun a => name a = key).eq_of_length
    (by rw [List.filter_filter]; simpa using ((mergeSort_perm l _).filter _).length_eq.symm)
  rw [← head?_filter, ← head?_filter, ← hfilter, List.filter_filter]
  simp only [Bool.and_self]

end ObjcRuntime.Lib
