import ObjcRuntime.Lib.Probe

/-!
# ObjcRuntime.Lib.ProbeTable

Open-addressed tables with a displacement bound instead of tombstones.

A `ProbeTable` keeps, next to its slots, the number of elements and the largest
displacement any insertion ever needed. An element sits at most that far above
its hashed slot, so a search may give up there, and a removal just empties its
slot. Searching costs nothing in correctness as long as the bound stays below
the size of the table; the load factor the owner maintains guarantees that
(`Wf.insert`).

`insert` and `find` are loops that can also come back to their first slot; that
outcome is `none`. The lemmas show it does not happen in a well-formed table
that is not too full, and describe the contents (`Mem`) after each operation.
-/

namespace ObjcRuntime.Lib

open List Option

universe u v

variable {α : Type u} {κ : Type v}

/-- The content of slot `i` of an array of slots. -/
def slot (s : List (Option α)) (i : Nat) : Option α := (s[i]?).getD none

variable {s : List (Option α)}

theorem slot_lt {i a} (h : slot s i = some a) : i < s.length := by
  by_contra hlt
  unfold slot at h
  rw [getElem?_eq_none (by omega)] at h
  cases h

theorem slot_set {j} (hj : j < s.length) (o) (i : Nat) :
    slot (s.set j o) i = if i = j then o else slot s i := by
  unfold slot
  rw [getElem?_set]
  by_cases hij : i = j
  · subst hij
    simp [hj]
  · rw [if_neg (Ne.symm hij), if_neg hij]

theorem slot_eq_of_lt {i} (hi : i < s.length) : slot s i = s[i] := by
  unfold slot
  rw [getElem?_eq_getElem hi, getD_some]

theorem some_mem_iff_slot {a} : some a ∈ s ↔ ∃ i, slot s i = some a := by
  constructor
  · intro h
    obtain ⟨i, hi, hia⟩ := getElem_of_mem h
    exact ⟨i, by rw [slot_eq_of_lt hi, hia]⟩
  · rintro ⟨i, hi⟩
    have hlt := slot_lt hi
    rw [slot_eq_of_lt hlt] at hi
    exact hi ▸ getElem_mem hlt

/-- A table of `mask + 1` slots. -/
structure ProbeTable (α : Type u) where
  slots : List (Option α)
  count : Nat
  mask : Nat
  maxDisplacement : Nat
  deriving Repr, DecidableEq

namespace ProbeTable

/-- The element in slot `i`. -/
def get (t : ProbeTable α) (i : Nat) : Option α := slot t.slots i

/-- A freshly allocated table of `n` empty slots. -/
def empty (n : Nat) : ProbeTable α := ⟨List.replicate n none, 0, n - 1, 0⟩

/-- The number of slots, where mask 0 stands for no table at all. -/
def size (t : ProbeTable α) : Nat := if t.mask = 0 then 0 else t.mask + 1

/-- Put `a` in the first empty slot from `hash`. -/
def insert (t : ProbeTable α) (hash : Nat) (a : α) : Option (ProbeTable α) :=
  let start := hash &&& t.mask
  let free := scan (ascend t.mask) start
    (fun steps i => if (t.get i).isSome then none else some (i, steps)) (t.mask + 1) start 0
  free.map fun (i, displacement) =>
    { t with
      slots := t.slots.set i (some a)
      count := t.count + 1
      maxDisplacement := max t.maxDisplacement displacement }

/-- The slot within the displacement bound whose element satisfies `p`;
`some none` when there is none, `none` when the search wrapped around. -/
def find (t : ProbeTable α) (hash : Nat) (p : α → Bool) : Option (Option Nat) :=
  let start := hash &&& t.mask
  scan (ascend t.mask) start
    (fun steps i =>
      if t.maxDisplacement < steps then some none
      else if (t.get i).any p then some (some i)
      else none) (t.mask + 1) start 0

/-- Empty slot `i`. -/
def removeAt (t : ProbeTable α) (i : Nat) : ProbeTable α :=
  { t with slots := t.slots.set i none, count := t.count - 1 }

/-- Replace the element of slot `i`. -/
def setAt (t : ProbeTable α) (i : Nat) (a : α) : ProbeTable α :=
  { t with slots := t.slots.set i (some a) }

/-- The table contains `a`. -/
def Mem (t : ProbeTable α) (a : α) : Prop := ∃ i, t.get i = some a

/-- The occupied slots. -/
def occupied (t : ProbeTable α) : Finset Nat :=
  (Finset.range t.slots.length).filter fun i => (t.get i).isSome

/-- Well-formedness, for elements with key `key` that hash with `hash`. -/
structure Wf (key : α → κ) (hash : κ → Nat) (t : ProbeTable α) : Prop where
  length : t.slots.length = t.mask + 1
  pow : ∃ k, t.mask + 1 = 2 ^ k
  count : t.count = t.occupied.card
  placed : ∀ i a, t.get i = some a →
    ∃ d, d ≤ t.maxDisplacement ∧ i = (hash (key a) + d) % (t.mask + 1)
  bound : t.maxDisplacement < t.mask
  inj : ∀ i j a b, t.get i = some a → t.get j = some b → key a = key b → i = j

section Slots

variable {t : ProbeTable α} {i j : Nat} {a b : α}

theorem get_lt (h : t.get i = some a) : i < t.slots.length := slot_lt h

variable {t' : ProbeTable α}

theorem get_set {o} (hs : t'.slots = t.slots.set j o)
    (hj : j < t.slots.length) : t'.get i = if i = j then o else t.get i := by
  unfold get
  rw [hs, slot_set hj]

theorem mem_occupied : i ∈ t.occupied ↔ (t.get i).isSome := by
  unfold occupied
  rw [Finset.mem_filter, Finset.mem_range]
  constructor
  · exact fun h => h.2
  · intro h
    obtain ⟨a, ha⟩ := isSome_iff_exists.1 h
    exact ⟨get_lt ha, h⟩

theorem occupied_set_some (hs : t'.slots = t.slots.set j (some a))
    (hj : j < t.slots.length) : t'.occupied = Insert.insert j t.occupied := by
  ext i
  rw [mem_occupied, Finset.mem_insert, mem_occupied, get_set hs hj]
  split <;> simp_all

theorem occupied_set_none (hs : t'.slots = t.slots.set j none)
    (hj : j < t.slots.length) : t'.occupied = t.occupied.erase j := by
  ext i
  rw [mem_occupied, Finset.mem_erase, mem_occupied, get_set hs hj]
  split <;> simp_all

end Slots

/-! ### Insertion -/

section Insert

variable {key : α → κ} {hash : κ → Nat} {t : ProbeTable α}

variable (h : Wf key hash t)
include h

theorem Wf.count_le : t.count ≤ t.mask + 1 := by
  rw [h.count, ← h.length]
  exact (Finset.card_filter_le _ _).trans_eq (Finset.card_range _)

theorem Wf.start_le (x : Nat) : x &&& t.mask ≤ t.mask := by
  obtain ⟨k, hk⟩ := h.pow
  rw [and_mask_eq hk]
  exact Nat.lt_succ_iff.1 (Nat.mod_lt _ (by omega))

theorem Wf.cycles (x : Nat) : Cycles (ascend t.mask) (x &&& t.mask) (t.mask + 1) := by
  obtain ⟨k, hk⟩ := h.pow
  exact ascend_cycles hk (h.start_le x)

theorem Wf.iterate (x d : Nat) : (ascend t.mask)^[d] (x &&& t.mask) = (x + d) % (t.mask + 1) := by
  obtain ⟨k, hk⟩ := h.pow
  rw [ascend_iterate hk (h.start_le x), and_mask_eq hk, Nat.mod_add_mod]

/-- A table with room has an empty slot, and no more occupied slots in front of
it than elements. -/
theorem Wf.exists_free (x : Nat) (hroom : t.count ≤ t.mask) :
    ∃ d, d ≤ t.count ∧ d < t.mask + 1 ∧
      (∀ e, e < d → (t.get ((x + e) % (t.mask + 1))).isSome) ∧
      t.get ((x + d) % (t.mask + 1)) = none := by
  have hc := h.cycles x
  have hfree : ∃ d, d < t.mask + 1 ∧ t.get ((x + d) % (t.mask + 1)) = none := by
    by_contra hall
    push Not at hall
    have hle : t.mask + 1 ≤ t.occupied.card := by
      apply hc.le_card (le_refl _)
      intro e he
      rw [mem_occupied, h.iterate]
      exact isSome_iff_ne_none.2 (hall e he)
    rw [← h.count] at hle
    omega
  obtain ⟨hlt, hnone⟩ := Nat.find_spec hfree
  have hmin : ∀ e, e < Nat.find hfree → (t.get ((x + e) % (t.mask + 1))).isSome := by
    intro e he
    have hno := Nat.find_min hfree he
    rw [not_and] at hno
    exact isSome_iff_ne_none.2 (hno (by omega))
  refine ⟨Nat.find hfree, ?_, hlt, hmin, hnone⟩
  rw [h.count]
  apply hc.le_card (by omega)
  intro e he
  rw [mem_occupied, h.iterate]
  exact hmin e he

/-- Inserting a new key into a table with room succeeds, keeps the table
well-formed and adds exactly that element. -/
theorem Wf.insert {a} (hnew : ∀ b, t.Mem b → key b ≠ key a) (hroom : t.count < t.mask) :
    ∃ t', t.insert (hash (key a)) a = some t' ∧ Wf key hash t' ∧ t'.count = t.count + 1 ∧
      t'.mask = t.mask ∧ ∀ b, t'.Mem b ↔ b = a ∨ t.Mem b := by
  obtain ⟨d, hdc, hdn, hocc, hfree⟩ := h.exists_free (hash (key a)) (by omega)
  have hscan : scan (ascend t.mask) (hash (key a) &&& t.mask)
      (fun steps i => if (t.get i).isSome then none else some (i, steps)) (t.mask + 1)
      (hash (key a) &&& t.mask) 0 = some ((hash (key a) + d) % (t.mask + 1), d) := by
    apply scan_eq_some (h.cycles _) hdn
    · intro e he
      rw [h.iterate, if_pos (hocc e he)]
    · rw [h.iterate, hfree]
      simp
  have hlt : (hash (key a) + d) % (t.mask + 1) < t.slots.length := by
    rw [h.length]; exact Nat.mod_lt _ (by omega)
  let t' : ProbeTable α :=
    { t with
      slots := t.slots.set ((hash (key a) + d) % (t.mask + 1)) (some a)
      count := t.count + 1
      maxDisplacement := max t.maxDisplacement d }
  have hget : ∀ i, t'.get i =
      if i = (hash (key a) + d) % (t.mask + 1) then some a else t.get i :=
    fun i => get_set rfl hlt
  refine ⟨t', by rw [ProbeTable.insert, hscan]; rfl, ⟨?_, h.pow, ?_, ?_, ?_, ?_⟩, rfl, rfl, ?_⟩
  · exact (length_set).trans h.length
  · have hocc : t'.occupied = Insert.insert _ t.occupied := occupied_set_some rfl hlt
    rw [hocc, Finset.card_insert_of_notMem, ← h.count]
    rw [mem_occupied, hfree]
    simp
  · intro i b hb
    rw [hget] at hb
    split at hb
    next hi =>
      cases hb
      exact ⟨d, le_max_right _ _, hi⟩
    · obtain ⟨e, he, hie⟩ := h.placed i b hb
      exact ⟨e, le_max_of_le_left he, hie⟩
  · exact max_lt h.bound (show d < t.mask by omega)
  · intro i j b c hb hc hk
    rw [hget] at hb hc
    split at hb <;> split at hc
    next hi hj => rw [hi, hj]
    · cases hb
      exact absurd hk.symm (hnew c ⟨j, hc⟩)
    · cases hc
      exact absurd hk (hnew b ⟨i, hb⟩)
    · exact h.inj i j b c hb hc hk
  · intro b
    constructor
    · rintro ⟨i, hi⟩
      rw [hget] at hi
      split at hi
      · exact .inl (some.inj hi).symm
      · exact .inr ⟨i, hi⟩
    · rintro (rfl | ⟨i, hi⟩)
      · exact ⟨_, by rw [hget, if_pos rfl]⟩
      · refine ⟨i, ?_⟩
        rw [hget, if_neg, hi]
        rintro rfl
        rw [hfree] at hi
        cases hi

/-! ### Search, removal and replacement -/

theorem Wf.find [DecidableEq κ] (k : κ) :
    (∃ i a, t.find (hash k) (fun a => key a == k) = some (some i) ∧
      t.get i = some a ∧ key a = k) ∨
    (t.find (hash k) (fun a => key a == k) = some none ∧ ∀ a, t.Mem a → key a ≠ k) := by
  have hb := h.bound
  unfold ProbeTable.find
  have hcheck : ∀ {e}, e ≤ t.maxDisplacement → ∀ i, (if t.maxDisplacement < e then some none
        else if (t.get i).any (fun a => key a == k) then some (some i) else none) =
      if (t.get i).any (fun a => key a == k) then some (some i) else none := by
    intro e he i
    rw [if_neg (by omega)]
  by_cases hex : ∃ d, d ≤ t.maxDisplacement ∧
      (t.get ((hash k + d) % (t.mask + 1))).any (fun a => key a == k) = true
  · left
    obtain ⟨hle, hhit⟩ := Nat.find_spec hex
    obtain ⟨a, ha, hka⟩ := (Option.any_eq_true _ _).1 hhit
    refine ⟨(hash k + Nat.find hex) % (t.mask + 1), a, ?_, ha, by simpa using hka⟩
    apply scan_eq_some (h.cycles _) (show Nat.find hex < t.mask + 1 by omega)
    · intro e he
      have hno := Nat.find_min hex he
      rw [hcheck (by omega), h.iterate, if_neg]
      exact fun hyes => hno ⟨by omega, hyes⟩
    · rw [hcheck hle, h.iterate, if_pos hhit]
  · right
    push Not at hex
    refine ⟨?_, ?_⟩
    · apply scan_eq_some (h.cycles _) (show t.maxDisplacement + 1 < t.mask + 1 by omega)
      · intro e he
        rw [hcheck (by omega), h.iterate, if_neg (by simpa using hex e (by omega))]
      · rw [if_pos (by omega)]
    · rintro a ⟨i, hi⟩ rfl
      obtain ⟨d, hd, rfl⟩ := h.placed i a hi
      exact hex d hd (by rw [hi]; simp)

theorem Wf.mem_unique {a b} (ha : t.Mem a) (hb : t.Mem b) (hk : key a = key b) : a = b := by
  obtain ⟨i, hi⟩ := ha
  obtain ⟨j, hj⟩ := hb
  obtain rfl := h.inj i j a b hi hj hk
  rw [hi] at hj
  exact some.inj hj

theorem Wf.removeAt {i a} (hi : t.get i = some a) :
    Wf key hash (t.removeAt i) ∧ (t.removeAt i).count + 1 = t.count ∧
      ∀ b, (t.removeAt i).Mem b ↔ t.Mem b ∧ key b ≠ key a := by
  have hlt := get_lt hi
  have hget : ∀ j, (t.removeAt i).get j = if j = i then none else t.get j :=
    fun j => get_set rfl hlt
  have hmem : i ∈ t.occupied := by rw [mem_occupied, hi]; rfl
  have hpos : 0 < t.count := by rw [h.count]; exact Finset.card_pos.2 ⟨i, hmem⟩
  have hsome : ∀ {j b}, (t.removeAt i).get j = some b → j ≠ i ∧ t.get j = some b := by
    intro j b hb
    rw [hget] at hb
    split at hb
    · cases hb
    · exact ⟨‹_›, hb⟩
  refine ⟨⟨?_, h.pow, ?_, ?_, h.bound, ?_⟩, ?_, ?_⟩
  · exact (length_set).trans h.length
  · have hocc : (t.removeAt i).occupied = t.occupied.erase i := occupied_set_none rfl hlt
    rw [hocc, Finset.card_erase_of_mem hmem, ← h.count]
    rfl
  · intro j b hb
    exact h.placed j b (hsome hb).2
  · intro j l b c hb hc
    exact h.inj j l b c (hsome hb).2 (hsome hc).2
  · exact Nat.sub_add_cancel hpos
  · intro b
    constructor
    · rintro ⟨j, hj⟩
      obtain ⟨hne, hj⟩ := hsome hj
      exact ⟨⟨j, hj⟩, fun hk => hne (h.inj j i b a hj hi hk)⟩
    · rintro ⟨⟨j, hj⟩, hne⟩
      refine ⟨j, ?_⟩
      rw [hget, if_neg, hj]
      rintro rfl
      rw [hi] at hj
      exact hne (by rw [some.inj hj])

theorem Wf.setAt {i a a'} (hi : t.get i = some a) (hk : key a' = key a) :
    Wf key hash (t.setAt i a') ∧
      ∀ b, (t.setAt i a').Mem b ↔ b = a' ∨ t.Mem b ∧ key b ≠ key a := by
  have hlt := get_lt hi
  have hget : ∀ j, (t.setAt i a').get j = if j = i then some a' else t.get j :=
    fun j => get_set rfl hlt
  have hmem : i ∈ t.occupied := by rw [mem_occupied, hi]; rfl
  have hsome : ∀ {j b}, (t.setAt i a').get j = some b → ∃ c, t.get j = some c ∧ key c = key b := by
    intro j b hb
    rw [hget] at hb
    split at hb
    next hj => exact ⟨a, by rw [hj]; exact hi, by rw [← some.inj hb, hk]⟩
    · exact ⟨b, hb, rfl⟩
  refine ⟨⟨?_, h.pow, ?_, ?_, h.bound, ?_⟩, ?_⟩
  · exact (length_set).trans h.length
  · have hocc : (t.setAt i a').occupied = Insert.insert i t.occupied := occupied_set_some rfl hlt
    rw [hocc, Finset.insert_eq_of_mem hmem]
    exact h.count
  · intro j b hb
    obtain ⟨c, hc, hkc⟩ := hsome hb
    obtain ⟨d, hd, hj⟩ := h.placed j c hc
    exact ⟨d, hd, by rw [← hkc]; exact hj⟩
  · intro j l b c hb hc hkbc
    obtain ⟨b', hb', hkb⟩ := hsome hb
    obtain ⟨c', hc', hkc⟩ := hsome hc
    exact h.inj j l b' c' hb' hc' (by rw [hkb, hkc, hkbc])
  · intro b
    constructor
    · rintro ⟨j, hj⟩
      rw [hget] at hj
      split at hj
      · exact .inl (some.inj hj).symm
      next hne => exact .inr ⟨⟨j, hj⟩, fun hkb => hne (h.inj j i b a hj hi hkb)⟩
    · rintro (rfl | ⟨⟨j, hj⟩, hne⟩)
      · exact ⟨i, by rw [hget, if_pos rfl]⟩
      · refine ⟨j, ?_⟩
        rw [hget, if_neg, hj]
        rintro rfl
        rw [hi] at hj
        exact hne (by rw [some.inj hj])

omit h

end Insert

/-! ### Rehashing -/

/-- The elements in slot order. -/
def elems (t : ProbeTable α) : List α := t.slots.filterMap id

/-- Insert elements one after the other. -/
def insertAll (hashOf : α → Nat) : List α → ProbeTable α → Option (ProbeTable α)
  | [], t => some t
  | a :: rest, t => (t.insert (hashOf a) a).bind (insertAll hashOf rest)

section Rehash

variable {key : α → κ} {hash : κ → Nat} {t : ProbeTable α}

theorem mem_elems {a} : a ∈ t.elems ↔ t.Mem a := by
  unfold elems
  rw [mem_filterMap]
  constructor
  · rintro ⟨o, ho, rfl⟩
    exact some_mem_iff_slot.1 ho
  · intro h
    exact ⟨some a, some_mem_iff_slot.2 h, rfl⟩

theorem length_filterMap_eq_card (l : List (Option α)) :
    (l.filterMap id).length =
      ((Finset.range l.length).filter fun i => (slot l i).isSome).card := by
  induction l using List.reverseRecOn with
  | nil => rfl
  | append_singleton l o ih =>
    have hfilter : ((Finset.range l.length).filter fun i => (slot (l ++ [o]) i).isSome) =
        (Finset.range l.length).filter fun i => (slot l i).isSome := by
      apply Finset.filter_congr
      intro i hi
      unfold slot
      rw [getElem?_append_left (Finset.mem_range.1 hi)]
    rw [filterMap_append, length_append, ih, length_append, length_singleton,
      Finset.range_add_one, Finset.filter_insert, hfilter]
    have hlast : slot (l ++ [o]) l.length = o := by simp [slot]
    rw [hlast]
    cases o with
    | none | some a => simp

theorem Wf.length_elems (h : Wf key hash t) : t.elems.length = t.count := by
  rw [h.count]
  exact length_filterMap_eq_card t.slots

theorem Wf.pairwise_elems (h : Wf key hash t) : t.elems.Pairwise fun a b => key a ≠ key b := by
  unfold elems
  rw [pairwise_filterMap, pairwise_iff_getElem]
  intro i j hi hj hij a ha b hb hk
  have hget : ∀ {l c} (hl : l < t.slots.length), id t.slots[l] = some c → t.get l = some c := by
    intro l c hl hc
    unfold get
    rw [slot_eq_of_lt hl]
    exact hc
  have := h.inj i j a b (hget hi ha) (hget hj hb) hk
  omega

theorem empty_get (n i : Nat) : (empty n : ProbeTable α).get i = none := by
  unfold empty get slot
  rw [getElem?_replicate]
  split <;> rfl

theorem not_mem_empty (n : Nat) (a : α) : ¬ (empty n : ProbeTable α).Mem a := by
  rintro ⟨i, hi⟩
  rw [empty_get] at hi
  cases hi

theorem empty_wf {k} (hk : 1 ≤ k) : Wf key hash (empty (2 ^ k) : ProbeTable α) := by
  have h2 : 2 ≤ 2 ^ k := by
    calc 2 = 2 ^ 1 := rfl
      _ ≤ 2 ^ k := Nat.pow_le_pow_right (by decide) hk
  have hmask : (empty (2 ^ k) : ProbeTable α).mask + 1 = 2 ^ k := Nat.sub_add_cancel (by omega)
  refine ⟨?_, ⟨k, hmask⟩, ?_, ?_, ?_, ?_⟩
  · rw [hmask]; exact length_replicate
  · refine (Finset.card_eq_zero.2 ?_).symm
    ext i
    rw [mem_occupied, empty_get]
    simp
  · intro i a hi; rw [empty_get] at hi; cases hi
  · show 0 < 2 ^ k - 1
    omega
  · intro i j a b hi; rw [empty_get] at hi; cases hi

theorem Wf.insertAll {l} (h : Wf key hash t) (hl : l.Pairwise fun a b => key a ≠ key b)
    (hnew : ∀ a ∈ l, ∀ b, t.Mem b → key b ≠ key a) (hroom : t.count + l.length ≤ t.mask) :
    ∃ t', ProbeTable.insertAll (fun a => hash (key a)) l t = some t' ∧ Wf key hash t' ∧
      t'.count = t.count + l.length ∧ t'.mask = t.mask ∧ ∀ b, t'.Mem b ↔ b ∈ l ∨ t.Mem b := by
  induction l generalizing t with
  | nil => exact ⟨t, rfl, h, rfl, rfl, by simp⟩
  | cons a rest ih =>
    rw [pairwise_cons] at hl
    rw [length_cons] at hroom
    obtain ⟨t1, hins, hwf, hcount, hmask, hmem⟩ := h.insert (hnew a mem_cons_self) (by omega)
    obtain ⟨t', hall, hwf', hcount', hmask', hmem'⟩ := ih hwf hl.2 (by
        intro c hc b hb
        rcases (hmem b).1 hb with rfl | hb
        · exact hl.1 c hc
        · exact hnew c (mem_cons_of_mem a hc) b hb)
      (by omega)
    refine ⟨t', ?_, hwf', ?_, hmask'.trans hmask, ?_⟩
    · rw [ProbeTable.insertAll, hins]; exact hall
    · rw [hcount', hcount, length_cons]; omega
    · intro b
      rw [hmem' b, hmem b, mem_cons]
      tauto

end Rehash

end ProbeTable

end ObjcRuntime.Lib
