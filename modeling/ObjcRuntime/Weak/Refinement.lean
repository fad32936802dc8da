import Mathlib.Data.Set.Insert
import ObjcRuntime.Weak.EntrySound

/-!
# ObjcRuntime.Weak.Refinement

The weak table is a map from objects to sets of weak variables.

`WeakMap` is that map together with the variables, and `WeakMap.step` says in
its own terms what each operation is for. `locations` reads the map off a table.
The table functions are specified against `locations` one by one; `step_refines`
puts them together for one operation and `run_refines` lifts it to sequences.

A table is either still unallocated or a well-formed open-addressed table with
at least 64 slots that is at most 3/4 full; growing and shrinking keep it so.
-/

namespace ObjcRuntime.Weak

open Function Lib List Set WeakEntry WeakState

/-! ### The abstract map -/

/-- The weak variables of each object, and what every variable holds. -/
@[ext]
structure WeakMap where
  locations : Addr → Set Addr
  memory : Memory

/-- Does `weak_register_no_lock` form the reference? -/
def WeakOp.accepts (options : DeallocatingOptions) (check : ReferentCheck) : Prop :=
  options = .dontCheckDeallocating ∨ check = .live

/-- Does `weak_register_no_lock` halt the process over a deallocating object? -/
def WeakOp.crashes : WeakOp → Prop
  | .register _ _ options check => options = .crashIfDeallocating ∧ check = .deallocating
  | _ => False

open Classical in
/-- Registering inserts, unregistering deletes, clearing deletes all variables of
the object and sets those to nil that hold it. -/
noncomputable def WeakMap.step (m : WeakMap) : WeakOp → WeakMap
  | .register referent referrer options check =>
    if WeakOp.accepts options check then
      { m with
        locations :=
          update m.locations referent (Insert.insert referrer (m.locations referent)) }
    else m
  | .unregister referent referrer =>
    { m with
      locations := update m.locations referent (m.locations referent \ {referrer}) }
  | .clear referent =>
    { locations := update m.locations referent ∅
      memory := fun l =>
        if l ∈ m.locations referent ∧ m.memory l = referent then 0 else m.memory l }
  | .store location value => { m with memory := update m.memory location value }

noncomputable def WeakMap.run (m : WeakMap) (ops : List WeakOp) : WeakMap :=
  ops.foldl WeakMap.step m

/-- An object a weak variable can be registered under. -/
def IsObject (isTaggedPointer : Addr → Bool) (o : Addr) : Prop :=
  o ≠ 0 ∧ isTaggedPointer o = false

/-- An operation on objects and aligned locations that does not register a pair
a second time. -/
def WeakMap.Admits (isTaggedPointer : Addr → Bool) (m : WeakMap) : WeakOp → Prop
  | .register referent referrer options check =>
    IsObject isTaggedPointer referent ∧ IsLocation referrer ∧
      (WeakOp.accepts options check → referrer ∉ m.locations referent)
  | .unregister referent referrer => IsObject isTaggedPointer referent ∧ IsLocation referrer
  | .clear referent => IsObject isTaggedPointer referent
  | .store _ _ => True

/-- Every operation of the sequence is admitted where it happens. -/
def WeakMap.AdmitsAll (isTaggedPointer : Addr → Bool) : WeakMap → List WeakOp → Prop
  | _, [] => True
  | m, op :: ops => m.Admits isTaggedPointer op ∧ (m.step op).AdmitsAll isTaggedPointer ops

/-! ### Tables -/

/-- The map stored in a table. -/
def locations (table : WeakTable) (referent : Addr) : Set Addr :=
  {l | ∃ entry, table.Mem entry ∧ entry.referent = referent ∧ l ∈ entry.locs}

/-- An allocated weak table. -/
structure AllocWf (table : WeakTable) : Prop where
  wf : ProbeTable.Wf WeakEntry.referent hashPointer table
  large : 64 ≤ table.mask + 1
  load : table.count ≤ (table.mask + 1) * 3 / 4

/-- A weak table between two operations. -/
structure TableWf (table : WeakTable) : Prop where
  entries : ∀ entry, table.Mem entry → EntryWf entry
  form : table = WeakTable.zero ∨ AllocWf table

theorem not_mem_zero (entry) : ¬ WeakTable.zero.Mem entry := by
  rintro ⟨i, hi⟩
  exact absurd (ProbeTable.get_lt hi) (by simp [WeakTable.zero])

variable {table : WeakTable}

theorem AllocWf.size_eq (h : AllocWf table) : table.size = table.mask + 1 := by
  have := h.large
  unfold ProbeTable.size
  rw [if_neg (by omega)]

theorem AllocWf.slots_ne_nil (h : AllocWf table) : table.slots ≠ [] := by
  intro hnil
  have := h.wf.length
  rw [hnil] at this
  cases this

variable (h : TableWf table)
include h

theorem weakResize_spec {k} (hk : 6 ≤ k) (hroom : table.count ≤ 2 ^ k * 3 / 4) :
    ∃ table', weakResize table (2 ^ k) = .ok table' ∧ AllocWf table' ∧
      table'.count = table.count ∧ table'.mask + 1 = 2 ^ k ∧
      ∀ entry, table'.Mem entry ↔ table.Mem entry := by
  have h64 : 64 ≤ 2 ^ k := by
    calc 64 = 2 ^ 6 := rfl
      _ ≤ 2 ^ k := Nat.pow_le_pow_right (by decide) hk
  have hold : (table.slots.take table.size).filterMap id = table.elems ∧
      table.elems.length = table.count ∧
      table.elems.Pairwise fun a b => a.referent ≠ b.referent := by
    rcases h.form with rfl | h
    · exact ⟨rfl, rfl, List.Pairwise.nil⟩
    · refine ⟨?_, h.wf.length_elems, h.wf.pairwise_elems⟩
      rw [h.size_eq, ← h.wf.length, take_length]
      rfl
  obtain ⟨helems, hlen, hpw⟩ := hold
  have hmask : (ProbeTable.empty (2 ^ k) : WeakTable).mask + 1 = 2 ^ k := by
    show 2 ^ k - 1 + 1 = 2 ^ k
    omega
  have hempty : ProbeTable.Wf referent hashPointer (ProbeTable.empty (2 ^ k)) :=
    ProbeTable.empty_wf (by omega)
  obtain ⟨table', hins, hwf, hcount, hmask', hmem⟩ := hempty.insertAll hpw
    (fun a _ b hb => absurd hb (ProbeTable.not_mem_empty _ b))
    (by show 0 + table.elems.length ≤ _; omega)
  have hcount' : table'.count = table.count := by
    rw [hcount, hlen]
    exact zero_add _
  have hmask2 : table'.mask + 1 = 2 ^ k := by rw [hmask', hmask]
  refine ⟨table', ?_, ⟨hwf, by omega, by rw [hmask2]; omega⟩, hcount', hmask2, fun entry => ?_⟩
  · unfold weakResize
    rw [helems]
    dsimp only
    rw [hins]
  · rw [hmem entry, ProbeTable.mem_elems]
    exact or_iff_left (ProbeTable.not_mem_empty _ entry)

theorem weakGrowMaybe_spec :
    ∃ table', weakGrowMaybe table = .ok table' ∧ AllocWf table' ∧
      table'.count < (table'.mask + 1) * 3 / 4 ∧
      ∀ entry, table'.Mem entry ↔ table.Mem entry := by
  unfold weakGrowMaybe
  rcases h.form with rfl | ha
  · obtain ⟨table', hres, ha', hcount, hmask, hmem⟩ := weakResize_spec h (le_refl 6) (Nat.zero_le _)
    refine ⟨table', hres, ha', ?_, hmem⟩
    rw [hmask, hcount]
    decide
  · have hlarge := ha.large
    have hload := ha.load
    obtain ⟨k, hk⟩ := ha.wf.pow
    dsimp only
    rw [ha.size_eq]
    split
    · have hk6 : 6 ≤ k + 1 := by
        by_contra hlt
        have : 2 ^ k ≤ 2 ^ 5 := Nat.pow_le_pow_right (by decide) (by omega)
        omega
      have hnew : (if table.mask + 1 ≠ 0 then (table.mask + 1) * 2 else 64) = 2 ^ (k + 1) := by
        rw [if_pos (by omega), hk, pow_succ]
      obtain ⟨table', hres, ha', hcount, hmask, hmem⟩ := weakResize_spec h hk6
        (by rw [pow_succ]; omega)
      refine ⟨table', by rw [hnew]; exact hres, ha', ?_, hmem⟩
      omega
    · exact ⟨table, rfl, ha, by omega, fun _ => Iff.rfl⟩

theorem weakCompactMaybe_spec (ha : AllocWf table) :
    ∃ table', weakCompactMaybe table = .ok table' ∧ AllocWf table' ∧
      table'.count = table.count ∧ ∀ entry, table'.Mem entry ↔ table.Mem entry := by
  unfold weakCompactMaybe
  dsimp only
  rw [ha.size_eq]
  split
  next hsmall =>
    obtain ⟨k, hk⟩ := ha.wf.pow
    obtain ⟨j, rfl⟩ : ∃ j, k = j + 3 := by
      refine ⟨k - 3, ?_⟩
      by_contra hlt
      have : 2 ^ k ≤ 2 ^ 3 := Nat.pow_le_pow_right (by decide) (by omega)
      omega
    have heighth : (table.mask + 1) / 8 = 2 ^ j := by
      rw [hk, Nat.pow_add]
      omega
    have hj : 6 ≤ j := by
      by_contra hlt
      have : 2 ^ j ≤ 2 ^ 5 := Nat.pow_le_pow_right (by decide) (by omega)
      omega
    obtain ⟨table', hres, ha', hcount, -, hmem⟩ := weakResize_spec h hj (by omega)
    exact ⟨table', by rw [heighth]; exact hres, ha', hcount, hmem⟩
  · exact ⟨table, rfl, ha, rfl, fun _ => Iff.rfl⟩

/-! ### Entries in the table -/

theorem weakEntryForReferent_spec (referent) :
    (∃ i entry, weakEntryForReferent table referent = .ok (some i) ∧
      table.get i = some entry ∧ entry.referent = referent) ∨
    (weakEntryForReferent table referent = .ok none ∧
      ∀ entry, table.Mem entry → entry.referent ≠ referent) := by
  unfold weakEntryForReferent
  rcases h.form with rfl | ha
  · exact .inr ⟨if_pos rfl, fun entry he => absurd he (not_mem_zero entry)⟩
  · rw [if_neg ha.slots_ne_nil]
    rcases ha.wf.find referent with ⟨i, entry, hfind, hget, hkey⟩ | ⟨hfind, hno⟩
    · exact .inl ⟨i, entry, by rw [hfind], hget, hkey⟩
    · exact .inr ⟨by rw [hfind], hno⟩

variable {entry : WeakEntry}

theorem TableWf.alloc {i} (hi : table.get i = some entry) : AllocWf table := by
  rcases h.form with rfl | ha
  · exact absurd ⟨i, hi⟩ (not_mem_zero entry)
  · exact ha

theorem TableWf.locations_eq {i} (hi : table.get i = some entry) :
    locations table entry.referent = entry.locs := by
  ext l
  constructor
  · rintro ⟨e, he, hr, hl⟩
    rwa [(h.alloc hi).wf.mem_unique he ⟨i, hi⟩ hr] at hl
  · intro hl
    exact ⟨entry, ⟨i, hi⟩, rfl, hl⟩

omit h

variable {referent : Addr}

theorem locations_eq_empty (hno : ∀ entry, table.Mem entry → entry.referent ≠ referent) :
    locations table referent = ∅ := by
  ext l
  constructor
  · rintro ⟨entry, he, hr, -⟩
    exact absurd hr (hno entry he)
  · exact fun hl => absurd hl (notMem_empty l)

theorem locations_update {table table' locs}
    (hother : ∀ entry, entry.referent ≠ referent → (table'.Mem entry ↔ table.Mem entry))
    (hself : locations table' referent = locs) :
    locations table' = update (locations table) referent locs := by
  funext o
  rw [update_apply]
  split
  next ho => rw [ho, hself]
  next ho =>
    ext l
    constructor
    · rintro ⟨entry, he, rfl, hl⟩
      exact ⟨entry, (hother entry ho).1 he, rfl, hl⟩
    · rintro ⟨entry, he, rfl, hl⟩
      exact ⟨entry, (hother entry ho).2 he, rfl, hl⟩

theorem TableWf.setAt (h : TableWf table) {i entry entry'}
    (hi : table.get i = some entry) (he' : EntryWf entry') (hr : entry'.referent = entry.referent) :
    TableWf (table.setAt i entry') ∧ (table.setAt i entry').get i = some entry' ∧
      locations (table.setAt i entry') =
        update (locations table) entry.referent entry'.locs := by
  have ha := h.alloc hi
  obtain ⟨hwf, hmem⟩ := ha.wf.setAt hi hr
  have hget : (table.setAt i entry').get i = some entry' := by
    rw [ProbeTable.get_set rfl (ProbeTable.get_lt hi), if_pos rfl]
  have htable : TableWf (table.setAt i entry') := by
    refine ⟨fun e he => ?_, .inr ⟨hwf, ha.large, ha.load⟩⟩
    rcases (hmem e).1 he with rfl | ⟨he, -⟩
    · exact he'
    · exact h.entries e he
  refine ⟨htable, hget, locations_update (fun e hne => ?_) ?_⟩
  · rw [hmem e]
    constructor
    · rintro (rfl | ⟨he, -⟩)
      · exact absurd hr hne
      · exact he
    · exact fun he => .inr ⟨he, hne⟩
  · rw [← hr]
    exact htable.locations_eq hget

theorem weakEntryRemove_spec (h : TableWf table) {i} (hi : table.get i = some entry) :
    ∃ table', weakEntryRemove table i = .ok table' ∧ TableWf table' ∧
      locations table' = update (locations table) entry.referent ∅ ∧
      table'.count + 1 = table.count ∧ ∀ e, table'.Mem e → e.referent ≠ entry.referent := by
  have ha := h.alloc hi
  have hload := ha.load
  obtain ⟨hwf, hcount, hmem⟩ := ha.wf.removeAt hi
  have ha1 : AllocWf (table.removeAt i) := by
    refine ⟨hwf, ha.large, ?_⟩
    show (table.removeAt i).count ≤ (table.mask + 1) * 3 / 4
    omega
  have h1 : TableWf (table.removeAt i) := ⟨fun e he => h.entries e ((hmem e).1 he).1, .inr ha1⟩
  obtain ⟨table', hcomp, ha', hcount', hmem'⟩ := weakCompactMaybe_spec h1 ha1
  have hiff : ∀ e, table'.Mem e ↔ table.Mem e ∧ e.referent ≠ entry.referent :=
    fun e => (hmem' e).trans (hmem e)
  refine ⟨table', hcomp, ⟨fun e he => h.entries e ((hiff e).1 he).1, .inr ha'⟩, ?_,
    by rw [hcount']; exact hcount, fun e he => ((hiff e).1 he).2⟩
  apply locations_update
  · intro e hne
    rw [hiff e]
    exact and_iff_left hne
  · exact locations_eq_empty fun e he => ((hiff e).1 he).2

/-! ### The three operations -/

theorem EntryWf.new {referent referrer} (ho : referent ≠ 0) (hl : IsLocation referrer) :
    EntryWf (WeakEntry.new referent referrer) ∧
      (WeakEntry.new referent referrer).locs = {referrer} := by
  have hlocs : (WeakEntry.new referent referrer).locs = {referrer} := by
    ext l
    show some l ∈ [some referrer, none, none, none] ↔ l = referrer
    simp
  refine ⟨⟨ho, ?_, rfl, ?_⟩, hlocs⟩
  · intro l hin
    rw [hlocs] at hin
    exact hin ▸ hl
  · have hzero : ∀ i l, slot [some referrer, none, none, none] i = some l → i = 0 := by
      intro i l hi
      match i with
      | 0 => rfl
      | 1 | 2 | 3 | i + 4 => simp [slot] at hi
    intro i j l hi hj
    rw [hzero i l hi, hzero j l hj]

variable {isTaggedPointer : Addr → Bool}

theorem register_accepted (h : TableWf table) {referent referrer options check}
    (ho : IsObject isTaggedPointer referent) (hl : IsLocation referrer)
    (hacc : WeakOp.accepts options check) (hnew : referrer ∉ locations table referent) :
    ∃ table', weakRegisterNoLock isTaggedPointer table referent referrer options check =
        .ok (table', referent) ∧ TableWf table' ∧
      locations table' = update (locations table) referent
        (Insert.insert referrer (locations table referent)) := by
  obtain ⟨ho0, htag⟩ := ho
  have hviable : viable options check = .ok true := by
    rcases hacc with rfl | rfl
    · rfl
    · cases options <;> rfl
  unfold weakRegisterNoLock
  rw [htag, if_neg (by simp [ho0]), hviable]
  rcases weakEntryForReferent_spec h referent with ⟨i, entry, hfind, hget, rfl⟩ | ⟨hfind, hno⟩
  · rw [h.locations_eq hget] at hnew ⊢
    obtain ⟨entry', happ, he', hr, hlocs⟩ := (h.entries entry ⟨i, hget⟩).append hl hnew
    obtain ⟨htable, -, hupd⟩ := h.setAt hget he' hr
    refine ⟨table.setAt i entry', ?_, htable, by rw [hupd, hlocs]⟩
    simp only [hfind, hget, happ, bind, Except.bind, if_true]
  · obtain ⟨hwf, hlocs⟩ := EntryWf.new ho0 hl
    obtain ⟨t1, hgrow, ha, hload, hmem1⟩ := weakGrowMaybe_spec h
    obtain ⟨table', hins, hwf', hcount, hmask, hmem⟩ := ha.wf.insert
      (a := WeakEntry.new referent referrer) (fun e he => hno e ((hmem1 e).1 he))
      (by have := ha.large; omega)
    have hlarge := ha.large
    have hiff : ∀ e, table'.Mem e ↔ e = WeakEntry.new referent referrer ∨ table.Mem e := by
      intro e
      rw [hmem e, hmem1 e]
    have htable : TableWf table' := by
      refine ⟨fun e he => ?_, .inr ⟨hwf', by omega, by rw [hcount, hmask]; omega⟩⟩
      rcases (hiff e).1 he with rfl | he
      · exact hwf
      · exact h.entries e he
    refine ⟨table', ?_, htable, locations_update (fun e hne => ?_) ?_⟩
    · have hins' : weakEntryInsert t1 (WeakEntry.new referent referrer) = .ok table' := by
        unfold weakEntryInsert insertAt
        rw [hins]
      simp only [hfind, hgrow, hins', bind, Except.bind, if_true]
    · rw [hiff e]
      constructor
      · rintro (rfl | he)
        · exact absurd rfl hne
        · exact he
      · exact .inr
    · obtain ⟨i, hi⟩ := (hiff _).2 (.inl rfl)
      have hself : locations table' referent = {referrer} := (htable.locations_eq hi).trans hlocs
      rw [hself, locations_eq_empty hno, insert_empty_eq]

theorem register_refused (table) (referrer) {options check}
    (ho : IsObject isTaggedPointer referent) (hacc : ¬ WeakOp.accepts options check) :
    weakRegisterNoLock isTaggedPointer table referent referrer options check = .ok (table, 0) ∨
      (weakRegisterNoLock isTaggedPointer table referent referrer options check =
        .error .cannotFormWeakReference ∧ options = .crashIfDeallocating ∧
        check = .deallocating) := by
  obtain ⟨ho0, htag⟩ := ho
  unfold weakRegisterNoLock
  rw [htag, if_neg (by simp [ho0])]
  cases options <;> cases check <;> first
    | exact absurd (.inl rfl) hacc
    | exact absurd (.inr rfl) hacc
    | exact .inl rfl
    | exact .inr ⟨rfl, rfl, rfl⟩

theorem EntryWf.locs_eq_empty (h : EntryWf entry) (hempty : entry.empty) : entry.locs = ∅ := by
  have hwords : ∀ j < weakInlineCount, entry.inlineReferrer j = false := by
    intro j hj
    have hall : ((List.range weakInlineCount).all fun j => !entry.inlineReferrer j) = true := by
      unfold empty at hempty
      by_contra hno
      simp [hno] at hempty
    simpa using List.all_eq_true.1 hall j (mem_range.2 hj)
  have hform := h.form
  unfold inlineReferrer at hwords
  unfold WeakEntry.locs
  cases hr : entry.referrers with
  | inline referrers =>
    rw [hr] at hform hwords
    rw [eq_empty_iff_forall_notMem]
    intro l hl
    obtain ⟨i, hi⟩ := some_mem_iff_slot.1 hl
    have hlt := slot_lt hi
    rw [hform.length] at hlt
    have hnil : (slot referrers i).isSome = false := hwords i hlt
    rw [hi] at hnil
    cases hnil
  | outOfLine t =>
    -- the first word is the pointer to the referrer table, which is not nil
    rw [hr] at hwords
    cases hwords 0 (by decide)

theorem unregister_spec (h : TableWf table) (ho : referent ≠ 0) (referrer) :
    ∃ table', weakUnregisterNoLock table referent referrer = .ok table' ∧ TableWf table' ∧
      locations table' = update (locations table) referent
        (locations table referent \ {referrer}) := by
  unfold weakUnregisterNoLock
  rw [if_neg ho]
  rcases weakEntryForReferent_spec h referent with ⟨i, entry, hfind, hget, rfl⟩ | ⟨hfind, hno⟩
  · obtain ⟨entry', known, hrem, he', hr, hlocs⟩ := (h.entries entry ⟨i, hget⟩).remove referrer
    obtain ⟨htable, hget', hupd⟩ := h.setAt hget he' hr
    rw [h.locations_eq hget, ← hlocs]
    simp only [hfind, hget, hrem, bind, Except.bind]
    split
    next hempty =>
      obtain ⟨table', hremove, htable', hupd', -, -⟩ := weakEntryRemove_spec htable hget'
      refine ⟨table', hremove, htable', ?_⟩
      rw [hupd', hupd, hr, he'.locs_eq_empty hempty, update_idem]
    · exact ⟨table.setAt i entry', rfl, htable, hupd⟩
  · refine ⟨table, ?_, h, ?_⟩
    · simp only [hfind, bind, Except.bind]
    · rw [locations_eq_empty hno, empty_sdiff, ← locations_eq_empty hno, update_eq_self]

theorem foldl_clearReferrer (referent) (referrers : List (Option Addr)) (memory) (l) :
    referrers.foldl (clearReferrer referent) memory l =
      if some l ∈ referrers ∧ memory l = referent then 0 else memory l := by
  induction referrers generalizing memory with
  | nil => simp
  | cons o referrers ih =>
    rw [foldl_cons, ih]
    cases o with
    | none => exact if_congr (by simp [clearReferrer]) rfl rfl
    | some x =>
      -- only the variable at `x` can have changed before the rest of the loop
      by_cases hx : memory x = referent
      · have hclear : clearReferrer referent memory (some x) = update memory x 0 := if_pos hx
        rw [hclear]
        by_cases hxl : l = x
        · subst hxl
          simp [hx]
        · simp [hxl]
      · have hclear : clearReferrer referent memory (some x) = memory := if_neg hx
        rw [hclear]
        by_cases hxl : l = x
        · subst hxl
          simp [hx]
        · simp [hxl]

theorem EntryWf.words (h : EntryWf entry) :
    ∃ words, entry.words = .ok words ∧ ∀ l, some l ∈ words ↔ l ∈ entry.locs := by
  have hform := h.form
  unfold WeakEntry.words WeakEntry.locs
  cases hr : entry.referrers with
  | inline referrers =>
    rw [hr] at hform
    rw [outOfLine_inline h hr]
    refine ⟨_, rfl, fun l => ?_⟩
    rw [← hform.length, take_length]
    exact Iff.rfl
  | outOfLine t =>
    rw [hr] at hform
    have hwf : RefsWf t := hform
    rw [outOfLine_outOfLine hr]
    refine ⟨_, rfl, fun l => ?_⟩
    rw [hwf.size_eq, ← hwf.wf.length, take_length]
    exact some_mem_iff_slot

open Classical in
/-- `weak_clear_no_lock` forgets the object, and sets to nil the variables
registered under it that still hold it. -/
theorem clear_spec (h : TableWf table) (memory) (referent) :
    ∃ table' memory', weakClearNoLock table memory referent = .ok (table', memory') ∧
      TableWf table' ∧ locations table' = update (locations table) referent ∅ ∧
      memory' = fun l =>
        if l ∈ locations table referent ∧ memory l = referent then 0 else memory l := by
  unfold weakClearNoLock
  rcases weakEntryForReferent_spec h referent with ⟨i, entry, hfind, hget, rfl⟩ | ⟨hfind, hno⟩
  · obtain ⟨words, hwords, hmem⟩ := (h.entries entry ⟨i, hget⟩).words
    obtain ⟨table', hremove, htable', hupd, -, -⟩ := weakEntryRemove_spec h hget
    refine ⟨table', words.foldl (clearReferrer entry.referent) memory, ?_, htable', hupd, ?_⟩
    · simp only [hfind, hget, hwords, hremove, bind, Except.bind]
    · funext l
      rw [foldl_clearReferrer]
      exact if_congr (by rw [hmem l, h.locations_eq hget]) rfl rfl
  · refine ⟨table, memory, ?_, h, ?_, ?_⟩
    · simp only [hfind, bind, Except.bind]
    · rw [← locations_eq_empty hno, update_eq_self]
    · funext l
      rw [locations_eq_empty hno, if_neg fun hl => notMem_empty l hl.1]

/-! ### Runs -/

/-- The map a state stands for. -/
def WeakState.abs (s : WeakState) : WeakMap := ⟨locations s.table, s.memory⟩

/-- One operation does to the table what it does to the map, or stops the process
over a deallocating object. -/
theorem step_refines {s : WeakState} (h : TableWf s.table)
    {op : WeakOp} (hop : s.abs.Admits isTaggedPointer op) :
    (∃ s', s.step isTaggedPointer op = .ok s' ∧ TableWf s'.table ∧ s'.abs = s.abs.step op) ∨
      (s.step isTaggedPointer op = .error .cannotFormWeakReference ∧ op.crashes) := by
  cases op with
  | register referent referrer options check =>
    obtain ⟨ho, hl, hnew⟩ := hop
    by_cases hacc : WeakOp.accepts options check
    · obtain ⟨table', hreg, htable, hupd⟩ := register_accepted h ho hl hacc (hnew hacc)
      refine .inl ⟨{ s with table := table' }, ?_, htable, ?_⟩
      · simp only [step, hreg, bind, Except.bind]
      · have hreg' : s.abs.step (.register referent referrer options check) =
            ⟨update (locations s.table) referent
              (Insert.insert referrer (locations s.table referent)), s.memory⟩ := if_pos hacc
        rw [hreg', ← hupd]
        rfl
    · rcases register_refused s.table referrer ho hacc with
        hreg | ⟨hreg, hcrash⟩
      · refine .inl ⟨s, ?_, h, ?_⟩
        · simp only [step, hreg, bind, Except.bind]
        · exact (if_neg hacc).symm
      · refine .inr ⟨?_, hcrash⟩
        simp only [step, hreg, bind, Except.bind]
  | unregister referent referrer =>
    obtain ⟨ho, -⟩ := hop
    obtain ⟨table', hunreg, htable, hupd⟩ := unregister_spec h ho.1 referrer
    refine .inl ⟨{ s with table := table' }, ?_, htable, ?_⟩
    · simp only [step, hunreg, bind, Except.bind]
    · unfold WeakState.abs WeakMap.step
      rw [hupd]
  | clear referent =>
    obtain ⟨table', memory', hclear, htable, hupd, hmem⟩ := clear_spec h s.memory referent
    refine .inl ⟨⟨table', memory'⟩, ?_, htable, ?_⟩
    · simp only [step, hclear, bind, Except.bind]
    · unfold WeakState.abs WeakMap.step
      rw [hupd, hmem]
  | store location value => exact .inl ⟨_, rfl, h, rfl⟩

theorem run_refines {ops} :
    ∀ {s : WeakState}, TableWf s.table → s.abs.AdmitsAll isTaggedPointer ops →
      (∃ s', s.run isTaggedPointer ops = .ok s' ∧ TableWf s'.table ∧ s'.abs = s.abs.run ops) ∨
        (s.run isTaggedPointer ops = .error .cannotFormWeakReference ∧
          ∃ op ∈ ops, op.crashes) := by
  induction ops with
  | nil => exact fun {s} h _ => .inl ⟨s, rfl, h, rfl⟩
  | cons op ops ih =>
    intro s h hall
    unfold run
    rw [foldlM_cons]
    rcases step_refines h hall.1 with ⟨s1, hstep, h1, habs⟩ | ⟨hstep, hcrash⟩
    · rw [hstep]
      rcases ih h1 (by rw [habs]; exact hall.2) with
        ⟨s', hrun, h', habs'⟩ | ⟨hrun, op', hin, hcrash⟩
      · refine .inl ⟨s', hrun, h', ?_⟩
        rw [habs', habs]
        rfl
      · exact .inr ⟨hrun, op', mem_cons_of_mem op hin, hcrash⟩
    · rw [hstep]
      exact .inr ⟨rfl, op, mem_cons_self, hcrash⟩

/-- The empty map over some memory. -/
def WeakMap.init (memory : Memory) : WeakMap := ⟨fun _ => ∅, memory⟩

theorem zero_abs (memory) : (⟨WeakTable.zero, memory⟩ : WeakState).abs = WeakMap.init memory := by
  unfold WeakState.abs WeakMap.init
  congr 1
  funext o
  exact locations_eq_empty fun entry he => absurd he (not_mem_zero entry)

theorem zero_wf : TableWf WeakTable.zero :=
  ⟨fun entry he => absurd he (not_mem_zero entry), .inl rfl⟩

/-- **The weak table is a faithful map.** Every sequence of operations on a
zero-initialised table that registers no pair twice ends in a table that stores
exactly the pairs of the abstract map, and in variables that were set to nil
exactly where the abstract map says. The only other outcome is the fatal error
over weakly referencing a deallocating object, where the caller asked for it. -/
theorem weakTable_refines_map (isTaggedPointer : Addr → Bool) (memory : Memory)
    (ops : List WeakOp) (hops : (WeakMap.init memory).AdmitsAll isTaggedPointer ops) :
    (∃ s, WeakState.run isTaggedPointer ⟨WeakTable.zero, memory⟩ ops = .ok s ∧
      locations s.table = ((WeakMap.init memory).run ops).locations ∧
      s.memory = ((WeakMap.init memory).run ops).memory) ∨
    (WeakState.run isTaggedPointer ⟨WeakTable.zero, memory⟩ ops =
        .error .cannotFormWeakReference ∧ ∃ op ∈ ops, op.crashes) := by
  rw [← zero_abs memory] at hops ⊢
  rcases run_refines (s := ⟨WeakTable.zero, memory⟩) zero_wf hops with ⟨s, hrun, -, habs⟩ | hcrash
  · refine .inl ⟨s, hrun, ?_, ?_⟩
    · rw [← habs]
      rfl
    · rw [← habs]
      rfl
  · exact .inr hcrash

/-- Two variables registered under one object, one of which has been assigned
since: clearing the object resets the other one only. -/
theorem weakTable_refines_map_clear :
    ∃ s, WeakState.run (fun _ => false) ⟨WeakTable.zero, fun _ => 0⟩
        [.store 0x1008 0x10, .register 0x10 0x1008 .crashIfDeallocating .live,
          .store 0x1010 0x10, .register 0x10 0x1010 .returnNilIfDeallocating .live,
          .store 0x1010 0x20, .clear 0x10] = .ok s ∧
      locations s.table 0x10 = ∅ ∧ s.memory 0x1008 = 0 ∧ s.memory 0x1010 = 0x20 := by
  have hadmits : (WeakMap.init fun _ => 0).AdmitsAll (fun _ => false)
      [.store 0x1008 0x10, .register 0x10 0x1008 .crashIfDeallocating .live,
        .store 0x1010 0x10, .register 0x10 0x1010 .returnNilIfDeallocating .live,
        .store 0x1010 0x20, .clear 0x10] := by
    simp [WeakMap.AdmitsAll, WeakMap.Admits, WeakMap.step, WeakMap.init, WeakOp.accepts,
      IsObject, IsLocation]
  rcases weakTable_refines_map _ _ _ hadmits with ⟨s, hrun, hlocs, hmem⟩ | ⟨-, op, hin, hcrash⟩
  · refine ⟨s, hrun, ?_, ?_, ?_⟩
    · rw [hlocs]
      simp [WeakMap.run, WeakMap.step]
    · rw [hmem]
      simp [WeakMap.run, WeakMap.step, WeakMap.init, WeakOp.accepts]
    · rw [hmem]
      simp [WeakMap.run, WeakMap.step, WeakMap.init, WeakOp.accepts]
  · simp only [mem_cons, not_mem_nil, or_false] at hin
    rcases hin with rfl | rfl | rfl | rfl | rfl | rfl <;> simp [WeakOp.crashes] at hcrash

end ObjcRuntime.Weak
