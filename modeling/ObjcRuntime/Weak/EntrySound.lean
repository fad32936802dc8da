import Mathlib.Data.Set.Basic
import ObjcRuntime.Weak.Table

/-!
# ObjcRuntime.Weak.EntrySound

A weak entry is a set of referrers.

`WeakEntry.locs` reads that set off either form of the entry. The results here
say that `append_referrer` inserts into it and `remove_referrer` deletes from
it, in both forms and across the conversion from one to the other, and that
neither of them reaches `bad_weak_table`. Everything about probing comes from
`ProbeTable`; what is added is the 3/4 load limit and the reading of the union.
-/

namespace ObjcRuntime.Weak

open Lib List Option Nat Set WeakEntry ProbeTable

/-- The address of a weak variable: not nil and pointer-aligned. -/
def IsLocation (l : Addr) : Prop := l ≠ 0 ∧ l.toNat % 8 = 0

/-- The referrers of an entry. -/
def WeakEntry.locs (entry : WeakEntry) : Set Addr :=
  match entry.referrers with
  | .inline referrers => {l | some l ∈ referrers}
  | .outOfLine table => {l | table.Mem l}

/-- A referrer table: hashed by the referrers themselves, at least as large as
the first one allocated, and at most 3/4 full. -/
structure RefsWf (table : ProbeTable Addr) : Prop where
  wf : ProbeTable.Wf id wHashPointer table
  large : 8 ≤ table.mask + 1
  load : table.count ≤ (table.mask + 1) * 3 / 4

/-- An inline array: no referrer twice. -/
structure InlineWf (referrers : List (Option Addr)) : Prop where
  length : referrers.length = weakInlineCount
  inj : ∀ i j l, slot referrers i = some l → slot referrers j = some l → i = j

/-- A well-formed entry. -/
structure EntryWf (entry : WeakEntry) : Prop where
  referent : entry.referent ≠ 0
  locs : ∀ l ∈ entry.locs, IsLocation l
  form : match entry.referrers with
    | .inline referrers => InlineWf referrers
    | .outOfLine table => RefsWf table

/-! ### The tag -/

theorem disguise_and_three {o} (h : ∀ l, o = some l → IsLocation l) : disguise o &&& 3 ≠ 2 := by
  cases o with
  | none => decide
  | some l =>
    obtain ⟨-, hl⟩ := h l rfl
    unfold disguise
    intro heq
    have hnat := congrArg UInt64.toNat heq
    have hmod : ∀ x, x &&& 3 = x % 4 := fun x => and_two_pow_sub_one_eq_mod x 2
    rw [UInt64.toNat_and, show (3 : UInt64).toNat = 3 from rfl, hmod, UInt64.toNat_sub] at hnat
    simp only [UInt64.reduceToNat] at hnat
    omega

variable {referrers : List (Option Addr)} {entry : WeakEntry}

theorem outOfLine_inline (h : EntryWf entry) (hr : entry.referrers = .inline referrers) :
    entry.outOfLine = false := by
  have hloc : ∀ l, slot referrers 1 = some l → IsLocation l := by
    intro l hl
    apply h.locs l
    unfold WeakEntry.locs
    rw [hr]
    exact some_mem_iff_slot.2 ⟨1, hl⟩
  unfold outOfLine outOfLineNess
  rw [hr]
  exact beq_false_of_ne (disguise_and_three hloc)

variable {table : ProbeTable Addr}

theorem outOfLine_outOfLine (hr : entry.referrers = .outOfLine table) : entry.outOfLine := by
  unfold outOfLine outOfLineNess
  rw [hr]
  rfl

/-! ### Referrer tables -/

theorem RefsWf.size_eq (h : RefsWf table) : table.size = table.mask + 1 := by
  have := h.large
  unfold ProbeTable.size
  rw [if_neg (by omega)]

variable {l : Addr}

theorem appendOutOfLine_of_lt (h : RefsWf table)
    (hnew : ¬ table.Mem l) (hload : table.count < (table.mask + 1) * 3 / 4) (depth : Nat) :
    ∃ table', appendOutOfLine depth table l = .ok table' ∧ RefsWf table' ∧
      table'.count = table.count + 1 ∧ table'.mask = table.mask ∧
      ∀ x, table'.Mem x ↔ x = l ∨ table.Mem x := by
  have hlarge := h.large
  obtain ⟨table', hins, hwf, hcount, hmask, hmem⟩ := h.wf.insert
    (a := l) (fun b hb hbl => hnew ((id hbl : b = l) ▸ hb)) (by omega)
  refine ⟨table', ?_, ⟨hwf, by omega, by rw [hcount, hmask]; omega⟩, hcount, hmask, hmem⟩
  have hins' : table.insert (wHashPointer l) l = some table' := hins
  unfold appendOutOfLine
  rw [if_neg (by rw [h.size_eq]; omega), insertAt, hins']

theorem foldlM_appendOutOfLine {refs : List Addr} (depth : Nat) :
    ∀ {table}, RefsWf table → refs.Nodup → (∀ l ∈ refs, ¬ table.Mem l) →
      table.count + refs.length ≤ (table.mask + 1) * 3 / 4 →
      ∃ table', refs.foldlM (fun t r => appendOutOfLine depth t r) table = .ok table' ∧
        RefsWf table' ∧ table'.count = table.count + refs.length ∧ table'.mask = table.mask ∧
        ∀ x, table'.Mem x ↔ x ∈ refs ∨ table.Mem x := by
  induction refs with
  | nil =>
    intro table h _ _ _
    exact ⟨table, rfl, h, rfl, rfl, by simp⟩
  | cons l refs ih =>
    intro table h hnodup hnew hload
    rw [nodup_cons] at hnodup
    rw [length_cons] at hload
    obtain ⟨t1, happ, hwf, hcount, hmask, hmem⟩ :=
      appendOutOfLine_of_lt h (hnew l mem_cons_self) (by omega) depth
    obtain ⟨table', hfold, hwf', hcount', hmask', hmem'⟩ := ih hwf hnodup.2 (by
        intro x hx hin
        rcases (hmem x).1 hin with rfl | hin
        · exact hnodup.1 hx
        · exact hnew x (mem_cons_of_mem l hx) hin)
      (by rw [hcount, hmask]; omega)
    refine ⟨table', ?_, hwf', ?_, hmask'.trans hmask, ?_⟩
    · rw [foldlM_cons, happ]
      exact hfold
    · rw [hcount', hcount, length_cons]; omega
    · intro x
      rw [hmem' x, hmem x, mem_cons]
      tauto

/-- `grow_refs_and_insert` on `n` slots that hold `m` different referrers. -/
theorem grow_spec {refs k}
    (hrefs : ((table.slots.take table.size).filterMap id).take table.count = refs)
    (hnodup : refs.Nodup) (hnew : l ∉ refs) (hk : table.size = 2 ^ k) (hk2 : 2 ≤ k)
    (hfull : table.count ≥ table.size * 3 / 4) (hlen : refs.length ≤ table.size) (depth : Nat) :
    ∃ table', appendOutOfLine (depth + 1) table l = .ok table' ∧ RefsWf table' ∧
      ∀ x, table'.Mem x ↔ x = l ∨ x ∈ refs := by
  have h4 : 4 ≤ 2 ^ k := by
    calc 4 = 2 ^ 2 := rfl
      _ ≤ 2 ^ k := Nat.pow_le_pow_right (by decide) hk2
  have hnewSize : (if table.size ≠ 0 then table.size * 2 else 8) = 2 ^ (k + 1) := by
    rw [if_pos (by omega), hk, pow_succ]
  have hmask : (empty (2 ^ (k + 1)) : ProbeTable Addr).mask + 1 = 2 * 2 ^ k := by
    show 2 ^ (k + 1) - 1 + 1 = 2 * 2 ^ k
    rw [pow_succ]; omega
  have hempty : RefsWf (empty (2 ^ (k + 1)) : ProbeTable Addr) := by
    refine ⟨empty_wf (by omega), by rw [hmask]; omega, zero_le _⟩
  obtain ⟨t1, hfold, hwf1, hcount1, hmask1, hmem1⟩ := foldlM_appendOutOfLine depth hempty hnodup
    (fun x _ => not_mem_empty _ x)
    (by rw [hmask]; show 0 + refs.length ≤ _; omega)
  have hcount1' : t1.count = refs.length := by rw [hcount1]; exact zero_add _
  have hmem1' : ∀ x, t1.Mem x ↔ x ∈ refs := by
    intro x
    rw [hmem1 x]
    exact or_iff_left (not_mem_empty _ x)
  obtain ⟨table', happ, hwf, -, -, hmem⟩ := appendOutOfLine_of_lt hwf1
    (fun hin => hnew ((hmem1' l).1 hin)) (by rw [hmask1, hmask]; omega) depth
  refine ⟨table', ?_, hwf, fun x => by rw [hmem x, hmem1' x]⟩
  unfold appendOutOfLine
  rw [if_pos hfull]
  dsimp only
  rw [hnewSize, hrefs, hfold]
  exact happ

theorem RefsWf.refs_eq (h : RefsWf table) :
    ((table.slots.take table.size).filterMap id).take table.count = table.elems := by
  rw [h.size_eq, ← h.wf.length, take_length]
  exact take_of_length_le (h.wf.length_elems).le

theorem RefsWf.append (h : RefsWf table) (hnew : ¬ table.Mem l) :
    ∃ table', appendOutOfLine 1 table l = .ok table' ∧ RefsWf table' ∧
      ∀ x, table'.Mem x ↔ x = l ∨ table.Mem x := by
  by_cases hload : table.count < (table.mask + 1) * 3 / 4
  · obtain ⟨table', happ, hwf, -, -, hmem⟩ := appendOutOfLine_of_lt h hnew hload 1
    exact ⟨table', happ, hwf, hmem⟩
  · obtain ⟨k, hk⟩ := h.wf.pow
    have hlarge := h.large
    have hk2 : 2 ≤ k := by
      by_contra hlt
      have : 2 ^ k ≤ 2 ^ 1 := Nat.pow_le_pow_right (by decide) (by omega)
      omega
    obtain ⟨table', happ, hwf, hmem⟩ := grow_spec (l := l) h.refs_eq h.wf.pairwise_elems
      (fun hin => hnew (mem_elems.1 hin)) (h.size_eq.trans hk) hk2
      (by rw [h.size_eq]; omega)
      (by rw [h.wf.length_elems, h.size_eq]; exact h.wf.count_le) 0
    refine ⟨table', happ, hwf, fun x => ?_⟩
    rw [hmem x, mem_elems]

/-! ### Inline arrays -/

variable (h : InlineWf referrers)
include h

theorem InlineWf.nodup : (referrers.filterMap id).Nodup := by
  unfold List.Nodup
  rw [pairwise_filterMap, pairwise_iff_getElem]
  intro i j hi hj hij a ha b hb hab
  have := h.inj i j a (by rw [slot_eq_of_lt hi]; exact ha) (by rw [slot_eq_of_lt hj, hab]; exact hb)
  omega

theorem InlineWf.set_some {i} (hi : i < referrers.length) (hnil : slot referrers i = none)
    (hnew : some l ∉ referrers) :
    InlineWf (referrers.set i (some l)) ∧
      ∀ x, some x ∈ referrers.set i (some l) ↔ x = l ∨ some x ∈ referrers := by
  have hslot := slot_set hi (some l)
  have hne : ∀ j, slot referrers j ≠ some l := fun j hj =>
    hnew (some_mem_iff_slot.2 ⟨j, hj⟩)
  refine ⟨⟨by rw [length_set]; exact h.length, ?_⟩, fun x => ?_⟩
  · intro j m x hj hm
    rw [hslot] at hj hm
    split at hj <;> split at hm
    next h1 h2 => rw [h1, h2]
    · cases hj
      exact absurd hm (hne m)
    · cases hm
      exact absurd hj (hne j)
    · exact h.inj j m x hj hm
  · rw [some_mem_iff_slot, some_mem_iff_slot]
    constructor
    · rintro ⟨j, hj⟩
      rw [hslot] at hj
      split at hj
      · exact .inl (some.inj hj).symm
      · exact .inr ⟨j, hj⟩
    · rintro (rfl | ⟨j, hj⟩)
      · exact ⟨i, by rw [hslot, if_pos rfl]⟩
      · refine ⟨j, ?_⟩
        rw [hslot, if_neg, hj]
        rintro rfl
        rw [hnil] at hj
        cases hj

theorem InlineWf.set_none {i} (hi : slot referrers i = some l) :
    InlineWf (referrers.set i none) ∧
      ∀ x, some x ∈ referrers.set i none ↔ some x ∈ referrers ∧ x ≠ l := by
  have hslot := slot_set (slot_lt hi) none
  refine ⟨⟨by rw [length_set]; exact h.length, ?_⟩, fun x => ?_⟩
  · intro j m x hj hm
    rw [hslot] at hj hm
    split at hj <;> split at hm
    · cases hj
    · cases hj
    · cases hm
    · exact h.inj j m x hj hm
  · rw [some_mem_iff_slot, some_mem_iff_slot]
    constructor
    · rintro ⟨j, hj⟩
      rw [hslot] at hj
      split at hj
      · cases hj
      next hne =>
        refine ⟨⟨j, hj⟩, ?_⟩
        rintro rfl
        exact hne (h.inj j i x hj hi)
    · rintro ⟨⟨j, hj⟩, hne⟩
      refine ⟨j, ?_⟩
      rw [hslot, if_neg, hj]
      rintro rfl
      rw [hi] at hj
      exact hne (some.inj hj).symm

theorem InlineWf.convert (hfull : ∀ o ∈ referrers, o ≠ none) (hnew : some l ∉ referrers) :
    ∃ table', appendOutOfLine 1 ⟨referrers, weakInlineCount, weakInlineCount - 1, 0⟩ l =
        .ok table' ∧ RefsWf table' ∧ ∀ x, table'.Mem x ↔ x = l ∨ some x ∈ referrers := by
  have hlen : (referrers.filterMap id).length = 4 := by
    rw [length_filterMap_eq_countP, countP_eq_length.2, h.length]
    · rfl
    · intro o ho
      exact isSome_iff_ne_none.2 (hfull o ho)
  have hmem : ∀ x, x ∈ referrers.filterMap id ↔ some x ∈ referrers := by
    intro x
    simp
  have htake : referrers.take 4 = referrers := take_of_length_le (by rw [h.length]; exact le_refl _)
  have hrefs : ((referrers.take 4).filterMap id).take weakInlineCount = referrers.filterMap id := by
    rw [htake]
    exact take_of_length_le hlen.le
  have hnodup := h.nodup
  have hsize : (⟨referrers, weakInlineCount, weakInlineCount - 1, 0⟩ :
      ProbeTable Addr).size = 2 ^ 2 := rfl
  obtain ⟨table', happ, hwf, hx⟩ := grow_spec (l := l) hrefs hnodup
    (fun hin => hnew ((hmem l).1 hin)) hsize (le_refl 2) (by show 4 ≥ 4 * 3 / 4; decide)
    (by rw [hlen]; exact le_refl 4) 0
  exact ⟨table', happ, hwf, fun x => by rw [hx x, hmem x]⟩

omit h

/-! ### append_referrer and remove_referrer -/

theorem EntryWf.append (h : EntryWf entry) (hl : IsLocation l) (hnew : l ∉ entry.locs) :
    ∃ entry', appendReferrer entry l = .ok entry' ∧ EntryWf entry' ∧
      entry'.referent = entry.referent ∧ entry'.locs = Insert.insert l entry.locs := by
  have hform := h.form
  have hgood {s : Set Addr} (hmem : ∀ x, x ∈ s ↔ x = l ∨ x ∈ entry.locs) :
      ∀ x ∈ s, IsLocation x := by
    intro x hx
    rcases (hmem x).1 hx with rfl | hx
    · exact hl
    · exact h.locs x hx
  unfold appendReferrer
  cases hr : entry.referrers with
  | inline referrers =>
    have hset : entry.locs = {l | some l ∈ referrers} := by
      unfold WeakEntry.locs
      rw [hr]
    rw [hr] at hform
    rw [hset] at hnew hgood ⊢
    rw [outOfLine_inline h hr]
    dsimp only
    cases hidx : referrers.findIdx? Option.isNone with
    | some i =>
      obtain ⟨hi, hnil, -⟩ := findIdx?_eq_some_iff_getElem.1 hidx
      obtain ⟨hwf, hmem⟩ := hform.set_some hi
        (by rw [slot_eq_of_lt hi]; exact isNone_iff_eq_none.1 hnil) hnew
      exact ⟨_, rfl, ⟨h.referent, hgood hmem, hwf⟩, rfl, ext hmem⟩
    | none =>
      have hfull : ∀ o ∈ referrers, o ≠ none := by
        intro o ho hno
        have := findIdx?_eq_none_iff.1 hidx o ho
        rw [hno] at this
        cases this
      obtain ⟨table', happ, hwf, hmem⟩ := hform.convert hfull hnew
      refine ⟨{ entry with referrers := .outOfLine table' }, ?_, ⟨h.referent, hgood hmem, hwf⟩,
        rfl, ext hmem⟩
      rw [happ]
      rfl
  | outOfLine table =>
    have hset : entry.locs = {l | table.Mem l} := by
      unfold WeakEntry.locs
      rw [hr]
    rw [hr] at hform
    rw [hset] at hnew hgood ⊢
    rw [outOfLine_outOfLine hr]
    dsimp only
    obtain ⟨table', happ, hwf, hmem⟩ := RefsWf.append hform hnew
    refine ⟨{ entry with referrers := .outOfLine table' }, ?_, ⟨h.referent, hgood hmem, hwf⟩,
      rfl, ext hmem⟩
    rw [happ]
    rfl

theorem EntryWf.remove (h : EntryWf entry) (l) :
    ∃ entry' known, removeReferrer entry l = .ok (entry', known) ∧ EntryWf entry' ∧
      entry'.referent = entry.referent ∧ entry'.locs = entry.locs \ {l} := by
  have hform := h.form
  have hlocs := h.locs
  unfold removeReferrer
  cases hr : entry.referrers with
  | inline referrers =>
    rw [hr] at hform
    unfold WeakEntry.locs at hlocs
    rw [hr] at hlocs
    rw [outOfLine_inline h hr]
    dsimp only
    cases hidx : referrers.findIdx? (· == some l) with
    | some i =>
      obtain ⟨hi, heq, -⟩ := findIdx?_eq_some_iff_getElem.1 hidx
      obtain ⟨hwf, hmem⟩ := hform.set_none
        (show slot referrers i = some l by rw [slot_eq_of_lt hi]; exact eq_of_beq heq)
      refine ⟨_, _, rfl, ⟨h.referent, fun x hx => hlocs x ((hmem x).1 hx).1, hwf⟩, rfl, ?_⟩
      ext x
      unfold WeakEntry.locs
      rw [hr]
      exact hmem x
    | none =>
      refine ⟨entry, false, rfl, h, rfl, ?_⟩
      symm
      rw [sdiff_eq_left, disjoint_singleton_right]
      unfold WeakEntry.locs
      rw [hr]
      intro hin
      have := findIdx?_eq_none_iff.1 hidx (some l) hin
      simp at this
  | outOfLine table =>
    rw [hr] at hform
    unfold WeakEntry.locs at hlocs
    rw [hr] at hlocs
    rw [outOfLine_outOfLine hr]
    dsimp only
    obtain ⟨hwf, hlarge, hload⟩ := hform
    rcases hwf.find l with ⟨i, x, hfind, hget, rfl⟩ | ⟨hfind, hno⟩
    · have hfind' : table.find (wHashPointer x) (fun y => y == x) = some (some i) := hfind
      obtain ⟨hwf', hcount, hmem⟩ := hwf.removeAt hget
      refine ⟨{ entry with referrers := .outOfLine (table.removeAt i) }, true, ?_,
        ⟨h.referent, fun y hy => hlocs y ((hmem y).1 hy).1, ⟨hwf', hlarge, ?_⟩⟩, rfl, ?_⟩
      · simp only [id_eq, hfind']
      · show (table.removeAt i).count ≤ (table.mask + 1) * 3 / 4
        omega
      · ext y
        unfold WeakEntry.locs
        rw [hr]
        exact hmem y
    · have hfind' : table.find (wHashPointer l) (fun y => y == l) = some none := hfind
      refine ⟨entry, false, ?_, h, rfl, ?_⟩
      · rw [hfind']
      · symm
        rw [sdiff_eq_left, disjoint_singleton_right]
        unfold WeakEntry.locs
        rw [hr]
        exact fun hin => hno l hin rfl

end ObjcRuntime.Weak
