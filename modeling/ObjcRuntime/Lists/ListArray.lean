import Mathlib.Data.List.TakeDrop
import Mathlib.Data.Nat.Bitwise
import Mathlib.Logic.Function.Basic

/-!
# ObjcRuntime.Lists.ListArray

`list_array_tt`: no list, a pointer to one list, or a pointer to an `array_t` with many.

`attachLists` puts the added lists before those that are there. It copies them to a new
block and frees the old one. Counts are 32-bit, and the loop over the old lists runs on
an `int`: with more than 2^31 of them it copies none (`attachSlots`).
-/

namespace ObjcRuntime.Lists

open Function List Option Nat

/-! ### Blocks -/

/-- `array_t`. A slot that nothing was written to is `none`. -/
structure ArrayT where
  count : BitVec 32
  lists : List (Option Nat)

/-- The blocks that are allocated. -/
structure Heap where
  block : Nat → Option ArrayT
  next : Nat
  fresh : ∀ a, next ≤ a → block a = none

namespace Heap

def malloc (h : Heap) (b : ArrayT) : Heap where
  block := update h.block h.next (some b)
  next := h.next + 1
  fresh a ha := by
    rw [update_of_ne (Nat.ne_of_gt ha)]
    exact h.fresh a (Nat.le_of_succ_le ha)

def free (h : Heap) (a : Nat) : Heap where
  block := update h.block a none
  next := h.next
  fresh b hb := by
    by_cases hba : b = a
    · rw [hba, update_self]
    · rw [update_of_ne hba]
      exact h.fresh b hb

def empty : Heap := ⟨fun _ => none, 0, fun _ _ => rfl⟩

end Heap

/-- The tagged union: a list, or a block. -/
inductive ListArray
  | nil | list (l : Nat) | array (a : Nat)
  deriving DecidableEq

/-- `lists[i] = l` -/
def write (lists : List (Option Nat)) (i : Nat) (l : Option Nat) : Option (List (Option Nat)) :=
  if i < lists.length then some (lists.set i l) else none

/-- `for (int i = oldCount - 1; i >= 0; i--)`, where `i + 1` is the first argument. -/
def copyOld (old : List (Option Nat)) (addedCount : BitVec 32) :
    Nat → List (Option Nat) → Option (List (Option Nat))
  | 0, new => some new
  | i + 1, new => do
      let l ← old[i]?
      let new ← write new (BitVec.ofNat 32 i + addedCount).toNat l
      copyOld old addedCount i new

/-- `for (unsigned i = 0; i < addedCount; i++)` -/
def copyAdded : List Nat → Nat → List (Option Nat) → Option (List (Option Nat))
  | [], _, new => some new
  | l :: rest, i, new => do
      let new ← write new i (some l)
      copyAdded rest (i + 1) new

/-- How often the loop over the old lists runs. -/
def oldRounds (oldCount : BitVec 32) : Nat := ((oldCount - 1).toInt + 1).toNat

/-- Room for `count` lists. -/
def uninitialized (count : BitVec 32) : List (Option Nat) := List.replicate count.toNat none

/-- Many lists to many lists: the slots of the new block. -/
def manyToMany (b : ArrayT) (addedLists : List Nat) (addedCount : BitVec 32) :
    Option (List (Option Nat)) := do
  let new ← copyOld b.lists addedCount (oldRounds b.count) (uninitialized (b.count + addedCount))
  copyAdded addedLists 0 new

/-- `if (oldList) array()->lists[addedCount] = oldList` -/
def copyOldList (oldList : Option Nat) (addedCount : BitVec 32) (new : List (Option Nat)) :
    Option (List (Option Nat)) :=
  match oldList with
  | none => some new
  | some l => write new addedCount.toNat (some l)

/-- One list to many lists. -/
def oneToMany (h : Heap) (oldList : Option Nat) (addedLists : List Nat) (addedCount : BitVec 32) :
    Option (Heap × ListArray) := do
  let newCount := (if oldList.isSome then 1 else 0) + addedCount
  let new ← copyOldList oldList addedCount (uninitialized newCount)
  let new ← copyAdded addedLists 0 new
  some (h.malloc ⟨newCount, new⟩, .array h.next)

/-- `attachLists`. There is no result after an access to freed memory, or outside of a
block. -/
def attachLists (h : Heap) (la : ListArray) (addedLists : List Nat) : Option (Heap × ListArray) :=
  let addedCount := BitVec.ofNat 32 addedLists.length
  if addedCount = 0 then some (h, la)
  else match la with
    | .array a => do
        let b ← h.block a
        let new ← manyToMany b addedLists addedCount
        -- the count that is stored in the old block is lost with it
        some ((h.malloc ⟨b.count + addedCount, new⟩).free a, .array h.next)
    | .nil =>
      if addedCount = 1 then (addedLists[0]?).map fun l => (h, .list l)
      else oneToMany h none addedLists addedCount
    | .list l => oneToMany h (some l) addedLists addedCount

/-! ### The slots -/

/-- The slots of a list array, in the three representations. -/
inductive Slots (h : Heap) : ListArray → List (Option Nat) → Prop
  | nil : Slots h .nil []
  | list (l : Nat) : Slots h (.list l) [some l]
  | array {a b} : h.block a = some b → b.count.toNat = b.lists.length →
      Slots h (.array a) b.lists

/-- What `attachLists` does with the slots. -/
def attachSlots (old : List (Option Nat)) (added : List Nat) : Option (List (Option Nat)) :=
  if added = [] then some old
  else if old.length + added.length < 2 ^ 32 then
    some (added.map some ++ if old.length ≤ 2 ^ 31 then old else List.replicate old.length none)
  else none

variable {h h' : Heap} {la la' : ListArray} {old ss : List (Option Nat)} {added : List Nat}

theorem write_of_lt {lists i l}
    (hi : i < lists.length) : write lists i l = some (lists.set i l) := if_pos hi

theorem length_of_write {lists new i l}
    (hw : write lists i l = some new) : new.length = lists.length := by
  unfold write at hw
  split at hw
  · cases hw
    exact length_set
  · cases hw

theorem length_of_copyOld {addedCount n new new'}
    (hc : copyOld old addedCount n new = some new') : new'.length = new.length := by
  induction n generalizing new with
  | zero =>
    cases hc
    rfl
  | succ i ih =>
    obtain ⟨l, -, hc⟩ := bind_eq_some_iff.1 hc
    obtain ⟨mid, hw, hc⟩ := bind_eq_some_iff.1 hc
    rw [ih hc, length_of_write hw]

theorem copyOld_eq {addedCount n new} (hn : n ≤ old.length)
    (hroom : addedCount.toNat + n ≤ new.length) (hsmall : new.length < 2 ^ 32) :
    copyOld old addedCount n new =
      some (new.take addedCount.toNat ++ old.take n ++ new.drop (addedCount.toNat + n)) := by
  induction n generalizing new with
  | zero => simp [copyOld]
  | succ i ih =>
    have hi : i < old.length := hn
    have hindex : (BitVec.ofNat 32 i + addedCount).toNat = addedCount.toNat + i := by
      rw [BitVec.toNat_add, BitVec.toNat_ofNat, mod_eq_of_lt (by omega : i < 2 ^ 32),
        mod_eq_of_lt (by omega), add_comm]
    have hlt : addedCount.toNat + i < new.length := by omega
    have hround : copyOld old addedCount (i + 1) new =
        copyOld old addedCount i (new.set (addedCount.toNat + i) old[i]) := by
      rw [copyOld, getElem?_eq_getElem hi]
      simp only [bind_eq_bind, bind_some, hindex, write_of_lt hlt]
    have hdrop : (new.set (addedCount.toNat + i) old[i]).drop (addedCount.toNat + i) =
        old[i] :: new.drop (addedCount.toNat + (i + 1)) := by
      rw [drop_eq_getElem_cons (by rw [length_set]; exact hlt), getElem_set_self,
        drop_set_of_lt (Nat.lt_add_one _), Nat.add_assoc]
    rw [hround, ih (by omega) (by rw [length_set]; omega) (by rw [length_set]; omega),
      take_set_of_le (by omega), hdrop, take_succ_eq_append_getElem hi]
    simp only [append_assoc, cons_append, nil_append]

theorem copyAdded_eq {i new} (hroom : i + added.length ≤ new.length) :
    copyAdded added i new =
      some (new.take i ++ added.map some ++ new.drop (i + added.length)) := by
  induction added generalizing i new with
  | nil => simp [copyAdded]
  | cons l rest ih =>
    rw [length_cons] at hroom
    have hlt : i < new.length := by omega
    have htake : (new.set i (some l)).take (i + 1) = new.take i ++ [some l] := by
      rw [take_succ_eq_append_getElem (by rw [length_set]; exact hlt),
        getElem_set_self, take_set_of_le (le_refl i)]
    rw [copyAdded, write_of_lt hlt, bind_eq_bind, bind_some, ih (by rw [length_set]; omega), htake,
      drop_set_of_lt (by omega : i < i + 1 + rest.length)]
    simp [add_comm, add_left_comm]

/-- Without room for them, it writes outside of the block. -/
theorem copyAdded_eq_none {i new} (hi : i ≤ new.length)
    (hroom : new.length < i + added.length) : copyAdded added i new = none := by
  induction added generalizing i new with
  | nil => exact absurd hroom (Nat.not_lt_of_le hi)
  | cons l rest ih =>
    rw [length_cons] at hroom
    rw [copyAdded]
    by_cases hlt : i < new.length
    · rw [write_of_lt hlt, bind_eq_bind, bind_some]
      exact ih (by rw [length_set]; omega) (by rw [length_set]; omega)
    · rw [write, if_neg hlt]
      rfl

theorem oldRounds_eq (count) :
    oldRounds count = if count.toNat ≤ 2 ^ 31 then count.toNat else 0 := by
  unfold oldRounds
  have hone : (1 : BitVec 32).toNat = 1 := rfl
  rw [BitVec.toInt_eq_toNat_cond, BitVec.toNat_sub, hone]
  split <;> split <;> omega

theorem toNat_ofNat_length (hadded : added.length < 2 ^ 32) :
    (BitVec.ofNat 32 added.length).toNat = added.length := by
  rw [BitVec.toNat_ofNat, mod_eq_of_lt hadded]

theorem manyToMany_eq {b} (hb : b.count.toNat = b.lists.length)
    (hadded : added.length < 2 ^ 32) (hne : added ≠ []) :
    manyToMany b added (BitVec.ofNat 32 added.length) = attachSlots b.lists added := by
  have hcount := toNat_ofNat_length hadded
  have hnew : (b.count + BitVec.ofNat 32 added.length).toNat =
      (b.lists.length + added.length) % 2 ^ 32 := by
    rw [BitVec.toNat_add, hcount, hb]
  unfold manyToMany attachSlots uninitialized
  rw [if_neg hne, hnew]
  by_cases hfits : b.lists.length + added.length < 2 ^ 32
  · rw [if_pos hfits, mod_eq_of_lt hfits, oldRounds_eq, hb]
    by_cases hint : b.lists.length ≤ 2 ^ 31
    · rw [if_pos hint, if_pos hint, copyOld_eq le_rfl (by rw [hcount, length_replicate, add_comm])
          (by rwa [length_replicate])]
      rw [bind_eq_bind, bind_some, copyAdded_eq (by simp [hcount])]
      simp [hcount, add_comm]
    · rw [if_neg hint, if_neg hint, copyOld, bind_eq_bind, bind_some, copyAdded_eq (by simp)]
      simp
  · rw [if_neg hfits]
    -- the count of the new block has wrapped around
    cases hcopy : copyOld b.lists (BitVec.ofNat 32 added.length) (oldRounds b.count)
        (List.replicate ((b.lists.length + added.length) % 2 ^ 32) none) with
    | none => rfl
    | some new =>
      have hlength := length_of_copyOld hcopy
      rw [length_replicate] at hlength
      exact copyAdded_eq_none (zero_le _) (by omega)

/-- The slot of one old list. -/
def oldSlots (oldList : Option Nat) : List (Option Nat) :=
  match oldList with
  | none => []
  | some l => [some l]

theorem oneToMany_eq (h : Heap) (oldList) (hadded : added.length < 2 ^ 32) (hne : added ≠ []) :
    oneToMany h oldList added (BitVec.ofNat 32 added.length) =
      (attachSlots (oldSlots oldList) added).map fun new =>
        (h.malloc ⟨BitVec.ofNat 32 new.length, new⟩, .array h.next) := by
  have hcount := toNat_ofNat_length hadded
  cases oldList with
  | none =>
    have hfits : (oldSlots none).length + added.length < 2 ^ 32 := by
      simpa [oldSlots] using hadded
    have hslots : attachSlots (oldSlots none) added = some (added.map some) := by
      rw [attachSlots, if_neg hne, if_pos hfits]
      simp [oldSlots]
    have hzero : (if (none : Option Nat).isSome then 1 else 0) + BitVec.ofNat 32 added.length =
        BitVec.ofNat 32 added.length := BitVec.zero_add _
    rw [hslots, oneToMany, hzero]
    simp only [copyOldList, uninitialized, hcount, bind_eq_bind, bind_some]
    rw [copyAdded_eq (by simp)]
    simp
  | some l =>
    have hlength : (oldSlots (some l)).length = 1 := rfl
    have hnew : (1 + BitVec.ofNat 32 added.length).toNat = (1 + added.length) % 2 ^ 32 := by
      rw [BitVec.toNat_add, hcount]
      rfl
    unfold attachSlots
    rw [if_neg hne, hlength]
    simp only [oneToMany, copyOldList, uninitialized, isSome_some, if_true, hnew,
      bind_eq_bind, hcount]
    by_cases hfits : 1 + added.length < 2 ^ 32
    · have hroom :
          added.length < (List.replicate (1 + added.length) (none : Option Nat)).length := by
        simp
      have hdrop : ((List.replicate (1 + added.length) none).set added.length (some l)).drop
          added.length = [some l] := by
        rw [drop_eq_getElem_cons (by rwa [length_set]), getElem_set_self,
          drop_eq_nil_of_le (by simp [add_comm])]
      have hsum : 1 + BitVec.ofNat 32 added.length = BitVec.ofNat 32 (added.length + 1) := by
        rw [BitVec.add_comm, BitVec.ofNat_add]
        rfl
      rw [if_pos hfits, mod_eq_of_lt hfits, write_of_lt hroom, bind_some,
        copyAdded_eq (by simp), if_pos (by decide), zero_add, hdrop, hsum]
      simp [oldSlots]
    · have hwrap : (1 + added.length) % 2 ^ 32 = 0 := by omega
      rw [if_neg hfits, hwrap]
      rfl

/-- A block that `la` does not point to is not touched, and the new one is `next`. -/
structure Frame (h : Heap) (la : ListArray) (h' : Heap) (la' : ListArray) : Prop where
  other : ∀ a b, h.block a = some b → la ≠ .array a → h'.block a = some b
  target : ∀ a, la' = .array a → la = .array a ∨ a = h.next
  next : h.next ≤ h'.next

theorem Frame.malloc (h : Heap) (la) (b) : Frame h la (h.malloc b) (.array h.next) := by
  refine ⟨fun a c hc _ => ?_, fun a ha => .inr (ListArray.array.inj ha).symm, le_succ _⟩
  have hne : a ≠ h.next := by
    rintro rfl
    rw [h.fresh _ le_rfl] at hc
    cases hc
  exact (update_of_ne hne _ _).trans hc

theorem Slots.malloc (h : Heap) (lists) (hlength : lists.length < 2 ^ 32) :
    Slots (h.malloc ⟨BitVec.ofNat 32 lists.length, lists⟩) (.array h.next) lists := by
  have hblock : (h.malloc ⟨BitVec.ofNat 32 lists.length, lists⟩).block h.next =
      some ⟨BitVec.ofNat 32 lists.length, lists⟩ := update_self _ _ _
  refine .array hblock ?_
  rw [BitVec.toNat_ofNat, mod_eq_of_lt hlength]

theorem Slots.free {a} (hs : Slots h (.array a) ss) {c} (hne : c ≠ a) :
    Slots (h.free c) (.array a) ss := by
  cases hs with
  | array hblock hcount => exact .array ((update_of_ne hne.symm _ _).trans hblock) hcount

theorem Frame.free {a} (hf : Frame h (.array a) h' la') : Frame h (.array a) (h'.free a) la' := by
  refine ⟨fun c b hc hne => ?_, hf.target, hf.next⟩
  have hca : c ≠ a := fun heq => hne (heq ▸ rfl)
  exact (update_of_ne hca _ _).trans (hf.other c b hc hne)

theorem length_of_attachSlots {new} (hnew : attachSlots old added = some new) :
    new.length = added.length + old.length ∧ (added ≠ [] → new.length < 2 ^ 32) := by
  unfold attachSlots at hnew
  split at hnew
  next hnil =>
    cases hnew
    rw [hnil, length_nil, zero_add]
    exact ⟨rfl, fun hne => absurd rfl hne⟩
  · split at hnew
    next hfits =>
      have hlength : new.length = added.length + old.length := by
        cases hnew
        split <;> simp
      exact ⟨hlength, fun _ => by omega⟩
    · cases hnew

theorem attachLists_spec (hs : Slots h la old) (hadded : added.length < 2 ^ 32) :
    (attachSlots old added = none ∧ attachLists h la added = none) ∨
      ∃ new h' la', attachSlots old added = some new ∧ attachLists h la added = some (h', la') ∧
        Slots h' la' new ∧ Frame h la h' la' := by
  by_cases hnil : added = []
  · subst hnil
    exact .inr ⟨old, h, la, if_pos rfl, rfl, hs, fun a b hb _ => hb, fun a ha => .inl ha, le_refl _⟩
  have hcount := toNat_ofNat_length hadded
  have hzero : BitVec.ofNat 32 added.length ≠ 0 := by
    intro hzero
    rw [hzero] at hcount
    exact hnil (length_eq_zero_iff.1 hcount.symm)
  -- a block for one old list and the added ones
  have hone : ∀ oldList, oldSlots oldList = old → attachLists h la added =
      oneToMany h oldList added (BitVec.ofNat 32 added.length) →
      (attachSlots old added = none ∧ attachLists h la added = none) ∨
        ∃ new h' la', attachSlots old added = some new ∧
          attachLists h la added = some (h', la') ∧ Slots h' la' new ∧ Frame h la h' la' := by
    intro oldList hold heq
    rw [oneToMany_eq h oldList hadded hnil, hold] at heq
    cases hnew : attachSlots old added with
    | none =>
      rw [hnew] at heq
      exact .inl ⟨rfl, heq⟩
    | some new =>
      rw [hnew] at heq
      exact .inr ⟨new, _, _, rfl, heq, .malloc h new ((length_of_attachSlots hnew).2 hnil),
        .malloc h la _⟩
  cases hs with
  | nil =>
    by_cases hsingle : BitVec.ofNat 32 added.length = 1
    · rw [hsingle] at hcount
      obtain ⟨l, rfl⟩ := length_eq_one_iff.1 hcount.symm
      exact .inr ⟨[some l], h, .list l, rfl, rfl, .list l, fun a b hb _ => hb, nofun, le_refl _⟩
    · refine hone none rfl ?_
      rw [attachLists, if_neg hzero]
      exact if_neg hsingle
  | list l => exact hone (some l) rfl (by rw [attachLists, if_neg hzero])
  | @array a b hblock hb =>
    have heq : attachLists h (.array a) added = (attachSlots b.lists added).map fun new =>
          ((h.malloc ⟨b.count + BitVec.ofNat 32 added.length, new⟩).free a, .array h.next) := by
      rw [attachLists, if_neg hzero]
      simp only [hblock, bind_eq_bind, bind_some, manyToMany_eq hb hadded hnil]
      cases attachSlots b.lists added <;> rfl
    cases hnew : attachSlots b.lists added with
    | none =>
      rw [hnew] at heq
      exact .inl ⟨rfl, heq⟩
    | some new =>
      rw [hnew] at heq
      obtain ⟨hlength, hlt⟩ := length_of_attachSlots hnew
      have hsum : b.count + BitVec.ofNat 32 added.length = BitVec.ofNat 32 new.length := by
        rw [hlength, add_comm, BitVec.ofNat_add, ← hb, BitVec.ofNat_toNat, BitVec.setWidth_eq]
      rw [hsum] at heq
      refine .inr ⟨new, _, _, rfl, heq, (Slots.malloc h new (hlt hnil)).free ?_, ?_⟩
      · rintro rfl
        rw [h.fresh _ le_rfl] at hblock
        cases hblock
      · exact (Frame.malloc h (.array a) _).free

end ObjcRuntime.Lists
