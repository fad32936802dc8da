import Mathlib.Data.List.Basic
import Mathlib.Data.Nat.Bitwise
import Mathlib.Data.Nat.Log
import Mathlib.Tactic.Common

/-!
# ObjcRuntime.Classes.CategoryList

`category_list`: the categories that wait for a class. It is one category in
place, or an array on the heap, in a union whose tag is the low bit of the word
where the single category has its header pointer.

The model keeps the words of the union. An array is a block of memory with what
has been stored in it; a store outside the block is `none`. The list behaves like
an ordered list as long as nothing is erased from an array: `erase` shifts the
array but does not lower the count, so the last category is left twice, or the
erased one stays.
-/

namespace ObjcRuntime.Classes.Unattached

open List Nat

/-! ### The code -/

/-- `locstamped_category_t` -/
structure Locstamped where
  cat : Nat
  hi : Nat
  deriving Repr, DecidableEq

/-- The pointers of a category and its header. -/
structure Locstamped.Valid (lp64 : Bool) (lc : Locstamped) : Prop where
  cat_ne_zero : lc.cat ≠ 0
  /-- Headers are aligned. -/
  hi_even : lc.hi % 2 = 0
  hi_lt : lc.hi < if lp64 then 2 ^ 64 else 2 ^ 32

/-- The union, in words of 32 bits after the first. -/
structure Union where
  /-- `lc.cat`, or `array` -/
  first : Nat
  /-- The lower half of `lc.hi`, or `is_array` and `count`. -/
  second : Nat
  /-- `size`; on LP64 also the upper half of `lc.hi`. -/
  third : Nat
  deriving DecidableEq

structure CategoryList where
  u : Union
  /-- The block at `array`. -/
  block : List (Option Locstamped)
  deriving DecidableEq

section Code

variable (lp64 : Bool)

def Union.isArray (u : Union) : Bool := u.second % 2 = 1

/-- `_u.count` -/
def Union.count (u : Union) : Nat := u.second / 2

def Union.lc (u : Union) : Locstamped :=
  ⟨u.first, if lp64 then u.second + 2 ^ 32 * u.third else u.second⟩

def Union.setLc (u : Union) (lc : Locstamped) : Union :=
  ⟨lc.cat, lc.hi % 2 ^ 32, if lp64 then lc.hi / 2 ^ 32 else u.third⟩

/-- The words of an array of 31 bits of count and 32 bits of size. -/
def Union.ofArray (address count size : Nat) : Union :=
  ⟨address, 1 + 2 * (count % 2 ^ 31), size % 2 ^ 32⟩

/-- `sizeof(locstamped_category_t)` -/
def sizeofLocstamped : Nat := if lp64 then 16 else 8

def arrayByteSize (size : Nat) : Nat := sizeofLocstamped lp64 * size % 2 ^ 32

/-- The number of array elements in a block. -/
def elements (bytes : Nat) : Nat := bytes / sizeofLocstamped lp64

def reallocf (block : List (Option Locstamped)) (bytes : Nat) : List (Option Locstamped) :=
  block.take (elements lp64 bytes) ++ List.replicate (elements lp64 bytes - block.length) none

/-- Find last set bit. -/
def fls (n : Nat) : Nat := if n = 0 then 0 else Nat.log 2 n + 1

def growth (size : Nat) : Nat := if size < 8 then 2 else 1 <<< (fls size - 2)

namespace CategoryList

def empty : CategoryList := ⟨⟨0, 0, 0⟩, []⟩

def ofCategory (lc : Locstamped) : CategoryList := ⟨Union.setLc lp64 ⟨0, 0, 0⟩ lc, []⟩

def count (l : CategoryList) : Nat :=
  if l.u.isArray then l.u.count else if l.u.first ≠ 0 then 1 else 0

/-- What is at `array()[0..count())`. -/
def contents (l : CategoryList) : List (Option Locstamped) :=
  if l.u.isArray then l.block.take l.u.count
  else if l.u.first ≠ 0 then [some (l.u.lc lp64)]
  else []

/-- Make room for another element; `address` is where the block is then. -/
def grow (l : CategoryList) (address : Nat) : CategoryList :=
  if l.u.count = l.u.third then
    let size := (l.u.third + growth l.u.third) % 2 ^ 32
    ⟨{ l.u with first := address, third := size },
      reallocf lp64 l.block (arrayByteSize lp64 size)⟩
  else l

/-- `append`; a store outside the block is `none`. -/
def append (l : CategoryList) (lc : Locstamped) (address : Nat) : Option CategoryList :=
  if l.u.isArray then
    let l := l.grow lp64 address
    if l.u.count < l.block.length then
      some ⟨.ofArray l.u.first (l.u.count + 1) l.u.third, l.block.set l.u.count (some lc)⟩
    else none
  else if l.u.first = 0 then some { l with u := l.u.setLc lp64 lc }
  else some ⟨.ofArray address 2 2, [some (l.u.lc lp64), some lc]⟩

/-- `memmove(&array[i], &array[i+1], …)` for the elements after `i`. -/
def shift (l : CategoryList) (i : Nat) : CategoryList :=
  let n := elements lp64 (arrayByteSize lp64 (l.u.count - i - 1))
  { l with block :=
      l.block.take i ++ (l.block.drop (i + 1)).take n ++ l.block.drop (i + n) }

def erase (l : CategoryList) (cat : Nat) : CategoryList :=
  if l.u.isArray then
    match (l.block.take l.u.count).findIdx? (·.any (·.cat = cat)) with
    | some i => l.shift lp64 i
    | none => l
  else if l.u.first = cat then { l with u := l.u.setLc lp64 ⟨0, 0⟩ }
  else l

end CategoryList

/-! ### Operations -/

inductive Op
  | append (lc : { lc : Locstamped // lc.Valid lp64 }) (address : Nat)
  | erase (cat : Nat)

def Op.step (l : CategoryList) : Op lp64 → Option CategoryList
  | .append lc address => l.append lp64 lc.1 address
  | .erase cat => some (l.erase lp64 cat)

def run (ops : List (Op lp64)) (l : CategoryList) : Option CategoryList :=
  ops.foldlM (Op.step lp64) l

/-- What the operation does to an ordered list. -/
def Op.spec (l : List Locstamped) : Op lp64 → List Locstamped
  | .append lc _ => l ++ [lc.1]
  | .erase cat => l.eraseP (·.cat = cat)

/-- From this size on `arrayByteSize` is too large for 32 bits. -/
def sizeLimit : Nat := 2 ^ 32 / sizeofLocstamped lp64

/-- An operation that the list can do: it erases nothing from an array, and the
array does not grow beyond the limit. -/
def Op.Harmless (l : CategoryList) : Op lp64 → Prop
  | .append .. => l.count < 3 * (sizeLimit lp64 / 4)
  | .erase cat => l.u.isArray = true → ∀ lc, some lc ∈ l.contents lp64 → lc.cat ≠ cat

/-- All operations of a run are harmless. -/
def HarmlessRun : List (Op lp64) → CategoryList → Prop
  | [], _ => True
  | op :: ops, l => op.Harmless lp64 l ∧ ∀ l', op.step lp64 l = some l' → HarmlessRun ops l'

end Code

variable {lp64 : Bool}

/-! ### Representation -/

/-- The list in place, or in an array with room for it. -/
inductive Represents (lp64 : Bool) : CategoryList → List Locstamped → Prop
  | nil {u block} : u.first = 0 → u.second % 2 = 0 →
      Represents lp64 ⟨u, block⟩ []
  | single {u block lc} : lc.cat ≠ 0 →
      u.lc lp64 = lc → u.second % 2 = 0 → Represents lp64 ⟨u, block⟩ [lc]
  | array {u block l} :
      u.second = 1 + 2 * l.length → u.third = block.length → block.length < sizeLimit lp64 →
      2 ≤ l.length → block.take l.length = l.map some → Represents lp64 ⟨u, block⟩ l

variable {u : Union}

theorem isArray_eq_false (h : u.second % 2 = 0) : u.isArray = false := by
  exact decide_eq_false (by omega)

theorem isArray_eq_true {n} (h : u.second = 1 + 2 * n) : u.isArray ∧ u.count = n := by
  unfold Union.isArray Union.count
  exact ⟨decide_eq_true (by omega), by omega⟩

variable {l : List Locstamped} {s : CategoryList}

theorem Represents.contents (h : Represents lp64 s l) :
    s.contents lp64 = l.map some ∧ s.count = l.length := by
  unfold CategoryList.contents CategoryList.count
  cases h with
  | nil hfirst hsecond =>
    rw [isArray_eq_false hsecond]
    simp [hfirst]
  | single hcat hlc hsecond =>
    subst hlc
    rw [isArray_eq_false hsecond]
    have hfirst : ‹Union›.first ≠ 0 := hcat
    simp [hfirst]
  | array hsecond hthird hlimit hlen hblock =>
    obtain ⟨htag, hcount⟩ := isArray_eq_true hsecond
    simp only [htag, hcount, if_true]
    exact ⟨hblock, trivial⟩

variable {lc : Locstamped}

theorem lc_setLc (h : lc.Valid lp64) :
    (u.setLc lp64 lc).lc lp64 = lc ∧ (u.setLc lp64 lc).second % 2 = 0 := by
  have heven := h.hi_even
  have hlt := h.hi_lt
  unfold Union.setLc Union.lc
  dsimp only at *
  refine ⟨?_, by omega⟩
  congr 1
  cases lp64
  · exact mod_eq_of_lt hlt
  · simp only [if_true]
    omega

theorem empty_represents (lp64) : Represents lp64 .empty [] := .nil rfl rfl

theorem ofCategory_represents (h : lc.Valid lp64) : Represents lp64 (.ofCategory lp64 lc) [lc] :=
  .single h.cat_ne_zero (lc_setLc h).1 (lc_setLc h).2

/-! ### Growth -/

theorem sizeLimit_eq (lp64) : sizeLimit lp64 = 2 ^ (if lp64 then 28 else 29) := by
  cases lp64 <;> rfl

theorem elements_arrayByteSize {size} (h : size < sizeLimit lp64) :
    elements lp64 (arrayByteSize lp64 size) = size := by
  unfold elements arrayByteSize
  rw [sizeLimit_eq] at h
  cases lp64
  · rw [mod_eq_of_lt (by simp [sizeofLocstamped] at h ⊢; omega)]
    exact Nat.mul_div_cancel_left size (by decide)
  · rw [mod_eq_of_lt (by simp [sizeofLocstamped] at h ⊢; omega)]
    exact Nat.mul_div_cancel_left size (by decide)

theorem growth_of_ge {size} (h : 8 ≤ size) : growth size = 2 ^ (Nat.log 2 size - 1) := by
  unfold growth fls
  rw [if_neg (by omega), if_neg (by omega), one_shiftLeft]
  congr 1

theorem growth_pos (size : Nat) : 0 < growth size := by
  unfold growth
  split
  · decide
  · rw [one_shiftLeft]
    exact Nat.two_pow_pos _

theorem growth_le (size : Nat) : growth size ≤ max 2 size := by
  by_cases h : 8 ≤ size
  · rw [growth_of_ge h]
    calc 2 ^ (Nat.log 2 size - 1) ≤ 2 ^ Nat.log 2 size :=
      Nat.pow_le_pow_right (by decide) (by omega)
      _ ≤ size := pow_log_le_self 2 (by omega)
      _ ≤ max 2 size := le_max_right ..
  · unfold growth
    rw [if_pos (by omega)]
    exact le_max_left ..

theorem add_growth_lt {size} (h : size < 3 * (sizeLimit lp64 / 4)) :
    size + growth size < sizeLimit lp64 := by
  by_cases hbig : 8 ≤ size
  · rw [growth_of_ge hbig]
    rw [sizeLimit_eq] at h ⊢
    have hk : ∀ k, size < 2 ^ k → 2 ^ (Nat.log 2 size - 1) ≤ 2 ^ (k - 2) := by
      intro k hk
      have := Nat.log_lt_of_lt_pow (by omega) hk
      exact Nat.pow_le_pow_right (by decide) (by omega)
    cases lp64
    · have := hk 29 (by simp at h; omega)
      simp at h this ⊢
      omega
    · have := hk 28 (by simp at h; omega)
      simp at h this ⊢
      omega
  · unfold growth
    rw [if_pos (by omega)]
    rw [sizeLimit_eq] at h ⊢
    cases lp64 <;> simp at h ⊢ <;> omega

variable {block : List (Option Locstamped)}

theorem grow_spec (hsecond : u.second = 1 + 2 * l.length) (hthird : u.third = block.length)
    (hlimit : block.length < sizeLimit lp64) (hblock : block.take l.length = l.map some)
    (hroom : l.length = block.length → l.length + growth l.length < sizeLimit lp64)
    (address : Nat) :
    ∃ u' block', CategoryList.grow lp64 ⟨u, block⟩ address = ⟨u', block'⟩ ∧ u'.second = u.second ∧
      u'.third = block'.length ∧ block'.length < sizeLimit lp64 ∧ l.length < block'.length ∧
      block'.take l.length = l.map some := by
  have hcount : u.count = l.length := (isArray_eq_true hsecond).2
  have hle : l.length ≤ block.length := by
    have := congrArg List.length hblock
    rw [length_take, length_map] at this
    omega
  unfold CategoryList.grow
  dsimp only
  split
  next hfull =>
    have hpos := growth_pos u.third
    have hsize : l.length = u.third := hcount ▸ hfull
    have hlt : u.third + growth u.third < sizeLimit lp64 := hsize ▸ hroom (by omega)
    have hlimit32 : sizeLimit lp64 ≤ 2 ^ 32 := by cases lp64 <;> decide
    have hmod : (u.third + growth u.third) % 2 ^ 32 = u.third + growth u.third :=
      mod_eq_of_lt (by omega)
    rw [hmod, reallocf, elements_arrayByteSize hlt]
    refine ⟨_, _, rfl, rfl, ?_, ?_, ?_, ?_⟩
    · rw [length_append, length_take, length_replicate]
      dsimp only
      omega
    · rw [length_append, length_take, length_replicate]
      omega
    · rw [length_append, length_take, length_replicate]
      omega
    · rw [take_of_length_le (show block.length ≤ u.third + growth u.third by omega),
        take_append_of_le_length hle, hblock]
  next hspare => exact ⟨u, block, rfl, rfl, hthird, hlimit, by omega, hblock⟩

theorem Represents.append (h : Represents lp64 s l) (hlc : lc.Valid lp64) (address : Nat)
    (hroom : l.length = s.block.length → l.length + growth l.length < sizeLimit lp64) :
    ∃ s', s.append lp64 lc address = some s' ∧ Represents lp64 s' (l ++ [lc]) := by
  unfold CategoryList.append
  cases h with
  | nil hfirst hsecond =>
    rw [isArray_eq_false hsecond, if_neg (by simp), if_pos hfirst]
    exact ⟨_, rfl, .single hlc.cat_ne_zero (lc_setLc hlc).1 (lc_setLc hlc).2⟩
  | @single u block lc₀ hcat heq hsecond =>
    subst heq
    have hfirst : u.first ≠ 0 := hcat
    rw [isArray_eq_false hsecond, if_neg (by simp), if_neg hfirst]
    have htwo : 2 < sizeLimit lp64 := by cases lp64 <;> decide
    exact ⟨_, rfl, .array rfl rfl htwo (le_refl 2) rfl⟩
  | @array u block l hsecond hthird hlimit hlen hblock =>
    obtain ⟨u', block', heq, hsecond', hthird', hlimit', hlt, hblock'⟩ :=
      grow_spec hsecond hthird hlimit hblock hroom address
    have hcount : u'.count = l.length := (isArray_eq_true (hsecond'.trans hsecond)).2
    rw [(isArray_eq_true hsecond).1, if_pos rfl, heq]
    dsimp only
    rw [hcount, if_pos hlt]
    have hlimit32 : sizeLimit lp64 ≤ 2 ^ 31 := by cases lp64 <;> decide
    refine ⟨_, rfl, .array ?_ ?_ ?_ ?_ ?_⟩
    · change 1 + 2 * ((l.length + 1) % 2 ^ 31) = _
      rw [length_append, length_singleton, mod_eq_of_lt (by omega)]
    · change u'.third % 2 ^ 32 = _
      rw [length_set, mod_eq_of_lt (by omega), hthird']
    · rw [length_set]
      exact hlimit'
    · rw [length_append]
      omega
    · rw [length_append, length_singleton, take_add_one, take_set_of_le
        le_rfl, hblock', getElem?_set_self hlt, map_append]
      rfl

/-- When the size is too large for 32 bits the new element is outside the block. -/
theorem append_overflow {n} (hsecond : u.second = 1 + 2 * n) (hthird : u.third = block.length)
    (hfull : n = block.length) (hlimit : block.length < sizeLimit lp64)
    (hover : sizeLimit lp64 ≤ n + growth n) (lc) (address : Nat) :
    CategoryList.append lp64 ⟨u, block⟩ lc address = none := by
  obtain ⟨htag, hcount⟩ := isArray_eq_true hsecond
  have hgrowth : growth n < sizeLimit lp64 := by
    have htwo : 2 < sizeLimit lp64 := by cases lp64 <;> decide
    have := growth_le n
    omega
  have hlimit32 : sizeLimit lp64 ≤ 2 ^ 31 := by cases lp64 <;> decide
  have hbytes : elements lp64 (arrayByteSize lp64 (n + growth n)) =
      n + growth n - sizeLimit lp64 := by
    have hsub : arrayByteSize lp64 (n + growth n) =
        arrayByteSize lp64 (n + growth n - sizeLimit lp64) := by
      have hperiod : sizeofLocstamped lp64 * sizeLimit lp64 = 2 ^ 32 := by cases lp64 <;> decide
      unfold arrayByteSize
      rw [← add_mod_right (sizeofLocstamped lp64 * (n + growth n - sizeLimit lp64)),
        ← hperiod, ← Nat.mul_add, Nat.sub_add_cancel hover]
    rw [hsub, elements_arrayByteSize (by omega)]
  unfold CategoryList.append
  rw [htag, if_pos rfl]
  have hgrow : CategoryList.grow lp64 ⟨u, block⟩ address =
      ⟨{ u with first := address, third := n + growth n },
        reallocf lp64 block (arrayByteSize lp64 (n + growth n))⟩ := by
    unfold CategoryList.grow
    dsimp only
    rw [if_pos (by omega), hthird, ← hfull, mod_eq_of_lt (by omega)]
  rw [hgrow]
  refine if_neg ?_
  change ¬ u.count < _
  rw [hcount, reallocf, hbytes, length_append, length_take, length_replicate]
  omega

theorem Represents.of_append {s s'} (h : Represents lp64 s l) (hlc : lc.Valid lp64)
    {address} (hs : s.append lp64 lc address = some s') : Represents lp64 s' (l ++ [lc]) := by
  by_cases hroom : l.length = s.block.length → l.length + growth l.length < sizeLimit lp64
  · obtain ⟨s'', hs'', h''⟩ := h.append hlc address hroom
    obtain rfl : s'' = s' := Option.some.inj (hs''.symm.trans hs)
    exact h''
  · obtain ⟨hfull, hover⟩ := Classical.not_imp.1 hroom
    cases h with
    | nil hfirst hsecond =>
      exact absurd (show 0 + growth 0 < sizeLimit lp64 by cases lp64 <;> decide) hover
    | single hcat heq hsecond =>
      exact absurd (show 1 + growth 1 < sizeLimit lp64 by cases lp64 <;> decide) hover
    | array hsecond hthird hlimit hlen hblock =>
      rw [append_overflow hsecond hthird hfull hlimit (by omega)] at hs
      cases hs

theorem length_shift {i} (hi : i < u.count)
    (hcount : u.count ≤ block.length) (hlimit : block.length < sizeLimit lp64) :
    (CategoryList.shift lp64 ⟨u, block⟩ i).block.length = block.length := by
  unfold CategoryList.shift
  dsimp only
  rw [elements_arrayByteSize (by omega)]
  simp only [length_append, length_take, length_drop]
  omega

theorem erase_array (htag : s.u.isArray)
    (hcount : s.u.count ≤ s.block.length) (hlimit : s.block.length < sizeLimit lp64) (cat : Nat) :
    (s.erase lp64 cat).u = s.u ∧ (s.erase lp64 cat).block.length = s.block.length := by
  unfold CategoryList.erase
  rw [htag, if_pos rfl]
  split
  next i hfind =>
    refine ⟨rfl, length_shift ?_ hcount hlimit⟩
    have := (findIdx?_eq_some_iff_getElem.1 hfind).1
    rw [length_take] at this
    omega
  · exact ⟨rfl, rfl⟩

theorem findIdx?_eq_none_of_ne
    (hblock : block.take l.length = l.map some) {cat} (h : ∀ lc ∈ l, lc.cat ≠ cat) :
    (block.take l.length).findIdx? (·.any (·.cat = cat)) = none := by
  rw [hblock, findIdx?_eq_none_iff]
  intro o ho
  obtain ⟨lc, hlc, rfl⟩ := List.mem_map.1 ho
  simpa using h lc hlc

theorem Represents.erase (h : Represents lp64 s l)
    {cat} (hok : s.u.isArray → ∀ lc ∈ l, lc.cat ≠ cat) :
    Represents lp64 (s.erase lp64 cat) (l.eraseP (·.cat = cat)) := by
  unfold CategoryList.erase
  cases h with
  | nil hfirst hsecond =>
    rw [isArray_eq_false hsecond, if_neg (by simp)]
    split
    · exact .nil rfl (by simp [Union.setLc])
    · exact .nil hfirst hsecond
  | @single u block lc₀ hcat heq hsecond =>
    subst heq
    rw [isArray_eq_false hsecond, if_neg (by simp)]
    split
    next hmatch =>
      rw [eraseP_cons_of_pos (by simpa [Union.lc] using hmatch)]
      exact .nil rfl (by simp [Union.setLc])
    next hother =>
      rw [eraseP_cons_of_neg (by simpa [Union.lc] using hother), eraseP_nil]
      exact .single hcat rfl hsecond
  | @array u block l hsecond hthird hlimit hlen hblock =>
    obtain ⟨htag, hcount⟩ := isArray_eq_true hsecond
    have hnone : ∀ lc ∈ l, lc.cat ≠ cat := hok htag
    rw [htag, if_pos rfl, hcount, findIdx?_eq_none_of_ne hblock hnone,
      eraseP_of_forall_not (by simpa using hnone)]
    exact .array hsecond hthird hlimit hlen hblock

theorem Represents.step (h : Represents lp64 s l) {op : Op lp64} (hok : op.Harmless lp64 s) :
    ∃ s', op.step lp64 s = some s' ∧ Represents lp64 s' (op.spec lp64 l) := by
  obtain ⟨hcontents, hcount⟩ := h.contents
  cases op with
  | append lc address => exact h.append lc.2 address fun _ => add_growth_lt (hcount ▸ hok)
  | erase cat =>
    refine ⟨_, rfl, h.erase fun htag lc hlc => hok htag lc ?_⟩
    rw [hcontents]
    exact List.mem_map_of_mem hlc

theorem Represents.run {ops} :
    ∀ {s} {l}, Represents lp64 s l → HarmlessRun lp64 ops s →
      ∃ s', Unattached.run lp64 ops s = some s' ∧
        Represents lp64 s' (ops.foldl (Op.spec lp64) l) := by
  induction ops with
  | nil => exact fun h _ => ⟨_, rfl, h⟩
  | cons op ops ih =>
    intro s l h hok
    obtain ⟨s₁, hstep, h₁⟩ := h.step hok.1
    obtain ⟨s₂, hrun, h₂⟩ := ih h₁ (hok.2 s₁ hstep)
    refine ⟨s₂, ?_, h₂⟩
    unfold Unattached.run at hrun ⊢
    rw [foldlM_cons, hstep]
    exact hrun

/-- A list that starts empty or with one category. -/
def Starts (lp64 : Bool) (s : CategoryList) (l : List Locstamped) : Prop :=
  s = .empty ∧ l = [] ∨ ∃ lc : Locstamped, lc.Valid lp64 ∧ s = .ofCategory lp64 lc ∧ l = [lc]

/-- A run that erases nothing from an array behaves as on an ordered list. -/
theorem categoryList_refines {s : CategoryList} {l : List Locstamped} (hstart : Starts lp64 s l)
    {ops : List (Op lp64)} (hok : HarmlessRun lp64 ops s) :
    ∃ s', run lp64 ops s = some s' ∧
      s'.contents lp64 = (ops.foldl (Op.spec lp64) l).map some ∧
      s'.count = (ops.foldl (Op.spec lp64) l).length := by
  have h : Represents lp64 s l := by
    rcases hstart with ⟨rfl, rfl⟩ | ⟨lc, hlc, rfl, rfl⟩
    · exact empty_represents lp64
    · exact ofCategory_represents hlc
  obtain ⟨s', hrun, h'⟩ := h.run hok
  exact ⟨s', hrun, h'.contents⟩

/-! ### An example -/

/-- Two categories of the image at 16. -/
def catA : { lc : Locstamped // lc.Valid true } := ⟨⟨8, 16⟩, by decide, by decide, by decide⟩

def catB : { lc : Locstamped // lc.Valid true } := ⟨⟨24, 16⟩, by decide, by decide, by decide⟩

def eraseThenAppend : List (Op true) :=
  [.append catA 4096, .erase 8, .append catB 4096, .append catA 4096]

def appendTwoEraseFirst : List (Op true) := [.append catA 4096, .append catB 4096, .erase 8]

theorem eraseThenAppend_harmless : HarmlessRun true eraseThenAppend .empty := by
  refine ⟨show 0 < 3 * (sizeLimit true / 4) by decide, fun l₁ h₁ => ?_⟩
  cases h₁
  refine ⟨fun harray => absurd harray (by decide), fun l₂ h₂ => ?_⟩
  cases h₂
  refine ⟨show 0 < 3 * (sizeLimit true / 4) by decide, fun l₃ h₃ => ?_⟩
  cases h₃
  exact ⟨show 1 < 3 * (sizeLimit true / 4) by decide, fun _ _ => trivial⟩

/-- A category is erased as long as it is the only one. -/
theorem categoryList_refines_erase :
    HarmlessRun true eraseThenAppend .empty ∧
      ∃ s', run true eraseThenAppend .empty = some s' ∧
        s'.contents true = [some catB.1, some catA.1] ∧ s'.count = 2 :=
  ⟨eraseThenAppend_harmless, categoryList_refines (.inl ⟨rfl, rfl⟩) eraseThenAppend_harmless⟩

/-- After both have arrived the first one is erased: the second one is there twice. -/
theorem erase_leaves_count :
    Starts true .empty [] ∧
      (run true appendTwoEraseFirst .empty).map (fun s => (s.contents true, s.count)) =
        some ([some catB.1, some catB.1], 2) ∧
      appendTwoEraseFirst.foldl (Op.spec true) [] = [catB.1] :=
  ⟨.inl ⟨rfl, rfl⟩, by decide, by decide⟩

end ObjcRuntime.Classes.Unattached
