import ObjcRuntime.Lists.ListArray

/-!
# ObjcRuntime.Lists.Iterate

Iterating a `list_array_tt` visits the elements of its lists.

The iterator has a position among the lists and a position in the list. It does not look
for the next list that has an element: an empty list is entered, and dereferencing reads
past its end. If all lists have elements and the 32-bit counts do not overflow, the
elements of the attached lists are visited in order, and `count` is their number
(`iterates_attached_iff`).
-/

namespace ObjcRuntime.Lists

open List Option

variable {α : Type} (elems : Nat → List α)

/-! ### The lists -/

/-- `beginLists()[i]` -/
def slot (h : Heap) (la : ListArray) (i : Nat) : Option Nat :=
  match la with
  | .nil => none
  | .list l => if i = 0 then some l else none
  | .array a => do
      let b ← h.block a
      let l ← b.lists[i]?
      l

/-- `endLists() - beginLists()` -/
def countLists (h : Heap) (la : ListArray) : Option Nat :=
  match la with
  | .nil => some 0
  | .list _ => some 1
  | .array a => (h.block a).map fun b => b.count.toNat

/-- The loop of `count`. -/
def countLoop (h : Heap) (la : ListArray) : Nat → Nat → BitVec 32 → Option (BitVec 32)
  | 0, _, result => some result
  | n + 1, i, result => do
      let l ← slot h la i
      countLoop h la n (i + 1) (result + BitVec.ofNat 32 (elems l).length)

def count (h : Heap) (la : ListArray) : Option (BitVec 32) := do
  let n ← countLists h la
  countLoop elems h la n 0 0

/-! ### The iterator -/

/-- An element of a list, by the list and the index. -/
abbrev Cursor := Nat × Nat

/-- `list_array_tt::iterator`; `m` and `mEnd` may be undefined. -/
structure Iterator where
  lists : Nat
  listsEnd : Nat
  m : Option Cursor
  mEnd : Option Cursor
  deriving DecidableEq

namespace Iterator

/-- Enter the list at a position. -/
def enter (h : Heap) (la : ListArray) (lists listsEnd : Nat) : Option Iterator := do
  let l ← slot h la lists
  some ⟨lists, listsEnd, some (l, 0), some (l, (elems l).length)⟩

/-- The constructor. -/
def make (h : Heap) (la : ListArray) (first last : Nat) : Option Iterator :=
  if first ≠ last then enter elems h la first last else some ⟨first, last, none, none⟩

/-- `operator *`. There is nothing past the end of a list. -/
def deref (it : Iterator) : Option α := do
  let m ← it.m
  (elems m.1)[m.2]?

/-- `operator !=` -/
def ne (it rhs : Iterator) : Bool :=
  if it.lists ≠ rhs.lists then true
  else if it.lists = it.listsEnd then false
  else it.m ≠ rhs.m

/-- `m++` -/
def bump (it : Iterator) : Iterator := { it with m := it.m.map fun m => (m.1, m.2 + 1) }

/-- `operator ++` -/
def next (h : Heap) (la : ListArray) (it : Iterator) : Option Iterator :=
  if it.bump.m = it.bump.mEnd then
    if it.lists + 1 ≠ it.listsEnd then enter elems h la (it.lists + 1) it.listsEnd
    else some { it.bump with lists := it.lists + 1 }
  else some it.bump

end Iterator

/-- `begin()` -/
def first (h : Heap) (la : ListArray) : Option Iterator := do
  let n ← countLists h la
  Iterator.make elems h la 0 n

/-- `end()` -/
def last (h : Heap) (la : ListArray) : Option Iterator := do
  let n ← countLists h la
  Iterator.make elems h la n n

/-- `for (auto& element : array)`, with a bound on the rounds. -/
def iterate (h : Heap) (la : ListArray) : Nat → Iterator → Iterator → Option (List α)
  | 0, it, stop => if it.ne stop then none else some []
  | fuel + 1, it, stop =>
    if it.ne stop then do
      let x ← it.deref elems
      let it ← it.next elems h la
      let rest ← iterate h la fuel it stop
      some (x :: rest)
    else some []

/-- The loop ends after it has visited the elements, and `count` is their number. -/
structure Iterates (h : Heap) (la : ListArray) (xs : List α) : Prop where
  visits : ∃ it stop fuel, first elems h la = some it ∧ last elems h la = some stop ∧
    iterate elems h la fuel it stop = some xs
  count : ∃ n, count elems h la = some n ∧ n.toNat = xs.length

/-! ### Calls -/

/-- The lists that a call of `attachLists` adds; their number is a `uint32_t`. -/
abbrev Call := { added : List Nat // added.length < 2 ^ 32 }

def attachAll : Heap → ListArray → List Call → Option (Heap × ListArray)
  | h, la, [] => some (h, la)
  | h, la, call :: rest => do
      let r ← attachLists h la call.1
      attachAll r.1 r.2 rest

/-- The lists of all calls, the last call first. -/
def attached : List Call → List Nat
  | [] => []
  | call :: rest => attached rest ++ call.1

/-- The loops of `attachLists` and the sum of the counts stay in range. -/
structure InRange (calls : List Call) : Prop where
  elements : ((attached calls).flatMap elems).length < 2 ^ 32
  rounds : ∀ pre call post, calls = pre ++ call :: post → call.1 ≠ [] →
    (attached pre).length ≤ 2 ^ 31

variable {elems} {h h' : Heap} {la la' : ListArray} {ss : List (Option Nat)}

/-! ### Reading the slots -/

theorem Slots.slot_eq (hs : Slots h la ss) (i : Nat) : slot h la i = (ss[i]?).join := by
  cases hs with
  | nil => rfl
  | list l =>
    cases i with
    | zero | succ => rfl
  | array hblock hcount =>
    simp only [slot, hblock, bind_eq_bind, bind_some]
    rfl

theorem Slots.countLists_eq (hs : Slots h la ss) : countLists h la = some ss.length := by
  cases hs with
  | nil | list => rfl
  | array hblock hcount => rw [countLists, hblock, map_some, hcount]

/-- The elements behind the slots. -/
def elements (elems : Nat → List α) (ss : List (Option Nat)) : List α :=
  ss.flatMap fun s => s.elim [] elems

theorem elements_map_some (ps : List Nat) : elements elems (ps.map some) = ps.flatMap elems := by
  unfold elements
  rw [flatMap_map]
  rfl

/-- Every slot points to a list that has an element. -/
def Readable (elems : Nat → List α) (ss : List (Option Nat)) : Prop :=
  ∀ s ∈ ss, ∃ l, s = some l ∧ elems l ≠ []

theorem countLoop_eq (hs : Slots h la ss) {n i} (hn : i + n = ss.length)
    (hread : ∀ s ∈ ss, s ≠ none) (result) :
    countLoop elems h la n i result =
      some (result + BitVec.ofNat 32 (elements elems (ss.drop i)).length) := by
  induction n generalizing i result with
  | zero =>
    rw [drop_eq_nil_of_le (le_of_eq (id hn.symm : ss.length = i))]
    simp [countLoop, elements]
  | succ n ih =>
    have hi : i < ss.length := by omega
    obtain ⟨l, hl⟩ := ne_none_iff_exists'.1 (hread _ (getElem_mem hi))
    have hslot : slot h la i = some l := by
      rw [hs.slot_eq, getElem?_eq_getElem hi, hl]
      rfl
    rw [countLoop, hslot, bind_eq_bind, bind_some, ih (by omega), drop_eq_getElem_cons hi, hl]
    simp [elements, BitVec.add_assoc, BitVec.ofNat_add]

theorem count_eq (hs : Slots h la ss) (hread : ∀ s ∈ ss, s ≠ none) :
    count elems h la = some (BitVec.ofNat 32 (elements elems ss).length) := by
  rw [count, hs.countLists_eq, bind_eq_bind, bind_some, countLoop_eq hs (zero_add _) hread]
  simp

/-! ### The loop -/

/-- The iterator in the list `l`, which is at position `k` of `n`. -/
def Iterator.inside (elems : Nat → List α) (n k l i : Nat) : Iterator :=
  ⟨k, n, some (l, i), some (l, (elems l).length)⟩

/-- The iterator behind the last list; its cursor does not matter. -/
structure Iterator.Over (n : Nat) (it : Iterator) : Prop where
  lists : it.lists = n
  listsEnd : it.listsEnd = n

def Iterator.stop (n : Nat) : Iterator := ⟨n, n, none, none⟩

theorem Slots.first_eq (hs : Slots h la ss) (hne : ss ≠ []) :
    first elems h la =
      (ss[0]?).join.map fun l => Iterator.inside elems ss.length 0 l 0 := by
  have hpos : 0 ≠ ss.length := fun hzero => hne (length_eq_zero_iff.1 hzero.symm)
  rw [first, hs.countLists_eq, bind_eq_bind, bind_some, Iterator.make, if_pos hpos,
    Iterator.enter, hs.slot_eq]
  cases (ss[0]?).join <;> rfl

theorem Slots.last_eq (hs : Slots h la ss) : last elems h la = some (Iterator.stop ss.length) := by
  rw [last, hs.countLists_eq, bind_eq_bind, bind_some, Iterator.make, if_neg (by simp)]
  rfl

theorem Iterator.Over.ne {n} {it : Iterator} (ho : it.Over n) : it.ne (.stop n) = false := by
  simp [Iterator.ne, Iterator.stop, ho.lists, ho.listsEnd]

theorem Iterator.ne_inside {n k l i} (hk : k < n) : (Iterator.inside elems n k l i).ne (.stop n) :=
  if_pos (ne_of_lt hk)

theorem iterate_over {n it} (ho : it.Over n) (fuel : Nat) :
    iterate elems h la fuel it (.stop n) = some [] := by
  cases fuel with
  | zero | succ fuel => rw [iterate, ho.ne]; rfl

theorem Iterator.next_inside {n k l i} (hi : i + 1 ≠ (elems l).length) :
    (Iterator.inside elems n k l i).next elems h la = some (.inside elems n k l (i + 1)) := by
  rw [Iterator.next, if_neg]
  · rfl
  · simpa [Iterator.bump, Iterator.inside] using hi

/-- It leaves the list, for the next one if there is one. -/
theorem Slots.next_leaving (hs : Slots h la ss) {k l i} (hi : i + 1 = (elems l).length)
    (hk : k + 1 ≠ ss.length) :
    (Iterator.inside elems ss.length k l i).next elems h la =
      (ss[k + 1]?).join.map fun l => .inside elems ss.length (k + 1) l 0 := by
  have hm : (Iterator.inside elems ss.length k l i).bump.m =
      (Iterator.inside elems ss.length k l i).bump.mEnd := by
    simpa [Iterator.bump, Iterator.inside] using hi
  rw [Iterator.next, if_pos hm, ← hs.slot_eq]
  refine (if_pos hk).trans ?_
  change Iterator.enter elems h la (k + 1) ss.length = _
  rw [Iterator.enter]
  cases slot h la (k + 1) <;> rfl

theorem Iterator.next_last {n k l i} (hi : i + 1 = (elems l).length) (hk : k + 1 = n) :
    ∃ it, (Iterator.inside elems n k l i).next elems h la = some it ∧ it.Over n := by
  have hm : (Iterator.inside elems n k l i).bump.m = (Iterator.inside elems n k l i).bump.mEnd := by
    simpa [Iterator.bump, Iterator.inside] using hi
  rw [Iterator.next, if_pos hm]
  exact ⟨_, if_neg (not_not.2 hk), hk, rfl⟩

theorem iterate_round {n fuel k l i it} (hk : k < n) (hi : i < (elems l).length)
    (hnext : (Iterator.inside elems n k l i).next elems h la = some it) :
    iterate elems h la (fuel + 1) (.inside elems n k l i) (.stop n) =
      (iterate elems h la fuel it (.stop n)).map ((elems l)[i] :: ·) := by
  have hderef : (Iterator.inside elems n k l i).deref elems = some (elems l)[i] :=
    getElem?_eq_getElem hi
  rw [iterate, Iterator.ne_inside hk, if_pos rfl, hderef, hnext]
  simp only [bind_eq_bind, bind_some]
  cases iterate elems h la fuel it (.stop n) <;> rfl

/-- **The loop**: from the element `i` of the list at `k`, exactly the elements from there on
are visited, if the iterator does not come to an empty list. -/
theorem iterate_eq (hs : Slots h la ss) {fuel k l i} (hk : k < ss.length)
    (hi : i < (elems l).length) (hread : Readable elems (ss.drop (k + 1)))
    (hfuel : ((elems l).drop i ++ elements elems (ss.drop (k + 1))).length ≤ fuel) :
    iterate elems h la fuel (.inside elems ss.length k l i) (.stop ss.length) =
      some ((elems l).drop i ++ elements elems (ss.drop (k + 1))) := by
  induction fuel generalizing k l i with
  | zero =>
    rw [drop_eq_getElem_cons hi] at hfuel
    cases hfuel
  | succ fuel ih =>
    rw [drop_eq_getElem_cons hi, cons_append] at hfuel ⊢
    have hfuel := Nat.le_of_succ_le_succ hfuel
    by_cases hend : i + 1 = (elems l).length
    · have hnil : (elems l).drop (i + 1) = [] := drop_eq_nil_of_le (le_of_eq hend.symm)
      rw [hnil, nil_append] at hfuel ⊢
      by_cases hlast : k + 1 = ss.length
      · obtain ⟨it, hnext, hover⟩ : ∃ it,
            (Iterator.inside elems ss.length k l i).next elems h la = some it ∧
              it.Over ss.length := Iterator.next_last hend hlast
        rw [iterate_round hk hi hnext, iterate_over hover, drop_eq_nil_of_le (le_of_eq hlast.symm)]
        rfl
      · have hk' : k + 1 < ss.length := by omega
        rw [drop_eq_getElem_cons hk'] at hread hfuel ⊢
        obtain ⟨l', hl', hne⟩ := hread _ mem_cons_self
        have hnext := hs.next_leaving hend hlast
        rw [getElem?_eq_getElem hk', hl'] at hnext
        rw [hl'] at hfuel ⊢
        rw [iterate_round hk hi hnext, ih hk' (length_pos_iff.2 hne)
          (fun s hmem => hread s (mem_cons_of_mem _ hmem)) hfuel]
        rfl
    · rw [iterate_round hk hi (Iterator.next_inside hend), ih hk (by omega) hread hfuel]
      rfl

theorem iterate_mono {fuel fuel' it stop xs}
    (hloop : iterate elems h la fuel it stop = some xs) (hle : fuel ≤ fuel') :
    iterate elems h la fuel' it stop = some xs := by
  induction fuel generalizing fuel' it xs with
  | zero =>
    rw [iterate] at hloop
    split at hloop
    · cases hloop
    next hne =>
      cases fuel' with
      | zero | succ fuel' => rw [iterate, if_neg hne, ← hloop]
  | succ fuel ih =>
    cases fuel' with
    | zero => cases hle
    | succ fuel' =>
      rw [iterate] at hloop ⊢
      split at hloop
      next hne =>
        obtain ⟨x, hx, hloop⟩ := bind_eq_some_iff.1 hloop
        obtain ⟨it', hit', hloop⟩ := bind_eq_some_iff.1 hloop
        obtain ⟨rest, hrest, hloop⟩ := bind_eq_some_iff.1 hloop
        rw [if_pos hne, hx, bind_eq_bind, bind_some, hit', bind_eq_bind,
          bind_some, ih hrest (Nat.le_of_succ_le_succ hle)]
        exact hloop
      next hne => rw [if_neg hne, ← hloop]

/-- If the loop ends, the iterator came to no empty list, and to no slot without a list. -/
theorem readable_of_iterate (hs : Slots h la ss) {fuel k l i xs} (hk : k < ss.length)
    (hloop : iterate elems h la fuel (.inside elems ss.length k l i) (.stop ss.length) = some xs) :
    i < (elems l).length ∧ Readable elems (ss.drop (k + 1)) := by
  induction fuel generalizing k l i xs with
  | zero =>
    rw [iterate, Iterator.ne_inside hk] at hloop
    cases hloop
  | succ fuel ih =>
    have hi : i < (elems l).length := by
      rw [iterate, Iterator.ne_inside hk, if_pos rfl] at hloop
      obtain ⟨x, hx, -⟩ := bind_eq_some_iff.1 hloop
      exact (List.getElem?_eq_some_iff.1 hx).1
    refine ⟨hi, ?_⟩
    by_cases hend : i + 1 = (elems l).length
    · by_cases hlast : k + 1 = ss.length
      · rw [drop_eq_nil_of_le (le_of_eq hlast.symm)]
        exact nofun
      · have hk' : k + 1 < ss.length := by omega
        have hnext := hs.next_leaving hend hlast
        rw [getElem?_eq_getElem hk'] at hnext
        cases hslot : ss[k + 1] with
        | none =>
          rw [hslot] at hnext
          rw [iterate, Iterator.ne_inside hk, if_pos rfl, hnext] at hloop
          obtain ⟨x, -, hloop⟩ := bind_eq_some_iff.1 hloop
          cases hloop
        | some l' =>
          rw [hslot] at hnext
          rw [iterate_round hk hi hnext] at hloop
          obtain ⟨rest, hrest, -⟩ := map_eq_some_iff.1 hloop
          obtain ⟨hpos, hread⟩ := ih hk' hrest
          rw [drop_eq_getElem_cons hk', hslot]
          exact forall_mem_cons.2 ⟨⟨l', rfl, length_pos_iff.1 hpos⟩, hread⟩
    · rw [iterate_round hk hi (Iterator.next_inside hend)] at hloop
      obtain ⟨rest, hrest, -⟩ := map_eq_some_iff.1 hloop
      exact (ih hk hrest).2

theorem visits_iff (hs : Slots h la ss) (xs) :
    (∃ it stop fuel, first elems h la = some it ∧ last elems h la = some stop ∧
      iterate elems h la fuel it stop = some xs) ↔
      Readable elems ss ∧ xs = elements elems ss := by
  cases hss : ss with
  | nil =>
    subst hss
    have hover : Iterator.Over 0 (.stop 0) := ⟨rfl, rfl⟩
    have hfirst : first elems h la = some (.stop 0) := by
      rw [first, hs.countLists_eq]
      rfl
    constructor
    · rintro ⟨it, stop, fuel, hit, hstop, hloop⟩
      rw [hfirst] at hit
      rw [hs.last_eq] at hstop
      cases hit
      cases hstop
      rw [length_nil, iterate_over hover] at hloop
      cases hloop
      exact ⟨forall_mem_nil _, rfl⟩
    · rintro ⟨-, rfl⟩
      exact ⟨_, _, 0, hfirst, hs.last_eq, iterate_over hover 0⟩
  | cons s rest =>
    rw [← hss]
    have hpos : 0 < ss.length := by rw [hss]; exact Nat.succ_pos _
    have hsplit : ss = s :: ss.drop (0 + 1) := by rw [hss]; rfl
    have hfirst : first elems h la = s.map fun l => Iterator.inside elems ss.length 0 l 0 := by
      rw [hs.first_eq (by rw [hss]; exact cons_ne_nil _ _), hss]
      rfl
    constructor
    · rintro ⟨it, stop, fuel, hit, hstop, hloop⟩
      rw [hfirst] at hit
      rw [hs.last_eq] at hstop
      cases hstop
      obtain ⟨l, rfl, rfl⟩ := map_eq_some_iff.1 hit
      obtain ⟨hi, hread⟩ := readable_of_iterate hs hpos hloop
      have hmore := iterate_eq hs hpos hi hread (Nat.le_add_left _ fuel)
      rw [iterate_mono hloop (Nat.le_add_right _ _)] at hmore
      have hxs : elements elems ss =
          (elems l).drop 0 ++ elements elems (ss.drop (0 + 1)) := congrArg (elements elems) hsplit
      refine ⟨?_, (some.inj hmore).trans hxs.symm⟩
      rw [hsplit]
      exact forall_mem_cons.2 ⟨⟨l, rfl, length_pos_iff.1 hi⟩, hread⟩
    · rintro ⟨hread, rfl⟩
      rw [hsplit] at hread
      obtain ⟨⟨l, rfl, hne⟩, hrest⟩ := forall_mem_cons.1 hread
      have hloop := iterate_eq hs hpos (length_pos_iff.2 hne) hrest le_rfl
      have hxs : elements elems ss =
          (elems l).drop 0 ++ elements elems (ss.drop (0 + 1)) := congrArg (elements elems) hsplit
      exact ⟨_, _, _, hfirst, hs.last_eq, hloop.trans (congrArg some hxs.symm)⟩

theorem iterates_iff (hs : Slots h la ss) (xs) :
    Iterates elems h la xs ↔
      Readable elems ss ∧ xs = elements elems ss ∧ xs.length < 2 ^ 32 := by
  have hcounts : Readable elems ss →
      count elems h la = some (BitVec.ofNat 32 (elements elems ss).length) :=
    fun hread => count_eq hs fun s hmem hnone => by
      obtain ⟨l, hl, -⟩ := hread s hmem
      exact absurd hl (hnone ▸ nofun)
  constructor
  · rintro ⟨hvisits, n, hn, hlength⟩
    obtain ⟨hread, hxs⟩ := (visits_iff hs xs).1 hvisits
    exact ⟨hread, hxs, hlength ▸ n.isLt⟩
  · rintro ⟨hread, rfl, hlt⟩
    refine ⟨(visits_iff hs _).2 ⟨hread, rfl⟩, _, hcounts hread, ?_⟩
    rw [BitVec.toNat_ofNat, Nat.mod_eq_of_lt hlt]

/-! ### Runs -/

/-- What a run does with the slots. -/
def attachAllSlots : List (Option Nat) → List Call → Option (List (Option Nat))
  | ss, [] => some ss
  | ss, call :: rest => do
      let ss ← attachSlots ss call.1
      attachAllSlots ss rest

theorem attachAll_spec (hs : Slots h la ss) (calls) :
    (attachAllSlots ss calls = none ∧ attachAll h la calls = none) ∨
      ∃ new h' la', attachAllSlots ss calls = some new ∧ attachAll h la calls = some (h', la') ∧
        Slots h' la' new := by
  induction calls generalizing h la ss with
  | nil => exact .inr ⟨ss, h, la, rfl, rfl, hs⟩
  | cons call rest ih =>
    rw [attachAllSlots, attachAll]
    rcases attachLists_spec hs call.2 with ⟨hnone, hnone'⟩ | ⟨new, h', la', hnew, hcall, hs', -⟩
    · rw [hnone, hnone']
      exact .inl ⟨rfl, rfl⟩
    · rw [hnew, hcall]
      exact ih hs'

theorem attachAllSlots_eq {ps calls} (htotal : (attached calls ++ ps).length < 2 ^ 32)
    (hrounds : ∀ pre call post, calls = pre ++ call :: post → call.1 ≠ [] →
      (attached pre ++ ps).length ≤ 2 ^ 31) :
    attachAllSlots (ps.map some) calls = some ((attached calls ++ ps).map some) := by
  induction calls generalizing ps with
  | nil => rfl
  | cons call rest ih =>
    have hcall : attachSlots (ps.map some) call.1 = some ((call.1 ++ ps).map some) := by
      unfold attachSlots
      by_cases hnil : call.1 = []
      · rw [if_pos hnil, hnil, nil_append]
      · have hold : ps.length ≤ 2 ^ 31 := hrounds [] call rest rfl hnil
        have hlength : (attached rest ++ call.1 ++ ps).length < 2 ^ 32 := htotal
        simp only [length_append] at hlength
        rw [if_neg hnil, if_pos (by rw [length_map]; omega),
          if_pos (by rwa [length_map]), map_append]
    rw [attachAllSlots, hcall, bind_eq_bind, bind_some,
      ih (by rw [← append_assoc]; exact htotal) fun pre call' post hsplit hne => ?_,
      attached, append_assoc]
    have := hrounds (call :: pre) call' post (by rw [hsplit]; rfl) hne
    rwa [attached, append_assoc] at this

/-- Conversely, if all slots point to lists, the loop over the old lists never skipped them. -/
theorem rounds_of_attachAllSlots {ss new calls}
    (hrun : attachAllSlots ss calls = some new) (hread : ∀ s ∈ new, s ≠ none) :
    new = (attached calls).map some ++ ss ∧
      ∀ pre call post, calls = pre ++ call :: post → call.1 ≠ [] →
        (attached pre).length + ss.length ≤ 2 ^ 31 := by
  induction calls generalizing ss with
  | nil =>
    cases hrun
    refine ⟨rfl, fun pre call post hsplit => ?_⟩
    cases pre <;> cases hsplit
  | cons call rest ih =>
    obtain ⟨mid, hmid, hrun⟩ := bind_eq_some_iff.1 hrun
    obtain ⟨hnew, hrounds⟩ := ih hrun
    obtain ⟨hcall, hold⟩ : mid = call.1.map some ++ ss ∧ (call.1 ≠ [] → ss.length ≤ 2 ^ 31) := by
      unfold attachSlots at hmid
      split at hmid
      next hnil =>
        cases hmid
        rw [hnil]
        exact ⟨rfl, fun hne => absurd rfl hne⟩
      · split at hmid
        next hnil hfits =>
          by_cases hint : ss.length ≤ 2 ^ 31
          · rw [if_pos hint] at hmid
            exact ⟨(some.inj hmid).symm, fun _ => hint⟩
          · -- the slots of the old lists were left as they are
            rw [if_neg hint] at hmid
            have hmem : none ∈ new := by
              rw [hnew, ← some.inj hmid]
              refine mem_append_right _ (mem_append_right _ ?_)
              exact mem_replicate.2 ⟨by omega, rfl⟩
            exact absurd rfl (hread none hmem)
        · cases hmid
    subst hcall
    refine ⟨by rw [hnew, attached, map_append, append_assoc], fun pre call' post hsplit hne => ?_⟩
    cases pre with
    | nil =>
      cases hsplit
      simpa [attached] using hold hne
    | cons call₀ pre =>
      cases hsplit
      have hlength := hrounds pre call' post rfl hne
      rw [attached, length_append]
      rw [length_append, length_map] at hlength
      omega

theorem mem_attached {calls l} : l ∈ attached calls ↔ ∃ call ∈ calls, l ∈ call.1 := by
  induction calls with
  | nil => simp [attached]
  | cons call rest ih =>
    simp only [attached, mem_append, ih, mem_cons, exists_eq_or_imp]
    exact or_comm

theorem length_le_flatMap {ps : List Nat} (hne : ∀ l ∈ ps, elems l ≠ []) :
    ps.length ≤ (ps.flatMap elems).length := by
  induction ps with
  | nil => exact Nat.zero_le _
  | cons l rest ih =>
    obtain ⟨hl, hrest⟩ := forall_mem_cons.1 hne
    have hpos := length_pos_iff.2 hl
    have hle := ih hrest
    rw [flatMap_cons, length_append, length_cons]
    omega

/-- **Iteration**: the array visits exactly the elements of the attached lists, and counts
them, if and only if no list is empty and the counts stay in range. -/
theorem iterates_attached_iff (elems : Nat → List α) (h : Heap) (calls : List Call) :
    (∃ h' la', attachAll h .nil calls = some (h', la') ∧
      Iterates elems h' la' ((attached calls).flatMap elems)) ↔
      (∀ call ∈ calls, ∀ l ∈ call.1, elems l ≠ []) ∧ InRange elems calls := by
  have hspec := attachAll_spec (Slots.nil (h := h)) calls
  constructor
  · rintro ⟨h', la', hrun, hiter⟩
    rcases hspec with ⟨-, hnone⟩ | ⟨new, h₁, la₁, hslots, hrun', hs⟩
    · rw [hnone] at hrun
      cases hrun
    · rw [hrun'] at hrun
      cases hrun
      obtain ⟨hread, -, hlt⟩ := (iterates_iff hs _).1 hiter
      have hsome : ∀ s ∈ new, s ≠ none := fun s hmem hnone => by
        obtain ⟨l, hl, -⟩ := hread s hmem
        exact absurd hl (hnone ▸ nofun)
      obtain ⟨rfl, hrounds⟩ := rounds_of_attachAllSlots hslots hsome
      refine ⟨fun call hcall l hl => ?_, hlt, hrounds⟩
      have hmem : some l ∈ (attached calls).map some ++ [] := by
        rw [append_nil]
        exact List.mem_map_of_mem (mem_attached.2 ⟨call, hcall, hl⟩)
      obtain ⟨l', hl', hne⟩ := hread _ hmem
      cases hl'
      exact hne
  · rintro ⟨hne, hlt, hrounds⟩
    have hne' : ∀ l ∈ attached calls, elems l ≠ [] := fun l hl => by
      obtain ⟨call, hcall, hmem⟩ := mem_attached.1 hl
      exact hne call hcall l hmem
    have hslots : attachAllSlots [] calls = some ((attached calls).map some) := by
      have hrun : attachAllSlots (([] : List Nat).map some) calls =
          some ((attached calls ++ []).map some) := attachAllSlots_eq
        (by rw [append_nil]; exact Nat.lt_of_le_of_lt (length_le_flatMap hne') hlt)
        (fun pre call post hsplit hcall => by
          rw [append_nil]
          exact hrounds pre call post hsplit hcall)
      rwa [append_nil] at hrun
    rcases hspec with ⟨hnone, -⟩ | ⟨new, h', la', hslots', hrun, hs⟩
    · rw [hnone] at hslots
      cases hslots
    · rw [hslots] at hslots'
      cases hslots'
      refine ⟨h', la', hrun, (iterates_iff hs _).2 ⟨?_, (elements_map_some _).symm, hlt⟩⟩
      intro s hs
      obtain ⟨l, hl, rfl⟩ := List.mem_map.1 hs
      exact ⟨l, rfl, hne' l hl⟩

/-- A list without elements is attached: the loop is entered, and it reads past the end of
the list. -/
theorem iterate_empty_list :
    attachAll .empty .nil [⟨[7], by decide⟩] = some (.empty, .list 7) ∧
      first (fun _ => ([] : List Nat)) .empty (.list 7) = some ⟨0, 1, some (7, 0), some (7, 0)⟩ ∧
      last (fun _ => ([] : List Nat)) .empty (.list 7) = some ⟨1, 1, none, none⟩ ∧
      Iterator.ne ⟨0, 1, some (7, 0), some (7, 0)⟩ ⟨1, 1, none, none⟩ = true ∧
      Iterator.deref (fun _ => ([] : List Nat)) ⟨0, 1, some (7, 0), some (7, 0)⟩ = none ∧
      ¬Iterates (fun _ => ([] : List Nat)) .empty (.list 7) [] := by
  refine ⟨rfl, rfl, rfl, rfl, rfl, fun hiter => ?_⟩
  obtain ⟨hread, -⟩ := (iterates_iff (.list 7) _).1 hiter
  obtain ⟨l, -, hne⟩ := hread (some 7) (mem_singleton_self _)
  exact hne rfl

end ObjcRuntime.Lists
