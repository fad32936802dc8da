import ObjcRuntime.Lib.BinarySearch
import Mathlib.Data.List.Sort

/-!
# ObjcRuntime.MethodList

`method_list_t`: an array of methods with a mark that says how it may be
searched. A list that is marked as fixed up is taken to be sorted by selector
address and is searched by bisection; any other list is searched from its start.

Selectors are their addresses. A list is `fixUp`-ed when it is sorted and gets the
mark; nothing in the type says that a marked list is sorted (`SearchOk` does).
-/

namespace ObjcRuntime

open Lib

/-- `method_t`, in either representation. -/
structure MethodEntry (Imp : Type) where
  name : Nat
  types : String
  imp : Imp
  deriving DecidableEq

structure MethodList (Imp : Type) where
  isSmallList : Bool
  /-- `entsize()` is the size of the list's kind of entry. -/
  isExpectedSize : Bool
  isFixedUp : Bool
  methods : List (MethodEntry Imp)
  deriving DecidableEq

namespace MethodList

variable {Imp : Type}

/-- `search_method_list` -/
def search (mlist : MethodList Imp) (sel : Nat) : Option (MethodEntry Imp) :=
  if mlist.isFixedUp && mlist.isExpectedSize then binarySearch MethodEntry.name sel mlist.methods
  else mlist.methods.find? fun m => m.name = sel

/-- `findMethodInSortedMethodList` -/
def findMethodInSortedMethodList (mlist : MethodList Imp) (sel : Nat) : Option (MethodEntry Imp) :=
  binarySearch MethodEntry.name sel mlist.methods

/-- `fixupMethodList`, after the selectors have been made unique. -/
def fixUp (mlist : MethodList Imp) (sort : Bool) : MethodList Imp :=
  let methods :=
    if sort && !mlist.isSmallList && mlist.isExpectedSize then
      mlist.methods.mergeSort fun a b => a.name ≤ b.name
    else mlist.methods
  -- small lists are immutable
  { mlist with methods, isFixedUp := mlist.isFixedUp || !mlist.isSmallList }

/-- The names of the methods as selectors, unless they have been made unique before. `register`
is `sel_registerNameNoLock` of the text of a name. -/
def uniqueSelectors (mlist : MethodList Imp) (register : Nat → Nat) (isUniqued : Bool) :
    MethodList Imp :=
  if isUniqued then mlist
  else { mlist with methods := mlist.methods.map fun m => { m with name := register m.name } }

/-- `fixupMethodList` -/
def fixupMethodList (mlist : MethodList Imp) (register : Nat → Nat) (isUniqued sort : Bool) :
    MethodList Imp :=
  (mlist.uniqueSelectors register isUniqued).fixUp sort

/-- A list that is searched by bisection is sorted. -/
def SearchOk (mlist : MethodList Imp) : Prop :=
  mlist.isFixedUp = true → mlist.isExpectedSize = true → SortedBy MethodEntry.name mlist.methods

theorem SearchOk.search_eq_find? {mlist : MethodList Imp} (h : mlist.SearchOk) (sel : Nat) :
    mlist.search sel = mlist.methods.find? fun m => m.name = sel := by
  unfold search
  split
  next hmarks =>
    obtain ⟨hfixed, hsize⟩ := (Bool.and_eq_true _ _).mp hmarks
    exact (h hfixed hsize).binarySearch_eq_find?
  · rfl

theorem name_of_search {mlist : MethodList Imp} {sel} {m : MethodEntry Imp}
    (h : mlist.search sel = some m) : m ∈ mlist.methods ∧ m.name = sel := by
  unfold search at h
  split at h
  · exact name_of_binarySearch h
  · exact ⟨List.mem_of_find?_eq_some h, by simpa using List.find?_some h⟩

/-- The lists that are not sorted are not searched by bisection either. -/
theorem search_fixUp {mlist : MethodList Imp} (h : mlist.isFixedUp = false) (sel) :
    (mlist.fixUp true).search sel = mlist.methods.find? fun m => m.name = sel := by
  unfold search fixUp
  cases hsmall : mlist.isSmallList with
  | true => simp [h]
  | false =>
    cases hsize : mlist.isExpectedSize with
    | true =>
      simp only [h, Bool.not_false, Bool.and_self, Bool.or_true, if_true]
      exact (sortedBy_mergeSort mlist.methods).binarySearch_eq_find?.trans (find?_mergeSort _)
    | false => simp

/-- **Sorted method search is first-match search.** On a sorted list the bisection finds
the first method with the selector. A list of any format that `fixupMethodList` has
prepared is searched for the method that came first before it was sorted. -/
theorem search_finds_first (mlist : MethodList Imp) (sel : Nat) :
    (SortedBy MethodEntry.name mlist.methods →
      mlist.findMethodInSortedMethodList sel = mlist.methods.find? fun m => m.name = sel) ∧
    (mlist.isFixedUp = false → ∀ register isUniqued,
      (mlist.fixupMethodList register isUniqued true).search sel =
        (mlist.uniqueSelectors register isUniqued).methods.find? fun m => m.name = sel) := by
  refine ⟨fun hsorted => hsorted.binarySearch_eq_find?, fun hfixed register isUniqued => ?_⟩
  refine search_fixUp ?_ sel
  unfold uniqueSelectors
  split
  · exact hfixed
  · exact hfixed

/-- Of two methods named 2, the first one is found before and after the list is sorted. -/
theorem search_finds_first_two :
    findMethodInSortedMethodList ⟨false, true, true, [⟨1, "", 0⟩, ⟨2, "", 1⟩, ⟨2, "", 2⟩]⟩ 2 =
      some ⟨2, "", 1⟩ ∧
    (fixupMethodList ⟨false, true, false, [⟨2, "", 1⟩, ⟨2, "", 2⟩, ⟨1, "", 0⟩]⟩ id true true).search
      2 = some ⟨2, "", 1⟩ :=
  ⟨((search_finds_first _ 2).1 (by unfold SortedBy; decide)).trans rfl,
    ((search_finds_first _ 2).2 rfl id true).trans rfl⟩

end MethodList

end ObjcRuntime
