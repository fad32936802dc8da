import ObjcRuntime.Classes.Duplicate
import Mathlib.Data.Nat.Bitwise

/-!
# ObjcRuntime.Classes.Bulk

Adding and replacing the methods of a class in bulk (`class_addMethodsBulk`,
`class_replaceMethodsBulk`) and one at a time (`class_addMethod`,
`class_replaceMethod`), on LP64.

The bulk functions ask the class whether it has a method, not the list of new
methods they are collecting. So a selector that is new to the class and comes twice
gets two entries in that list. The list is sorted by a stable sort and searched by a
bisection that steps back to the first match, so the first entry counts; replacing
one at a time, the last one does. The model has each of these steps.

A read or write outside of the allocated memory has no result (`none`): the size of
the new list and that of the array of names are computed in 32 bits.
-/

namespace ObjcRuntime.Classes.Bulk

open Lib Duplicate List Option Nat

variable {Imp : Type}

/-! ### The methods of a class -/

/-- The method lists of a realized class, in the order of their search. -/
abbrev Methods (Imp : Type) := List (ClassMethodList (Option Imp))

/-- `getMethodNoSuper_nolock` -/
def getMethodNoSuper (methods : Methods Imp) (sel : Nat) : Option (MethodEntry (Option Imp)) :=
  methods.findSome? (·.1.search sel)

/-- The first entry named `sel` gets the implementation. -/
def setFirst (sel : Nat) (imp : Option Imp) :
    List (MethodEntry (Option Imp)) → List (MethodEntry (Option Imp))
  | [] => []
  | m :: rest => if m.name = sel then { m with imp } :: rest else m :: setFirst sel imp rest

theorem map_name_setFirst (sel : Nat) (imp : Option Imp) (l) :
    (setFirst sel imp l).map MethodEntry.name = l.map MethodEntry.name := by
  induction l with
  | nil => rfl
  | cons m rest ih =>
    rw [setFirst]
    split
    · rfl
    · rw [map_cons, ih, map_cons]

/-- `method_t::setImp` on the method that the search for `sel` finds in the list. -/
def setImpIn (sel : Nat) (imp : Option Imp) (mlist : ClassMethodList (Option Imp)) :
    ClassMethodList (Option Imp) :=
  ⟨{ mlist.1 with methods := setFirst sel imp mlist.1.methods }, fun hfixed hsize => by
    have hsorted := pairwise_map.2 (mlist.2 hfixed hsize)
    rw [← map_name_setFirst sel imp] at hsorted
    exact pairwise_map.1 hsorted⟩

/-- `method_t::setImp` on the method that `getMethodNoSuper` finds. -/
def setImp (sel : Nat) (imp : Option Imp) : Methods Imp → Methods Imp
  | [] => []
  | mlist :: rest =>
    if (mlist.1.search sel).isSome then setImpIn sel imp mlist :: rest
    else mlist :: setImp sel imp rest

/-- `_method_setImplementation`: the old implementation, and the class. -/
def methodSetImplementation (m : MethodEntry (Option Imp)) (imp : Option Imp)
    (methods : Methods Imp) : Option Imp × Methods Imp :=
  match imp with
  | none => (none, methods)
  | some _ => (m.imp, setImp m.name imp methods)

/-- The list that `addMethods_finish` attaches. -/
def sortedList (newlist : List (MethodEntry (Option Imp))) : MethodList (Option Imp) where
  isSmallList := false
  isExpectedSize := true
  isFixedUp := true
  methods := if 1 < newlist.length then newlist.mergeSort fun a b => a.name ≤ b.name else newlist

theorem searchOk_sortedList (newlist : List (MethodEntry (Option Imp))) :
    (sortedList newlist).SearchOk := by
  intro _ _
  unfold sortedList
  split
  · exact sortedBy_mergeSort newlist
  next hshort =>
    cases newlist with
    | nil => exact List.Pairwise.nil
    | cons m rest =>
      rw [length_cons] at hshort
      obtain rfl : rest = [] := eq_nil_of_length_eq_zero (by omega)
      exact pairwise_singleton _ m

/-- `addMethods_finish` -/
def addMethodsFinish (newlist : List (MethodEntry (Option Imp))) (methods : Methods Imp) :
    Methods Imp :=
  ⟨sortedList newlist, searchOk_sortedList newlist⟩ :: methods

/-! ### One method at a time -/

/-- `names[i]`, `imps[i]` and `types[i]`. -/
structure Request (Imp : Type) where
  name : Nat
  imp : Option Imp
  types : Option String

/-- `addMethod` -/
def addMethod (name : Nat) (imp : Option Imp) (types : String) (replace : Bool)
    (methods : Methods Imp) : Option Imp × Methods Imp :=
  match getMethodNoSuper methods name with
  | some m =>
    -- already exists
    if replace then methodSetImplementation m imp methods else (m.imp, methods)
  | none => (none, addMethodsFinish [⟨name, types, imp⟩] methods)

/-- `class_addMethod` -/
def classAddMethod (r : Request Imp) (methods : Methods Imp) : Bool × Methods Imp :=
  let result := addMethod r.name r.imp (r.types.getD "") false methods
  (result.1.isNone, result.2)

/-- `class_replaceMethod` -/
def classReplaceMethod (r : Request Imp) (methods : Methods Imp) : Option Imp × Methods Imp :=
  addMethod r.name r.imp (r.types.getD "") true methods

/-- `class_addMethod` for each request in order, and the selectors for which it
returned `NO`. -/
def addEach : List (Request Imp) → Methods Imp → List Nat × Methods Imp
  | [], methods => ([], methods)
  | r :: rest, methods =>
    let added := classAddMethod r methods
    let later := addEach rest added.2
    (if added.1 then later.1 else r.name :: later.1, later.2)

/-- `class_replaceMethod` for each request in order. -/
def replaceEach : List (Request Imp) → Methods Imp → Methods Imp
  | [], methods => methods
  | r :: rest, methods => replaceEach rest (classReplaceMethod r methods).2

/-! ### Methods in bulk -/

/-- The arrays of a bulk call: their `count` is a `uint32_t`. -/
abbrev Batch (Imp : Type) := { requests : List (Request Imp) // requests.length < 2 ^ 32 }

/-- What the loop of `addMethods` has done. -/
structure Added (Imp : Type) where
  methods : Methods Imp
  newlist : List (MethodEntry (Option Imp))
  failedNames : List Nat

/-- Bytes for entries in a `method_list_t` that is allocated for `count` of them:
`byteSize` multiplies two `uint32_t`. -/
def entryBytes (count : Nat) : Nat := count * 24 % 2 ^ 32

/-- Entries of the array that is allocated for the names: `count + 1` is a `uint32_t`. -/
def failedCapacity (count : Nat) : Nat := (count + 1) % 2 ^ 32

/-- The loop of `addMethods`. -/
def addMethodsLoop (count : Nat) (replace : Bool) :
    List (Request Imp) → Added Imp → Option (Added Imp)
  | [], a => some a
  | r :: rest, a =>
    match getMethodNoSuper a.methods r.name with
    | some m =>
      if replace then
        addMethodsLoop count replace rest
          { a with methods := (methodSetImplementation m r.imp a.methods).2 }
      else if a.failedNames.length < failedCapacity count then
        addMethodsLoop count replace rest { a with failedNames := a.failedNames ++ [m.name] }
      else none
    | none =>
      match r.types with
      -- `strdupIfMutable` takes the length of the types
      | none => none
      | some types =>
        if (a.newlist.length + 1) * 24 ≤ entryBytes count then
          addMethodsLoop count replace rest
            { a with newlist := a.newlist ++ [⟨r.name, types, r.imp⟩] }
        else none

/-- The result of `addMethods`: a pointer to an array of names, and the class. -/
structure Result (Imp : Type) where
  failedNames : Option (List (Option Nat))
  failedCount : Nat
  methods : Methods Imp

/-- What `addMethods` does after its loop. -/
def Added.result (count : Nat) (a : Added Imp) : Result Imp where
  failedNames :=
    if a.failedNames.isEmpty then none
    else some (a.failedNames.map some ++
      List.replicate (failedCapacity count - a.failedNames.length) none)
  failedCount := a.failedNames.length
  methods := if a.newlist.isEmpty then a.methods else addMethodsFinish a.newlist a.methods

/-- `addMethods` -/
def addMethods (batch : Batch Imp) (replace : Bool) (methods : Methods Imp) : Option (Result Imp) :=
  (addMethodsLoop batch.1.length replace batch.1 ⟨methods, [], []⟩).map (·.result batch.1.length)

/-- `class_addMethodsBulk` -/
def classAddMethodsBulk (batch : Batch Imp) (methods : Methods Imp) : Option (Result Imp) :=
  addMethods batch false methods

/-- `class_replaceMethodsBulk` -/
def classReplaceMethodsBulk (batch : Batch Imp) (methods : Methods Imp) : Option (Methods Imp) :=
  (addMethods batch true methods).map Result.methods

/-- The names before the first `NULL` of an array. -/
def namesBeforeNull : List (Option Nat) → Option (List Nat)
  | [] => none
  | none :: _ => some []
  | some name :: rest => (namesBeforeNull rest).map (name :: ·)

/-- What a caller reads at a pointer to a `NULL`-terminated array of names. -/
def readNames : Option (List (Option Nat)) → Option (List Nat)
  | none => some []
  | some names => namesBeforeNull names

/-! ### What the class answers -/

/-- The implementation of the class's own method. -/
def ownImp (methods : Methods Imp) (sel : Nat) : Option (Option Imp) :=
  (getMethodNoSuper methods sel).map MethodEntry.imp

/-- What a class with these superclasses resolves the selector to. -/
def resolve (superclasses : List (Methods Imp)) (methods : Methods Imp) (sel : Nat) :
    Option (Option Imp) :=
  (methods :: superclasses).findSome? (ownImp · sel)

/-- Calling one of the bulk functions is as good as one call for each request. -/
structure Agrees (superclasses : List (Methods Imp)) (methods : Methods Imp)
    (batch : Batch Imp) : Prop where
  add : ∃ result, classAddMethodsBulk batch methods = some result ∧
    (∀ sel, resolve superclasses result.methods sel =
      resolve superclasses (addEach batch.1 methods).2 sel) ∧
    readNames result.failedNames = some (addEach batch.1 methods).1
  replace : ∃ result, classReplaceMethodsBulk batch methods = some result ∧
    ∀ sel, resolve superclasses result sel =
      resolve superclasses (replaceEach batch.1 methods) sel

/-! ### A single change -/

section Single

variable {methods : Methods Imp} {sel : Nat} {imp : Option Imp}

variable {m : MethodEntry (Option Imp)}

theorem find?_setFirst {l} (h : l.find? (fun m => m.name = sel) = some m) (s : Nat) :
    ((setFirst sel imp l).find? fun m => m.name = s).map MethodEntry.imp =
      if s = sel then some imp else (l.find? fun m => m.name = s).map MethodEntry.imp := by
  induction l with
  | nil => cases h
  | cons m' rest ih =>
    rw [setFirst]
    by_cases hname : m'.name = sel
    · rw [if_pos hname]
      by_cases hs : s = sel
      · rw [if_pos hs, find?_cons_of_pos (by simp [hname, hs])]
        rfl
      · rw [if_neg hs, find?_cons_of_neg (by simp [hname, Ne.symm hs]),
          find?_cons_of_neg (by simp [hname, Ne.symm hs])]
    · rw [find?_cons_of_neg (by simpa using hname)] at h
      rw [if_neg hname]
      by_cases hs : m'.name = s
      · rw [find?_cons_of_pos (by simpa using hs),
          find?_cons_of_pos (by simpa using hs), if_neg fun heq => hname (hs.trans heq)]
      · rw [find?_cons_of_neg (by simpa using hs), find?_cons_of_neg (by simpa using hs)]
        exact ih h

theorem ownImp_cons (mlist) (s : Nat) :
    ownImp (mlist :: methods) s =
      ((mlist.1.methods.find? fun m => m.name = s).map MethodEntry.imp).or (ownImp methods s) := by
  unfold ownImp getMethodNoSuper
  rw [findSome?_cons, mlist.2.search_eq_find?]
  cases mlist.1.methods.find? fun m => m.name = s with
  | none | some => rfl

theorem ownImp_setImp (h : (ownImp methods sel).isSome) (s : Nat) :
    ownImp (setImp sel imp methods) s = if s = sel then some imp else ownImp methods s := by
  induction methods with
  | nil => cases h
  | cons mlist rest ih =>
    rw [setImp, mlist.2.search_eq_find?]
    cases hfind : mlist.1.methods.find? fun m => m.name = sel with
    | some m =>
      rw [if_pos (isSome_some (a := m)), ownImp_cons, ownImp_cons]
      unfold setImpIn
      rw [find?_setFirst hfind s]
      split
      · rfl
      · rfl
    | none =>
      rw [ownImp_cons, hfind] at h
      rw [if_neg (by simp), ownImp_cons, ownImp_cons, ih h]
      by_cases hs : s = sel
      · rw [if_pos hs, if_pos hs, hs, hfind]
        rfl
      · rw [if_neg hs, if_neg hs]

theorem ownImp_addMethodsFinish (newlist) (s : Nat) :
    ownImp (addMethodsFinish newlist methods) s =
      ((newlist.find? fun m => m.name = s).map MethodEntry.imp).or (ownImp methods s) := by
  unfold addMethodsFinish
  rw [ownImp_cons]
  unfold sortedList
  split
  · rw [find?_mergeSort]
  · rfl

theorem ownImp_of_get {found} (h : getMethodNoSuper methods sel = found) :
    ownImp methods sel = found.map MethodEntry.imp :=
  congrArg _ h

theorem name_of_getMethodNoSuper (h : getMethodNoSuper methods sel = some m) : m.name = sel := by
  obtain ⟨mlist, -, hsearch⟩ := exists_of_findSome?_eq_some h
  exact (MethodList.name_of_search hsearch).2

/-- The implementation of `sel` after `class_addMethod`. -/
def addCell (sel : Nat) (cell : Option (Option Imp)) (r : Request Imp) : Option (Option Imp) :=
  if r.name = sel then some (cell.getD r.imp) else cell

/-- The implementation of `sel` after `class_replaceMethod`. -/
def replaceCell (sel : Nat) (cell : Option (Option Imp)) (r : Request Imp) : Option (Option Imp) :=
  if r.name = sel then
    some (match cell with
      | none => r.imp
      | some old => r.imp.or old)
  else cell

variable {r : Request Imp}

theorem addCell_of_eq (h : r.name = sel) (cell) : addCell sel cell r = some (cell.getD r.imp) :=
  if_pos h

theorem addCell_of_ne (h : r.name ≠ sel) (cell) : addCell sel cell r = cell :=
  if_neg h

theorem replaceCell_none (h : r.name = sel) : replaceCell sel none r = some r.imp :=
  if_pos h

theorem replaceCell_some (h : r.name = sel) (old) :
    replaceCell sel (some old) r = some (r.imp.or old) :=
  if_pos h

theorem replaceCell_of_ne (h : r.name ≠ sel) (cell) : replaceCell sel cell r = cell :=
  if_neg h

theorem ownImp_addMethodsFinish_single (types) (s : Nat) :
    ownImp (addMethodsFinish [⟨r.name, types, r.imp⟩] methods) s =
      if r.name = s then some r.imp else ownImp methods s := by
  rw [ownImp_addMethodsFinish]
  by_cases hs : r.name = s
  · rw [if_pos hs, find?_cons_of_pos (by simpa using hs)]
    rfl
  · rw [if_neg hs, find?_cons_of_neg (by simpa using hs)]
    rfl

theorem ownImp_classAddMethod (s : Nat) :
    ownImp (classAddMethod r methods).2 s = addCell s (ownImp methods s) r := by
  unfold classAddMethod addMethod addCell
  cases hget : getMethodNoSuper methods r.name with
  | some m =>
    dsimp only
    rw [if_neg Bool.false_ne_true]
    split
    next hs =>
      rw [← hs, ownImp_of_get hget]
      rfl
    · rfl
  | none =>
    rw [ownImp_addMethodsFinish_single]
    split
    next hs =>
      rw [← hs, ownImp_of_get hget]
      rfl
    · rfl

theorem ownImp_classAddMethod_of_some {cell} (h : ownImp methods sel = some cell) :
    ownImp (classAddMethod r methods).2 sel = some cell := by
  rw [ownImp_classAddMethod, h]
  unfold addCell
  split
  · rfl
  · rfl

theorem classAddMethod_fst :
    (classAddMethod r methods).1 = (ownImp methods r.name).join.isNone := by
  unfold classAddMethod addMethod ownImp
  cases getMethodNoSuper methods r.name with
  | some | none => rfl

theorem ownImp_methodSetImplementation (h : getMethodNoSuper methods r.name = some m) (s : Nat) :
    ownImp (methodSetImplementation m r.imp methods).2 s = replaceCell s (ownImp methods s) r := by
  have hown : ownImp methods r.name = some m.imp := ownImp_of_get h
  unfold methodSetImplementation replaceCell
  cases himp : r.imp with
  | none =>
    dsimp only
    split
    next hs =>
      rw [← hs, hown]
      rfl
    · rfl
  | some imp =>
    rw [name_of_getMethodNoSuper h, ownImp_setImp (by rw [hown]; rfl)]
    by_cases hs : r.name = s
    · rw [if_pos hs.symm, if_pos hs, ← hs, hown]
      rfl
    · rw [if_neg (Ne.symm hs), if_neg hs]

theorem ownImp_classReplaceMethod (s : Nat) :
    ownImp (classReplaceMethod r methods).2 s = replaceCell s (ownImp methods s) r := by
  unfold classReplaceMethod addMethod
  cases hget : getMethodNoSuper methods r.name with
  | some m =>
    dsimp only
    rw [if_pos rfl, ownImp_methodSetImplementation hget]
  | none =>
    rw [ownImp_addMethodsFinish_single]
    unfold replaceCell
    split
    next hs =>
      rw [← hs, ownImp_of_get hget]
      rfl
    · rfl

end Single

/-! ### One change after the other -/

section Sequence

variable {methods : Methods Imp} {l : List (Request Imp)} {sel : Nat}

theorem ownImp_addEach (l) (methods : Methods Imp) (s : Nat) :
    ownImp (addEach l methods).2 s = l.foldl (addCell s) (ownImp methods s) := by
  induction l generalizing methods with
  | nil => rfl
  | cons r rest ih =>
    rw [addEach, foldl_cons, ← ownImp_classAddMethod]
    exact ih _

theorem ownImp_replaceEach (l) (methods : Methods Imp) (s : Nat) :
    ownImp (replaceEach l methods) s = l.foldl (replaceCell s) (ownImp methods s) := by
  induction l generalizing methods with
  | nil => rfl
  | cons r rest ih =>
    rw [replaceEach, foldl_cons, ← ownImp_classReplaceMethod]
    exact ih _

theorem foldl_addCell (l : List (Request Imp)) (s : Nat) (cell : Option (Option Imp)) :
    l.foldl (addCell s) cell = cell.or ((l.find? fun r => r.name = s).map Request.imp) := by
  induction l generalizing cell with
  | nil => exact (or_none).symm
  | cons r rest ih =>
    rw [foldl_cons, ih]
    by_cases hs : r.name = s
    · rw [addCell_of_eq hs, find?_cons_of_pos (by simpa using hs)]
      cases cell with
      | none | some old => rfl
    · rw [addCell_of_ne hs, find?_cons_of_neg (by simpa using hs)]

/-- The implementations that are given for a selector. -/
def impsFor (sel : Nat) (l : List (Request Imp)) : List (Option Imp) :=
  (l.filter fun r => r.name = sel).map Request.imp

theorem mem_impsFor {imp} : imp ∈ impsFor sel l ↔ ∃ r ∈ l, r.name = sel ∧ r.imp = imp := by
  simp only [impsFor, List.mem_map, mem_filter, decide_eq_true_eq, and_assoc]

theorem head?_impsFor :
    (impsFor sel l).head? = (l.find? fun r => r.name = sel).map Request.imp := by
  rw [impsFor, head?_map, head?_filter]

theorem impsFor_cons (r : Request Imp) (l) (sel : Nat) :
    impsFor sel (r :: l) = if r.name = sel then r.imp :: impsFor sel l else impsFor sel l := by
  unfold impsFor
  by_cases hs : r.name = sel
  · rw [if_pos hs, filter_cons_of_pos (by simpa using hs), map_cons]
  · rw [if_neg hs, filter_cons_of_neg (by simpa using hs)]

theorem foldl_replaceCell_some (l) (s : Nat) (old : Option Imp) :
    l.foldl (replaceCell s) (some old) =
      some ((impsFor s l).foldl (fun old imp => imp.or old) old) := by
  induction l generalizing old with
  | nil => rfl
  | cons r rest ih =>
    rw [foldl_cons, impsFor_cons]
    by_cases hs : r.name = s
    · rw [if_pos hs, replaceCell_some hs, ih]
      rfl
    · rw [if_neg hs, replaceCell_of_ne hs, ih]

theorem foldl_replaceCell_none (l : List (Request Imp)) (s : Nat) :
    l.foldl (replaceCell s) none =
      (impsFor s l).head?.map fun first =>
        (impsFor s l).tail.foldl (fun old imp => imp.or old) first := by
  induction l with
  | nil => rfl
  | cons r rest ih =>
    rw [foldl_cons, impsFor_cons]
    by_cases hs : r.name = s
    · rw [if_pos hs, replaceCell_none hs, foldl_replaceCell_some]
      rfl
    · rw [if_neg hs, replaceCell_of_ne hs, ih]

theorem foldl_or_eq_none_iff (imps : List (Option Imp)) (first) :
    imps.foldl (fun old imp => imp.or old) first = none ↔
      first = none ∧ ∀ imp ∈ imps, imp = none := by
  induction imps generalizing first with
  | nil => simp
  | cons imp rest ih =>
    rw [foldl_cons, ih, or_eq_none_iff, forall_mem_cons]
    exact ⟨fun h => ⟨h.1.2, h.1.1, h.2⟩, fun h => ⟨⟨h.2.1, h.1⟩, h.2.2⟩⟩

theorem mem_addEach_cons {r} (h : sel ∈ (addEach l (classAddMethod r methods).2).1) :
    sel ∈ (addEach (r :: l) methods).1 := by
  rw [addEach]
  split
  · exact h
  · exact mem_cons_of_mem _ h

theorem mem_addEach_fst {imp} (himp : ownImp methods sel = some (some imp))
    (h : ∃ r ∈ l, r.name = sel) : sel ∈ (addEach l methods).1 := by
  induction l generalizing methods with
  | nil => simp at h
  | cons r rest ih =>
    obtain ⟨q, hq, hname⟩ := h
    rcases mem_cons.1 hq with rfl | hq
    · rw [addEach, classAddMethod_fst, hname, himp, if_neg (by simp)]
      exact mem_cons_self
    · exact mem_addEach_cons (ih (ownImp_classAddMethod_of_some himp) ⟨q, hq, hname⟩)

theorem not_mem_addEach_fst (himp : ownImp methods sel = some none) (l) :
    sel ∉ (addEach l methods).1 := by
  induction l generalizing methods with
  | nil => exact not_mem_nil
  | cons r rest ih =>
    have hnext := ih (ownImp_classAddMethod_of_some (r := r) himp)
    rw [addEach]
    split
    · exact hnext
    next hrefused =>
      refine not_mem_cons_of_ne_of_not_mem (fun hname => hrefused ?_) hnext
      rw [classAddMethod_fst, ← hname, himp]
      rfl

/-- A new selector that comes again after it has got an implementation is refused. -/
theorem mem_addEach_fst_of_repeated (hown : ownImp methods sel = none) {imp second others}
    (h : impsFor sel l = some imp :: second :: others) : sel ∈ (addEach l methods).1 := by
  induction l generalizing methods with
  | nil => cases h
  | cons r rest ih =>
    rw [impsFor_cons] at h
    have hnext : ownImp (classAddMethod r methods).2 sel = addCell sel none r := by
      rw [ownImp_classAddMethod, hown]
    refine mem_addEach_cons ?_
    by_cases hname : r.name = sel
    · rw [if_pos hname] at h
      obtain ⟨himp, htail⟩ := cons.inj h
      rw [addCell_of_eq hname, himp] at hnext
      obtain ⟨q, hq, hqname, -⟩ := mem_impsFor.1 (htail ▸ mem_cons_self)
      exact mem_addEach_fst hnext ⟨q, hq, hqname⟩
    · rw [if_neg hname] at h
      rw [addCell_of_ne hname] at hnext
      exact ih hnext h

end Sequence

/-! ### The loop of `addMethods` -/

section Loop

variable {methods : Methods Imp} {r : Request Imp} {rest l : List (Request Imp)} {count : Nat}
  {replace : Bool} {a : Added Imp}

/-- The class has no method for the request. -/
def lacks (methods : Methods Imp) (r : Request Imp) : Bool :=
  (ownImp methods r.name).isNone

def newRequests (methods : Methods Imp) (l : List (Request Imp)) : List (Request Imp) :=
  l.filter (lacks methods)

def presentRequests (methods : Methods Imp) (l : List (Request Imp)) : List (Request Imp) :=
  l.filter fun r => !lacks methods r

theorem lacks_of_none (h : getMethodNoSuper methods r.name = none) : lacks methods r :=
  congrArg isNone (ownImp_of_get h)

variable {m : MethodEntry (Option Imp)}

theorem lacks_of_some (h : getMethodNoSuper methods r.name = some m) : lacks methods r = false :=
  congrArg isNone (ownImp_of_get h)

theorem newRequests_cons : newRequests methods (r :: rest) =
    if lacks methods r then r :: newRequests methods rest else newRequests methods rest :=
  filter_cons

theorem presentRequests_cons : presentRequests methods (r :: rest) =
    if !lacks methods r then r :: presentRequests methods rest else presentRequests methods rest :=
  filter_cons

theorem find?_newRequests (methods : Methods Imp) (l) (s : Nat) :
    (newRequests methods l).find? (fun r => r.name = s) =
      if (ownImp methods s).isNone then l.find? fun r => r.name = s else none := by
  unfold newRequests
  rw [find?_filter]
  split
  next hnone =>
    congr 1
    funext r
    by_cases hs : r.name = s
    · simp [lacks, hs, hnone]
    · simp [hs]
  next hsome =>
    rw [find?_eq_none]
    intro r _ hr
    simp only [lacks, decide_eq_true_eq] at hr
    exact hsome (hr.2 ▸ hr.1)

/-- The loop of `class_replaceMethodsBulk` on the methods that the class has. -/
def overwriteEach : List (Request Imp) → Methods Imp → Methods Imp
  | [], methods => methods
  | r :: rest, methods =>
    match getMethodNoSuper methods r.name with
    | some m => overwriteEach rest (methodSetImplementation m r.imp methods).2
    | none => overwriteEach rest methods

theorem isNone_replaceCell {cell s}
    (h : r.name = s → cell.isNone = false) : (replaceCell s cell r).isNone = cell.isNone := by
  unfold replaceCell
  split
  next hs => exact (h hs).symm
  · rfl

theorem isNone_methodSetImplementation (h : getMethodNoSuper methods r.name = some m) (s : Nat) :
    (ownImp (methodSetImplementation m r.imp methods).2 s).isNone = (ownImp methods s).isNone := by
  rw [ownImp_methodSetImplementation h]
  refine isNone_replaceCell fun hs => ?_
  rw [← hs]
  exact lacks_of_some h

theorem lacks_methodSetImplementation (h : getMethodNoSuper methods r.name = some m) :
    lacks (methodSetImplementation m r.imp methods).2 = lacks methods :=
  funext fun q => isNone_methodSetImplementation h q.name

theorem ownImp_overwriteEach (l) (methods : Methods Imp) (s : Nat) :
    ownImp (overwriteEach l methods) s =
      if (ownImp methods s).isNone then none else l.foldl (replaceCell s) (ownImp methods s) := by
  induction l generalizing methods with
  | nil =>
    split
    next h => exact isNone_iff_eq_none.1 h
    · rfl
  | cons r rest ih =>
    rw [overwriteEach, foldl_cons]
    cases hget : getMethodNoSuper methods r.name with
    | some m =>
      rw [ih, isNone_methodSetImplementation hget, ownImp_methodSetImplementation hget]
    | none =>
      rw [ih]
      split
      · rfl
      next hsome =>
        have hs : r.name ≠ s := fun hs => hsome (hs ▸ lacks_of_none hget)
        rw [replaceCell_of_ne hs]

/-- Nothing in the loop goes beyond the memory it has. -/
@[mk_iff]
structure Runs (count : Nat) (replace : Bool) (l : List (Request Imp)) (a : Added Imp) : Prop where
  typed : ∀ r ∈ newRequests a.methods l, r.types.isSome = true
  fits : (a.newlist.length + (newRequests a.methods l).length) * 24 ≤ entryBytes count
  room : replace = false →
    a.failedNames.length + (presentRequests a.methods l).length ≤ failedCapacity count

def Request.entry (r : Request Imp) : MethodEntry (Option Imp) := ⟨r.name, r.types.getD "", r.imp⟩

/-- What the loop leaves if it ends. -/
def outcome (replace : Bool) (l : List (Request Imp)) (a : Added Imp) : Added Imp where
  methods := if replace then overwriteEach l a.methods else a.methods
  newlist := a.newlist ++ (newRequests a.methods l).map Request.entry
  failedNames :=
    a.failedNames ++ if replace then [] else (presentRequests a.methods l).map Request.name

theorem runs_overwrite (h : getMethodNoSuper a.methods r.name = some m) :
    Runs count true rest { a with methods := (methodSetImplementation m r.imp a.methods).2 } ↔
      Runs count true (r :: rest) a := by
  have hnew : newRequests (methodSetImplementation m r.imp a.methods).2 rest =
      newRequests a.methods (r :: rest) := by
    rw [newRequests_cons, lacks_of_some h]
    unfold newRequests
    rw [lacks_methodSetImplementation h]
    rfl
  simp [runs_iff, hnew]

theorem outcome_overwrite (h : getMethodNoSuper a.methods r.name = some m) :
    outcome true rest { a with methods := (methodSetImplementation m r.imp a.methods).2 } =
      outcome true (r :: rest) a := by
  unfold outcome
  rw [newRequests_cons, lacks_of_some h, overwriteEach, h]
  unfold newRequests
  rw [lacks_methodSetImplementation h]
  rfl

theorem runs_refuse (h : lacks a.methods r = false) (name : Nat) :
    Runs count false rest { a with failedNames := a.failedNames ++ [name] } ↔
      Runs count false (r :: rest) a := by
  simp [runs_iff, newRequests_cons, presentRequests_cons, h, Nat.add_assoc, Nat.add_comm 1]

theorem outcome_refuse (h : lacks a.methods r = false) :
    outcome false rest { a with failedNames := a.failedNames ++ [r.name] } =
      outcome false (r :: rest) a := by
  unfold outcome
  simp [newRequests_cons, presentRequests_cons, h]

theorem runs_collect (h : lacks a.methods r) (htypes : r.types.isSome) (entry) :
    Runs count replace rest { a with newlist := a.newlist ++ [entry] } ↔
      Runs count replace (r :: rest) a := by
  simp [runs_iff, newRequests_cons, presentRequests_cons, h, htypes, Nat.add_assoc, Nat.add_comm 1]

theorem outcome_collect (h : lacks a.methods r) (hget : getMethodNoSuper a.methods r.name = none) :
    outcome replace rest { a with newlist := a.newlist ++ [r.entry] } =
      outcome replace (r :: rest) a := by
  unfold outcome
  simp [newRequests_cons, presentRequests_cons, h, overwriteEach, hget]

theorem addMethodsLoop_eq_some_iff (hnew : a.newlist.length * 24 ≤ entryBytes count)
    (hfailed : a.failedNames.length ≤ failedCapacity count) {a'} :
    addMethodsLoop count replace l a = some a' ↔
      Runs count replace l a ∧ a' = outcome replace l a := by
  induction l generalizing a with
  | nil =>
    have hout : outcome replace [] a = a := by
      cases replace <;> simp [outcome, overwriteEach, newRequests, presentRequests]
    rw [addMethodsLoop, hout, some.injEq, eq_comm, and_iff_right]
    exact ⟨forall_mem_nil _, hnew, fun _ => hfailed⟩
  | cons r rest ih =>
    rw [addMethodsLoop]
    cases hget : getMethodNoSuper a.methods r.name with
    | some m =>
      have hlacks := lacks_of_some hget
      dsimp only
      cases replace with
      | true =>
        rw [if_pos rfl, ← runs_overwrite hget, ← outcome_overwrite hget]
        exact ih hnew hfailed
      | false =>
        rw [if_neg Bool.false_ne_true, name_of_getMethodNoSuper hget,
          ← outcome_refuse hlacks, ← runs_refuse hlacks r.name]
        split
        next hroom => exact ih hnew (by rw [length_append]; exact hroom)
        next hfull =>
          refine ⟨by simp, fun h => absurd (h.1.room rfl) ?_⟩
          rw [length_append, length_singleton]
          omega
    | none =>
      have hlacks := lacks_of_none hget
      cases htypes : r.types with
      | none =>
        have hmem : r ∈ newRequests a.methods (r :: rest) := mem_filter.2 ⟨mem_cons_self, hlacks⟩
        exact ⟨by simp, fun h => absurd (h.1.typed r hmem) (by simp [htypes])⟩
      | some types =>
        have hentry : r.entry = ⟨r.name, types, r.imp⟩ := by
          unfold Request.entry
          rw [htypes]
          rfl
        dsimp only
        rw [← hentry, ← outcome_collect hlacks hget,
          ← runs_collect hlacks (by rw [htypes]; rfl) r.entry]
        split
        next hroom => exact ih (by simpa using hroom) hfailed
        next hfull =>
          refine ⟨by simp, fun h => absurd h.1.fits ?_⟩
          rw [length_append, length_singleton]
          omega

end Loop

/-! ### Bulk and sequence -/

section Agreement

variable {superclasses : List (Methods Imp)} {methods : Methods Imp} {batch : Batch Imp}
  {l : List (Request Imp)} {replace : Bool}

/-- What makes a bulk call as good as the sequence of single calls.

A selector that the class lacks and that comes more than once has no implementation
in the batch; every method that is new has types; every method that is there has an
implementation; and the sizes that `addMethods` allocates do not wrap around. -/
structure Suited (methods : Methods Imp) (batch : Batch Imp) : Prop where
  repeated : ∀ sel, ownImp methods sel = none → 1 < (impsFor sel batch.1).length →
    ∀ imp ∈ impsFor sel batch.1, imp = none
  typed : ∀ r ∈ newRequests methods batch.1, r.types.isSome = true
  implemented : ∀ r ∈ batch.1, ownImp methods r.name ≠ some none
  newFit : (newRequests methods batch.1).length * 24 ≤ batch.1.length * 24 % 2 ^ 32
  presentFit : batch.1.length + 1 < 2 ^ 32 ∨ presentRequests methods batch.1 = []

theorem addMethods_eq_some_iff {result} :
    addMethods batch replace methods = some result ↔
      Runs batch.1.length replace batch.1 ⟨methods, [], []⟩ ∧
        result = (outcome replace batch.1 ⟨methods, [], []⟩).result batch.1.length := by
  unfold addMethods
  rw [map_eq_some_iff]
  constructor
  · rintro ⟨a, ha, rfl⟩
    obtain ⟨hruns, rfl⟩ := (addMethodsLoop_eq_some_iff (zero_le _) (zero_le _)).1 ha
    exact ⟨hruns, rfl⟩
  · rintro ⟨hruns, rfl⟩
    exact ⟨_, (addMethodsLoop_eq_some_iff (zero_le _) (zero_le _)).2 ⟨hruns, rfl⟩, rfl⟩

theorem ownImp_result (a : Added Imp) (count s : Nat) :
    ownImp (a.result count).methods s =
      ((a.newlist.find? fun m => m.name = s).map MethodEntry.imp).or (ownImp a.methods s) := by
  unfold Added.result
  cases h : a.newlist with
  | nil => rfl
  | cons m rest => exact ownImp_addMethodsFinish (m :: rest) s

theorem ownImp_outcome (s : Nat) (count : Nat) :
    ownImp ((outcome replace l ⟨methods, [], []⟩).result count).methods s =
      if (ownImp methods s).isNone then (impsFor s l).head?
      else if replace then l.foldl (replaceCell s) (ownImp methods s) else ownImp methods s := by
  have hfind : ((outcome replace l ⟨methods, [], []⟩).newlist.find? fun m => m.name = s).map
      MethodEntry.imp = if (ownImp methods s).isNone then (impsFor s l).head? else none := by
    unfold outcome
    rw [nil_append, find?_map, Option.map_map, head?_impsFor]
    refine (congrArg _ (find?_newRequests methods l s)).trans ?_
    split
    · rfl
    · rfl
  have hmethods : ownImp (outcome replace l ⟨methods, [], []⟩).methods s =
      if (ownImp methods s).isNone then none
      else if replace then l.foldl (replaceCell s) (ownImp methods s) else ownImp methods s := by
    unfold outcome
    cases replace with
    | true => exact ownImp_overwriteEach l methods s
    | false =>
      rw [if_neg Bool.false_ne_true, if_neg Bool.false_ne_true]
      cases ownImp methods s with
      | none | some imp => rfl
  rw [ownImp_result, hfind, hmethods]
  split
  · exact or_none
  · rfl

theorem ownImp_addMethodsBulk (s : Nat) (count : Nat) :
    ownImp ((outcome false l ⟨methods, [], []⟩).result count).methods s =
      ownImp (addEach l methods).2 s := by
  rw [ownImp_outcome, ownImp_addEach, foldl_addCell, head?_impsFor]
  cases ownImp methods s with
  | none | some => rfl

theorem resolve_eq (s : Nat) :
    resolve superclasses methods s =
      (ownImp methods s).or (superclasses.findSome? (ownImp · s)) := by
  unfold resolve
  rw [findSome?_cons]
  cases ownImp methods s with
  | none | some => rfl

theorem namesBeforeNull_append (names) (k : Nat) :
    namesBeforeNull (names.map some ++ replicate (k + 1) none) = some names := by
  induction names with
  | nil => rfl
  | cons name rest ih =>
    rw [map_cons, cons_append, namesBeforeNull, ih]
    rfl

theorem presentRequests_length_le : (presentRequests methods l).length ≤ l.length :=
  length_filter_le _ _

/-- The array has room for the names and for the `NULL` after them. -/
theorem readNames_outcome
    (hroom : (presentRequests methods batch.1).length ≤ failedCapacity batch.1.length) :
    readNames ((outcome false batch.1 ⟨methods, [], []⟩).result batch.1.length).failedNames =
      some ((presentRequests methods batch.1).map Request.name) := by
  have hnames : (outcome false batch.1 ⟨methods, [], []⟩).failedNames =
      (presentRequests methods batch.1).map Request.name := by
    exact nil_append _
  unfold Added.result
  rw [hnames]
  split
  next hempty =>
    rw [isEmpty_iff.1 hempty]
    rfl
  next hne =>
    have hle : (presentRequests methods batch.1).length ≤ batch.1.length :=
      presentRequests_length_le
    have hpos : 0 < (presentRequests methods batch.1).length := by
      rw [length_pos_iff]
      intro heq
      rw [heq] at hne
      exact hne rfl
    obtain ⟨k, hk⟩ : ∃ k, failedCapacity batch.1.length -
        ((presentRequests methods batch.1).map Request.name).length = k + 1 := by
      unfold failedCapacity at hroom ⊢
      rw [length_map]
      exact exists_eq_succ_of_ne_zero (by omega)
    rw [hk]
    exact namesBeforeNull_append _ k

/-- Where each repeated new selector has no implementation, `class_addMethod` refuses
just the selectors that the class had. -/
theorem addEach_fst_eq (present : Nat → Bool) (l) (methods : Methods Imp)
    (hpresent : ∀ r ∈ l, present r.name → ∃ imp, ownImp methods r.name = some (some imp))
    (habsent : ∀ r ∈ l, present r.name = false → (ownImp methods r.name).join = none)
    (hrepeated : ∀ sel, present sel = false → 1 < (impsFor sel l).length →
      ∀ imp ∈ impsFor sel l, imp = none) :
    (addEach l methods).1 = (l.filter fun r => present r.name).map Request.name := by
  induction l generalizing methods with
  | nil => rfl
  | cons r rest ih =>
    obtain ⟨hpresent, hpresentRest⟩ := forall_mem_cons.1 hpresent
    obtain ⟨habsent, habsentRest⟩ := forall_mem_cons.1 habsent
    have hrepeatedRest : ∀ sel, present sel = false → 1 < (impsFor sel rest).length →
        ∀ imp ∈ impsFor sel rest, imp = none := by
      intro sel hsel hlen imp himp
      have h := hrepeated sel hsel
      rw [impsFor_cons] at h
      split at h
      · exact h (by rw [length_cons]; omega) imp (mem_cons_of_mem _ himp)
      · exact h hlen imp himp
    rw [addEach]
    rw [classAddMethod_fst]
    cases hr : present r.name with
    | true =>
      obtain ⟨imp, himp⟩ := hpresent hr
      have hsame : ∀ s, ownImp (classAddMethod r methods).2 s = ownImp methods s := by
        intro s
        by_cases hs : r.name = s
        · rw [← hs, himp, ownImp_classAddMethod_of_some himp]
        · rw [ownImp_classAddMethod, addCell_of_ne hs]
      rw [himp, if_neg (by simp), filter_cons, if_pos hr, map_cons]
      refine congrArg (r.name :: ·) (ih _ ?_ ?_ hrepeatedRest)
      · simpa only [hsame] using hpresentRest
      · simpa only [hsame] using habsentRest
    | false =>
      have hother : ∀ q : Request Imp, q.name ≠ r.name →
          ownImp (classAddMethod r methods).2 q.name = ownImp methods q.name := by
        intro q hq
        rw [ownImp_classAddMethod, addCell_of_ne (Ne.symm hq)]
      rw [habsent hr, if_pos (by rfl), filter_cons, if_neg (by rw [hr]; exact Bool.false_ne_true)]
      refine ih _ (fun q hq hqp => ?_) (fun q hq hqp => ?_) hrepeatedRest
      · rw [hother q fun hname => by rw [hname, hr] at hqp; cases hqp]
        exact hpresentRest q hq hqp
      · by_cases hname : q.name = r.name
        · -- the selector comes again
          have hnil : r.imp = none := by
            refine hrepeated r.name hr ?_ r.imp (mem_impsFor.2 ⟨r, mem_cons_self, rfl, rfl⟩)
            rw [impsFor_cons, if_pos rfl, length_cons]
            have := length_pos_of_mem (mem_impsFor.2 ⟨q, hq, hname, rfl⟩)
            omega
          rw [ownImp_classAddMethod, addCell_of_eq hname.symm, hnil, hname]
          have hcell := habsent hr
          cases hown : ownImp methods r.name with
          | none => rfl
          | some imp =>
            rw [hown] at hcell
            exact hcell
        · rw [hother q hname]
          exact habsentRest q hq hqp

theorem Suited.runs (h : Suited methods batch) (replace) :
    Runs batch.1.length replace batch.1 ⟨methods, [], []⟩ := by
  refine ⟨h.typed, ?_, fun _ => ?_⟩
  · simpa only [length_nil, zero_add, entryBytes] using h.newFit
  · rw [length_nil, zero_add]
    rcases h.presentFit with hlt | hnone
    · have hle : (presentRequests methods batch.1).length ≤ batch.1.length :=
        presentRequests_length_le
      unfold failedCapacity
      rw [mod_eq_of_lt hlt]
      exact le_succ_of_le hle
    · rw [hnone]
      exact zero_le _

theorem Suited.addEach_fst (h : Suited methods batch) :
    (addEach batch.1 methods).1 = (presentRequests methods batch.1).map Request.name := by
  refine addEach_fst_eq (fun s => !(ownImp methods s).isNone) batch.1 methods ?_ ?_ ?_
  · intro r hr hpresent
    have himplemented := h.implemented r hr
    cases hown : ownImp methods r.name with
    | none => rw [hown] at hpresent; cases hpresent
    | some cell =>
      cases cell with
      | none => exact absurd hown himplemented
      | some imp => exact ⟨imp, rfl⟩
  · intro r _ habsent
    have hnone : ownImp methods r.name = none := by simpa using habsent
    rw [hnone]
    rfl
  · intro sel habsent
    exact h.repeated sel (by simpa using habsent)

/-- Where all repeated implementations are missing, first and last are the same. -/
theorem head?_eq_foldl_replaceCell {s}
    (h : 1 < (impsFor s l).length → ∀ imp ∈ impsFor s l, imp = none) :
    (impsFor s l).head? = l.foldl (replaceCell s) none := by
  rw [foldl_replaceCell_none]
  cases himps : impsFor s l with
  | nil => rfl
  | cons first others =>
    rw [himps] at h
    rw [head?_cons, map_some, tail_cons, some.injEq]
    cases others with
    | nil => rfl
    | cons second others =>
      have hnone := h (by rw [length_cons, length_cons]; omega)
      obtain ⟨hfirst, hothers⟩ := forall_mem_cons.1 hnone
      rw [hfirst]
      exact ((foldl_or_eq_none_iff _ none).2 ⟨rfl, hothers⟩).symm

theorem Suited.agrees (h : Suited methods batch) : Agrees superclasses methods batch := by
  constructor
  · refine ⟨_, addMethods_eq_some_iff.2 ⟨h.runs false, rfl⟩, fun s => ?_, ?_⟩
    · rw [resolve_eq, resolve_eq, ownImp_addMethodsBulk]
    · rw [readNames_outcome (by simpa using (h.runs false).room rfl), h.addEach_fst]
  · refine ⟨_, map_eq_some_iff.2 ⟨_, addMethods_eq_some_iff.2 ⟨h.runs true, rfl⟩, rfl⟩, fun s => ?_⟩
    rw [resolve_eq, resolve_eq, ownImp_replaceEach, ownImp_outcome]
    cases hown : ownImp methods s with
    | none =>
      rw [if_pos (by rfl), head?_eq_foldl_replaceCell (h.repeated s hown)]
    | some imp => rfl

/-- Reading the refused names back tells which repetitions the class refuses. -/
theorem Agrees.first_eq_none (h : Agrees superclasses methods batch) {sel}
    (hown : ownImp methods sel = none) {first second others}
    (himps : impsFor sel batch.1 = first :: second :: others) : first = none := by
  obtain ⟨result, hbulk, -, hread⟩ := h.add
  obtain ⟨hruns, rfl⟩ := addMethods_eq_some_iff.1 hbulk
  rw [readNames_outcome (by simpa using hruns.room rfl), some.injEq] at hread
  cases first with
  | none => rfl
  | some imp =>
    have hmem := mem_addEach_fst_of_repeated hown himps
    rw [← hread, List.mem_map] at hmem
    obtain ⟨r, hr, hname⟩ := hmem
    have hpresent := (mem_filter.1 hr).2
    unfold lacks at hpresent
    rw [hname, hown] at hpresent
    cases hpresent

theorem Agrees.suited (h : Agrees superclasses methods batch) : Suited methods batch := by
  obtain ⟨result, hbulk, -, hread⟩ := h.add
  obtain ⟨hruns, rfl⟩ := addMethods_eq_some_iff.1 hbulk
  have hroom : (presentRequests methods batch.1).length ≤ failedCapacity batch.1.length := by
    simpa using hruns.room rfl
  rw [readNames_outcome hroom, some.injEq] at hread
  refine ⟨fun sel hown hlen => ?_, hruns.typed, fun r hr hnil => ?_, ?_, ?_⟩
  · -- the first one is missing, and the last one is the first one
    obtain ⟨first, second, others, himps⟩ :
        ∃ first second others, impsFor sel batch.1 = first :: second :: others := by
      cases himps : impsFor sel batch.1 with
      | nil => rw [himps] at hlen; cases hlen
      | cons first others =>
        cases others with
        | nil => rw [himps] at hlen; simp at hlen
        | cons second others => exact ⟨first, second, others, rfl⟩
    obtain rfl := h.first_eq_none hown himps
    obtain ⟨replaced, hreplace, hresolve⟩ := h.replace
    obtain ⟨bulk, hbulk', rfl⟩ := map_eq_some_iff.1 hreplace
    obtain ⟨-, rfl⟩ := addMethods_eq_some_iff.1 hbulk'
    have hsel := hresolve sel
    rw [resolve_eq, resolve_eq, ownImp_replaceEach, ownImp_outcome, hown,
      if_pos (by rfl), foldl_replaceCell_none, himps] at hsel
    have hlast := some.inj hsel
    rw [himps, forall_mem_cons]
    exact (foldl_or_eq_none_iff _ none).1 hlast.symm
  · have hmem : r.name ∈ (presentRequests methods batch.1).map Request.name := by
      refine mem_map_of_mem (mem_filter.2 ⟨hr, ?_⟩)
      unfold lacks
      rw [hnil]
      rfl
    rw [hread] at hmem
    exact not_mem_addEach_fst hnil batch.1 hmem
  · simpa only [length_nil, zero_add, entryBytes] using hruns.fits
  · rcases lt_or_ge (batch.1.length + 1) (2 ^ 32) with hlt | hge
    · exact .inl hlt
    · right
      have heq : batch.1.length + 1 = 2 ^ 32 := by
        omega
      unfold failedCapacity at hroom
      rw [heq, mod_self] at hroom
      exact eq_nil_of_length_eq_zero (le_zero.1 hroom)

theorem bulk_agrees_iff (superclasses : List (Methods Imp)) (methods : Methods Imp)
    (batch : Batch Imp) : Agrees superclasses methods batch ↔ Suited methods batch :=
  ⟨Agrees.suited, Suited.agrees⟩

end Agreement

/-- Two implementations for one new selector: replaced one at a time the second one
counts, in bulk the first one; and the bulk function refuses neither. -/
def twice : Batch Nat := ⟨[⟨1, some 1, some ""⟩, ⟨1, some 2, some ""⟩], by decide⟩

theorem bulk_repeated_selector : ¬ Agrees [] [] twice := by
  intro h
  have hown : ownImp ([] : Methods Nat) 1 = none := rfl
  have himps : impsFor 1 twice.1 = [some 1, some 2] := rfl
  exact absurd (h.first_eq_none hown himps) (by decide)

end ObjcRuntime.Classes.Bulk
