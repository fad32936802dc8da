import ObjcRuntime.MethodList
import Mathlib.Data.List.Induction

/-!
# ObjcRuntime.Protocols.Methods

Protocols that are built at run time: `protocol_addMethodDescription` on a
protocol under construction, `objc_registerProtocol`, and then
`protocol_getMethodDescription`.

A method is appended to one of four lists. The list gets the fixed-up mark when it
is created, so it is never sorted, and a lookup searches it by bisection. The
methods are all found if each list is filled in the order of the selectors'
addresses (`InOrder`), and, where no selector is added twice, only then.
Incorporated protocols are left out.
-/

namespace ObjcRuntime.Protocols

open Lib List

/-! ### The code -/

/-- Methods of protocols have no implementation. -/
abbrev ProtocolMethod := MethodEntry Unit

inductive ProtocolClass
  | incompleteProtocol | protocol
  deriving DecidableEq

/-- `protocol_t` -/
structure Protocol where
  isa : ProtocolClass
  isFixedUp : Bool
  instanceMethods : Option (MethodList Unit)
  classMethods : Option (MethodList Unit)
  optionalInstanceMethods : Option (MethodList Unit)
  optionalClassMethods : Option (MethodList Unit)
  deriving DecidableEq

/-- `objc_allocateProtocol` -/
def Protocol.allocate : Protocol := ⟨.incompleteProtocol, false, none, none, none, none⟩

/-- `protocol_addMethod_nolock` -/
def addMethod (list : Option (MethodList Unit)) (name : Nat) (types : Option String) :
    MethodList Unit :=
  let list := list.getD ⟨false, true, true, []⟩
  { list with methods := list.methods ++ [⟨name, types.getD "", ()⟩] }

/-- The arguments of `protocol_addMethodDescription`. -/
structure Addition where
  name : Nat
  types : Option String
  isRequiredMethod : Bool
  isInstanceMethod : Bool

def addMethodDescription (proto : Protocol) (a : Addition) : Protocol :=
  if proto.isa ≠ .incompleteProtocol then proto
  else
    match a.isRequiredMethod, a.isInstanceMethod with
    | true, true => { proto with instanceMethods := addMethod proto.instanceMethods a.name a.types }
    | true, false => { proto with classMethods := addMethod proto.classMethods a.name a.types }
    | false, true =>
      { proto with
        optionalInstanceMethods := addMethod proto.optionalInstanceMethods a.name a.types }
    | false, false =>
      { proto with optionalClassMethods := addMethod proto.optionalClassMethods a.name a.types }

/-- `objc_registerProtocol` -/
def registerProtocol (proto : Protocol) : Protocol :=
  if proto.isa = .protocol then proto else { proto with isa := .protocol }

/-- `fixupProtocolMethodList`, without extended method types. -/
def fixupProtocolMethodList (mlist : Option (MethodList Unit)) : Option (MethodList Unit) :=
  mlist.map fun mlist => if mlist.isFixedUp then mlist else mlist.fixUp true

def fixupProtocol (proto : Protocol) : Protocol where
  isa := proto.isa
  isFixedUp := true
  instanceMethods := fixupProtocolMethodList proto.instanceMethods
  classMethods := fixupProtocolMethodList proto.classMethods
  optionalInstanceMethods := fixupProtocolMethodList proto.optionalInstanceMethods
  optionalClassMethods := fixupProtocolMethodList proto.optionalClassMethods

def fixupProtocolIfNeeded (proto : Protocol) : Protocol :=
  if proto.isFixedUp then proto else fixupProtocol proto

def getProtocolMethodList (proto : Protocol) (required instance_ : Bool) :
    Option (MethodList Unit) :=
  if required then
    if instance_ then proto.instanceMethods else proto.classMethods
  else
    if instance_ then proto.optionalInstanceMethods else proto.optionalClassMethods

/-- `protocol_getMethod`; no method is asked for by the nil selector. -/
def getMethod (proto : Protocol) (sel : Nat) (required instance_ : Bool) : Option ProtocolMethod :=
  if sel = 0 then none
  else
    (getProtocolMethodList (fixupProtocolIfNeeded proto) required instance_).bind (·.search sel)

/-- `objc_method_description` -/
structure Description where
  name : Nat
  types : Option String
  deriving DecidableEq

def Description.nil : Description := ⟨0, none⟩

/-- `protocol_getMethodDescription` -/
def getMethodDescription (proto : Protocol) (sel : Nat) (required instance_ : Bool) : Description :=
  match getMethod proto sel required instance_ with
  | some m => ⟨m.name, some m.types⟩
  | none => .nil

/-- A protocol built by a sequence of additions. -/
def build (additions : List Addition) : Protocol :=
  registerProtocol (additions.foldl addMethodDescription .allocate)

/-! ### What the lists hold -/

/-- The method of an addition to the list of that kind. -/
def Addition.entry (required instance_ : Bool) (a : Addition) : Option ProtocolMethod :=
  if a.isRequiredMethod = required ∧ a.isInstanceMethod = instance_ then
    some ⟨a.name, a.types.getD "", ()⟩
  else none

/-- The list holds these methods, and has the mark if it is there at all. -/
def Holds (mlist : Option (MethodList Unit)) (methods : List ProtocolMethod) : Prop :=
  mlist = if methods = [] then none else some ⟨false, true, true, methods⟩

theorem Holds.addMethod {mlist methods} (h : Holds mlist methods) (name : Nat) (types) :
    Holds (some (addMethod mlist name types)) (methods ++ [⟨name, types.getD "", ()⟩]) := by
  unfold Holds at h ⊢
  rw [if_neg (by simp), h]
  cases methods with
  | nil | cons => rfl

/-- Each list holds the additions of its kind, in the order of the calls. -/
def Built (additions : List Addition) (proto : Protocol) : Prop :=
  ∀ required instance_, Holds (getProtocolMethodList proto required instance_)
    (additions.filterMap (·.entry required instance_))

variable {additions : List Addition}

theorem Built.addMethodDescription {proto}
    (h : Built additions proto) (hisa : proto.isa = .incompleteProtocol) (a) :
    Built (additions ++ [a]) (addMethodDescription proto a) := by
  intro required instance_
  have hlist := h required instance_
  obtain ⟨name, types, r, i⟩ := a
  unfold Protocols.addMethodDescription
  rw [if_neg (by simp [hisa]), filterMap_append]
  cases r <;> cases i <;> cases required <;> cases instance_ <;>
    simp only [filterMap_cons, filterMap_nil, Addition.entry, Bool.false_eq_true,
      Bool.true_eq_false, and_self, and_false, false_and, if_true, if_false, append_nil] <;>
    first
    | exact hlist
    | exact hlist.addMethod name types

@[simp] theorem addMethodDescription_isa (proto) (a) :
    (addMethodDescription proto a).isa = proto.isa := by
  unfold addMethodDescription
  split
  · rfl
  · split <;> rfl

theorem foldl_built (additions) :
    Built additions (additions.foldl addMethodDescription .allocate) ∧
      (additions.foldl addMethodDescription .allocate).isa = .incompleteProtocol := by
  induction additions using List.reverseRecOn with
  | nil =>
    refine ⟨fun required instance_ => ?_, rfl⟩
    cases required <;> cases instance_ <;> rfl
  | append_singleton additions a ih =>
    rw [foldl_append]
    exact ⟨ih.1.addMethodDescription ih.2 a, (addMethodDescription_isa _ a).trans ih.2⟩

/-- The lists of a registered protocol have the mark, so they stay as they are. -/
theorem Holds.fixup {mlist methods}
    (h : Holds mlist methods) : fixupProtocolMethodList mlist = mlist := by
  rw [h]
  split <;> rfl

theorem getMethod_build (additions) (sel : Nat) (required instance_) :
    getMethod (build additions) sel required instance_ =
      if sel = 0 then none
      else MethodList.search
        ⟨false, true, true, additions.filterMap (·.entry required instance_)⟩ sel := by
  obtain ⟨hbuilt, hisa⟩ := foldl_built additions
  have hlist : getProtocolMethodList (fixupProtocolIfNeeded (build additions)) required instance_ =
      getProtocolMethodList (additions.foldl addMethodDescription .allocate)
        required instance_ := by
    unfold fixupProtocolIfNeeded
    split
    · unfold build registerProtocol
      split <;> rfl
    · have hlists : ∀ r i, getProtocolMethodList (build additions) r i =
          getProtocolMethodList (additions.foldl addMethodDescription .allocate) r i := by
        intro r i
        unfold build registerProtocol
        split <;> rfl
      rw [← hlists]
      have hfixed := (hlists required instance_ ▸ hbuilt required instance_).fixup
      cases required <;> cases instance_ <;> exact hfixed
  unfold getMethod
  rw [hlist, hbuilt required instance_]
  split
  · rfl
  · split
    next hempty => rw [hempty]; rfl
    · rfl

/-- The calls for each list come in the order of the selectors' addresses. -/
def InOrder (additions : List Addition) : Prop :=
  additions.Pairwise fun a b => a.isRequiredMethod = b.isRequiredMethod →
    a.isInstanceMethod = b.isInstanceMethod → a.name ≤ b.name

/-- A method of that name and kind has been added. -/
def Added (additions : List Addition) (sel : Nat) (required instance_ : Bool) : Prop :=
  ∃ a ∈ additions, a.name = sel ∧ a.isRequiredMethod = required ∧ a.isInstanceMethod = instance_

theorem entry_eq_some {required instance_} {a : Addition} {m : ProtocolMethod}
    (h : a.entry required instance_ = some m) :
    m.name = a.name ∧ a.isRequiredMethod = required ∧ a.isInstanceMethod = instance_ := by
  unfold Addition.entry at h
  split at h
  next hkind =>
    cases h
    exact ⟨rfl, hkind.1, hkind.2⟩
  · cases h

theorem InOrder.sorted (h : InOrder additions) (required instance_) :
    SortedBy MethodEntry.name (additions.filterMap (·.entry required instance_)) := by
  refine List.Pairwise.filterMap _ (fun a b hle m hm m' hm' => ?_) h
  obtain ⟨hname, hr, hi⟩ := entry_eq_some hm
  obtain ⟨hname', hr', hi'⟩ := entry_eq_some hm'
  rw [hname, hname']
  exact hle (hr.trans hr'.symm) (hi.trans hi'.symm)

theorem mem_filterMap_entry {sel required instance_} :
    (∃ m ∈ additions.filterMap (·.entry required instance_), m.name = sel) ↔
      Added additions sel required instance_ := by
  constructor
  · rintro ⟨m, hm, rfl⟩
    obtain ⟨a, ha, hentry⟩ := mem_filterMap.1 hm
    obtain ⟨hname, hkind⟩ := entry_eq_some hentry
    exact ⟨a, ha, hname.symm, hkind⟩
  · rintro ⟨a, ha, rfl, hr, hi⟩
    exact ⟨⟨a.name, a.types.getD "", ()⟩, mem_filterMap.2 ⟨a, ha, if_pos ⟨hr, hi⟩⟩, rfl⟩

/-- The methods that have been added are found, and no others. -/
def FindsAdded (additions : List Addition) : Prop :=
  ∀ sel required instance_,
    (Added additions sel required instance_ →
      (getMethodDescription (build additions) sel required instance_).name = sel) ∧
    (¬ Added additions sel required instance_ →
      getMethodDescription (build additions) sel required instance_ = .nil)

/-- No selector is nil, and none is added twice to a list. -/
structure Distinct (additions : List Addition) : Prop where
  name_ne_zero : ∀ a ∈ additions, a.name ≠ 0
  once : additions.Pairwise fun a b => a.isRequiredMethod = b.isRequiredMethod →
    a.isInstanceMethod = b.isInstanceMethod → a.name ≠ b.name

theorem InOrder.findsAdded (horder : InOrder additions) : FindsAdded additions := by
  intro sel required instance_
  unfold getMethodDescription
  rw [getMethod_build]
  constructor
  · intro hadded
    split
    next m hm =>
      split at hm
      · cases hm
      · exact (MethodList.name_of_search hm).2
    next hnone =>
      split at hnone
      next hzero => exact hzero.symm
      · rw [MethodList.SearchOk.search_eq_find? fun _ _ => horder.sorted .., find?_eq_none] at hnone
        obtain ⟨m, hm, hname⟩ := mem_filterMap_entry.2 hadded
        exact absurd hname (by simpa using hnone m hm)
  · intro hnot
    split
    next m hm =>
      split at hm
      · cases hm
      · exact absurd (mem_filterMap_entry.1 ⟨m, MethodList.name_of_search hm⟩) hnot
    · rfl

/-- Where all methods are found, bisection finds each entry of a list. -/
theorem FindsAdded.search (h : FindsAdded additions) (hdistinct : Distinct additions)
    {required instance_ m} (hm : m ∈ additions.filterMap (·.entry required instance_)) :
    (binarySearch MethodEntry.name m.name
      (additions.filterMap (·.entry required instance_))).isSome := by
  have hadded := mem_filterMap_entry.1 ⟨m, hm, rfl⟩
  have hname := (h m.name required instance_).1 hadded
  obtain ⟨a, ha, heq, -⟩ := hadded
  have hne : m.name ≠ 0 := heq ▸ hdistinct.name_ne_zero a ha
  unfold getMethodDescription at hname
  rw [getMethod_build, if_neg hne] at hname
  split at hname
  next m' hm' => exact Option.isSome_iff_exists.2 ⟨m', hm'⟩
  · exact absurd hname.symm hne

theorem FindsAdded.inOrder (h : FindsAdded additions)
    (hdistinct : Distinct additions) : InOrder additions := by
  have hsorted : ∀ required instance_,
      SortedBy MethodEntry.name (additions.filterMap (·.entry required instance_)) := by
    intro required instance_
    refine sortedBy_of_binarySearch ?_ fun m hm => h.search hdistinct hm
    refine List.Pairwise.filterMap _ (fun a b hne m hm m' hm' => ?_) hdistinct.once
    obtain ⟨hname, hr, hi⟩ := entry_eq_some hm
    obtain ⟨hname', hr', hi'⟩ := entry_eq_some hm'
    rw [hname, hname']
    exact hne (hr.trans hr'.symm) (hi.trans hi'.symm)
  clear h hdistinct
  induction additions with
  | nil => exact List.Pairwise.nil
  | cons a additions ih =>
    refine pairwise_cons.2 ⟨fun b hb hr hi => ?_, ih fun required instance_ => ?_⟩
    · have hlist := hsorted a.isRequiredMethod a.isInstanceMethod
      have hentry : a.entry a.isRequiredMethod a.isInstanceMethod =
          some ⟨a.name, a.types.getD "", ()⟩ := if_pos ⟨rfl, rfl⟩
      rw [filterMap_cons, hentry] at hlist
      exact (pairwise_cons.1 hlist).1 ⟨b.name, b.types.getD "", ()⟩
        (mem_filterMap.2 ⟨b, hb, if_pos ⟨hr.symm, hi.symm⟩⟩)
    · exact (hsorted required instance_).sublist ((sublist_cons_self a additions).filterMap _)

/-- A protocol whose lists have been filled in the order of the selectors finds the
methods that have been added, and no others. If no selector has been added twice
to a list, this order is necessary. -/
theorem getMethodDescription_finds_added (additions : List Addition) :
    (InOrder additions → FindsAdded additions) ∧
      (Distinct additions → (FindsAdded additions ↔ InOrder additions)) :=
  ⟨InOrder.findsAdded, fun hdistinct => ⟨fun h => h.inOrder hdistinct, InOrder.findsAdded⟩⟩

/-- Two required instance methods, the one with the lower address first. -/
theorem getMethodDescription_finds_added_two :
    InOrder [⟨1, none, true, true⟩, ⟨2, none, true, true⟩] ∧
      FindsAdded [⟨1, none, true, true⟩, ⟨2, none, true, true⟩] := by
  have horder : InOrder [⟨1, none, true, true⟩, ⟨2, none, true, true⟩] :=
    pairwise_pair.2 fun _ _ => by decide
  exact ⟨horder, (getMethodDescription_finds_added _).1 horder⟩

/-- With the higher address first, the first method is not found. -/
theorem getMethodDescription_misses_added :
    Added [⟨2, none, true, true⟩, ⟨1, none, true, true⟩] 2 true true ∧
      getMethodDescription (build [⟨2, none, true, true⟩, ⟨1, none, true, true⟩]) 2 true true =
        .nil ∧
      ¬ FindsAdded [⟨2, none, true, true⟩, ⟨1, none, true, true⟩] := by
  have hadded : Added [⟨2, none, true, true⟩, ⟨1, none, true, true⟩] 2 true true :=
    ⟨_, mem_cons_self, rfl, rfl, rfl⟩
  refine ⟨hadded, by decide, fun h => absurd ((h 2 true true).1 hadded) (by decide)⟩

end ObjcRuntime.Protocols
