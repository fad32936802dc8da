import ObjcRuntime.Lib.Forest

/-!
# ObjcRuntime.Classes.State

The classes of the runtime: what an image compiled for them (`Image`) and what
the runtime keeps about them while the program runs (`State`).

A method is identified by its class and its place in that class (`MethodId`), so
no two classes share a `method_t`. A method list is the list of its methods in
the order in which `search_method_list` prefers them; sorting a list by selector
address, stably, does not change which method of a name comes first.

The state is a record of maps from classes. `links` collects the three pointers
of the class graph that `foreach_realized_class_and_subclass_2` follows. A value
`none` of a result stands for `_objc_fatal`, and `count` is the value of
`unreasonableClassCount()`.

The caches are any type that keeps the laws of `MethodCache`: an insert may throw
other entries away, and a flush leaves none.
-/

namespace ObjcRuntime.Classes

open Function Lib

/-- The address of a class or metaclass. -/
abbrev Cls := Nat

/-- Selectors; those the runtime itself asks about have names. -/
inductive Sel
  | retain | release | autorelease | tryRetain | isDeallocating | retainCount
  | allowsWeakReference | retainWeakReference
  | alloc | allocWithZone
  | new | self | class_ | isKindOfClass | respondsToSelector
  | initialize_ | resolveInstanceMethod | resolveClassMethod
  | cxxConstruct | cxxDestruct
  | other (n : Nat)
  deriving Repr, DecidableEq

/-- Implementations. -/
inductive Imp
  | nil
  /-- `_objc_msgForward_impcache` -/
  | msgForwardImpcache
  /-- `objc_noop_imp` -/
  | noop
  | code (address : Nat)
  deriving Repr, DecidableEq

structure Method where
  name : Sel
  imp : Imp
  deriving Repr, DecidableEq

/-- A method within its class: compiled into an image, or added at run time. -/
inductive MethodId
  | image (n : Nat)
  | added (n : Nat)
  deriving Repr, DecidableEq

/-! ### Lists of lists -/

/-- `list_array_tt`: no list, a pointer to one list, or an array of lists. -/
inductive ListArray (β : Type)
  | empty
  | list (l : β)
  | array (lists : List β)
  deriving Repr

variable {β : Type}

/-- From `beginLists()` to `endLists()`. -/
def ListArray.lists : ListArray β → List β
  | .empty => []
  | .list l => [l]
  | .array ls => ls

def ListArray.attachLists (a : ListArray β) (addedLists : List β) : ListArray β :=
  if addedLists.isEmpty then a
  else
    match a, addedLists with
    -- many lists -> many lists
    | .array ls, added => .array (added ++ ls)
    -- 0 lists -> 1 list
    | .empty, [l] => .list l
    -- 0 or 1 list -> many lists
    | .empty, added => .array added
    | .list l, added => .array (added ++ [l])

@[simp] theorem ListArray.lists_attachLists (a : ListArray β) (added) :
    (a.attachLists added).lists = added ++ a.lists := by
  cases added with
  | nil => rfl
  | cons l ls =>
    cases a with
    | empty => cases ls <;> simp [attachLists, lists]
    | list l' | array ls' => simp [attachLists, lists]

/-- The array a class without `class_rw_ext_t` has: its base list, if any. -/
def ListArray.ofBase : Option β → ListArray β
  | some l => .list l
  | none => .empty

@[simp] theorem ListArray.lists_ofBase (o : Option β) : (ListArray.ofBase o).lists = o.toList := by
  cases o <;> rfl

/-! ### Images -/

/-- `class_ro_t`: what was compiled for a class. -/
structure ClassRo where
  baseMethods : Option (List Nat)
  baseProperties : Option (List Nat)
  baseProtocols : Option (List Nat)

/-- The classes as compiled, with their metaclasses. -/
structure Image where
  isMeta : Cls → Bool
  isa : Cls → Cls
  superclass : Cls → Option Cls
  ro : Cls → ClassRo
  nsObject : Cls
  /-- `_TtCs12_SwiftObject` and its metaclass go by this name. -/
  isSwiftObject : Cls → Bool
  /-- `SUPPORT_NONPOINTER_ISA` -/
  nonpointerIsa : Bool
  isMeta_isa : ∀ c, isMeta (isa c) = true
  isa_inj : ∀ c d, isMeta c = false → isMeta d = false → isa c = isa d → c = d
  exists_isa : ∀ m, isMeta m = true → ∃ c, isMeta c = false ∧ isa c = m
  superclass_isa : ∀ c p, isMeta c = false → superclass c = some p →
    isMeta p = false ∧ superclass (isa c) = some (isa p)
  superclass_isa_root : ∀ c, isMeta c = false → superclass c = none → superclass (isa c) = some c
  /-- Superclass chains end. -/
  depth : Cls → Nat
  depth_lt : ∀ c p, superclass c = some p → depth p < depth c
  isMeta_nsObject : isMeta nsObject = false
  superclass_nsObject : superclass nsObject = none

section Image

variable (img : Image)

/-- `classNSObject()` -/
def Image.classNSObject : Cls := img.nsObject

/-- `metaclassNSObject()` -/
def Image.metaclassNSObject : Cls := img.isa img.nsObject

/-- NSObject, or its metaclass. -/
def Image.nso (isMeta : Bool) : Cls := if isMeta then img.metaclassNSObject else img.classNSObject

/-- A class is its own metaclass's class: `getMeta()`. -/
def Image.getMeta (c : Cls) : Cls := if img.isMeta c then c else img.isa c

def Image.isRootMetaclass (c : Cls) : Bool := img.isa c = c

end Image

/-- `category_t`, with the answer of `hasCategoryClassProperties` for its image. -/
structure Category where
  cls : Cls
  instanceMethods : Option (List Nat)
  classMethods : Option (List Nat)
  protocols : Option (List Nat)
  instanceProperties : Option (List Nat)
  classProperties : Option (List Nat)
  hasClassProperties : Bool

def Category.methodsForMeta (cat : Category) (isMeta : Bool) : Option (List Nat) :=
  if isMeta then cat.classMethods else cat.instanceMethods

def Category.propertiesForMeta (cat : Category) (isMeta : Bool) : Option (List Nat) :=
  if !isMeta then cat.instanceProperties
  else if cat.hasClassProperties then cat.classProperties
  else none

def Category.protocolsForMeta (cat : Category) (isMeta : Bool) : Option (List Nat) :=
  if isMeta then none else cat.protocols

/-! ### Caches -/

/-- A method cache. -/
class MethodCache (κ : Type) where
  empty : κ
  find : κ → Sel → Option Imp
  insert : κ → Sel → Imp → κ
  /-- `eraseNolock` -/
  erase : κ → κ
  find_empty : ∀ sel, find empty sel = none
  find_erase : ∀ k sel, find (erase k) sel = none
  find_insert : ∀ k sel imp sel' imp', find (insert k sel imp) sel' = some imp' →
    sel' = sel ∧ imp' = imp ∨ find k sel' = some imp'

variable {κ : Type} [MethodCache κ]

/-- `cache_getImp`: nil on a miss. -/
def getImp (k : κ) (sel : Sel) : Imp := (MethodCache.find k sel).getD .nil

/-- `shouldFlush` of a dynamic cache. -/
def shouldFlush (k : κ) (sel : Sel) (imp : Imp) : Bool := getImp k sel = imp

/-! ### The state -/

/-- The bundles of selectors whose overrides are tracked. -/
inductive Bundle
  | awz | rr | core
  deriving Repr, DecidableEq

/-- `class_rw_ext_t` -/
structure RwExt where
  methods : ListArray (List MethodId)
  properties : ListArray (List Nat)
  protocols : ListArray (List Nat)

structure State (κ : Type) where
  superclass : Cls → Option Cls
  firstSubclass : Cls → Option Cls
  nextSiblingClass : Cls → Option Cls
  firstRealizedClass : Option Cls
  realized : Cls → Bool
  /-- `RW_INITIALIZED`, kept in the metaclass. -/
  initialized : Cls → Bool
  ext : Cls → Option RwExt
  cache : Cls → κ
  /-- `hasCustomAWZ`, `hasCustomRR` and `hasCustomCore`, negated. -/
  isDefault : Bundle → Cls → Bool
  method : Cls → MethodId → Method
  /-- The next run-time method. -/
  fresh : Nat
  /-- `NSObjectSwizzledMask`, by bundle and `isMeta`. -/
  swizzled : Bundle → Bool → Bool
  /-- `unattachedCategories`, in the order of their arrival. -/
  unattached : Cls → List Category

/-- The pointers that the walk over the subclasses follows. -/
def State.links (s : State κ) : Links Cls :=
  ⟨s.firstSubclass, s.nextSiblingClass, s.superclass⟩

/-- Before any class is realized. -/
structure Initial (img : Image) (s : State κ) : Prop where
  superclass : s.superclass = img.superclass
  firstRealizedClass : s.firstRealizedClass = none
  realized : ∀ c, s.realized c = false
  initialized : ∀ c, s.initialized c = false
  ext : ∀ c, s.ext c = none
  cache : ∀ c sel, MethodCache.find (s.cache c) sel = none
  isDefault : ∀ b c, s.isDefault b c = false
  firstSubclass : ∀ c, s.firstSubclass c = none
  swizzled : ∀ b m, s.swizzled b m = false
  unattached : ∀ c, s.unattached c = []

/-- `ro->baseMethods()` -/
def baseMethods (img : Image) (c : Cls) : Option (List MethodId) :=
  (img.ro c).baseMethods.map (·.map .image)

section Access

variable (img : Image) (s : State κ)

def State.isInitialized (c : Cls) : Bool := s.initialized (img.getMeta c)

def State.isCustom (b : Bundle) (c : Cls) : Bool := !s.isDefault b c

/-- `data()->methods()` -/
def State.methods (c : Cls) : ListArray (List MethodId) :=
  match s.ext c with
  | some e => e.methods
  | none => .ofBase (baseMethods img c)

/-- `data()->properties()` -/
def State.properties (c : Cls) : ListArray (List Nat) :=
  match s.ext c with
  | some e => e.properties
  | none => .ofBase (img.ro c).baseProperties

/-- `data()->protocols()` -/
def State.protocols (c : Cls) : ListArray (List Nat) :=
  match s.ext c with
  | some e => e.protocols
  | none => .ofBase (img.ro c).baseProtocols

/-- The lists of a class as a `class_rw_ext_t`. -/
def State.rwe (c : Cls) : RwExt := ⟨s.methods img c, s.properties img c, s.protocols img c⟩

def State.setRwe (c : Cls) (e : RwExt) : State κ :=
  { s with ext := update s.ext c (some e) }

def State.extAllocIfNeeded (c : Cls) : State κ := s.setRwe c (s.rwe img c)

/-- `rwe->methods.attachLists` -/
def State.attachMethodLists (c : Cls) (added : List (List MethodId)) : State κ :=
  s.setRwe c { s.rwe img c with methods := (s.methods img c).attachLists added }

/-- `rwe->properties.attachLists` -/
def State.attachPropertyLists (c : Cls) (added : List (List Nat)) : State κ :=
  s.setRwe c { s.rwe img c with properties := (s.properties img c).attachLists added }

/-- `rwe->protocols.attachLists` -/
def State.attachProtocolLists (c : Cls) (added : List (List Nat)) : State κ :=
  s.setRwe c { s.rwe img c with protocols := (s.protocols img c).attachLists added }

/-- `search_method_list`: the first method of that name. -/
def searchMethodList (c : Cls) (sel : Sel) (mlist : List MethodId) : Option MethodId :=
  mlist.find? fun m => (s.method c m).name = sel

/-- `getMethodNoSuper_nolock`: the first list that has the method. -/
def getMethodNoSuper (c : Cls) (sel : Sel) : Option MethodId :=
  (s.methods img c).lists.findSome? (searchMethodList s c sel)

/-- `m->setImp` -/
def State.setImp (c : Cls) (m : MethodId) (imp : Imp) : State κ :=
  let methods := update (s.method c) m { s.method c m with imp }
  { s with method := update s.method c methods }

omit [MethodCache κ] in
theorem rwe_setRwe (c a : Cls) (e) :
    (s.setRwe c e).rwe img a = if a = c then e else s.rwe img a := by
  unfold State.rwe State.methods State.properties State.protocols State.setRwe
  dsimp only
  by_cases h : a = c
  · rw [if_pos h, h, update_self]
  · rw [if_neg h, update_of_ne h]

omit [MethodCache κ] in
theorem methods_setRwe_self {c e} (h : e.methods = s.methods img c) (a : Cls) :
    (s.setRwe c e).methods img a = s.methods img a := by
  change ((s.setRwe c e).rwe img a).methods = _
  rw [rwe_setRwe]
  split
  next heq => rw [h, heq]
  · rfl

end Access

end ObjcRuntime.Classes
