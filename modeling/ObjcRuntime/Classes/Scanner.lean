import ObjcRuntime.Classes.State

/-!
# ObjcRuntime.Classes.Scanner

The walks over the realized classes, and what is done by them: flushing method
caches and tracking which classes still have the default implementations of a
bundle of selectors.

The three scanners of the source are instances of one template; here they are
one definition each with the bundle as a parameter. What differs between the
bundles is in `Bundle.sels`, `Bundle.domain` and `knownClassHasDefaultImpl`.
-/

namespace ObjcRuntime.Classes

open Function Lib

variable {κ : Type} [MethodCache κ] {ρ : Type}
variable (img : Image) (count : Nat)

/-! ### Enumerating classes -/

/-- `foreach_realized_class_and_subclass`, for code that changes a record of the
class it is called on. The counter is decremented before it is tested. -/
def foreachRealizedClassAndSubclass (s : State κ) (top : Cls) (code : Cls → ρ → Bool × ρ)
    (m : Cls → ρ) : Option (Cls → ρ) :=
  (s.links.traverse code top (count - 1) (.visit top) m).map (·.2)

/-- `foreach_realized_class_and_metaclass` -/
def foreachRealizedClassAndMetaclass (s : State κ) (code : Cls → ρ → Bool × ρ) (m : Cls → ρ) :
    Option (Cls → ρ) :=
  (s.links.traverseRoots code count (count - 1) s.firstRealizedClass m).map (·.2)

def flushHandler (predicate : κ → Bool) (_ : Cls) (k : κ) : Bool × κ :=
  (true, if predicate k then MethodCache.erase k else k)

/-- `flushCaches`: below a class, or everywhere. -/
def flushCaches (cls : Option Cls) (predicate : κ → Bool) (s : State κ) : Option (State κ) :=
  let caches :=
    match cls with
    | some c => foreachRealizedClassAndSubclass count s c (flushHandler predicate) s.cache
    | none => foreachRealizedClassAndMetaclass count s (flushHandler predicate) s.cache
  caches.map fun cache => { s with cache }

/-! ### Bundles -/

inductive Scope
  | instances | classes | both
  deriving DecidableEq

def Bundle.sels : Bundle → List Sel
  | .awz => [.alloc, .allocWithZone]
  | .rr => [.retain, .release, .autorelease, .tryRetain, .isDeallocating, .retainCount,
      .allowsWeakReference, .retainWeakReference]
  | .core => [.new, .self, .class_, .isKindOfClass, .respondsToSelector]

def Bundle.domain : Bundle → Scope
  | .awz => .classes
  | .rr => if img.nonpointerIsa then .both else .instances
  | .core => .both

/-- The domain takes in the classes, or the metaclasses. -/
def Bundle.covers (b : Bundle) (isMeta : Bool) : Bool :=
  if isMeta then b.domain img ≠ .instances else b.domain img ≠ .classes

def Bundle.isInterestingSelector (b : Bundle) (sel : Sel) : Bool := sel ∈ b.sels

/-- `method_lists_contains_any` for the selectors of the bundle. -/
def scanMethodLists (b : Bundle) (s : State κ) (cls : Cls) (mlists : List (List MethodId)) : Bool :=
  mlists.any fun mlist => b.sels.any fun sel => (searchMethodList s cls sel mlist).isSome

/-- From `beginCategoryMethodLists()` to `endCategoryMethodLists(cls)`. -/
def categoryMethodLists (s : State κ) (cls : Cls) : List (List MethodId) :=
  let mlists := (s.methods img cls).lists
  if (baseMethods img cls).isNone then mlists else mlists.dropLast

def knownClassHasDefaultImpl (s : State κ) (b : Bundle) (cls : Cls) (isMeta : Bool) : Bool :=
  if cls = img.nso isMeta then true
  else
    match b with
    | .core => ((s.superclass cls).isNone || img.isRootMetaclass cls) && img.isSwiftObject cls
    | _ => false

/-- Run a scanner for each bundle. -/
def forBundles (scan : Bundle → State κ → Option (State κ)) (s : State κ) : Option (State κ) := do
  let s ← scan .awz s
  let s ← scan .rr s
  scan .core s

/-! ### The scanners -/

/-- Mark a class and its initialized subclasses; what is custom already has only
custom classes below it. -/
def setCustomRecursively (b : Bundle) (cls : Cls) (s : State κ) : Option (State κ) :=
  let code (c : Cls) (isDefault : Bool) : Bool × Bool :=
    -- a subclass that is not initialized waits for setInitialized()
    if c ≠ cls ∧ s.isInitialized img c = false then (false, isDefault)
    else if isDefault = false then (false, isDefault)
    else (true, false)
  (foreachRealizedClassAndSubclass count s cls code (s.isDefault b)).map fun d =>
    { s with isDefault := update s.isDefault b d }

def setNSObjectSwizzled (b : Bundle) (nso : Cls) (isMeta : Bool) (s : State κ) : Option (State κ) :=
  let mask := update (s.swizzled b) isMeta true
  let s := { s with swizzled := update s.swizzled b mask }
  if s.isInitialized img nso then setCustomRecursively img count b nso s else some s

/-- Is the method one of NSObject's, or of its metaclass's? -/
def scanChangedMethodOf (b : Bundle) (isMeta : Bool) (owner : Cls) (m : MethodId) (s : State κ) :
    Option (State κ) :=
  if b.covers img isMeta ∧ s.swizzled b isMeta = false ∧ owner = img.nso isMeta ∧
      (s.methods img (img.nso isMeta)).lists.any (·.contains m) then
    setNSObjectSwizzled img count b (img.nso isMeta) isMeta s
  else some s

def scanChangedMethodForUnknownClass (b : Bundle) (owner : Cls) (m : MethodId) (s : State κ) :
    Option (State κ) := do
  let s ← scanChangedMethodOf img count b false owner m s
  scanChangedMethodOf img count b true owner m s

/-- What `scanAddedClassImpl` decides for a class or its metaclass. -/
def scannedCustom (b : Bundle) (cls : Cls) (isMeta : Bool) (s : State κ) : Bool :=
  if s.swizzled b isMeta then true
  else if knownClassHasDefaultImpl img s b cls isMeta then
    -- known to have the default implementations, but there may be categories
    scanMethodLists b s cls (categoryMethodLists img s cls)
  else
    match s.superclass cls with
    -- custom root class
    | none => true
    | some supercls =>
      if s.isCustom b supercls then true else scanMethodLists b s cls (s.methods img cls).lists

def setDefault (b : Bundle) (cls : Cls) (s : State κ) : State κ :=
  { s with isDefault := update s.isDefault b (update (s.isDefault b) cls true) }

def scanAddedClassImpl (b : Bundle) (cls : Cls) (isMeta : Bool) (s : State κ) : State κ :=
  if scannedCustom img b cls isMeta s then s else setDefault b cls s

/-- The scan of a class, where the domain takes it in. -/
def scanCoveredClass (b : Bundle) (cls : Cls) (isMeta : Bool) (s : State κ) : State κ :=
  if b.covers img isMeta then scanAddedClassImpl img b cls isMeta s else s

def scanInitializedClass (b : Bundle) (cls metacls : Cls) (s : State κ) : State κ :=
  scanCoveredClass img b metacls true (scanCoveredClass img b cls false s)

def scanAddedSubClass (b : Bundle) (subcls supercls : Cls) (s : State κ) : Option (State κ) :=
  if s.isCustom b supercls ∧ s.isCustom b subcls = false then
    setCustomRecursively img count b subcls s
  else some s

def scanAddedMethodLists (b : Bundle) (cls : Cls) (mlists : List (List MethodId)) (s : State κ) :
    Option (State κ) :=
  if s.isCustom b cls then some s
  else if scanMethodLists b s cls mlists then setCustomRecursively img count b cls s
  else some s

/-- A method of class `owner` has got another implementation; `cls` is the class
if the caller knows it. -/
def scanChangedMethod (b : Bundle) (cls : Option Cls) (owner : Cls) (m : MethodId) (s : State κ) :
    Option (State κ) :=
  if b.isInterestingSelector (s.method owner m).name = false then some s
  else
    match cls with
    | some cls =>
      let isMeta := img.isMeta cls
      if b.covers img isMeta ∧ cls = img.nso isMeta ∧ s.swizzled b isMeta = false then
        setNSObjectSwizzled img count b cls isMeta s
      else some s
    | none => scanChangedMethodForUnknownClass img count b owner m s

def adjustCustomFlagsForMethodChange (cls : Option Cls) (owner : Cls) (m : MethodId)
    (s : State κ) : Option (State κ) :=
  forBundles (fun b => scanChangedMethod img count b cls owner m) s

/-- `objc_class::setInitialized` -/
def setInitialized (cls : Cls) (s : State κ) : State κ :=
  let metacls := img.isa cls
  let s := scanInitializedClass img .awz cls metacls s
  let s := scanInitializedClass img .rr cls metacls s
  let s := scanInitializedClass img .core cls metacls s
  { s with initialized := update s.initialized metacls true }

/-! ### The class graph -/

def addRootClass (cls : Cls) (s : State κ) : State κ :=
  { s with
    nextSiblingClass := update s.nextSiblingClass cls s.firstRealizedClass
    firstRealizedClass := some cls }

/-- Make `subcls` the first subclass of `supercls`. -/
def State.pushSubclass (s : State κ) (supercls subcls : Cls) : State κ :=
  { s with
    nextSiblingClass := update s.nextSiblingClass subcls (s.firstSubclass supercls)
    firstSubclass := update s.firstSubclass supercls (some subcls) }

def addSubclass (supercls subcls : Cls) (s : State κ) : Option (State κ) :=
  forBundles (fun b => scanAddedSubClass img count b subcls supercls)
    (s.pushSubclass supercls subcls)

/-- The loop over the siblings is bounded by `count`, which the source does not
do. -/
def removeSubclass (supercls subcls : Cls) (s : State κ) : Option (State κ) :=
  (s.links.unlink count supercls subcls).map fun links =>
    { s with firstSubclass := links.first, nextSiblingClass := links.next }

end ObjcRuntime.Classes
