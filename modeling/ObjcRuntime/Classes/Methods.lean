import ObjcRuntime.Classes.Scanner

/-!
# ObjcRuntime.Classes.Methods

The operations on classes under the runtime lock: attaching categories, adding
and changing methods, realizing a class, moving it to another superclass, and
looking up implementations with the caches.

Each operation is one critical section, so the interleavings of several threads
are the sequences of operations. A lookup that calls the method resolver is
several critical sections; `lookUpLocked` is one of them and
`lookUpImpOrForward` is the whole call.
-/

namespace ObjcRuntime.Classes

open Function Lib

variable {κ : Type} [MethodCache κ]
variable (img : Image) (count : Nat)

/-! ### Categories -/

/-- Lists about to be added; the scan is left to `setInitialized` until then. -/
def prepareMethodLists (cls : Cls) (addedLists : List (List MethodId)) (s : State κ) :
    Option (State κ) :=
  if addedLists.isEmpty then some s
  else if s.isInitialized img cls then
    forBundles (fun b => scanAddedMethodLists img count b cls addedLists) s
  else some s

/-- `prepareMethodLists` and `rwe->methods.attachLists`. -/
def prepareAndAttach (cls : Cls) (mlists : List (List MethodId)) (s : State κ) : Option (State κ) :=
  (prepareMethodLists img count cls mlists s).map fun s => s.attachMethodLists img cls mlists

/-- `ATTACH_BUFSIZ` -/
def attachBufsiz : Nat := 64

/-- Put an entry into a buffer that is filled from its end; a full one is attached
first. -/
def bufferEntry {β : Type} (attach : List β → State κ → Option (State κ)) (entry : Option β)
    (buffer : List β) (s : State κ) : Option (List β × State κ) :=
  match entry with
  | none => some (buffer, s)
  | some l =>
    if buffer.length = attachBufsiz then (attach buffer s).map fun s => ([l], s)
    else some (l :: buffer, s)

/-- The three local buffers, first entry first. -/
structure Buffers where
  mlists : List (List MethodId)
  proplists : List (List Nat)
  protolists : List (List Nat)

/-- The loop of `attachCategories`. -/
def attachLoop (cls : Cls) (isMeta : Bool) :
    List Category → Buffers → State κ → Option (Buffers × State κ)
  | [], b, s => some (b, s)
  | cat :: cats, b, s => do
    let mlist := (cat.methodsForMeta isMeta).map (·.map MethodId.image)
    let r ← bufferEntry (prepareAndAttach img count cls) mlist b.mlists s
    let r' ← bufferEntry (fun ls s => some (s.attachPropertyLists img cls ls))
      (cat.propertiesForMeta isMeta) b.proplists r.2
    let r'' ← bufferEntry (fun ls s => some (s.attachProtocolLists img cls ls))
      (cat.protocolsForMeta isMeta) b.protolists r'.2
    attachLoop cls isMeta cats ⟨r.1, r'.1, r''.1⟩ r''.2

/-- The method lists left in the buffer; an existing class is flushed. -/
def attachRest (cls : Cls) (mlists : List (List MethodId)) (existing : Bool) (s : State κ) :
    Option (State κ) :=
  if mlists.isEmpty then some s
  else do
    let s ← prepareAndAttach img count cls mlists s
    if existing then flushCaches count (some cls) (fun _ => true) s else some s

/-- `attachCategories`; `existing` is `ATTACH_EXISTING`. -/
def attachCategories (cls : Cls) (cats : List Category) (isMeta existing : Bool) (s : State κ) :
    Option (State κ) := do
  let s := s.extAllocIfNeeded img cls
  let r ← attachLoop img count cls isMeta cats ⟨[], [], []⟩ s
  let s ← attachRest img count cls r.1.mlists existing r.2
  let s := s.attachPropertyLists img cls r.1.proplists
  some (s.attachProtocolLists img cls r.1.protolists)

/-- `unattachedCategories.addForClass` -/
def addForClass (cat : Category) (cls : Cls) (s : State κ) : State κ :=
  { s with unattached := update s.unattached cls (s.unattached cls ++ [cat]) }

/-- `unattachedCategories.attachToClass` -/
def attachToClass (cls : Cls) (s : State κ) : Option (State κ) :=
  if (s.unattached cls).isEmpty then some s
  else
    (attachCategories img count cls (s.unattached cls) (img.isMeta cls) false s).map fun s =>
      { s with unattached := update s.unattached cls [] }

/-- Attach a category to a class, or leave it for the realization of the class. -/
def attachOrAdd (cat : Category) (cls : Cls) (isMeta : Bool) (s : State κ) : Option (State κ) :=
  if s.realized cls then attachCategories img count cls [cat] isMeta true s
  else some (addForClass cat cls s)

/-- Does the category have anything for the class, or for the metaclass? -/
def Category.concerns (cat : Category) (isMeta : Bool) : Bool :=
  if isMeta then
    cat.classMethods.isSome || cat.protocols.isSome ||
      (cat.hasClassProperties && cat.classProperties.isSome)
  else cat.instanceMethods.isSome || cat.protocols.isSome || cat.instanceProperties.isSome

/-- One half of the work of `load_categories_nolock` for a category. -/
def loadFor (cat : Category) (cls : Cls) (isMeta : Bool) (s : State κ) : Option (State κ) :=
  if cat.concerns isMeta then attachOrAdd img count cat cls isMeta s else some s

/-- The work of `load_categories_nolock` for one category of a class that is not a
stub. -/
def loadCategory (cat : Category) (s : State κ) : Option (State κ) := do
  let s ← loadFor img count cat cat.cls false s
  loadFor img count cat (img.isa cat.cls) true s

/-! ### Adding and changing methods -/

/-- `_method_setImplementation` on a method of `owner`; `cls` is nil if the caller
does not know the class. -/
def methodSetImplementation (cls : Option Cls) (owner : Cls) (m : MethodId) (imp : Imp)
    (s : State κ) : Option (Imp × State κ) :=
  if imp = .nil then some (.nil, s)
  else do
    let old := (s.method owner m).imp
    let sel := (s.method owner m).name
    let s := s.setImp owner m imp
    let s ← flushCaches count cls (fun k => shouldFlush k sel old) s
    let s ← adjustCustomFlagsForMethodChange img count cls owner m s
    some (old, s)

/-- `method_exchangeImplementations` -/
def methodExchangeImplementations (c₁ : Cls) (m₁ : MethodId) (c₂ : Cls) (m₂ : MethodId)
    (s : State κ) : Option (State κ) := do
  let imp₁ := (s.method c₁ m₁).imp
  let imp₂ := (s.method c₂ m₂).imp
  let sel₁ := (s.method c₁ m₁).name
  let sel₂ := (s.method c₂ m₂).name
  let s := (s.setImp c₁ m₁ imp₂).setImp c₂ m₂ imp₁
  let s ← flushCaches count none (fun k => shouldFlush k sel₁ imp₁ || shouldFlush k sel₂ imp₂) s
  let s ← adjustCustomFlagsForMethodChange img count none c₁ m₁ s
  adjustCustomFlagsForMethodChange img count none c₂ m₂ s

/-- A `method_t` in a list that is not attached yet. -/
def State.newMethod (s : State κ) (cls : Cls) (name : Sel) (imp : Imp) : State κ :=
  let methods := update (s.method cls) (.added s.fresh) ⟨name, imp⟩
  { s with method := update s.method cls methods, fresh := s.fresh + 1 }

def addMethodsFinish (cls : Cls) (newlist : List MethodId) (s : State κ) : Option (State κ) := do
  let s := s.extAllocIfNeeded img cls
  let s ← prepareAndAttach img count cls [newlist] s
  flushCaches count (some cls) (fun _ => true) s

def addMethod (cls : Cls) (name : Sel) (imp : Imp) (replace : Bool) (s : State κ) :
    Option (Imp × State κ) :=
  match getMethodNoSuper img s cls name with
  | some m =>
    -- already exists
    if replace then methodSetImplementation img count (some cls) cls m imp s
    else some ((s.method cls m).imp, s)
  | none =>
    (addMethodsFinish img count cls [.added s.fresh] (s.newMethod cls name imp)).map (.nil, ·)

/-- What the loop of `addMethods` has collected. -/
structure Added where
  newlist : List MethodId
  failedNames : List Sel

/-- The loop of `addMethods`. -/
def addMethodsLoop (cls : Cls) (replace : Bool) :
    List (Sel × Imp) → Added → State κ → Option (Added × State κ)
  | [], a, s => some (a, s)
  | (name, imp) :: rest, a, s =>
    match getMethodNoSuper img s cls name with
    | some m =>
      if replace then
        match methodSetImplementation img count (some cls) cls m imp s with
        | some r => addMethodsLoop cls replace rest a r.2
        | none => none
      else addMethodsLoop cls replace rest { a with failedNames := a.failedNames ++ [name] } s
    | none =>
      addMethodsLoop cls replace rest { a with newlist := a.newlist ++ [.added s.fresh] }
        (s.newMethod cls name imp)

def addMethods (cls : Cls) (methods : List (Sel × Imp)) (replace : Bool) (s : State κ) :
    Option (List Sel × State κ) := do
  let r ← addMethodsLoop img count cls replace methods ⟨[], []⟩ s
  if r.1.newlist.isEmpty then some (r.1.failedNames, r.2)
  else (addMethodsFinish img count cls r.1.newlist r.2).map (r.1.failedNames, ·)

/-! ### Realizing and moving classes -/

/-- Root metaclasses get an `initialize` if they have none. -/
def addInitialize (cls : Cls) (s : State κ) : Option (State κ) :=
  if img.isRootMetaclass cls then (addMethod img count cls .initialize_ .noop false s).map (·.2)
  else some s

/-- The base lists need no scan before the class is initialized; they are in place
as long as there is no `class_rw_ext_t`. -/
def methodizeClass (cls : Cls) (s : State κ) : Option (State κ) := do
  let s ← prepareMethodLists img count cls (baseMethods img cls).toList s
  let s ← addInitialize img count cls s
  attachToClass img count cls s

/-- A new `class_rw_t` and an empty cache. -/
def State.allocRw (s : State κ) (cls : Cls) : State κ :=
  { s with
    realized := update s.realized cls true
    firstSubclass := update s.firstSubclass cls none
    nextSiblingClass := update s.nextSiblingClass cls none
    ext := update s.ext cls none
    cache := update s.cache cls MethodCache.empty }

/-- Connect a class to its superclass's subclass list, or to the roots. -/
def linkClass (cls : Cls) (s : State κ) : Option (State κ) :=
  match s.superclass cls with
  | some supercls => addSubclass img count supercls cls s
  | none => some (addRootClass cls s)

/-- `realizeClassWithoutSwift`, with a bound on the depth of the recursion. -/
def realizeClassWithoutSwift : Nat → Option Cls → State κ → Option (State κ)
  | _, none, s => some s
  | 0, some cls, s => if s.realized cls then some s else none
  | depth + 1, some cls, s =>
    if s.realized cls then some s
    else do
      let s := s.allocRw cls
      let s ← realizeClassWithoutSwift depth (s.superclass cls) s
      let s ← realizeClassWithoutSwift depth (some (img.isa cls)) s
      let s ← linkClass img count cls s
      methodizeClass img count cls s

/-- The superclass pointers of a class and of its metaclass. -/
def State.setSuperclasses (s : State κ) (cls newSuper : Cls) : State κ :=
  let superclass := update s.superclass cls (some newSuper)
  { s with superclass := update superclass (img.isa cls) (some (img.isa newSuper)) }

/-- `setSuperclass`: the old superclass is returned. -/
def setSuperclass (cls newSuper : Cls) (s : State κ) : Option (Cls × State κ) :=
  match s.superclass cls with
  | none => none
  | some oldSuper => do
    let s ← removeSubclass count oldSuper cls s
    let s ← removeSubclass count (img.isa oldSuper) (img.isa cls) s
    let s := s.setSuperclasses img cls newSuper
    let s ← addSubclass img count newSuper cls s
    let s ← addSubclass img count (img.isa newSuper) (img.isa cls) s
    let s ← flushCaches count (some cls) (fun _ => true) s
    let s ← flushCaches count (some (img.isa cls)) (fun _ => true) s
    some (oldSuper, s)

/-! ### Lookup -/

/-- The `LOOKUP_` flags. -/
structure Behavior where
  resolver : Bool
  nil : Bool
  nocache : Bool

/-- The search of `lookUpImpOrForward` from `curClass` on, and whether it ended at
an implementation. -/
def searchImp (s : State κ) (sel : Sel) : Nat → Cls → Option (Imp × Bool)
  | attempts, curClass =>
    match getMethodNoSuper img s curClass sel with
    | some m => some ((s.method curClass m).imp, true)
    | none =>
      match s.superclass curClass with
      | none => some (.msgForwardImpcache, false)
      | some supercls =>
        match attempts with
        | 0 => none
        | attempts + 1 =>
          -- superclass cache
          let imp := getImp (s.cache supercls) sel
          if imp = .msgForwardImpcache then some (imp, false)
          else if imp ≠ .nil then some (imp, true)
          else searchImp s sel attempts supercls

/-- `cache_t::insert`: never before `+initialize` is done. -/
def cacheInsert (cls : Cls) (sel : Sel) (imp : Imp) (s : State κ) : State κ :=
  if s.isInitialized img cls then
    { s with cache := update s.cache cls (MethodCache.insert (s.cache cls) sel imp) }
  else s

/-- With `LOOKUP_NIL` a forward entry is nil for the caller. -/
def Behavior.result (behavior : Behavior) (imp : Imp) : Imp :=
  if behavior.nil = true ∧ imp = .msgForwardImpcache then .nil else imp

/-- `lookUpImpOrForward` on a realized class up to the point where it returns, or
where it calls the resolver (`none`). The counter is decremented before it is
tested. -/
def lookUpLocked (sel : Sel) (cls : Cls) (behavior : Behavior) (s : State κ) :
    Option (Option Imp × State κ) :=
  (searchImp img s sel (count - 1) cls).map fun r =>
    if r.2 = false ∧ behavior.resolver = true then (none, s)
    else if behavior.nocache = true ∨ s.isInitialized img cls = false then
      (some (behavior.result r.1), s)
    else (some (behavior.result r.1), cacheInsert img cls sel r.1 s)

/-- `_lookUpImpTryCache`, for callers that do not ask for the resolver. -/
def lookUpImpTryCache (sel : Sel) (cls : Cls) (behavior : Behavior) (s : State κ) :
    Option (Imp × State κ) :=
  let imp := getImp (s.cache cls) sel
  if s.isInitialized img cls = true ∧ imp ≠ .nil then some (behavior.result imp, s)
  else
    (lookUpLocked img count sel cls { behavior with resolver := false } s).map fun r =>
      (r.1.getD .nil, r.2)

/-- `lookUpImpOrNilTryCache` -/
def lookUpImpOrNilTryCache (sel : Sel) (cls : Cls) (s : State κ) : Option (Imp × State κ) :=
  lookUpImpTryCache img count sel cls ⟨false, true, false⟩ s

section Resolver

-- what the class's own resolver does when it is sent to the class
variable (resolver : Cls → Sel → State κ → State κ)

/-- `resolveClassMethod` and `resolveInstanceMethod`: ask `metacls` for the
resolver, call it, and cache the result so that it does not fire again. -/
def resolveBy (resolveSel : Sel) (metacls : Cls) (sel : Sel) (cls : Cls) (s : State κ) :
    Option (State κ) := do
  let r ← lookUpImpOrNilTryCache img count resolveSel metacls s
  if r.1 = .nil then some r.2
  else
    (lookUpImpOrNilTryCache img count sel cls (resolver cls sel r.2)).map (·.2)

def resolveInstanceMethod (sel : Sel) (cls : Cls) (s : State κ) : Option (State κ) :=
  resolveBy img count resolver .resolveInstanceMethod (img.isa cls) sel cls s

def resolveClassMethod (sel : Sel) (cls : Cls) (s : State κ) : Option (State κ) :=
  resolveBy img count resolver .resolveClassMethod cls sel cls s

/-- Call the resolvers that a class or a metaclass has. -/
def callResolvers (sel : Sel) (cls : Cls) (s : State κ) : Option (State κ) :=
  if img.isMeta cls = false then resolveInstanceMethod img count resolver sel cls s
  else do
    let s ← resolveClassMethod img count resolver sel cls s
    let r ← lookUpImpOrNilTryCache img count sel cls s
    if r.1 = .nil then resolveInstanceMethod img count resolver sel cls r.2 else some r.2

/-- `resolveMethod_locked` -/
def resolveMethod (sel : Sel) (cls : Cls) (behavior : Behavior) (s : State κ) :
    Option (Imp × State κ) := do
  let s ← callResolvers img count resolver sel cls s
  lookUpImpTryCache img count sel cls behavior s

/-- `lookUpImpOrForward` on a realized class. -/
def lookUpImpOrForward (sel : Sel) (cls : Cls) (behavior : Behavior) (s : State κ) :
    Option (Imp × State κ) := do
  let r ← lookUpLocked img count sel cls behavior s
  match r.1 with
  | some imp => some (imp, r.2)
  | none => resolveMethod img count resolver sel cls { behavior with resolver := false } r.2

end Resolver

/-- `lookupMethodInClassAndLoadCache`, for `.cxx_construct` and `.cxx_destruct`. -/
def lookupMethodInClassAndLoadCache (cls : Cls) (sel : Sel) (s : State κ) : Imp × State κ :=
  let imp := getImp (s.cache cls) sel
  if imp ≠ .nil then (imp, s)
  else
    let imp :=
      match getMethodNoSuper img s cls sel with
      | some m => (s.method cls m).imp
      | none => .msgForwardImpcache
    (imp, cacheInsert img cls sel imp s)

/-! ### Runs -/

/-- The operations, each under the runtime lock. -/
inductive Act
  | realize (cls : Cls)
  | setInitialized (cls : Cls)
  | lookUp (sel : Sel) (cls : Cls) (behavior : Behavior)
  | lookUpStructor (cls : Cls) (sel : Sel)
  /-- `class_addMethod` and `class_replaceMethod` -/
  | addMethod (cls : Cls) (name : Sel) (imp : Imp) (replace : Bool)
  /-- `class_addMethodsBulk` and `class_replaceMethodsBulk` -/
  | addMethods (cls : Cls) (methods : List (Sel × Imp)) (replace : Bool)
  | setImplementation (owner : Cls) (m : MethodId) (imp : Imp)
  | exchangeImplementations (c₁ : Cls) (m₁ : MethodId) (c₂ : Cls) (m₂ : MethodId)
  | loadCategory (cat : Category)
  | setSuperclass (cls newSuper : Cls)

/-- What callers of the operations see to: a lookup or a change is made on a
realized class, and a superclass is initialized before its subclasses. -/
def Act.Allowed (s : State κ) : Act → Prop
  | .realize _ => True
  | .setInitialized cls => img.isMeta cls = false ∧ s.realized cls = true ∧
      ∀ p, s.superclass cls = some p → s.isInitialized img p = true
  | .lookUp _ cls _ => s.realized cls = true
  | .lookUpStructor cls sel => s.realized cls = true ∧ (sel = .cxxConstruct ∨ sel = .cxxDestruct)
  | .addMethod cls .. => s.realized cls = true
  | .addMethods cls .. => s.realized cls = true
  | .setImplementation .. => True
  | .exchangeImplementations .. => True
  | .loadCategory cat => img.isMeta cat.cls = false
  | .setSuperclass cls newSuper => s.realized cls = true ∧ s.realized newSuper = true ∧
      img.isMeta cls = false ∧ img.isMeta newSuper = false

def step (s : State κ) : Act → Option (State κ)
  | .realize cls => realizeClassWithoutSwift img count count (some cls) s
  | .setInitialized cls => some (setInitialized img cls s)
  | .lookUp sel cls behavior => (lookUpLocked img count sel cls behavior s).map (·.2)
  | .lookUpStructor cls sel => some (lookupMethodInClassAndLoadCache img cls sel s).2
  | .addMethod cls name imp replace => (addMethod img count cls name imp replace s).map (·.2)
  | .addMethods cls methods replace => (addMethods img count cls methods replace s).map (·.2)
  | .setImplementation owner m imp =>
    (methodSetImplementation img count none owner m imp s).map (·.2)
  | .exchangeImplementations c₁ m₁ c₂ m₂ =>
    methodExchangeImplementations img count c₁ m₁ c₂ m₂ s
  | .loadCategory cat => loadCategory img count cat s
  | .setSuperclass cls newSuper => (setSuperclass img count cls newSuper s).map (·.2)

/-- The states that sequences of operations lead to, whatever the counters. -/
inductive Reachable (s₀ : State κ) : State κ → Prop
  | init : Reachable s₀ s₀
  | step {s s'} (count : Nat) (act : Act) : Reachable s₀ s → act.Allowed img s →
      step img count s act = some s' → Reachable s₀ s'

end ObjcRuntime.Classes
