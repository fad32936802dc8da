import Mathlib.Data.List.Basic
import ObjcRuntime.Lib.Interleave

/-!
# ObjcRuntime.Initialize.Machine

`initializeNonMetaClass` on any number of threads.

A thread is a stack of frames, one for every activation of
`initializeNonMetaClass` it is in: an activation may be waiting for the one of its
superclass, and the body of a `+initialize` may start others. A frame names the
next step of its activation. A region under `classInitLock` is one step, and so is
every look at the flags of a class outside of one; what a thread does to its own
list of classes is part of the step before.

The flags are kept per class, the source keeps them in the metaclass. The
callbacks of `_objc_addWillInitializeClassFunc` are left out, and so is the side of
a `fork` child.
-/

namespace ObjcRuntime.Initialize

open Function List

variable {κ τ : Type} [DecidableEq κ]

/-- The `_objc_fatal` calls. -/
inductive Fatal
  /-- "thread is already initializing this class!" -/
  | alreadyInitializing
  /-- "thread is not initializing this class!" -/
  | notInitializing
  /-- "thread-safe class init in objc runtime is buggy!" -/
  | buggy
  deriving Repr, DecidableEq

/-! ### The list of a thread -/

/-- `_objc_initializing_classes`: slots, of which some are nil. -/
abbrev InitializingClasses (κ : Type) := List (Option κ)

/-- `_fetchInitializingClassList(YES)` -/
def fetchInitializingClassList (list : InitializingClasses κ) : InitializingClasses κ :=
  if list.isEmpty then List.replicate 4 none else list

/-- `_thisThreadIsInitializingClass` -/
def thisThreadIsInitializingClass (list : InitializingClasses κ) (cls : κ) : Bool :=
  list.contains (some cls)

/-- A free slot is used; with none free the list grows to twice its size and one. -/
def storeClass (list : InitializingClasses κ) (cls : κ) : InitializingClasses κ :=
  if list.contains none then list.set (list.idxOf none) (some cls)
  else list ++ some cls :: List.replicate list.length none

/-- `_setThisThreadIsInitializingClass` -/
def setThisThreadIsInitializingClass (list : InitializingClasses κ) (cls : κ) :
    Except Fatal (InitializingClasses κ) :=
  -- paranoia: explicitly disallow duplicates
  if (fetchInitializingClassList list).contains (some cls) then .error .alreadyInitializing
  else .ok (storeClass (fetchInitializingClassList list) cls)

/-- `_setThisThreadIsNotInitializingClass` -/
def setThisThreadIsNotInitializingClass (list : InitializingClasses κ) (cls : κ) :
    Except Fatal (InitializingClasses κ) :=
  if list.contains (some cls) then .ok (list.set (list.idxOf (some cls)) none)
  else .error .notInitializing

/-! ### What the threads share -/

/-- The flags and the pending map, and three ghosts that only `Step` sets: the thread
that set `INITIALIZING`, the number of times `+initialize` was sent, and whether it
is over. -/
structure Shared (κ τ : Type) where
  initializing : κ → Bool
  initialized : κ → Bool
  /-- `pendingInitializeMap`: the lists of all superclasses in one, as pairs of a
  superclass and a subclass, the newest first. -/
  pending : List (κ × κ)
  owner : κ → Option τ
  sent : κ → Nat
  done : κ → Bool

namespace Shared

variable (g : Shared κ τ)

/-- `setInitializing` -/
def setInitializing (cls : κ) : Shared κ τ :=
  { g with initializing := update g.initializing cls true }

/-- `setInitialized`: `changeInfo(RW_INITIALIZED, RW_INITIALIZING)`. -/
def setInitialized (cls : κ) : Shared κ τ :=
  { g with
    initialized := update g.initialized cls true
    initializing := update g.initializing cls false }

/-- The subclasses that wait for `cls`. -/
def pendingUnder (cls : κ) : List κ := (g.pending.filter fun p => p.1 = cls).map Prod.snd

/-- `pendingInitializeMap->erase(cls)` -/
def erasePending (cls : κ) : Shared κ τ :=
  { g with pending := g.pending.filter fun p => p.1 ≠ cls }

theorem length_pendingUnder (cls : κ) :
    (g.pendingUnder cls).length + (g.erasePending cls).pending.length = g.pending.length := by
  unfold pendingUnder erasePending
  induction g.pending with
  | nil => rfl
  | cons p pending ih =>
    by_cases hp : p.1 = cls
    · simp only [filter_cons, hp, decide_true, ne_eq, not_true_eq_false, decide_false,
        if_true, map_cons, length_cons] at ih ⊢
      simp only [Bool.false_eq_true, if_false]
      omega
    · simp only [filter_cons, hp, decide_false, ne_eq, not_false_eq_true, decide_true,
        if_true, length_cons] at ih ⊢
      simp only [Bool.false_eq_true, if_false]
      omega

end Shared

/-- `_finishInitializing`. The recursion over the pending list is an explicit stack:
the classes that wait for `cls` come before what is left of the list that `cls` was
in. -/
def finishInitializing (g : Shared κ τ) (list : InitializingClasses κ) :
    List κ → Except Fatal (Shared κ τ × InitializingClasses κ)
  | [] => .ok (g, list)
  | cls :: rest =>
    match setThisThreadIsNotInitializingClass list cls with
    | .error e => .error e
    | .ok list =>
      -- mark any subclasses that were merely waiting for this class
      finishInitializing ((g.setInitialized cls).erasePending cls) list
        ((g.setInitialized cls).pendingUnder cls ++ rest)
termination_by work => g.pending.length + work.length
decreasing_by
  have hlength := (g.setInitialized cls).length_pendingUnder cls
  have hsame : (g.setInitialized cls).pending = g.pending := rfl
  rw [hsame] at hlength
  simp only [length_append, length_cons]
  omega

/-- `_finishInitializingAfter` -/
def finishInitializingAfter (g : Shared κ τ) (cls supercls : κ) : Shared κ τ :=
  { g with pending := (supercls, cls) :: g.pending }

/-- `lockAndFinishInitializing` -/
def lockAndFinishInitializing (g : Shared κ τ) (list : InitializingClasses κ) (cls : κ)
    (supercls : Option κ) : Except Fatal (Shared κ τ × InitializingClasses κ) :=
  match supercls with
  | none => finishInitializing g list [cls]
  | some supercls =>
    if g.initialized supercls then finishInitializing g list [cls]
    else .ok (finishInitializingAfter g cls supercls, list)

/-! ### The machine -/

/-- Where an activation of `initializeNonMetaClass(cls)` stands. -/
inductive Frame (κ : Type)
  /-- `supercls && !supercls->isInitialized()` -/
  | superCheck (cls : κ)
  /-- In `initializeNonMetaClass(supercls)`. -/
  | superCall (cls : κ)
  /-- The region that tries to set `INITIALIZING`. -/
  | tryLock (cls : κ)
  /-- `callInitialize(cls)` -/
  | send (cls : κ)
  /-- In the body of `+initialize`. -/
  | body (cls : κ)
  /-- `lockAndFinishInitializing`, then return or rethrow. -/
  | finish (cls : κ) (thrown : Bool)
  /-- `cls->isInitializing()` -/
  | testInitializing (cls : κ)
  /-- `cls->isInitialized()` -/
  | testInitialized (cls : κ)
  /-- Blocked in `waitForInitializeToComplete(cls)`. -/
  | wait (cls : κ)
  /-- Returns, or throws what `+initialize` has thrown. -/
  | ret (cls : κ) (thrown : Bool)
  | fatal (e : Fatal)
  deriving Repr, DecidableEq

/-- A thread: its frames, the innermost first, and its list of classes. -/
structure Thread (κ : Type) where
  stack : List (Frame κ)
  list : InitializingClasses κ
  deriving Repr, DecidableEq

/-- One step of thread `t`. -/
inductive Step (superclass : κ → Option κ) (t : τ) :
    Shared κ τ → Thread κ → Shared κ τ → Thread κ → Prop
  /-- A call from outside. -/
  | call {g list} (cls : κ) :
      Step superclass t g ⟨[], list⟩ g ⟨[.superCheck cls], list⟩
  /-- A call from the body of a `+initialize`. -/
  | bodyCall {g list rest c}
      (cls : κ) :
      Step superclass t g ⟨.body c :: rest, list⟩ g ⟨.superCheck cls :: .body c :: rest, list⟩
  | superDone {g list rest cls} :
      (∀ supercls, superclass cls = some supercls → g.initialized supercls = true) →
      Step superclass t g ⟨.superCheck cls :: rest, list⟩ g ⟨.tryLock cls :: rest, list⟩
  | superCall {g list rest cls supercls} :
      superclass cls = some supercls → g.initialized supercls = false →
      Step superclass t g ⟨.superCheck cls :: rest, list⟩
        g ⟨.superCheck supercls :: .superCall cls :: rest, list⟩
  | setInitializing {g list list' rest cls} :
      g.initialized cls = false → g.initializing cls = false →
      setThisThreadIsInitializingClass list cls = .ok list' →
      Step superclass t g ⟨.tryLock cls :: rest, list⟩
        { g.setInitializing cls with owner := update g.owner cls (some t) }
        ⟨.send cls :: rest, list'⟩
  | setInitializingFatal {g list rest cls e} :
      g.initialized cls = false → g.initializing cls = false →
      setThisThreadIsInitializingClass list cls = .error e →
      Step superclass t g ⟨.tryLock cls :: rest, list⟩
        (g.setInitializing cls) ⟨.fatal e :: rest, list⟩
  | alreadySet {g list rest cls} :
      g.initialized cls = true ∨ g.initializing cls = true →
      Step superclass t g ⟨.tryLock cls :: rest, list⟩ g ⟨.testInitializing cls :: rest, list⟩
  | send {g list rest cls} :
      Step superclass t g ⟨.send cls :: rest, list⟩
        { g with sent := update g.sent cls (g.sent cls + 1) }
        ⟨.body cls :: rest, list⟩
  /-- The body returns, or throws. -/
  | bodyEnd {g list rest cls}
      (thrown : Bool) :
      Step superclass t g ⟨.body cls :: rest, list⟩ g ⟨.finish cls thrown :: rest, list⟩
  | finish {g g' list list' rest cls thrown} :
      lockAndFinishInitializing { g with done := update g.done cls true } list cls
        (superclass cls) = .ok (g', list') →
      Step superclass t g ⟨.finish cls thrown :: rest, list⟩ g' ⟨.ret cls thrown :: rest, list'⟩
  | finishFatal {g list rest cls thrown e} :
      lockAndFinishInitializing { g with done := update g.done cls true } list cls
        (superclass cls) = .error e →
      Step superclass t g ⟨.finish cls thrown :: rest, list⟩ g ⟨.fatal e :: rest, list⟩
  | initializingHere {g list rest cls} :
      g.initializing cls = true → thisThreadIsInitializingClass list cls = true →
      Step superclass t g ⟨.testInitializing cls :: rest, list⟩ g ⟨.ret cls false :: rest, list⟩
  | initializingElsewhere {g list rest cls} :
      g.initializing cls = true → thisThreadIsInitializingClass list cls = false →
      Step superclass t g ⟨.testInitializing cls :: rest, list⟩ g ⟨.wait cls :: rest, list⟩
  | notInitializing {g list rest cls} :
      g.initializing cls = false →
      Step superclass t g ⟨.testInitializing cls :: rest, list⟩
        g ⟨.testInitialized cls :: rest, list⟩
  | initialized {g list rest cls} :
      g.initialized cls = true →
      Step superclass t g ⟨.testInitialized cls :: rest, list⟩ g ⟨.ret cls false :: rest, list⟩
  | buggy {g list rest cls} :
      g.initialized cls = false →
      Step superclass t g ⟨.testInitialized cls :: rest, list⟩ g ⟨.fatal .buggy :: rest, list⟩
  | wake {g list rest cls} :
      g.initialized cls = true →
      Step superclass t g ⟨.wait cls :: rest, list⟩ g ⟨.ret cls false :: rest, list⟩
  -- a frame that returns or throws resumes the one below
  | retOuter {g list cls thrown} :
      Step superclass t g ⟨[.ret cls thrown], list⟩ g ⟨[], list⟩
  | retSuper {g list rest cls c} :
      Step superclass t g ⟨.ret cls false :: .superCall c :: rest, list⟩
        g ⟨.tryLock c :: rest, list⟩
  | throwSuper {g list rest cls c} :
      Step superclass t g ⟨.ret cls true :: .superCall c :: rest, list⟩
        g ⟨.ret c true :: rest, list⟩
  /-- The body goes on after its call, or catches what the call has thrown; it may
  throw that itself. -/
  | retBody {g list rest cls c thrown} :
      Step superclass t g ⟨.ret cls thrown :: .body c :: rest, list⟩ g ⟨.body c :: rest, list⟩

/-- No class has been looked at. -/
def Shared.init (κ τ : Type) : Shared κ τ where
  initializing := fun _ => false
  initialized := fun _ => false
  pending := []
  owner := fun _ => none
  sent := fun _ => 0
  done := fun _ => false

def Reachable [DecidableEq τ] (superclass : κ → Option κ)
    (s : Lib.Threads τ (Shared κ τ) (Thread κ)) : Prop :=
  Relation.ReflTransGen (Lib.Interleave (Step superclass))
    ⟨Shared.init κ τ, fun _ => ⟨[], []⟩⟩ s

end ObjcRuntime.Initialize
