import ObjcRuntime.Assoc.Table
import ObjcRuntime.Lib.Interleave

/-!
# ObjcRuntime.Assoc.Machine

Threads that set, get and remove associated objects.

A region under `AssociationsManagerLock` is one step, and what is done outside of
it, retaining, copying and releasing values and setting `has_assoc`, are steps of
their own. The object is never nil here, and `_noteAssociatedObjects` is left out:
whatever it does, no lock is held, so it is as if another thread did it.

A value is stored together with the number of the call that stored it (`Ref`), and
`Step` writes everything that happens to values into the log. Both are there to
speak about references, as are `caller` and `place`: the source has neither.
-/

namespace ObjcRuntime.Assoc

open Lib

variable {τ ω κ ν : Type} [DecidableEq τ] [DecidableEq ω] [DecidableEq κ] [DecidableEq ν]

/-! ### References and events -/

/-- The reference that a call of `objc_setAssociatedObject` stores. -/
@[ext]
structure Ref (ν : Type) where
  obj : ν
  call : Nat
  deriving Repr, DecidableEq

abbrev Association (ν : Type) := ObjcAssociation (Ref ν)

inductive Event (ω κ ν : Type)
  /-- `acquireValue` in call `n` -/
  | retain (n : Nat) (v : ν)
  | copy (n : Nat) (v : ν) (copied : Option ν)
  /-- The region of call `n`, which stores an association, -/
  | store (n : Nat) (o : ω) (k : κ) (a : Association ν) (isFirst : Bool)
  /-- or takes one out. -/
  | clear (o : ω) (k : κ)
  | returned (n : Nat)
  | remove (o : ω) (deallocating : Bool)
  /-- The region of a get: what it found, and whether it retained the value. -/
  | get (o : ω) (k : κ) (found : Option (Association ν)) (retained : Bool)
  | autorelease (r : Ref ν)
  | release (r : Ref ν)
  deriving DecidableEq

/-- Where the reference of a call is. -/
inductive Place (τ ω κ : Type)
  | fresh
  | hand (t : τ)
  | slot (o : ω) (k : κ)
  | gone

/-! ### The state -/

/-- What is known about the objects. -/
structure Objects (ω : Type) where
  isTaggedPointer : ω → Bool
  nonpointer : ω → Bool
  /-- `getIsa()->forbidsAssociatedObjects()`, where setting is a fatal error. -/
  forbids : ω → Bool

structure Shared (τ ω κ ν : Type) where
  associations : AssociationsHashMap ω κ (Ref ν)
  /-- The bit of the isa. -/
  hasAssoc : ω → Bool
  next : Nat
  caller : Nat → Option τ
  place : Nat → Place τ ω κ
  log : List (Event ω κ ν)

def Shared.init : Shared τ ω κ ν := ⟨∅, fun _ => false, 0, fun _ => none, fun _ => .fresh, []⟩

/-- The next step of a thread. -/
inductive Pc (ω κ ν : Type)
  | idle
  /-- Call `n` of `_object_set_associative_reference`, with the value acquired; -/
  | setting (n : Nat) (o : ω) (k : κ) (isNil : Bool) (association : Association ν)
  /-- after the region; -/
  | stored (n : Nat) (o : ω) (isFirst : Bool) (association : Association ν)
  /-- at its last line. -/
  | finishing (n : Nat) (association : Association ν)
  /-- `_object_get_associative_reference` after its region. -/
  | got (association : Association ν)
  /-- `_object_remove_assocations`, -/
  | removing (o : ω) (deallocating : Bool)
  /-- and in its loops. -/
  | releasing (deallocating : Bool) (refs laterRefs : List (Association ν))

/-! ### Steps -/

section Steps

variable (env : Objects ω)

/-- `objc_object::hasAssociatedObjects` -/
def hasAssociatedObjects (g : Shared τ ω κ ν) (o : ω) : Bool :=
  if env.isTaggedPointer o then true
  else if env.nonpointer o then g.hasAssoc o
  else true

/-- `objc_object::setHasAssociatedObjects` -/
def setHasAssociatedObjects (g : Shared τ ω κ ν) (o : ω) : Shared τ ω κ ν :=
  if env.isTaggedPointer o then g
  else if !env.nonpointer o || g.hasAssoc o then g
  else { g with hasAssoc := Function.update g.hasAssoc o true }

/-- `acquireValue` for call `n`: the value it leaves and what happened. -/
def acquireValue (n policy : Nat) (value copied : Option ν) : Option (Ref ν) × List (Event ω κ ν) :=
  match value with
  | none => (none, [])
  | some v =>
    match acquisition policy with
    | .assign => (some ⟨v, n⟩, [])
    | .retain => (some ⟨v, n⟩, [.retain n v])
    | .copy => (copied.map (⟨·, n⟩), [.copy n v copied])

/-- `releaseHeldValue` -/
def releaseHeldValue (a : Association ν) : List (Event ω κ ν) :=
  match a.value with
  | some r => if holds a.policy then [.release r] else []
  | none => []

/-- Does `retainReturnedValue` retain? -/
def retainReturnedValue (a : Association ν) : Bool := a.value.isSome && retainsReturned a.policy

/-- `autoreleaseReturnedValue` -/
def autoreleaseReturnedValue (a : Association ν) : List (Event ω κ ν) :=
  match a.value with
  | some r => if autoreleasesReturned a.policy then [.autorelease r] else []
  | none => []

/-- Does the association carry the reference of call `n`? -/
def ObjcAssociation.carries (a : Association ν) (n : Nat) : Bool := a.value.any (·.call = n)

/-- The references of some associations are now at `p`. -/
def moved (place : Nat → Place τ ω κ) (as : List (Association ν)) (p : Place τ ω κ) :
    Nat → Place τ ω κ :=
  fun n => if as.any (·.carries n) then p else place n

/-- A call of `objc_setAssociatedObject` begins. -/
def Shared.beginSet (g : Shared τ ω κ ν) (t : τ) (association : Association ν)
    (events : List (Event ω κ ν)) : Shared τ ω κ ν :=
  { g with
    next := g.next + 1
    caller := Function.update g.caller g.next (some t)
    place := Function.update g.place g.next (if association.value.isSome then .hand t else .gone)
    log := g.log ++ events }

/-- The associations that the loops of `_object_remove_assocations` release. -/
def toRelease (deallocating : Bool) (refs : List (Association ν)) : List (Association ν) :=
  refs.filter fun a => deallocating || !a.isSystem

/-- A value is released. -/
def Shared.release (g : Shared τ ω κ ν) (a : Association ν) : Shared τ ω κ ν :=
  { g with place := moved g.place [a] .gone, log := g.log ++ releaseHeldValue a }

/-- One step of thread `t`. -/
inductive Step (t : τ) :
    Shared τ ω κ ν → Pc ω κ ν → Shared τ ω κ ν → Pc ω κ ν → Prop
  /-- `objc_setAssociatedObject` up to the lock; a copy may be any object, or nil. -/
  | set {g} (o : ω) (k : κ) (value : Option ν) (policy : Nat) (copied : Option ν)
      {association events} :
      policy ∈ documented → env.forbids o = false →
      acquireValue g.next policy value copied = (association.value, events) →
      association.policy = policy →
      Step t g .idle (g.beginSet t association events)
        (.setting g.next o k value.isNone association)
  | store {g n o k a old isFirst associations} :
      setValue o k a g.associations = (old, isFirst, associations) →
      Step t g (.setting n o k false a)
        { g with
          associations
          place := moved (moved g.place [a] (.slot o k)) [old] (.hand t)
          log := g.log ++ [.store n o k a isFirst] }
        (.stored n o isFirst old)
  | clear {g n o k a old associations} :
      setNil o k a g.associations = (old, associations) →
      Step t g (.setting n o k true a)
        { g with
          associations
          place := moved g.place [old] (.hand t)
          log := g.log ++ [.clear o k] }
        (.stored n o false old)
  | mark {g n o isFirst a} :
      Step t g (.stored n o isFirst a)
        (if isFirst then setHasAssociatedObjects env g o else g) (.finishing n a)
  | finish {g n a} :
      Step t g (.finishing n a)
        { g.release a with log := (g.release a).log ++ [.returned n] } .idle
  /-- The region of `objc_getAssociatedObject`. -/
  | get {g} (o : ω) (k : κ) :
      Step t g .idle
        { g with
          log := g.log ++ [.get o k (contents g.associations o k)
            ((contents g.associations o k).any retainReturnedValue)] }
        (.got ((contents g.associations o k).getD .empty))
  | endGet {g a} :
      Step t g (.got a) { g with log := g.log ++ autoreleaseReturnedValue a } .idle
  /-- `objc_removeAssociatedObjects` and `objc_destructInstance` look at the flag. -/
  | test {g} (o : ω) (deallocating : Bool) :
      hasAssociatedObjects env g o = true → Step t g .idle g (.removing o deallocating)
  | skip {g} (o : ω) :
      hasAssociatedObjects env g o = false → Step t g .idle g .idle
  | remove {g o deallocating refs associations} :
      removeAssociations o deallocating g.associations = (refs, associations) →
      Step t g (.removing o deallocating)
        { g with
          associations
          place := moved g.place (toRelease deallocating (refs.entries.map Sigma.snd)) (.hand t)
          log := g.log ++ [.remove o deallocating] }
        (.releasing deallocating (refs.entries.map Sigma.snd) [])
  /-- The first loop. -/
  | keep {g a refs later} :
      a.isSystem = true →
        Step t g (.releasing false (a :: refs) later) g (.releasing false refs later)
  | later {g a refs later} :
      a.isSystem = true →
      Step t g (.releasing true (a :: refs) later) g (.releasing true refs (later ++ [a]))
  | release {g deallocating a refs later} :
      a.isSystem = false →
      Step t g (.releasing deallocating (a :: refs) later) (g.release a)
        (.releasing deallocating refs later)
  /-- The second loop. -/
  | releaseLater {g deallocating a later} :
      Step t g (.releasing deallocating [] (a :: later)) (g.release a)
        (.releasing deallocating [] later)
  | done {g deallocating} :
      Step t g (.releasing deallocating [] []) g .idle

/-- Any interleaving of the threads, from the empty table. -/
def Reachable (s : Threads τ (Shared τ ω κ ν) (Pc ω κ ν)) : Prop :=
  Relation.ReflTransGen (Interleave (Step env)) ⟨.init, fun _ => .idle⟩ s

end Steps

end ObjcRuntime.Assoc
