import ObjcRuntime.Lib.Interleave
import ObjcRuntime.Weak.Refinement
import ObjcRuntime.WeakVars.Object

/-!
# ObjcRuntime.WeakVars.Machine

Weak variables, objects and threads: `objc_initWeak`, `objc_storeWeak`,
`objc_storeWeakOrNil`, `objc_destroyWeak`, `objc_moveWeak`,
`objc_loadWeakRetained`, `rootRetain`, `rootRelease` and the deallocation of
objects whose classes have the default retain/release methods.

Every region under a side-table lock is one step, and so is every access outside
of one: the read of the variable before the lock is taken, the test of the isa
in `rootDealloc` and in `clearDeallocating`, the `free`. The weak table is the
map it refines (`Weak.WeakMap`); `World.log` is a ghost that records the operations
made on it, so that the map can be traded for the table.

What the callers owe is in the guards of the steps. A variable is initialized or
moved into only while it is not alive and used only while it is. An object is an
argument only as long as `clearDeallocating` is not through with it: a caller
that may come later may as well come after the `free`. Nothing is asked about the
number of threads that write one variable.
-/

namespace ObjcRuntime.WeakVars

open Function Weak

/-- How far the deallocation of an object is. -/
inductive Phase
  /-- No object at this address. -/
  | freed
  | running
  /-- `rootRelease` returned true: the `dealloc` methods run. -/
  | deallocating
  /-- `rootDealloc` has decided to `free`. -/
  | freeing
  /-- `object_dispose`, up to the test in `clearDeallocating`. -/
  | disposing
  /-- `clearDeallocating` goes for the lock. -/
  | clearing
  /-- `clearDeallocating` is through. -/
  | disposed
  deriving Repr, DecidableEq

/-- The shared state. `alive` and `released` are ghosts: the weak variables
between their initialization and their destruction, and the objects that a
`rootRelease` has returned true for. -/
structure World (L : IsaLayout) where
  map : WeakMap
  objects : Addr → Object L
  phase : Addr → Phase
  released : Addr → Bool
  alive : Addr → Bool
  log : List WeakOp

/-- The arguments of `storeWeak`, with those of the template. -/
structure StoreWeak where
  haveOld : Bool
  haveNew : Bool
  crashIfDeallocating : Bool
  location : Addr
  newObj : Addr
  deriving Repr, DecidableEq

/-- What `storeWeak` asks of `weak_register_no_lock`. -/
def StoreWeak.options (call : StoreWeak) : DeallocatingOptions :=
  if call.crashIfDeallocating then .crashIfDeallocating else .returnNilIfDeallocating

/-- `objc_storeWeak` -/
def objcStoreWeak (location newObj : Addr) : StoreWeak := ⟨true, true, true, location, newObj⟩

/-- `objc_storeWeakOrNil` -/
def objcStoreWeakOrNil (location newObj : Addr) : StoreWeak :=
  ⟨true, true, false, location, newObj⟩

/-- `objc_destroyWeak` -/
def objcDestroyWeak (location : Addr) : StoreWeak := ⟨true, false, false, location, 0⟩

/-- The call that `objc_initWeak` and `objc_initWeakOrNil` end in. -/
def initWeak (crashIfDeallocating : Bool) (location newObj : Addr) : StoreWeak :=
  ⟨false, true, crashIfDeallocating, location, newObj⟩

/-- Where a thread stands. -/
inductive Pc
  /-- Between calls. -/
  | idle
  /-- `objc_initWeak` of nil: `*location = nil`. -/
  | initNil (location : Addr)
  /-- `storeWeak`: `oldObj = *location`. -/
  | storeRetry (call : StoreWeak)
  /-- `storeWeak`: the region under the locks. -/
  | storeLock (call : StoreWeak) (oldObj : Addr)
  /-- `objc_loadWeakRetained`: `obj = *location`. -/
  | loadRetry (location : Addr)
  /-- `objc_loadWeakRetained`: the region under the lock. -/
  | loadLock (location obj : Addr)
  /-- `objc_loadWeakRetained` returns. -/
  | loaded (result : Addr)
  /-- `objc_moveWeak`: `obj = *src`. -/
  | moveRetry (dst src : Addr)
  /-- `objc_moveWeak`: `*dst = nil`. -/
  | moveNil (dst : Addr)
  /-- `objc_moveWeak`: the region under the lock. -/
  | moveLock (dst src obj : Addr)
  deriving Repr, DecidableEq

/-! ### The regions -/

def isTaggedPointerOrNil (isTaggedPointer : Addr → Bool) (o : Addr) : Bool :=
  isTaggedPointer o || o == 0

namespace World

variable {L : IsaLayout} (w : World L)

def setObject (o : Addr) (x : Object L) : World L :=
  { w with objects := update w.objects o x }

def setPhase (o : Addr) (p : Phase) : World L := { w with phase := update w.phase o p }

def setAlive (l : Addr) (b : Bool) : World L := { w with alive := update w.alive l b }

/-- An operation on the weak table or on a weak variable. -/
noncomputable def weakOp (op : WeakOp) : World L :=
  { w with map := w.map.step op, log := w.log ++ [op] }

section

variable (isTaggedPointer : Addr → Bool)

/-- `weak_unregister_no_lock` -/
noncomputable def unregister (referent referrer : Addr) : World L :=
  if isTaggedPointerOrNil isTaggedPointer referent then w
  else w.weakOp (.unregister referent referrer)

/-- Does `weak_register_no_lock` find the object deallocating? -/
def referentCheck (referent : Addr) : ReferentCheck :=
  if (w.objects referent).isDeallocating then .deallocating else .live

/-- `weak_register_no_lock` for an object with the default retain/release
methods: nothing when it halts the process, and else the object or nil. -/
noncomputable def register (referent referrer : Addr) (options : DeallocatingOptions) :
    Option (World L × Addr) :=
  if isTaggedPointerOrNil isTaggedPointer referent then some (w, referent)
  else
    match viable options (w.referentCheck referent) with
    | .error _ => none
    | .ok false => some (w, 0)
    | .ok true =>
      some (w.weakOp (.register referent referrer options (w.referentCheck referent)), referent)

/-- "Assign new value, if any." -/
noncomputable def assign (call : StoreWeak) : Option (World L) :=
  (w.register isTaggedPointer call.newObj call.location call.options).map fun r =>
    let w := if isTaggedPointerOrNil isTaggedPointer r.2 then r.1
      else r.1.setObject r.2 (r.1.objects r.2).setWeaklyReferencedNolock
    (w.weakOp (.store call.location r.2)).setAlive call.location true

/-- The region of `storeWeak`, once `*location` is known to be `oldObj`. -/
noncomputable def storeWeak (call : StoreWeak) (oldObj : Addr) : Option (World L) :=
  let w := if call.haveOld then w.unregister isTaggedPointer oldObj call.location else w
  if call.haveNew then w.assign isTaggedPointer call
  -- no new value: the storage is not changed
  else some (w.setAlive call.location false)

/-- The region of `objc_moveWeak`, once `*src` is known to be `obj`. -/
noncomputable def moveWeak (dst src obj : Addr) : Option (World L) :=
  ((w.unregister isTaggedPointer obj src).register isTaggedPointer obj dst
      .dontCheckDeallocating).map fun r =>
    ((r.1.weakOp (.store dst obj)).weakOp (.store src 0)).setAlive dst true

end

/-- The region of `objc_loadWeakRetained`, once `*location` is known to be `obj`. -/
def loadWeakRetained (obj : Addr) : World L × Addr :=
  let r := (w.objects obj).rootTryRetain
  (w.setObject obj r.1, if r.2 then obj else 0)

def rootRetain (o : Addr) : World L := w.setObject o (w.objects o).rootRetain

def rootRelease (o : Addr) : World L :=
  let r := (w.objects o).rootRelease
  if r.2 then
    { (w.setObject o r.1).setPhase o .deallocating with
      released := update w.released o true }
  else w.setObject o r.1

/-- `initIsa` of a new object. The side table is not touched. -/
def alloc (o : Addr) (nonpointer hasCxxDtor : Bool) : World L :=
  { (w.setObject o
      { nonpointer
        weaklyReferenced := false
        hasAssoc := false
        hasCxxDtor
        hasSidetableRc := false
        extraRc := 1
        refcnt := (w.objects o).refcnt }).setPhase o .running with
    released := update w.released o false }

/-- `setHasAssociatedObjects` -/
def setHasAssociatedObjects (o : Addr) : World L :=
  if (w.objects o).nonpointer then w.setObject o { w.objects o with hasAssoc := true } else w

/-- The test in `rootDealloc`. -/
def rootDealloc (o : Addr) : World L :=
  w.setPhase o (if (w.objects o).fastFree then .freeing else .disposing)

/-- The test in `clearDeallocating`. -/
def clearDeallocating (o : Addr) : World L :=
  w.setPhase o (if (w.objects o).needsClear then .clearing else .disposed)

/-- The region of `clearDeallocating_slow` or `sidetable_clearDeallocating`. -/
noncomputable def clearDeallocatingSlow (o : Addr) : World L :=
  let w' := if (w.objects o).isWeaklyReferenced then w.weakOp (.clear o) else w
  (w'.setObject o (w.objects o).clearEntry).setPhase o .disposed

/-- An object that a caller may name. -/
def Usable (o : Addr) : Prop := w.phase o ≠ .disposed ∧ w.phase o ≠ .freed

/-- A location that may become a weak variable. -/
def Fresh (l : Addr) : Prop := w.alive l = false ∧ IsLocation l

/-- The variable that a `storeWeak` works on: an existing one if it has an old
value, and else a fresh one. -/
def Access (call : StoreWeak) : Prop :=
  if call.haveOld then w.alive call.location = true else w.Fresh call.location

end World

/-! ### Steps -/

section Steps

variable {L : IsaLayout} (isTaggedPointer : Addr → Bool)

/-- A step in the life of an object that is not part of a call. -/
inductive ObjectStep : World L → World L → Prop
  | alloc {w o} (nonpointer hasCxxDtor : Bool) :
      w.phase o = .freed → IsObject isTaggedPointer o →
      ObjectStep w (w.alloc o nonpointer hasCxxDtor)
  | setHasAssociatedObjects {w o} :
      w.Usable o → ObjectStep w (w.setHasAssociatedObjects o)
  | rootRetain {w o} : w.Usable o → ObjectStep w (w.rootRetain o)
  | rootRelease {w o} : w.Usable o → ObjectStep w (w.rootRelease o)
  | rootDealloc {w o} :
      w.phase o = .deallocating → ObjectStep w (w.rootDealloc o)
  | clearDeallocating {w o} :
      w.phase o = .disposing → ObjectStep w (w.clearDeallocating o)
  | clearDeallocatingSlow {w o} :
      w.phase o = .clearing → ObjectStep w (w.clearDeallocatingSlow o)
  | free {w o} :
      w.phase o = .freeing ∨ w.phase o = .disposed → ObjectStep w (w.setPhase o .freed)

/-- One step of a thread. -/
inductive Step : World L → Pc → World L → Pc → Prop
  /-- A thread may allocate, retain, release and deallocate at any time, also from
  code that a call runs. -/
  | object {w w' pc} : ObjectStep isTaggedPointer w w' → Step w pc w' pc
  -- calls
  | callInitNil {w} (l : Addr) : Step w .idle w (.initNil l)
  | callInit {w} (crash : Bool) (l o : Addr) :
      o ≠ 0 → Step w .idle w (.storeRetry (initWeak crash l o))
  | callStore {w} (l o : Addr) : Step w .idle w (.storeRetry (objcStoreWeak l o))
  | callStoreOrNil {w} (l o : Addr) :
      Step w .idle w (.storeRetry (objcStoreWeakOrNil l o))
  | callDestroy {w} (l : Addr) : Step w .idle w (.storeRetry (objcDestroyWeak l))
  | callLoad {w} (l : Addr) : Step w .idle w (.loadRetry l)
  | callMove {w} (dst src : Addr) : Step w .idle w (.moveRetry dst src)
  -- objc_initWeak
  | initNil {w l} :
      w.Fresh l → Step w (.initNil l) ((w.weakOp (.store l 0)).setAlive l true) .idle
  -- storeWeak
  | storeRead {w call} :
      w.Access call →
      Step w (.storeRetry call) w
        (.storeLock call (if call.haveOld then w.map.memory call.location else 0))
  | storeChanged {w call oldObj} :
      w.Access call → call.haveOld = true → w.map.memory call.location ≠ oldObj →
      Step w (.storeLock call oldObj) w (.storeRetry call)
  | store {w w' call oldObj} :
      w.Access call → (call.haveOld = true → w.map.memory call.location = oldObj) →
      (call.haveNew = true → IsObject isTaggedPointer call.newObj → w.Usable call.newObj) →
      w.storeWeak isTaggedPointer call oldObj = some w' →
      Step w (.storeLock call oldObj) w' .idle
  -- objc_loadWeakRetained
  | loadNil {w l} :
      w.alive l = true → isTaggedPointerOrNil isTaggedPointer (w.map.memory l) = true →
      Step w (.loadRetry l) w (.loaded (w.map.memory l))
  | loadRead {w l} :
      w.alive l = true → isTaggedPointerOrNil isTaggedPointer (w.map.memory l) = false →
      Step w (.loadRetry l) w (.loadLock l (w.map.memory l))
  | loadChanged {w l obj} :
      w.alive l = true → w.map.memory l ≠ obj → Step w (.loadLock l obj) w (.loadRetry l)
  | load {w l obj} :
      w.alive l = true → w.map.memory l = obj →
      Step w (.loadLock l obj) (w.loadWeakRetained obj).1 (.loaded (w.loadWeakRetained obj).2)
  | loadReturn {w result} : Step w (.loaded result) w .idle
  -- objc_moveWeak
  | moveReadNil {w dst src} :
      w.alive src = true → w.map.memory src = 0 → Step w (.moveRetry dst src) w (.moveNil dst)
  | moveStoreNil {w dst} :
      w.Fresh dst → Step w (.moveNil dst) ((w.weakOp (.store dst 0)).setAlive dst true) .idle
  | moveRead {w dst src} :
      w.alive src = true → w.map.memory src ≠ 0 →
      Step w (.moveRetry dst src) w (.moveLock dst src (w.map.memory src))
  | moveChanged {w dst src obj} :
      w.alive src = true → w.map.memory src ≠ obj →
      Step w (.moveLock dst src obj) w (.moveRetry dst src)
  | move {w w' dst src obj} :
      w.alive src = true → w.Fresh dst → w.map.memory src = obj →
      w.moveWeak isTaggedPointer dst src obj = some w' →
      Step w (.moveLock dst src obj) w' .idle

/-- No object and no weak variable; the variables-to-be hold whatever they hold. -/
def World.init (L : IsaLayout) (memory : Memory) : World L where
  map := WeakMap.init memory
  objects := fun _ => ⟨true, false, false, false, false, 1, none⟩
  phase := fun _ => .freed
  released := fun _ => false
  alive := fun _ => false
  log := []

/-- Any number of threads over the same objects and variables. -/
def Reachable {τ : Type} [DecidableEq τ] (memory : Memory)
    (s : Lib.Threads τ (World L) Pc) : Prop :=
  Relation.ReflTransGen (Lib.Interleave fun _ => Step isTaggedPointer)
    ⟨World.init L memory, fun _ => .idle⟩ s

end Steps

end ObjcRuntime.WeakVars
