import Mathlib.Algebra.Group.Nat.Defs
import Mathlib.Data.Finset.Card
import Mathlib.Data.Finset.Insert
import ObjcRuntime.Lib.Interleave
import ObjcRuntime.Lib.RecursiveMutex
import ObjcRuntime.Lib.SwapRemove

/-!
# ObjcRuntime.Sync.Machine

`@synchronized`: threads that call `objc_sync_enter`, `objc_sync_try_enter` and
`objc_sync_exit`.

Every object in use has a record, its `SyncData`, found through the thread's own
caches or in the list of the object's stripe. Records are never freed: one that no
thread uses is given to another object. A step is the region under the spinlock of a
list, an atomic decrement, an operation on a mutex, or one read of a record together
with what the thread does to its own caches, which no other thread sees.

Memory that no record has been allocated in may hold anything. How far the counters
of the source count is a parameter, `Widths`: with those of the machine they wrap
around. `users`, `depth` and `log` are not in the source.
-/

namespace ObjcRuntime.Sync

open Function Lib

variable {τ ω σ : Type} [DecidableEq τ] [DecidableEq ω] [DecidableEq σ]

/-! ### Counters -/

/-- What is left of a number in a variable of the types of the counters. -/
structure Widths where
  /-- `unsigned int`: the lock counts and the size of the list. -/
  unsignedInt : Nat → Nat
  /-- `uintptr_t`: the lock count of the fast cache. -/
  uintptr : Nat → Nat
  /-- `int32_t`: the thread count of a record. -/
  int32 : Int → Int

def Widths.machine : Widths := ⟨(· % 2 ^ 32), (· % 2 ^ 64), (Int.bmod · (2 ^ 32))⟩

/-- No counter ever wraps around. -/
def Widths.unbounded : Widths := ⟨fun n => n, fun n => n, fun n => n⟩

/-! ### Records and caches -/

structure SyncData (τ ω : Type) where
  object : ω
  /-- The number of threads that use the record. -/
  threadCount : Int
  mutex : RecursiveMutex τ

structure SyncCacheItem where
  data : Nat
  /-- How often this thread has locked the record. -/
  lockCount : Nat
  deriving Repr, DecidableEq

/-- `SyncCache`, where `used` is the length of the list. -/
structure SyncCache where
  allocated : Nat
  list : List SyncCacheItem
  deriving Repr, DecidableEq

/-- What a thread keeps for itself: the fast cache under two direct keys, and the
list. -/
structure Tls where
  fast : Option Nat
  count : Nat
  cache : Option SyncCache
  deriving Repr, DecidableEq

def Tls.init : Tls := ⟨none, 0, none⟩

def Tls.list (tls : Tls) : List SyncCacheItem := (tls.cache.map SyncCache.list).getD []

/-- `enum usage` -/
inductive Usage
  | acquire | release | check
  deriving Repr, DecidableEq

section Caches

variable (w : Widths)

/-- `fetch_cache` -/
def fetchCache (create : Bool) (cache : Option SyncCache) : Option SyncCache :=
  let cache := if create && cache.isNone then some ⟨4, []⟩ else cache
  -- make sure there is at least one open slot in the list
  cache.map fun c =>
    if c.allocated = c.list.length then
      { c with allocated := w.unsignedInt (c.allocated * 2) }
    else c

/-- The `switch` for a match in the fast cache, and whether the record is given up. -/
def useFast (why : Usage) (tls : Tls) : Tls × Bool :=
  match why with
  | .acquire => ({ tls with count := w.uintptr (tls.count + 1) }, false)
  | .release =>
    let lockCount := tls.count - 1
    if lockCount = 0 then ({ tls with fast := none, count := lockCount }, true)
    else ({ tls with count := lockCount }, false)
  | .check => (tls, false)

/-- The `switch` for a match at `list[i]`, which is `item`. -/
def useItem (why : Usage) (i : Nat) (item : SyncCacheItem) (cache : SyncCache) : SyncCache × Bool :=
  match why with
  | .acquire =>
    let item := { item with lockCount := w.unsignedInt (item.lockCount + 1) }
    ({ cache with list := cache.list.set i item }, false)
  | .release =>
    let item := { item with lockCount := item.lockCount - 1 }
    let list := cache.list.set i item
    if item.lockCount = 0 then ({ cache with list := swapRemove list i }, true)
    else ({ cache with list }, false)
  | .check => (cache, false)

/-- The end of `id2data`, which saves a new record in the thread's caches, or `none`
for a write past the end of the list. -/
def saveData (fastCacheOccupied : Bool) (d : Nat) (tls : Tls) : Option Tls :=
  if !fastCacheOccupied then some { tls with fast := some d, count := 1 }
  else
    let cache := if tls.cache.isNone then fetchCache w true tls.cache else tls.cache
    cache.bind fun c =>
      if c.list.length < c.allocated then
        some { tls with cache := some { c with list := c.list ++ [⟨d, 1⟩] } }
      else none

end Caches

/-! ### The state -/

structure Shared (τ ω σ : Type) where
  data : Nat → SyncData τ ω
  /-- The records that were allocated are those below. -/
  next : Nat
  /-- `sDataLists` -/
  lists : σ → List Nat
  users : Nat → Finset τ

inductive Op
  | enter | tryEnter | exit
  deriving Repr, DecidableEq

/-- What `id2data` is called for. -/
def Op.usage : Op → Usage
  | .enter | .tryEnter => .acquire
  | .exit => .release

/-- What the calls return. -/
inductive Result
  /-- `OBJC_SYNC_SUCCESS` -/
  | success
  /-- `OBJC_SYNC_NOT_OWNING_THREAD_ERROR` -/
  | notOwningThreadError
  | yes
  | no
  deriving Repr, DecidableEq

/-- Where a thread is in `id2data` as long as it has not found its record. -/
inductive Look
  | start
  /-- A match in the fast cache. -/
  | fast (d : Nat)
  /-- At `list[i]` of the cache. -/
  | scan (fastCacheOccupied : Bool) (i : Nat)
  /-- A match there. -/
  | item (i : Nat)
  /-- Before the lock. -/
  | locking (fastCacheOccupied : Bool)
  deriving Repr, DecidableEq

/-- The next step of a thread. -/
inductive Pc (ω : Type)
  | idle
  | looking (op : Op) (o : ω) (look : Look)
  /-- `id2data` after the lock. -/
  | saving (op : Op) (o : ω) (fastCacheOccupied : Bool) (result : Option Nat)
  /-- Before the atomic decrement. -/
  | dropping (op : Op) (o : ω) (d : Nat)
  /-- `id2data` has returned. -/
  | done (op : Op) (o : ω) (data : Option Nat)
  | fatal (text : String)
  /-- The thread has written past the end of its list. -/
  | overrun

structure Local (ω : Type) where
  tls : Tls
  pc : Pc ω
  /-- How many calls of enter on an object have returned whose exit was not called. -/
  depth : ω → Nat
  log : List (Op × ω × Result)

def Local.init : Local ω := ⟨.init, .idle, fun _ => 0, []⟩

/-! ### The list of a stripe -/

/-- The loop over the list: the record of the object, and the first unused one that
was passed. -/
def walk (data : Nat → SyncData τ ω) (o : ω) : List Nat → Option Nat → Option Nat × Option Nat
  | [], firstUnused => (none, firstUnused)
  | p :: rest, firstUnused =>
    if (data p).object = o then (some p, firstUnused)
    else walk data o rest
      (if firstUnused.isNone && (data p).threadCount == 0 then some p else firstUnused)

/-- A thread becomes a user of a record, which is written. -/
def Shared.use (g : Shared τ ω σ) (t : τ) (p : Nat) (data : SyncData τ ω) : Shared τ ω σ :=
  { g with
    data := update g.data p data
    users := update g.users p (insert t (g.users p)) }

section Steps

variable (w : Widths) (stripe : ω → σ)

/-- A new record at the front of the list. -/
def Shared.allocate (g : Shared τ ω σ) (t : τ) (o : ω) : Shared τ ω σ :=
  { g.use t g.next ⟨o, 1, .free⟩ with
    next := g.next + 1
    lists := update g.lists (stripe o) (g.next :: g.lists (stripe o)) }

/-- The region under the spinlock. -/
def Shared.region (g : Shared τ ω σ) (t : τ) (why : Usage) (o : ω) : Shared τ ω σ × Option Nat :=
  match walk g.data o (g.lists (stripe o)) none with
  | (some p, _) =>
    (g.use t p { g.data p with threadCount := w.int32 ((g.data p).threadCount + 1) }, some p)
  | (none, firstUnused) =>
    if why ≠ .acquire then (g, none)
    else
      match firstUnused with
      | some p => (g.use t p { g.data p with object := o, threadCount := 1 }, some p)
      | none => (g.allocate stripe t o, some g.next)

/-- `OSAtomicDecrement32Barrier(&result->threadCount)` -/
def Shared.decrement (g : Shared τ ω σ) (t : τ) (d : Nat) : Shared τ ω σ :=
  { g with
    data := update g.data d { g.data d with threadCount := w.int32 ((g.data d).threadCount - 1) }
    users := update g.users d ((g.users d).erase t) }

def Shared.setMutex (g : Shared τ ω σ) (d : Nat) (mutex : RecursiveMutex τ) : Shared τ ω σ :=
  { g with data := update g.data d { g.data d with mutex } }

/-! ### Steps -/

variable (direct : Bool) (may : Local ω → Op → ω → Prop)

/-- The fast cache, with `SUPPORT_DIRECT_THREAD_KEYS`. -/
def fastData (tls : Tls) : Option Nat := if direct then tls.fast else none

/-- Is a new record saved in the list? -/
def fastCacheOccupied (tls : Tls) : Bool := !direct || tls.fast.isSome

/-- A call begins; an exit ends the time inside. -/
def Local.begin (l : Local ω) (op : Op) (o : ω) : Local ω :=
  { l with
    pc := .looking op o .start
    depth := if op = .exit then update l.depth o (l.depth o - 1) else l.depth }

/-- An enter returns, and the thread is inside. -/
def Local.entered (l : Local ω) (op : Op) (o : ω) (r : Result) : Local ω :=
  { l with
    pc := .idle
    depth := update l.depth o (l.depth o + 1)
    log := l.log ++ [(op, o, r)] }

def Local.returned (l : Local ω) (op : Op) (o : ω) (r : Result) : Local ω :=
  { l with pc := .idle, log := l.log ++ [(op, o, r)] }

def Local.goto (l : Local ω) (pc : Pc ω) : Local ω := { l with pc }

/-- The record was found in a cache of the thread. -/
def Local.found (l : Local ω) (op : Op) (o : ω) (d : Nat) (r : Tls × Bool) : Local ω :=
  { l with tls := r.1, pc := if r.2 then .dropping op o d else .done op o (some d) }

/-- One step of thread `t`, where `may` says which calls a thread may make. -/
inductive Step (t : τ) :
    Shared τ ω σ → Local ω → Shared τ ω σ → Local ω → Prop
  | call {g l} (op : Op) (o : ω) :
      l.pc = .idle → may l op o → Step t g l g (l.begin op o)
  /-- The fast cache. -/
  | hit {g l op o d} :
      l.pc = .looking op o .start → fastData direct l.tls = some d → (g.data d).object = o →
      Step t g l g (l.goto (.looking op o (.fast d)))
  | miss {g l op o} :
      l.pc = .looking op o .start →
      (∀ d, fastData direct l.tls = some d → (g.data d).object ≠ o) →
      Step t g l g
        { l with
          tls := { l.tls with cache := fetchCache w false l.tls.cache }
          pc := .looking op o (.scan (fastCacheOccupied direct l.tls) 0) }
  | fastBuggy {g l op o d} :
      l.pc = .looking op o (.fast d) → (g.data d).threadCount ≤ 0 ∨ l.tls.count = 0 →
      Step t g l g (l.goto (.fatal "id2data fastcache is buggy"))
  | useFast {g l op o d} :
      l.pc = .looking op o (.fast d) → 0 < (g.data d).threadCount → 0 < l.tls.count →
      Step t g l g (l.found op o d (useFast w op.usage l.tls))
  /-- The list. -/
  | scan {g l op o occupied i item} :
      l.pc = .looking op o (.scan occupied i) → l.tls.list[i]? = some item →
      (g.data item.data).object ≠ o → Step t g l g (l.goto (.looking op o (.scan occupied (i + 1))))
  | scanHit {g l op o occupied i item} :
      l.pc = .looking op o (.scan occupied i) → l.tls.list[i]? = some item →
      (g.data item.data).object = o → Step t g l g (l.goto (.looking op o (.item i)))
  | scanEnd {g l op o occupied i} :
      l.pc = .looking op o (.scan occupied i) → l.tls.list[i]? = none →
      Step t g l g (l.goto (.looking op o (.locking occupied)))
  | itemBuggy {g l op o i item} :
      l.pc = .looking op o (.item i) → l.tls.list[i]? = some item →
      (g.data item.data).threadCount ≤ 0 ∨ item.lockCount = 0 →
      Step t g l g (l.goto (.fatal "id2data cache is buggy"))
  | useItem {g l op o i cache item} :
      l.pc = .looking op o (.item i) → l.tls.cache = some cache → cache.list[i]? = some item →
      0 < (g.data item.data).threadCount → 0 < item.lockCount →
      Step t g l g
        (l.found op o item.data
          ({ l.tls with cache := some (useItem w op.usage i item cache).1 },
            (useItem w op.usage i item cache).2))
  | decrement {g l op o d} :
      l.pc = .dropping op o d → Step t g l (g.decrement w t d) (l.goto (.done op o (some d)))
  | region {g l op o occupied} :
      l.pc = .looking op o (.locking occupied) →
      Step t g l (g.region w stripe t op.usage o).1
        (l.goto (.saving op o occupied (g.region w stripe t op.usage o).2))
  /-- After the lock: nothing was found, or a release found a record that this thread
  does not use. -/
  | notFound {g l op o occupied result} :
      l.pc = .saving op o occupied result → result = none ∨ op.usage = .release →
      Step t g l g (l.goto (.done op o none))
  | saveBuggy {g l op o occupied d} :
      l.pc = .saving op o occupied (some d) → op.usage ≠ .release →
      op.usage ≠ .acquire ∨ (g.data d).object ≠ o →
      Step t g l g (l.goto (.fatal "id2data is buggy"))
  | save {g l op o occupied d tls} :
      l.pc = .saving op o occupied (some d) → op.usage = .acquire → (g.data d).object = o →
      saveData w occupied d l.tls = some tls →
      Step t g l g { l with tls := tls, pc := .done op o (some d) }
  | overrun {g l op o occupied d} :
      l.pc = .saving op o occupied (some d) → op.usage = .acquire → (g.data d).object = o →
      saveData w occupied d l.tls = none → Step t g l g (l.goto .overrun)
  /-- The end of `objc_sync_enter`. -/
  | assertion {g l op o} :
      l.pc = .done op o none → op ≠ .exit → Step t g l g (l.goto (.fatal "ASSERT(data)"))
  | lock {g l o d mutex} :
      l.pc = .done .enter o (some d) → (g.data d).mutex.lock t = some mutex →
      Step t g l (g.setMutex d mutex) (l.entered .enter o .success)
  /-- The end of `objc_sync_try_enter`. -/
  | tryLock {g l o d mutex} :
      l.pc = .done .tryEnter o (some d) → (g.data d).mutex.lock t = some mutex →
      Step t g l (g.setMutex d mutex) (l.entered .tryEnter o .yes)
  | tryLockFails {g l o d} :
      l.pc = .done .tryEnter o (some d) → (g.data d).mutex.lock t = none →
      Step t g l g (l.returned .tryEnter o .no)
  /-- The end of `objc_sync_exit`. -/
  | exitNil {g l o} :
      l.pc = .done .exit o none → Step t g l g (l.returned .exit o .notOwningThreadError)
  | unlock {g l o d mutex} :
      l.pc = .done .exit o (some d) → (g.data d).mutex.tryUnlock t = some mutex →
      Step t g l (g.setMutex d mutex) (l.returned .exit o .success)
  | unlockFails {g l o d} :
      l.pc = .done .exit o (some d) → (g.data d).mutex.tryUnlock t = none →
      Step t g l g (l.returned .exit o .notOwningThreadError)

/-- The lists are empty, and the memory holds anything. -/
def Shared.init (memory : Nat → SyncData τ ω) : Shared τ ω σ :=
  ⟨memory, 0, fun _ => [], fun _ => ∅⟩

/-- Any interleaving of the threads. -/
def Reachable (s : Threads τ (Shared τ ω σ) (Local ω)) : Prop :=
  ∃ memory, Relation.ReflTransGen (Interleave (Step w stripe direct may))
    ⟨.init memory, fun _ => .init⟩ s

end Steps

end ObjcRuntime.Sync
