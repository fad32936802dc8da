import ObjcRuntime.Lib.Interleave
import ObjcRuntime.RefCount.SideTable

/-!
# ObjcRuntime.RefCount.Machine

`objc_object::rootRetain` and `objc_object::rootRelease` on one object, as a
machine of threads.

Atomic steps are the ones the hardware and the side-table lock give:
`LoadExclusive`, `StoreExclusive`/`StoreReleaseExclusive`, `sidetable_lock`,
`sidetable_unlock` and each `sidetable_*_nolock` call. A control state (`Pc`)
names the next atomic step and carries the local variables that are still live.
The code between two atomic steps is pure; it is written as the functions
`retainLoop`, `releaseLoop`, `underflow` and so on, in the order of the source,
and its result says where to go next or what to return (`After`).

`StoreExclusive` is a weak compare-and-swap: it may fail for no reason, and on
failure it reloads `oldisa`. This covers the load/store-exclusive pairs of
arm64, whose store succeeds only if the word is unchanged.

The object's class has no custom retain/release methods and is not a metaclass,
so the checks in front of the loops fall through for every `RRVariant`.
-/

namespace ObjcRuntime

open Isa

variable {L : IsaLayout} {τ : Type}

/-- `objc_object::RRVariant`. -/
inductive RRVariant
  | full
  | fast
  | fastOrMsgSend
  deriving Repr, DecidableEq

/-- What a call returns. `counted` is a ghost: it is false when the call found
the object deallocating and left it alone. -/
inductive Ret
  /-- `rootRetain` returns `this` (`self = true`) or nil. -/
  | retain (self counted : Bool)
  /-- `rootRelease` returns `result`, after sending `dealloc` if asked to. -/
  | release (performDealloc result counted : Bool)
  deriving Repr, DecidableEq

/-- Where a thread stands: the next atomic step of its call. -/
inductive Pc (L : IsaLayout)
  /-- Between calls. -/
  | idle
  /-- `rootRetain`: `oldisa = LoadExclusive(&isa.bits)`. -/
  | retainLoad (tryRetain : Bool) (variant : RRVariant)
  /-- `sidetable_lock()` on the overflow path of `rootRetain`. -/
  | retainLock (oldisa newisa : L.Word)
  /-- `StoreExclusive` at the end of the loop of `rootRetain`. -/
  | retainStore (tryRetain : Bool) (variant : RRVariant)
      (sideTableLocked transcribeToSideTable : Bool) (oldisa newisa : L.Word)
  /-- `sidetable_addExtraRC_nolock(RC_HALF)` after an overflow was stored. -/
  | retainAddExtraRC (tryRetain sideTableLocked : Bool)
  /-- `sidetable_unlock()`, then return. -/
  | retainUnlock (ret : Ret)
  /-- `table.lock()` in `sidetable_retain`. -/
  | retainRawLock
  /-- The update of the entry in `sidetable_retain`. -/
  | retainRaw
  /-- `sidetable_tryRetain`. -/
  | retainRawTry
  /-- `rootRelease`: `oldisa = LoadExclusive(&isa.bits)`, then `retry`. -/
  | releaseLoad (performDealloc : Bool) (variant : RRVariant) (sideTableLocked : Bool)
  /-- `StoreReleaseExclusive` at the end of the loop of `rootRelease`. -/
  | releaseStore (performDealloc : Bool) (variant : RRVariant) (sideTableLocked : Bool)
      (oldisa newisa : L.Word)
  /-- `sidetable_lock()` on the underflow path. -/
  | releaseLock (performDealloc : Bool)
  /-- `sidetable_subExtraRC_nolock(RC_HALF)`. -/
  | releaseSubExtraRC (performDealloc : Bool) (oldisa : L.Word)
  /-- The first store after borrowing. -/
  | releaseBorrowStore (performDealloc : Bool) (borrow : SidetableBorrow)
      (oldisa newisa : L.Word)
  /-- The immediate second try, on the reloaded word. -/
  | releaseBorrowRetry (performDealloc : Bool) (borrow : SidetableBorrow)
      (oldisa newisa : L.Word)
  /-- `sidetable_addExtraRC_nolock(borrow.borrowed)`: put the counts back. -/
  | releasePutBack (performDealloc : Bool) (borrow : SidetableBorrow)
  /-- `sidetable_clearExtraRC_nolock()`. -/
  | releaseClearExtraRC (performDealloc didTransitionToDeallocating : Bool)
  /-- `sidetable_unlock()`, then return. -/
  | releaseUnlock (ret : Ret)
  /-- `table.lock()` in `sidetable_release`. -/
  | releaseRawLock (performDealloc : Bool)
  /-- The update of the entry in `sidetable_release`. -/
  | releaseRaw (performDealloc : Bool)
  deriving Repr, DecidableEq

/-- How the code between two atomic steps ends. -/
inductive After (L : IsaLayout)
  | goto (pc : Pc L)
  | ret (r : Ret)
  deriving Repr, DecidableEq

/-! ### rootRetain -/

/-- The body of the loop of `rootRetain`, from `oldisa` to the next atomic step. -/
def retainLoop (tryRetain : Bool) (variant : RRVariant) (sideTableLocked : Bool)
    (oldisa : L.Word) : After L :=
  if !nonpointer oldisa then
    if tryRetain then .goto .retainRawTry
    else if sideTableLocked then .goto .retainRaw
    else .goto .retainRawLock
  else if isDeallocating oldisa then
    if sideTableLocked then .goto (.retainUnlock (.retain (!tryRetain) false))
    else .ret (.retain (!tryRetain) false)
  else
    let (newisa, carry) := addc oldisa (rcOnes L 1)
    if carry then
      -- `rootRetain_overflow` starts over with the full variant
      if variant ≠ .full then .goto (.retainLoad tryRetain .full)
      else
        let newisa := setHasSidetableRc (setExtraRc newisa L.rcHalf) true
        if !tryRetain && !sideTableLocked then .goto (.retainLock oldisa newisa)
        else .goto (.retainStore tryRetain variant true true oldisa newisa)
    else .goto (.retainStore tryRetain variant sideTableLocked false oldisa newisa)

/-- The end of `rootRetain`: unlock if this call locked, and return. -/
def retainEnd (tryRetain sideTableLocked : Bool) : After L :=
  if !tryRetain && sideTableLocked then .goto (.retainUnlock (.retain true true))
  else .ret (.retain true true)

/-- After a successful store in `rootRetain`. -/
def retainStored (tryRetain : Bool) (variant : RRVariant)
    (sideTableLocked transcribeToSideTable : Bool) : After L :=
  if variant = .full then
    if transcribeToSideTable then .goto (.retainAddExtraRC tryRetain sideTableLocked)
    else retainEnd tryRetain sideTableLocked
  else .ret (.retain true true)

/-! ### rootRelease -/

/-- The label `deallocate`. -/
def deallocate (performDealloc sideTableLocked : Bool) : After L :=
  if sideTableLocked then .goto (.releaseUnlock (.release performDealloc true true))
  else .ret (.release performDealloc true true)

/-- The label `underflow`, up to the borrow. -/
def underflow (performDealloc : Bool) (variant : RRVariant) (sideTableLocked : Bool)
    (oldisa : L.Word) : After L :=
  if hasSidetableRc oldisa then
    -- `rootRelease_underflow` starts over with the full variant
    if variant ≠ .full then .goto (.releaseLoad performDealloc .full false)
    else if !sideTableLocked then .goto (.releaseLock performDealloc)
    else .goto (.releaseSubExtraRC performDealloc oldisa)
  else deallocate performDealloc sideTableLocked

/-- The body of the loop of `rootRelease`, from `oldisa` to the next atomic step. -/
def releaseLoop (performDealloc : Bool) (variant : RRVariant) (sideTableLocked : Bool)
    (oldisa : L.Word) : After L :=
  if !nonpointer oldisa then
    if sideTableLocked then .goto (.releaseRaw performDealloc)
    else .goto (.releaseRawLock performDealloc)
  else if isDeallocating oldisa then
    if sideTableLocked then .goto (.releaseUnlock (.release performDealloc false false))
    else .ret (.release performDealloc false false)
  else
    let (newisa, carry) := subc oldisa (rcOnes L 1)
    if carry then underflow performDealloc variant sideTableLocked oldisa
    else .goto (.releaseStore performDealloc variant sideTableLocked oldisa newisa)

/-- After a successful store at the end of the loop of `rootRelease`. -/
def releaseStored (performDealloc : Bool) (variant : RRVariant) (sideTableLocked : Bool)
    (newisa : L.Word) : After L :=
  if isDeallocating newisa then deallocate performDealloc sideTableLocked
  else if variant = .full && sideTableLocked then
    .goto (.releaseUnlock (.release performDealloc false true))
  else .ret (.release performDealloc false true)

/-- `emptySideTable`. -/
def SidetableBorrow.emptySideTable (borrow : SidetableBorrow) : Bool := borrow.remaining == 0

/-- After `sidetable_subExtraRC_nolock`, up to the store. -/
def borrowed (performDealloc : Bool) (borrow : SidetableBorrow) (oldisa : L.Word) : After L :=
  if borrow.borrowed > 0 then
    let newisa := setHasSidetableRc (setExtraRc oldisa (borrow.borrowed - 1))
      (!borrow.emptySideTable)
    .goto (.releaseBorrowStore performDealloc borrow oldisa newisa)
  else deallocate performDealloc true

/-- After the first store failed; `oldisa` has been reloaded. -/
def borrowRetry (performDealloc : Bool) (borrow : SidetableBorrow) (oldisa : L.Word) : After L :=
  if nonpointer oldisa then
    let (newisa, overflow) := addc oldisa (rcOnes L (borrow.borrowed - 1))
    let newisa := setHasSidetableRc newisa (!borrow.emptySideTable)
    if !overflow then .goto (.releaseBorrowRetry performDealloc borrow oldisa newisa)
    else .goto (.releasePutBack performDealloc borrow)
  else .goto (.releasePutBack performDealloc borrow)

/-- After the counts were stored and an empty entry was cleared. -/
def borrowEnd (performDealloc didTransitionToDeallocating : Bool) : After L :=
  if !didTransitionToDeallocating then
    .goto (.releaseUnlock (.release performDealloc false true))
  else deallocate performDealloc true

/-- After the decrement succeeded with borrowed counts. -/
def borrowStored (performDealloc : Bool) (borrow : SidetableBorrow)
    (didTransitionToDeallocating : Bool) : After L :=
  if borrow.emptySideTable then
    .goto (.releaseClearExtraRC performDealloc didTransitionToDeallocating)
  else borrowEnd performDealloc didTransitionToDeallocating

/-! ### The machine -/

/-- Ghost counts of the calls that have returned. -/
structure Tally where
  retains : Nat
  releases : Nat
  /-- Those of the above that found the object deallocating. -/
  deadRetains : Nat
  deadReleases : Nat
  /-- `rootRelease` calls that returned true. -/
  returnedTrue : Nat
  /-- `dealloc` messages sent. -/
  deallocs : Nat
  deriving Repr, DecidableEq

def Tally.zero : Tally := ⟨0, 0, 0, 0, 0, 0⟩

def Tally.finish (n : Tally) : Ret → Tally
  | .retain _ counted =>
    { n with retains := n.retains + 1, deadRetains := n.deadRetains + (!counted).toNat }
  | .release performDealloc result counted =>
    { n with
      releases := n.releases + 1
      deadReleases := n.deadReleases + (!counted).toNat
      returnedTrue := n.returnedTrue + result.toNat
      deallocs := n.deallocs + (result && performDealloc).toNat }

/-- One plus completed retains minus completed releases. -/
def Tally.completedCount (n : Tally) : Int := 1 + n.retains - n.releases

/-- The same count without the calls that found the object deallocating. -/
def Tally.logicalCount (n : Tally) : Int :=
  1 + (n.retains - n.deadRetains) - (n.releases - n.deadReleases)

/-- The object's isa word, its side-table entry and the lock of that table. -/
structure Shared (L : IsaLayout) (τ : Type) where
  isa : L.Word
  refcnts : Option L.Word
  slock : Option τ
  tally : Tally
  deriving Repr, DecidableEq

namespace Shared

def storeIsa (g : Shared L τ) (newisa : L.Word) : Shared L τ := { g with isa := newisa }
def setRefcnts (g : Shared L τ) (e : Option L.Word) : Shared L τ := { g with refcnts := e }
def lock (g : Shared L τ) (t : τ) : Shared L τ := { g with slock := some t }
def unlock (g : Shared L τ) : Shared L τ := { g with slock := none }
def finish (g : Shared L τ) (r : Ret) : Shared L τ := { g with tally := g.tally.finish r }

/-- The side-table count of the object. -/
def sideCount (g : Shared L τ) : Nat := sidetableGetExtraRCNolock g.refcnts

section Fields

variable (g : Shared L τ) (newisa : L.Word) (e : Option L.Word) (t : τ) (r : Ret)

@[simp] theorem storeIsa_isa : (g.storeIsa newisa).isa = newisa := rfl
@[simp] theorem storeIsa_sideCount : (g.storeIsa newisa).sideCount = g.sideCount := rfl
@[simp] theorem storeIsa_slock : (g.storeIsa newisa).slock = g.slock := rfl
@[simp] theorem storeIsa_tally : (g.storeIsa newisa).tally = g.tally := rfl
@[simp] theorem setRefcnts_isa : (g.setRefcnts e).isa = g.isa := rfl
@[simp] theorem setRefcnts_refcnts : (g.setRefcnts e).refcnts = e := rfl
@[simp] theorem setRefcnts_slock : (g.setRefcnts e).slock = g.slock := rfl
@[simp] theorem setRefcnts_tally : (g.setRefcnts e).tally = g.tally := rfl
@[simp] theorem lock_isa : (g.lock t).isa = g.isa := rfl
@[simp] theorem lock_sideCount : (g.lock t).sideCount = g.sideCount := rfl
@[simp] theorem lock_slock : (g.lock t).slock = some t := rfl
@[simp] theorem lock_tally : (g.lock t).tally = g.tally := rfl
@[simp] theorem unlock_isa : g.unlock.isa = g.isa := rfl
@[simp] theorem unlock_sideCount : g.unlock.sideCount = g.sideCount := rfl
@[simp] theorem unlock_slock : g.unlock.slock = none := rfl
@[simp] theorem unlock_tally : g.unlock.tally = g.tally := rfl
@[simp] theorem finish_isa : (g.finish r).isa = g.isa := rfl
@[simp] theorem finish_sideCount : (g.finish r).sideCount = g.sideCount := rfl
@[simp] theorem finish_slock : (g.finish r).slock = g.slock := rfl
@[simp] theorem finish_tally : (g.finish r).tally = g.tally.finish r := rfl

end Fields

end Shared

/-- Continue, or return to the caller. -/
def After.apply : After L → Shared L τ → Shared L τ × Pc L
  | .goto pc, g => (g, pc)
  | .ret r, g => (g.finish r, .idle)

/-- The calls a thread may make. -/
inductive Call
  | rootRetain (variant : RRVariant)
  | rootRelease (performDealloc : Bool) (variant : RRVariant)
  deriving Repr, DecidableEq

/-- One action of a thread: start a call, or run its next atomic step
(`ok` says whether a weak store that could succeed does). -/
inductive Act
  | call (c : Call)
  | exec (ok : Bool)
  deriving Repr, DecidableEq

def Call.entry : Call → Pc L
  | .rootRetain variant => .retainLoad false variant
  | .rootRelease performDealloc variant => .releaseLoad performDealloc variant false

/-- The next atomic step of a thread. A lock step is blocked while the lock is
held; a store step with `ok = true` is blocked unless the word is `oldisa`. -/
def exec [DecidableEq τ] (t : τ) (ok : Bool) (g : Shared L τ) :
    Pc L → Option (Shared L τ × Pc L)
  | .idle => none
  | .retainLoad tryRetain variant =>
    some ((retainLoop tryRetain variant false g.isa).apply g)
  | .retainLock oldisa newisa =>
    if g.slock = none then
      some (g.lock t, .retainStore false .full true true oldisa newisa)
    else none
  | .retainStore tryRetain variant locked transcribe oldisa newisa =>
    if ok then
      if g.isa = oldisa then
        some ((retainStored tryRetain variant locked transcribe).apply (g.storeIsa newisa))
      else none
    else some ((retainLoop tryRetain variant locked g.isa).apply g)
  | .retainAddExtraRC tryRetain locked =>
    some ((retainEnd tryRetain locked).apply
      (g.setRefcnts (sidetableAddExtraRCNolock g.refcnts L.rcHalf).1))
  | .retainUnlock r => some (g.unlock.finish r, .idle)
  | .retainRawLock => if g.slock = none then some (g.lock t, .retainRaw) else none
  | .retainRaw =>
    some (g.setRefcnts (sidetableRetain g.refcnts), .retainUnlock (.retain true true))
  | .retainRawTry =>
    let (entry, result) := sidetableTryRetain g.refcnts
    some ((After.ret (.retain result result)).apply (g.setRefcnts entry))
  | .releaseLoad performDealloc variant locked =>
    some ((releaseLoop performDealloc variant locked g.isa).apply g)
  | .releaseStore performDealloc variant locked oldisa newisa =>
    if ok then
      if g.isa = oldisa then
        some ((releaseStored performDealloc variant locked newisa).apply (g.storeIsa newisa))
      else none
    else some ((releaseLoop performDealloc variant locked g.isa).apply g)
  | .releaseLock performDealloc =>
    if g.slock = none then some (g.lock t, .releaseLoad performDealloc .full true) else none
  | .releaseSubExtraRC performDealloc oldisa =>
    let (borrow, entry) := sidetableSubExtraRCNolock g.refcnts L.rcHalf
    some ((borrowed performDealloc borrow oldisa).apply (g.setRefcnts entry))
  | .releaseBorrowStore performDealloc borrow oldisa newisa =>
    if ok then
      if g.isa = oldisa then
        some ((borrowStored performDealloc borrow false).apply (g.storeIsa newisa))
      else none
    else some ((borrowRetry performDealloc borrow g.isa).apply g)
  | .releaseBorrowRetry performDealloc borrow oldisa newisa =>
    if ok then
      if g.isa = oldisa then
        some ((borrowStored performDealloc borrow (isDeallocating newisa)).apply
          (g.storeIsa newisa))
      else none
    else some (g, .releasePutBack performDealloc borrow)
  | .releasePutBack performDealloc borrow =>
    some (g.setRefcnts (sidetableAddExtraRCNolock g.refcnts borrow.borrowed).1,
      .releaseLoad performDealloc .full true)
  | .releaseClearExtraRC performDealloc didTransition =>
    some ((borrowEnd performDealloc didTransition).apply
      (g.setRefcnts (sidetableClearExtraRCNolock g.refcnts)))
  | .releaseUnlock r => some (g.unlock.finish r, .idle)
  | .releaseRawLock performDealloc =>
    if g.slock = none then some (g.lock t, .releaseRaw performDealloc) else none
  | .releaseRaw performDealloc =>
    let (entry, result) := sidetableRelease g.refcnts
    some (g.setRefcnts entry, .releaseUnlock (.release performDealloc result true))

/-- A compare-and-exchange stores where it finds the old value, or the code goes on
without it. -/
theorem store_cases {β : Type} {p : Prop} [Decidable p] {ok : Bool} {stored failed r : β}
    (h : (if ok then if p then some stored else none else some failed) = some r) :
    p ∧ stored = r ∨ failed = r := by
  split at h
  · obtain ⟨hp, h⟩ := Option.ite_none_right_eq_some.1 h
    exact .inl ⟨hp, Option.some.inj h⟩
  · exact .inr (Option.some.inj h)

/-- One action of thread `t`. Calls start from `idle`. -/
def act [DecidableEq τ] (t : τ) (a : Act) (g : Shared L τ) (pc : Pc L) :
    Option (Shared L τ × Pc L) :=
  match a with
  | .call c => if pc = .idle then some (g, c.entry) else none
  | .exec ok => exec t ok g pc

/-- The state of the whole machine. -/
abbrev State (L : IsaLayout) (τ : Type) := Lib.Threads τ (Shared L τ) (Pc L)

/-- The object as `initInstanceIsa` leaves it, with no thread in a call. -/
def initState (τ : Type) (isa : L.Word) : State L τ :=
  ⟨⟨isa, none, none, Tally.zero⟩, fun _ => .idle⟩

/-- The isa stored by `initInstanceIsa`: `nonpointer` comes with the magic value,
`extra_rc = 1`, and `has_sidetable_rc` is clear. -/
def IsInstanceIsa (isa : L.Word) : Prop :=
  nonpointer isa = true ∧ extraRc isa = 1 ∧ hasSidetableRc isa = false

end ObjcRuntime
