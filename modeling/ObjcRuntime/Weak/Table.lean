import Mathlib.Logic.Function.Basic
import ObjcRuntime.Lib.ProbeTable

/-!
# ObjcRuntime.Weak.Table

The weak table of `objc-weak.mm`: which weak variables point at which object.

The table is open-addressed by object. An entry holds the addresses of the weak
variables of one object (its *referrers*), first in an inline array of four
words and, once that is full, in a second open-addressed table. Array and table
header share memory through a union; the header is recognised by two low bits
that an aligned pointer cannot have. `Referrers` keeps the two views apart, and
`WeakEntry.outOfLine` reads the tag the way the code does, from the second word
of whichever view is there. Reading an inline array as a header has no meaning
in the model; it is the outcome `Fatal.mistakenHeader`.

Sizes and counts are natural numbers and masks are one less than a power of
two. A slot that holds nil is `none`.
-/

namespace ObjcRuntime.Weak

open Lib

/-- An address: of an object, or of a weak variable. Nil is 0. -/
abbrev Addr := UInt64

/-! ### Hashing -/

/-- `__builtin_bswap64`. -/
def bswap64 (x : UInt64) : UInt64 :=
  (List.range 8).foldl (fun acc i => (acc <<< 8) ||| ((x >>> (UInt64.ofNat (8 * i))) &&& 0xff)) 0

/-- `ptr_hash` on LP64. -/
def ptrHash (key : UInt64) : UInt32 :=
  let key := key ^^^ (key >>> 4)
  let key := key * 0x8a970be7488fda55
  let key := key ^^^ bswap64 key
  key.toUInt32

/-- `hash_pointer`. -/
def hashPointer (key : Addr) : Nat := (ptrHash key).toNat

/-- `w_hash_pointer`. -/
def wHashPointer (key : Addr) : Nat := (ptrHash key).toNat

/-! ### Entries -/

/-- `WEAK_INLINE_COUNT`. -/
def weakInlineCount : Nat := 4

/-- The union of `weak_entry_t`. -/
inductive Referrers
  /-- `inline_referrers`, of length `WEAK_INLINE_COUNT`. -/
  | inline (referrers : List (Option Addr))
  /-- `referrers`, `num_refs`, `mask` and `max_hash_displacement`. -/
  | outOfLine (table : ProbeTable Addr)
  deriving Repr, DecidableEq

structure WeakEntry where
  referent : Addr
  referrers : Referrers
  deriving Repr, DecidableEq

/-- The word a `DisguisedPtr` stores. -/
def disguise : Option Addr → UInt64
  | none => 0
  | some p => 0 - p

/-- `out_of_line_ness`, the low two bits of the second word of the union. -/
def WeakEntry.outOfLineNess (entry : WeakEntry) : UInt64 :=
  match entry.referrers with
  | .inline referrers => disguise (slot referrers 1) &&& 3
  | .outOfLine _ => 2

/-- `out_of_line()`: the tag is `REFERRERS_OUT_OF_LINE`. -/
def WeakEntry.outOfLine (entry : WeakEntry) : Bool := entry.outOfLineNess == 2

/-- Is `inline_referrers[i]` not nil? Over a header this reads the `referrers`
pointer, the tagged `num_refs`, `mask` and `max_hash_displacement`. -/
def WeakEntry.inlineReferrer (entry : WeakEntry) (i : Nat) : Bool :=
  match entry.referrers with
  | .inline referrers => (slot referrers i).isSome
  | .outOfLine table =>
    match i with
    | 0 => true
    | 1 => true
    | 2 => table.mask ≠ 0
    | _ => table.maxDisplacement ≠ 0

/-- `weak_entry_t(newReferent, newReferrer)`. -/
def WeakEntry.new (referent referrer : Addr) : WeakEntry :=
  ⟨referent, .inline [some referrer, none, none, none]⟩

/-- The ways this code stops the process. -/
inductive Fatal
  /-- `bad_weak_table`. -/
  | badWeakTable
  /-- "Cannot form weak reference to instance". -/
  | cannotFormWeakReference
  /-- An inline array whose tag bits say that it is a header. -/
  | mistakenHeader
  /-- A growing referrer table that has to grow again while it is refilled. -/
  | nestedGrow
  deriving Repr, DecidableEq

/-- The loop of `append_referrer` and of `weak_entry_insert`. -/
def insertAt {α : Type} (table : ProbeTable α) (hash : Nat) (a : α) : Except Fatal (ProbeTable α) :=
  match table.insert hash a with
  | some table' => .ok table'
  | none => .error .badWeakTable

/-- The out-of-line part of `append_referrer`, with `grow_refs_and_insert` for a
table that is at least 3/4 full. `depth` counts the nested calls. -/
def appendOutOfLine : Nat → ProbeTable Addr → Addr → Except Fatal (ProbeTable Addr)
  | depth, table, newReferrer =>
    if table.count ≥ table.size * 3 / 4 then
      match depth with
      | 0 => .error .nestedGrow
      | depth + 1 => do
        let oldSize := table.size
        let newSize := if oldSize ≠ 0 then oldSize * 2 else 8
        -- the first `num_refs` referrers of the old table, in slot order
        let oldRefs := ((table.slots.take oldSize).filterMap id).take table.count
        let table ← oldRefs.foldlM (fun t r => appendOutOfLine depth t r) (ProbeTable.empty newSize)
        appendOutOfLine depth table newReferrer
    else insertAt table (wHashPointer newReferrer) newReferrer

/-- `append_referrer`. -/
def appendReferrer (entry : WeakEntry) (newReferrer : Addr) : Except Fatal WeakEntry :=
  match entry.referrers, entry.outOfLine with
  | .inline referrers, false =>
    match referrers.findIdx? Option.isNone with
    | some i => .ok { entry with referrers := .inline (referrers.set i (some newReferrer)) }
    | none => do
      -- the array becomes a table that is full and unhashed; growing fixes it
      let table ← appendOutOfLine 1 ⟨referrers, weakInlineCount, weakInlineCount - 1, 0⟩ newReferrer
      .ok { entry with referrers := .outOfLine table }
  | .outOfLine table, true => do
    let table ← appendOutOfLine 1 table newReferrer
    .ok { entry with referrers := .outOfLine table }
  | _, _ => .error .mistakenHeader

/-- `remove_referrer`: the new entry, and whether the referrer was known (if not,
the code reports it through `objc_weak_error`). -/
def removeReferrer (entry : WeakEntry) (oldReferrer : Addr) : Except Fatal (WeakEntry × Bool) :=
  match entry.referrers, entry.outOfLine with
  | .inline referrers, false =>
    match referrers.findIdx? (· == some oldReferrer) with
    | some i => .ok ({ entry with referrers := .inline (referrers.set i none) }, true)
    | none => .ok (entry, false)
  | .outOfLine table, true =>
    match table.find (wHashPointer oldReferrer) (· == oldReferrer) with
    | some (some i) => .ok ({ entry with referrers := .outOfLine (table.removeAt i) }, true)
    | some none => .ok (entry, false)
    | none => .error .badWeakTable
  | _, _ => .error .mistakenHeader

/-! ### The table of entries -/

/-- `weak_table_t`. An unallocated table has no slots and mask 0. -/
abbrev WeakTable := ProbeTable WeakEntry

def WeakTable.zero : WeakTable := ⟨[], 0, 0, 0⟩

/-- `weak_entry_insert`. -/
def weakEntryInsert (table : WeakTable) (newEntry : WeakEntry) : Except Fatal WeakTable :=
  insertAt table (hashPointer newEntry.referent) newEntry

/-- `weak_resize`. -/
def weakResize (table : WeakTable) (newSize : Nat) : Except Fatal WeakTable :=
  let oldEntries := (table.slots.take table.size).filterMap id
  match ProbeTable.insertAll (fun e => hashPointer e.referent) oldEntries
      (ProbeTable.empty newSize) with
  | some table' => .ok table'
  | none => .error .badWeakTable

/-- `weak_grow_maybe`. -/
def weakGrowMaybe (table : WeakTable) : Except Fatal WeakTable :=
  let oldSize := table.size
  if table.count ≥ oldSize * 3 / 4 then
    weakResize table (if oldSize ≠ 0 then oldSize * 2 else 64)
  else .ok table

/-- `weak_compact_maybe`. -/
def weakCompactMaybe (table : WeakTable) : Except Fatal WeakTable :=
  let oldSize := table.size
  if oldSize ≥ 1024 ∧ oldSize / 16 ≥ table.count then weakResize table (oldSize / 8)
  else .ok table

/-- `weak_entry_remove`, for the entry in slot `i`. -/
def weakEntryRemove (table : WeakTable) (i : Nat) : Except Fatal WeakTable :=
  weakCompactMaybe (table.removeAt i)

/-- `weak_entry_for_referent`: the slot of the entry. -/
def weakEntryForReferent (table : WeakTable) (referent : Addr) : Except Fatal (Option Nat) :=
  if table.slots = [] then .ok none
  else
    match table.find (hashPointer referent) (fun e => e.referent == referent) with
    | some r => .ok r
    | none => .error .badWeakTable

/-! ### The interface -/

/-- `WeakRegisterDeallocatingOptions`. -/
inductive DeallocatingOptions
  | returnNilIfDeallocating
  | crashIfDeallocating
  | dontCheckDeallocating
  deriving Repr, DecidableEq

/-- What asking the referent gives (`rootIsDeallocating`, or
`allowsWeakReference` for classes with custom retain/release). -/
inductive ReferentCheck
  | live
  | deallocating
  /-- The class forwards `allowsWeakReference`. -/
  | forwards
  deriving Repr, DecidableEq

/-- The test of `weak_unregister_no_lock` for an entry that can go: `num_refs` if
that is not 0, and else the four inline words, whichever form the entry has. -/
def WeakEntry.empty (entry : WeakEntry) : Bool :=
  let numRefs := match entry.referrers with
    | .inline _ => 0
    | .outOfLine table => table.count
  if entry.outOfLine && numRefs ≠ 0 then false
  else (List.range weakInlineCount).all fun j => !entry.inlineReferrer j

/-- `weak_unregister_no_lock`. -/
def weakUnregisterNoLock (table : WeakTable) (referent referrer : Addr) : Except Fatal WeakTable :=
  if referent = 0 then .ok table
  else do
    match ← weakEntryForReferent table referent with
    | none => .ok table
    | some i =>
      match table.get i with
      | none => .ok table
      | some entry =>
        let (entry, _) ← removeReferrer entry referrer
        let table := table.setAt i entry
        if entry.empty then weakEntryRemove table i else .ok table

/-- "ensure that the referenced object is viable": whether
`weak_register_no_lock` goes on to form the reference. -/
def viable : DeallocatingOptions → ReferentCheck → Except Fatal Bool
  | .dontCheckDeallocating, _ => .ok true
  | _, .live => .ok true
  | _, .forwards => .ok false
  | .crashIfDeallocating, .deallocating => .error .cannotFormWeakReference
  | .returnNilIfDeallocating, .deallocating => .ok false

/-- `weak_register_no_lock`: the new table, and the object or nil. -/
def weakRegisterNoLock (isTaggedPointer : Addr → Bool) (table : WeakTable)
    (referent referrer : Addr) (options : DeallocatingOptions) (check : ReferentCheck) :
    Except Fatal (WeakTable × Addr) :=
  if isTaggedPointer referent || referent = 0 then .ok (table, referent)
  else do
    if ← viable options check then
      match ← weakEntryForReferent table referent with
      | some i =>
        match table.get i with
        | none => .ok (table, referent)
        | some entry =>
          let entry ← appendReferrer entry referrer
          .ok (table.setAt i entry, referent)
      | none =>
        let table ← weakGrowMaybe table
        let table ← weakEntryInsert table (WeakEntry.new referent referrer)
        .ok (table, referent)
    else .ok (table, 0)

/-- The weak variables, by address. -/
abbrev Memory := Addr → Addr

/-- `referrers` and `count` in `weak_clear_no_lock`: the words to go through. -/
def WeakEntry.words (entry : WeakEntry) : Except Fatal (List (Option Addr)) :=
  match entry.referrers, entry.outOfLine with
  | .inline referrers, false => .ok (referrers.take weakInlineCount)
  | .outOfLine table, true => .ok (table.slots.take table.size)
  | _, _ => .error .mistakenHeader

/-- Clear one weak variable if it holds `referent`. -/
def clearReferrer (referent : Addr) (memory : Memory) : Option Addr → Memory
  | none => memory
  | some referrer =>
    if memory referrer = referent then Function.update memory referrer 0 else memory

/-- `weak_clear_no_lock`. -/
def weakClearNoLock (table : WeakTable) (memory : Memory) (referent : Addr) :
    Except Fatal (WeakTable × Memory) := do
  match ← weakEntryForReferent table referent with
  | none => .ok (table, memory)
  | some i =>
    match table.get i with
    | none => .ok (table, memory)
    | some entry => do
      let referrers ← entry.words
      let memory := referrers.foldl (clearReferrer referent) memory
      let table ← weakEntryRemove table i
      .ok (table, memory)

/-! ### Runs -/

/-- The table and the weak variables. -/
structure WeakState where
  table : WeakTable
  memory : Memory

/-- What happens to a weak table: its three operations, and the program
storing into variables in between. -/
inductive WeakOp
  | register (referent referrer : Addr) (options : DeallocatingOptions) (check : ReferentCheck)
  | unregister (referent referrer : Addr)
  | clear (referent : Addr)
  | store (location value : Addr)
  deriving Repr, DecidableEq

def WeakState.step (isTaggedPointer : Addr → Bool) (s : WeakState) :
    WeakOp → Except Fatal WeakState
  | .register referent referrer options check => do
    let (table, _) ← weakRegisterNoLock isTaggedPointer s.table referent referrer options check
    .ok { s with table := table }
  | .unregister referent referrer => do
    let table ← weakUnregisterNoLock s.table referent referrer
    .ok { s with table := table }
  | .clear referent => do
    let (table, memory) ← weakClearNoLock s.table s.memory referent
    .ok ⟨table, memory⟩
  | .store location value => .ok { s with memory := Function.update s.memory location value }

/-- Run a sequence of operations. -/
def WeakState.run (isTaggedPointer : Addr → Bool) (s : WeakState) (ops : List WeakOp) :
    Except Fatal WeakState :=
  ops.foldlM (WeakState.step isTaggedPointer) s

end ObjcRuntime.Weak
