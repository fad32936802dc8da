import Mathlib.Logic.Function.Basic
import Mathlib.Logic.Relation

/-!
# ObjcRuntime.Autorelease.Pool

The autorelease pool of one thread (`AutoreleasePoolPage` in `NSObject.mm`), in
the default mode: `DebugPoolAllocation` and `DebugMissingPools` are off.

The pages form a doubly linked list with a cursor, the hot page in thread-local
storage. `Chain` is that list seen from the cursor. An entry is a pointer and a
count of further autoreleases that were coalesced into it; a pool boundary is
the zero word. A token is the address of a slot, so it names a page and an index
into it, or it is the placeholder for a first pool that has no page yet.

Releasing an object runs arbitrary code, which may push, autorelease and pop on
the same thread. `State` is therefore a machine with an explicit stack: the open
pools, and the calls of `releaseUntil` that wait for a release to return.
Between two steps of the runtime the client may do whatever is well bracketed:
push a pool, autorelease an object, pop the pool it pushed last, or return from
the release it runs in once its own pools are popped.
-/

namespace ObjcRuntime.Autorelease

/-! ### Entries -/

/-- An object, as the 48 bits an entry keeps of its address. Nil is 0. -/
abbrev Obj := BitVec 48

/-- `AutoreleasePoolEntry`. -/
structure Entry where
  ptr : Obj
  count : Nat
  deriving Repr, DecidableEq

/-- `AutoreleasePoolEntry::maxCount`. -/
def maxCount : Nat := 65535

/-- `POOL_BOUNDARY`, as an entry. -/
def poolBoundary : Entry := ⟨0, 0⟩

/-- The size of a page in entries, and the two settings for coalescing. -/
structure Options where
  capacity : Nat
  two_le_capacity : 2 ≤ capacity
  disableAutoreleaseCoalescing : Bool
  disableAutoreleaseCoalescingLRU : Bool

/-- The ways this code goes wrong. -/
inductive Fault
  /-- `add` on a full page. -/
  | pageOverflow
  /-- A step to the parent of the first page, or to a hot page that is not there. -/
  | nilPage
  /-- A token or a page pointer into a page that has been freed. -/
  | danglingPage
  /-- `badPop`: no boundary at the token. -/
  | badPop
  deriving Repr, DecidableEq

/-- The LRU search of `add` among the `n` topmost entries: the entry to reuse,
and the others. It stops at a boundary and does not look at the first slot. -/
def lruSearch (obj : Obj) : Nat → List Entry → Option (Entry × List Entry)
  | n + 1, entry :: below :: rest =>
    if entry = poolBoundary then none
    else if entry.ptr = obj ∧ entry.count < maxCount then some (entry, below :: rest)
    else (lruSearch obj n (below :: rest)).map fun (found, others) => (found, entry :: others)
  | _, _ => none

/-- What `add` makes of the entries of a page, last added first. -/
def addEntry (o : Options) (entries : List Entry) (obj : Obj) : List Entry :=
  if obj = 0 then poolBoundary :: entries
  else if !o.disableAutoreleaseCoalescingLRU then
    match lruSearch obj 4 entries with
    | some (found, others) => { found with count := found.count + 1 } :: others
    | none => ⟨obj, 0⟩ :: entries
  else if !o.disableAutoreleaseCoalescing then
    match entries with
    | prev :: rest =>
      if prev.ptr = obj ∧ prev.count < maxCount then { prev with count := prev.count + 1 } :: rest
      else ⟨obj, 0⟩ :: entries
    | [] => [⟨obj, 0⟩]
  else ⟨obj, 0⟩ :: entries

/-! ### Pages -/

abbrev Address := Nat

/-- A page and the entries from `next - 1` down to `begin()`. -/
structure Page where
  address : Address
  entries : List Entry
  deriving Repr, DecidableEq

def Page.empty (page : Page) : Bool := page.entries.length == 0

def Page.full (o : Options) (page : Page) : Bool := page.entries.length == o.capacity

def Page.lessThanHalfFull (o : Options) (page : Page) : Bool :=
  decide (page.entries.length < o.capacity / 2)

/-- The entry at `begin() + index`, if `next` is above it. -/
def Page.slot (page : Page) (index : Nat) : Option Entry := page.entries.reverse[index]?

/-- All pages, seen from the hot one; nearest first on both sides. -/
structure Chain where
  hot : Page
  parents : List Page
  children : List Page
  deriving Repr, DecidableEq

/-- All entries, last added first. -/
def Chain.entries (chain : Chain) : List Entry :=
  (chain.children.reverse ++ chain.hot :: chain.parents).flatMap Page.entries

def Chain.find (chain : Chain) (address : Address) : Option Page :=
  (chain.hot :: chain.parents ++ chain.children).find? (·.address == address)

/-- `coldPage`. -/
def Chain.coldPage (chain : Chain) : Page := chain.parents.getLast?.getD chain.hot

/-- `setHotPage` for a page on the way to the coldest one. -/
def setHotParent (address : Address) (hot : Page) (children : List Page) : List Page → Option Chain
  | [] => if hot.address = address then some ⟨hot, [], children⟩ else none
  | parent :: parents =>
    if hot.address = address then some ⟨hot, parent :: parents, children⟩
    else setHotParent address parent (hot :: children) parents

/-- `setHotPage` for a page on the way to the last child. -/
def setHotChild (address : Address) (hot : Page) (parents : List Page) : List Page → Option Chain
  | [] => if hot.address = address then some ⟨hot, parents, []⟩ else none
  | child :: children =>
    if hot.address = address then some ⟨hot, parents, child :: children⟩
    else setHotChild address child (hot :: parents) children

/-- `setHotPage`. -/
def Chain.setHotPage (chain : Chain) (address : Address) : Option Chain :=
  (setHotParent address chain.hot chain.children chain.parents).orElse fun _ =>
    setHotChild address chain.hot chain.parents chain.children

/-- Other entries on the hot page. -/
def Chain.setEntries (chain : Chain) (entries : List Entry) : Chain :=
  { chain with hot := { chain.hot with entries } }

/-- `add` on the hot page. -/
def Chain.add (o : Options) (chain : Chain) (obj : Obj) : Except Fault Chain :=
  if chain.hot.full o then .error .pageOverflow
  else .ok (chain.setEntries (addEntry o chain.hot.entries obj))

/-- The loop of `autoreleaseFullPage`: on to the next page that is not full,
adding a page at the end. -/
def nextPage (o : Options) (fresh : Address) (hot : Page) (parents : List Page) :
    List Page → Chain
  | [] => ⟨⟨fresh, []⟩, hot :: parents, []⟩
  | child :: children =>
    if child.full o then nextPage o fresh child (hot :: parents) children
    else ⟨child, hot :: parents, children⟩

/-- The loop of `releaseUntil` that goes back to the last page with an entry. -/
def lastNonEmpty (hot : Page) (children : List Page) : List Page → Except Fault Chain
  | [] => if hot.empty then .error .nilPage else .ok ⟨hot, [], children⟩
  | parent :: parents =>
    if hot.empty then lastNonEmpty parent (hot :: children) parents
    else .ok ⟨hot, parent :: parents, children⟩

/-- Take the last entry off the pool. -/
def Chain.takeEntry (chain : Chain) : Except Fault (Chain × Entry) := do
  let chain ← lastNonEmpty chain.hot chain.children chain.parents
  match chain.hot.entries with
  | entry :: entries => .ok (chain.setEntries entries, entry)
  | [] => .error .nilPage

/-- The end of `popPage`: kill the children, all but one if the page is at least
half full. -/
def Chain.killChildren (o : Options) (chain : Chain) : Chain :=
  { chain with children := if chain.hot.lessThanHalfFull o then [] else chain.children.take 1 }

/-! ### The pool of a thread -/

/-- What `AUTORELEASE_POOL_KEY` holds. -/
inductive Tls
  | null
  /-- `EMPTY_POOL_PLACEHOLDER`. -/
  | placeholder
  | page (chain : Chain)
  deriving Repr, DecidableEq

/-- The thread-local slot, and a source of addresses for pages. -/
structure Thread where
  tls : Tls
  fresh : Address
  deriving Repr, DecidableEq

def Thread.entries (t : Thread) : List Entry :=
  match t.tls with
  | .page chain => chain.entries
  | _ => []

/-- What `push` returns. -/
inductive Token
  | placeholder
  | slot (page : Address) (index : Nat)
  deriving Repr, DecidableEq

/-- The slot `add` returns: the topmost one of the hot page. -/
def Chain.top (chain : Chain) : Token := .slot chain.hot.address (chain.hot.entries.length - 1)

/-- `autoreleaseNoPage`. -/
def autoreleaseNoPage (o : Options) (t : Thread) (obj : Obj) : Except Fault (Thread × Token) := do
  let page : Chain := ⟨⟨t.fresh, []⟩, [], []⟩
  match t.tls with
  | .placeholder =>
    -- a boundary on behalf of the pool that the placeholder stood for
    let chain ← page.add o 0
    let chain ← chain.add o obj
    .ok (⟨.page chain, t.fresh + 1⟩, chain.top)
  | _ =>
    if obj = 0 then .ok ({ t with tls := .placeholder }, .placeholder)
    else
      let chain ← page.add o obj
      .ok (⟨.page chain, t.fresh + 1⟩, chain.top)

/-- `autoreleaseFast`, with `autoreleaseFullPage`. -/
def autoreleaseFast (o : Options) (t : Thread) (obj : Obj) : Except Fault (Thread × Token) :=
  match t.tls with
  | .page chain =>
    if !chain.hot.full o then do
      let chain ← chain.add o obj
      .ok ({ t with tls := .page chain }, chain.top)
    else do
      let chain ← (nextPage o t.fresh chain.hot chain.parents chain.children).add o obj
      .ok (⟨.page chain, t.fresh + 1⟩, chain.top)
  | _ => autoreleaseNoPage o t obj

/-- `push`. -/
def push (o : Options) (t : Thread) : Except Fault (Thread × Token) := autoreleaseFast o t 0

/-- What `pop` does before it releases anything: it may be done already, or go on
with `releaseUntil` on a page and a stop slot. -/
inductive PopStart
  | done (t : Thread)
  | releaseUntil (page : Address) (stop : Nat)

/-- `pop`, up to `popPage`. -/
def pop (t : Thread) (token : Token) : Except Fault PopStart :=
  match token, t.tls with
  | .placeholder, .page chain => checkStop chain chain.coldPage 0
  | .placeholder, _ => .ok (.done { t with tls := .null })
  | .slot address index, .page chain =>
    match chain.find address with
    | some page => checkStop chain page index
    | none => .error .danglingPage
  | .slot _ _, _ => .error .danglingPage
where
  /-- There is a boundary at the stop, or it is the start of the coldest page. -/
  checkStop (chain : Chain) (page : Page) (stop : Nat) : Except Fault PopStart :=
    if page.slot stop ≠ some poolBoundary ∧
        ¬ (stop = 0 ∧ page.address = chain.coldPage.address) then .error .badPop
    else .ok (.releaseUntil page.address stop)

/-! ### The machine -/

/-- An open pool. `made` counts the autoreleases into it, that is, since its push
and while no pool above it was open; `below` is what was below its token. -/
structure Pool where
  token : Token
  below : List Entry
  made : Obj → Nat

/-- A call of `releaseUntil`: its arguments, the object it is releasing and how
often it still has to, and whether that release is running now. `sent` counts
the releases it has sent. -/
structure Call where
  page : Address
  stop : Nat
  obj : Obj
  left : Nat
  running : Bool
  sent : Obj → Nat

inductive Item
  | pool (p : Pool)
  /-- On top of the pool that it pops. -/
  | call (c : Call)

structure State where
  thread : Thread
  stack : List Item

/-- An empty thread-local slot. -/
def State.init : State := ⟨⟨.null, 0⟩, []⟩

/-- Is client code running, rather than `releaseUntil`? -/
def clientRuns : List Item → Bool
  | .call c :: _ => c.running
  | _ => true

/-- Count an autorelease into the innermost pool. -/
def credit (obj : Obj) : List Item → List Item
  | [] => []
  | .pool p :: rest => .pool { p with made := Function.update p.made obj (p.made obj + 1) } :: rest
  | .call c :: rest => .call c :: credit obj rest

/-- The outcome of a step. The second component is there when the step completes
a `pop`: the releases which that call of `pop` has sent. -/
abbrev Outcome := Except Fault (State × Option (Obj → Nat))

/-- One step of `releaseUntil` and of the end of `popPage`, in the call `c` over
the items `rest`. -/
def releaseUntil (o : Options) (t : Thread) (c : Call) (rest : List Item) : Outcome :=
  if 0 < c.left then
    -- `objc_release(obj)`
    let c := { c with
      left := c.left - 1
      running := true
      sent := Function.update c.sent c.obj (c.sent c.obj + 1) }
    .ok (⟨t, .call c :: rest⟩, none)
  else
    match t.tls with
    | .page chain =>
      match chain.find c.page with
      | some page =>
        if page.entries.length = c.stop then
          match chain.setHotPage c.page with
          | some chain =>
            .ok (⟨{ t with tls := .page (chain.killChildren o) }, rest.tail⟩, some c.sent)
          | none => .error .danglingPage
        else do
          let (chain, entry) ← chain.takeEntry
          let c := if entry.ptr ≠ 0 then { c with obj := entry.ptr, left := entry.count + 1 } else c
          .ok (⟨{ t with tls := .page chain }, .call c :: rest⟩, none)
      | none => .error .danglingPage
    | _ => .error .nilPage

/-- What happens next: the client does one of four things, or the runtime goes
on. -/
inductive Act
  | push
  | autorelease (obj : Obj)
  | pop
  | ret
  | tick
  deriving Repr, DecidableEq

/-- One step, if the act is possible now. -/
def step (o : Options) (s : State) : Act → Option Outcome
  | .push =>
    if clientRuns s.stack then
      some do
        let (t, token) ← push o s.thread
        .ok (⟨t, .pool ⟨token, t.entries.tail, fun _ => 0⟩ :: s.stack⟩, none)
    else none
  | .autorelease obj =>
    if clientRuns s.stack && obj ≠ 0 then
      some do
        let (t, _) ← autoreleaseFast o s.thread obj
        .ok (⟨t, credit obj s.stack⟩, none)
    else none
  | .pop =>
    match s.stack with
    | .pool p :: rest =>
      some do
        match ← pop s.thread p.token with
        | .done t => .ok (⟨t, rest⟩, some fun _ => 0)
        | .releaseUntil page stop =>
          .ok (⟨s.thread, .call ⟨page, stop, 0, 0, false, fun _ => 0⟩ :: s.stack⟩, none)
    | _ => none
  | .ret =>
    match s.stack with
    | .call c :: rest =>
      if c.running then some (.ok (⟨s.thread, .call { c with running := false } :: rest⟩, none))
      else none
    | _ => none
  | .tick =>
    match s.stack with
    | .call c :: rest => if c.running then none else some (releaseUntil o s.thread c rest)
    | _ => none

/-- `s'` can be reached from `s`. -/
def Reaches (o : Options) : State → State → Prop :=
  Relation.ReflTransGen fun s s' => ∃ act ev, step o s act = some (.ok (s', ev))

end ObjcRuntime.Autorelease
