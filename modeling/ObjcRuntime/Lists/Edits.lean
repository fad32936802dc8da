import ObjcRuntime.Lists.Iterate
import ObjcRuntime.Classes.Duplicate

/-!
# ObjcRuntime.Lists.Edits

The method, property and protocol lists of classes, and what changes them at run time:
`class_addMethod`, `class_addProperty`, `class_replaceProperty`, `class_addProtocol`,
`attachCategories` and `objc_duplicateClass`.

Lists are at addresses, so that two classes can have the same one, and so are the blocks
of their list arrays. A function has no result if it reads memory that is not allocated.
-/

namespace ObjcRuntime.Lists

open Function

open Classes.Duplicate (duplicateMethodList)

/-! ### Memory -/

/-- The lists of one kind, and the blocks of their arrays. -/
@[ext]
structure Store (L : Type) where
  heap : Heap
  list : Nat → Option L
  next : Nat
  fresh : ∀ p, next ≤ p → list p = none

namespace Store

variable {L : Type}

/-- The addresses of the lists of an array. -/
def pointers (s : Store L) (la : ListArray) : Option (List Nat) := do
  let n ← countLists s.heap la
  (List.range n).mapM (slot s.heap la)

/-- The lists of an array. -/
def lists (s : Store L) (la : ListArray) : Option (List L) := do
  let ps ← s.pointers la
  ps.mapM s.list

/-- A new list, at `next`. -/
def alloc (s : Store L) (l : L) : Store L where
  heap := s.heap
  list := update s.list s.next (some l)
  next := s.next + 1
  fresh p hp := by
    rw [update_of_ne (Nat.ne_of_gt hp)]
    exact s.fresh p (Nat.le_of_succ_le hp)

/-- Edit a list in place. -/
def modify (s : Store L) (p : Nat) (f : L → L) : Store L where
  heap := s.heap
  list := update s.list p ((s.list p).map f)
  next := s.next
  fresh q hq := by
    by_cases hqp : q = p
    · rw [hqp, update_self, ← hqp, s.fresh q hq]
      rfl
    · rw [update_of_ne hqp]
      exact s.fresh q hq

def attach (s : Store L) (la : ListArray) (added : List Nat) : Option (Store L × ListArray) := do
  let r ← attachLists s.heap la added
  some ({ s with heap := r.1 }, r.2)

/-- A copy of every list, `memdup` of the block included. -/
def duplicateLists (f : L → L) : List Nat → Store L → Option (List Nat × Store L)
  | [], s => some ([], s)
  | p :: rest, s => do
      let l ← s.list p
      let r ← duplicateLists f rest (s.alloc (f l))
      some (s.next :: r.1, r.2)

/-- `duplicateInto` -/
def duplicateInto (f : L → L) (s : Store L) (la : ListArray) : Option (Store L × ListArray) :=
  match la with
  | .array a => do
      let b ← s.heap.block a
      let ps ← s.pointers (.array a)
      let r ← duplicateLists f ps s
      some ({ r.2 with heap := r.2.heap.malloc ⟨b.count, r.1.map some⟩ }, .array r.2.heap.next)
  | .list p => do
      let l ← s.list p
      some (s.alloc (f l), .list s.next)
  | .nil => some (s, .nil)

end Store

/-! ### Classes -/

/-- `property_t` -/
structure Property (A : Type) where
  name : String
  attributes : A
  deriving DecidableEq

/-- `class_ro_t` -/
structure ClassRo where
  baseMethods : Option Nat
  baseProperties : Option Nat
  baseProtocols : Option Nat

/-- `class_rw_ext_t` -/
structure ClassRwExt where
  methods : ListArray
  properties : ListArray
  protocols : ListArray

/-- `class_rw_t` -/
structure ClassRw where
  ro : ClassRo
  ext : Option ClassRwExt

/-- `method_array_t{list}`, and `attachLists(&list, 1)` for an empty array. -/
def ListArray.ofBase : Option Nat → ListArray
  | none => .nil
  | some l => .list l

/-- `extAlloc` without the deep copy. -/
def extAlloc (ro : ClassRo) : ClassRwExt :=
  ⟨.ofBase ro.baseMethods, .ofBase ro.baseProperties, .ofBase ro.baseProtocols⟩

variable {Imp A : Type}

/-- The realized classes. A nil IMP is `none`. -/
structure World (Imp A : Type) where
  methods : Store (MethodList (Option Imp))
  properties : Store (List (Property A))
  protocols : Store (List Nat)
  data : Nat → ClassRw
  /-- The superclasses of a class, the nearest first. -/
  superclasses : Nat → List Nat

namespace World

/-- The lists of a class, with or without a `class_rw_ext_t`. -/
def rwe (w : World Imp A) (c : Nat) : ClassRwExt := (w.data c).ext.getD (extAlloc (w.data c).ro)

/-- After `extAllocIfNeeded`. -/
def setRwe (w : World Imp A) (c : Nat) (e : ClassRwExt) : World Imp A :=
  { w with data := update w.data c { w.data c with ext := some e } }

def methodLists (w : World Imp A) (c : Nat) : Option (List (MethodList (Option Imp))) :=
  w.methods.lists (w.rwe c).methods

def propertyLists (w : World Imp A) (c : Nat) : Option (List (List (Property A))) :=
  w.properties.lists (w.rwe c).properties

def protocolLists (w : World Imp A) (c : Nat) : Option (List (List Nat)) :=
  w.protocols.lists (w.rwe c).protocols

def attachMethods (w : World Imp A) (c : Nat) (added : List Nat) : Option (World Imp A) := do
  let r ← w.methods.attach (w.rwe c).methods added
  some { w.setRwe c { w.rwe c with methods := r.2 } with methods := r.1 }

def attachProperties (w : World Imp A) (c : Nat) (added : List Nat) : Option (World Imp A) := do
  let r ← w.properties.attach (w.rwe c).properties added
  some { w.setRwe c { w.rwe c with properties := r.2 } with properties := r.1 }

def attachProtocols (w : World Imp A) (c : Nat) (added : List Nat) : Option (World Imp A) := do
  let r ← w.protocols.attach (w.rwe c).protocols added
  some { w.setRwe c { w.rwe c with protocols := r.2 } with protocols := r.1 }

/-! ### Methods -/

def getMethodNoSuper (w : World Imp A) (c sel : Nat) : Option (Option (MethodEntry (Option Imp))) :=
  (w.methodLists c).map fun lists => lists.findSome? (·.search sel)

/-- The list that `addMethod` makes for one method. -/
def singleMethod (name : Nat) (types : String) (imp : Option Imp) : MethodList (Option Imp) :=
  ⟨false, true, true, [⟨name, types, imp⟩]⟩

/-- `class_addMethod`, with the result. -/
def classAddMethod (w : World Imp A) (c name : Nat) (types : String) (imp : Option Imp) :
    Option (Bool × World Imp A) := do
  let m ← w.getMethodNoSuper c name
  match m with
  | some m => some (m.imp.isNone, w)
  | none =>
    let w' := { w with methods := w.methods.alloc (singleMethod name types imp) }
    let w' ← w'.attachMethods c [w.methods.next]
    some (true, w')

/-! ### Properties -/

/-- The loop over the properties of a class: the list and the index of the first one with
the name. -/
def findProperty (w : World Imp A) (name : String) : List Nat → Option (Option (Nat × Nat))
  | [] => some none
  | p :: rest => do
      let props ← w.properties.list p
      match props.findIdx? fun prop => prop.name = name with
      | some i => some (some (p, i))
      | none => findProperty w name rest

/-- The loop over the classes. -/
def getPropertyIn (w : World Imp A) (name : String) : List Nat → Option (Option (Nat × Nat))
  | [] => some none
  | c :: rest => do
      let ps ← w.properties.pointers (w.rwe c).properties
      let found ← w.findProperty name ps
      match found with
      | some prop => some (some prop)
      | none => getPropertyIn w name rest

/-- `class_getProperty` -/
def classGetProperty (w : World Imp A) (c : Nat) (name : String) : Option (Option (Nat × Nat)) :=
  w.getPropertyIn name (c :: w.superclasses c)

/-- `prop->attributes = attributes` -/
def setAttributes (i : Nat) (attributes : A) (props : List (Property A)) : List (Property A) :=
  props.modify i fun prop => { prop with attributes }

/-- The last branch of `_class_addProperty`. -/
def attachProperty (w : World Imp A) (c : Nat) (name : String) (attributes : A) :
    Option (World Imp A) :=
  { w with properties := w.properties.alloc [⟨name, attributes⟩] }.attachProperties c
    [w.properties.next]

/-- `_class_addProperty`; `attributes` is the string made from the attribute list. -/
def addProperty (w : World Imp A) (c : Nat) (name : String) (attributes : A) (replace : Bool) :
    Option (Bool × World Imp A) := do
  let prop ← w.classGetProperty c name
  match prop with
  | some (p, i) =>
    if replace then
      some (true, { w with properties := w.properties.modify p (setAttributes i attributes) })
    else some (false, w)
  | none => (w.attachProperty c name attributes).map fun w => (true, w)

def classAddProperty (w : World Imp A) (c : Nat) (name : String) (attributes : A) :
    Option (Bool × World Imp A) :=
  w.addProperty c name attributes false

section Protocols

-- `protocol_conformsToProtocol_nolock`, which no operation here changes
variable (conforms : Nat → Nat → Bool)

/-- `class_conformsToProtocol` -/
def classConformsToProtocol (w : World Imp A) (c proto : Nat) : Option Bool :=
  (w.protocolLists c).map fun lists =>
    lists.flatten.any fun p => p = proto || conforms p proto

/-- What `class_addProtocol` does if the class does not conform. -/
def attachProtocol (w : World Imp A) (c proto : Nat) : Option (World Imp A) :=
  { w with protocols := w.protocols.alloc [proto] }.attachProtocols c [w.protocols.next]

/-- `class_addProtocol` -/
def classAddProtocol (w : World Imp A) (c proto : Nat) : Option (Bool × World Imp A) := do
  let conforming ← w.classConformsToProtocol conforms c proto
  if conforming then some (false, w)
  else (w.attachProtocol c proto).map fun w => (true, w)

end Protocols

end World

/-! ### Categories -/

/-- The lists of a category, for the class or for the metaclass. -/
structure Category (Imp A : Type) where
  methods : Option (MethodList (Option Imp))
  properties : Option (List (Property A))
  protocols : Option (List Nat)

/-- `ATTACH_BUFSIZ` -/
def attachBufsiz : Nat := 64

/-- The lists of one kind in `attachCategories`: those attached, and the buffer, which is
filled from its end. -/
structure Buffer (L : Type) where
  store : Store L
  array : ListArray
  pending : List Nat

namespace Buffer

variable {L : Type}

def flush (b : Buffer L) : Option (Buffer L) := do
  let r ← b.store.attach b.array b.pending
  some ⟨r.1, r.2, []⟩

def flushIfFull (b : Buffer L) : Option (Buffer L) :=
  if b.pending.length = attachBufsiz then b.flush else some b

/-- The list of the next category, if it has one, which is at an address of its own. -/
def push (b : Buffer L) (entry : Option L) : Option (Buffer L) :=
  match entry with
  | none => some b
  | some l => do
      let b ← b.flushIfFull
      some { b with store := b.store.alloc l, pending := b.store.next :: b.pending }

/-- The loop over the categories. -/
def pushAll (b : Buffer L) : List (Option L) → Option (Buffer L)
  | [] => some b
  | entry :: rest => do
      let b ← b.push entry
      pushAll b rest

/-- The loop, and what is left in the buffer. -/
def attachAll (entries : List (Option L)) (s : Store L) (la : ListArray) :
    Option (Store L × ListArray) := do
  let b ← pushAll ⟨s, la, []⟩ entries
  let b ← b.flush
  some (b.store, b.array)

end Buffer

namespace World

/-- `attachCategories`. The buffers of the three kinds do not meet; the method lists are
fixed up by `prepareMethodLists` before they are attached. -/
def attachCategories (w : World Imp A) (c : Nat) (cats : List (Category Imp A)) :
    Option (World Imp A) := do
  let m ← Buffer.attachAll (cats.map fun cat => cat.methods.map (·.fixUp true)) w.methods
    (w.rwe c).methods
  let p ← Buffer.attachAll (cats.map Category.properties) w.properties (w.rwe c).properties
  let q ← Buffer.attachAll (cats.map Category.protocols) w.protocols (w.rwe c).protocols
  some { w.setRwe c ⟨m.2, p.2, q.2⟩ with methods := m.1, properties := p.1, protocols := q.1 }

/-! ### Duplication -/

/-- The new class, under the superclass of the original. -/
def addClass (w : World Imp A) (original new : Nat) (data : ClassRw) : World Imp A :=
  { w with
    data := update w.data new data
    superclasses := update w.superclasses new (w.superclasses original) }

/-- The duplicate of a class with a `class_rw_ext_t`. -/
def duplicateExt (w : World Imp A) (original new : Nat) (e : ClassRwExt) :
    Option (World Imp A) := do
  let r ← w.methods.duplicateInto duplicateMethodList e.methods
  let data := ⟨(w.data original).ro, some { e with methods := r.2 }⟩
  some { w.addClass original new data with methods := r.1 }

/-- The duplicate of a class without it: `deepCopy` if there are base methods. -/
def duplicateBase (w : World Imp A) (original new : Nat) : Option (World Imp A) :=
  let ro := (w.data original).ro
  match ro.baseMethods with
  | none => some (w.addClass original new ⟨ro, none⟩)
  | some p => do
      let l ← w.methods.list p
      let data := ⟨ro, some { extAlloc ro with methods := .list w.methods.next }⟩
      some { w.addClass original new data with
        methods := w.methods.alloc (duplicateMethodList l) }

/-- `objc_duplicateClass`, with the address of the new class. -/
def duplicateClass (w : World Imp A) (original new : Nat) : Option (World Imp A) :=
  match (w.data original).ext with
  | some e => w.duplicateExt original new e
  | none => w.duplicateBase original new

end World

/-- Root classes without lists. -/
def blank : World Unit Nat where
  methods := ⟨.empty, fun _ => none, 0, fun _ _ => rfl⟩
  properties := ⟨.empty, fun _ => none, 0, fun _ _ => rfl⟩
  protocols := ⟨.empty, fun _ => none, 0, fun _ _ => rfl⟩
  data _ := ⟨⟨none, none, none⟩, none⟩
  superclasses _ := []

end ObjcRuntime.Lists
