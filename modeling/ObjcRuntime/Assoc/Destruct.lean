import ObjcRuntime.Assoc.Table

/-!
# ObjcRuntime.Assoc.Destruct

Releases that run deallocators.

`_object_set_associative_reference` and `_object_remove_assocations` release values
outside the lock, and a release that is the last one runs the deallocator of the
value: code that may itself get, set and remove associations, and whose releases may
run further deallocators. `Code` is such code, a finite tree that may look at what it
reads, and running it is a function on the table. `objc_destructInstance` ends with
`objectRemoveAssociations o true`, and nothing looks at the table after it.

Setting an association on an instance of a class that forbids it is a fatal error
and does not return, so it is no part of `Code`. The log of calls is not in the
source.
-/

namespace ObjcRuntime.Assoc

open List AList

variable {ω κ ν : Type} [DecidableEq ω] [DecidableEq κ]

/-! ### Deallocators -/

/-- Code that uses associated objects. -/
inductive Code (ω κ ν : Type)
  | done
  /-- `objc_getAssociatedObject`; what follows may depend on the value. -/
  | get (o : ω) (k : κ) (next : Option ν → Code ω κ ν)
  /-- `objc_setAssociatedObject`, where copying the value gives `copied`, and
  releasing the old value runs `released`. -/
  | set (o : ω) (k : κ) (value : Option ν) (policy : Nat) (copied : Option ν)
      (released : ν → Code ω κ ν) (next : Code ω κ ν)
  /-- `objc_removeAssociatedObjects`, or the removal of an object that is deallocated;
  releasing the value of a key runs `released` for that key. -/
  | remove (o : ω) (deallocating : Bool) (released : κ → Code ω κ ν) (next : Code ω κ ν)

/-- A call that was made. -/
inductive Call (ω κ ν : Type)
  | get (o : ω) (k : κ)
  | set (o : ω) (k : κ) (value : Option ν) (policy : Nat)
  | remove (o : ω) (deallocating : Bool)
  deriving DecidableEq

/-- Does the call store an association on `o`? -/
def Call.storesOn (o : ω) : Call ω κ ν → Bool
  | .set o' _ value _ => o' = o && value.isSome
  | _ => false

structure World (ω κ ν : Type) where
  associations : AssociationsHashMap ω κ ν
  log : List (Call ω κ ν)

/-- The value after `acquireValue`. -/
def acquiredValue (policy : Nat) (value copied : Option ν) : Option ν :=
  match value, acquisition policy with
  | some _, .copy => copied
  | value, _ => value

/-- `releaseHeldValue`, where the last release of a value runs its deallocator. -/
def releaseHeld (deallocator : ν → World ω κ ν → World ω κ ν) (a : ObjcAssociation ν)
    (w : World ω κ ν) : World ω κ ν :=
  match a.value with
  | some v => if holds a.policy then deallocator v w else w
  | none => w

/-- `_object_set_associative_reference` -/
def objectSetAssociativeReference (o : ω) (k : κ) (value : Option ν) (policy : Nat)
    (copied : Option ν) (deallocator : ν → World ω κ ν → World ω κ ν) (w : World ω κ ν) :
    World ω κ ν :=
  let association := ⟨policy, acquiredValue policy value copied⟩
  let log := w.log ++ [.set o k value policy]
  if value.isSome then
    let r := setValue o k association w.associations
    releaseHeld deallocator r.1 ⟨r.2.2, log⟩
  else
    let r := setNil o k association w.associations
    releaseHeld deallocator r.1 ⟨r.2, log⟩

/-- The first loop of `_object_remove_assocations`: what is left for the second one. -/
def releaseLoop (deallocating : Bool) (deallocator : κ → World ω κ ν → World ω κ ν) :
    List (Sigma fun _ : κ => ObjcAssociation ν) →
      List (Sigma fun _ : κ => ObjcAssociation ν) × World ω κ ν →
      List (Sigma fun _ : κ => ObjcAssociation ν) × World ω κ ν
  | [], r => r
  | i :: refs, (laterRefs, w) =>
    if i.2.isSystem then
      releaseLoop deallocating deallocator refs
        (if deallocating then laterRefs ++ [i] else laterRefs, w)
    else
      releaseLoop deallocating deallocator refs
        (laterRefs, releaseHeld (fun _ => deallocator i.1) i.2 w)

/-- The second loop. -/
def releaseLaterLoop (deallocator : κ → World ω κ ν → World ω κ ν) :
    List (Sigma fun _ : κ => ObjcAssociation ν) → World ω κ ν → World ω κ ν
  | [], w => w
  | later :: laterRefs, w =>
    releaseLaterLoop deallocator laterRefs
      (releaseHeld (fun _ => deallocator later.1) later.2 w)

/-- `_object_remove_assocations` -/
def objectRemoveAssociations (o : ω) (deallocating : Bool)
    (deallocator : κ → World ω κ ν → World ω κ ν) (w : World ω κ ν) : World ω κ ν :=
  let r := removeAssociations o deallocating w.associations
  let loop := releaseLoop deallocating deallocator r.1.entries
    ([], ⟨r.2, w.log ++ [.remove o deallocating]⟩)
  releaseLaterLoop deallocator loop.1 loop.2

def Code.run : Code ω κ ν → World ω κ ν → World ω κ ν
  | .done, w => w
  | .get o k next, w =>
    (next ((contents w.associations o k).bind (·.value))).run
      { w with log := w.log ++ [.get o k] }
  | .set o k value policy copied released next, w =>
    next.run (objectSetAssociativeReference o k value policy copied (fun v => (released v).run) w)
  | .remove o deallocating released next, w =>
    next.run (objectRemoveAssociations o deallocating (fun k => (released k).run) w)

/-! ### What calls leave alone -/

/-- From `w` to `w'` calls were made, and unless one of them stored an association on
`o` there is no entry for `o` that was not there before. -/
def Leaves (o : ω) (w w' : World ω κ ν) : Prop :=
  ∃ calls, w'.log = w.log ++ calls ∧
    ((∀ call ∈ calls, call.storesOn o = false) →
      w.associations.lookup o = none → w'.associations.lookup o = none)

variable {o : ω} {w w' w'' : World ω κ ν}

omit [DecidableEq κ] in
theorem Leaves.refl : Leaves o w w := ⟨[], (append_nil _).symm, fun _ h => h⟩

omit [DecidableEq κ] in
theorem Leaves.trans (h : Leaves o w w') (h' : Leaves o w' w'') : Leaves o w w'' := by
  obtain ⟨calls, hlog, hleaves⟩ := h
  obtain ⟨calls', hlog', hleaves'⟩ := h'
  refine ⟨calls ++ calls', by rw [hlog', hlog, append_assoc], fun hcalls hnone => ?_⟩
  have hmid := hleaves (fun call h => hcalls call (mem_append_left _ h)) hnone
  exact hleaves' (fun call h => hcalls call (mem_append_right _ h)) hmid

variable {associations : AssociationsHashMap ω κ ν}

omit [DecidableEq κ] in
theorem Leaves.call (call) (h : call.storesOn o = false → w.associations.lookup o = none →
      associations.lookup o = none) : Leaves o w ⟨associations, w.log ++ [call]⟩ :=
  ⟨[call], rfl, fun hcalls => h (hcalls call mem_cons_self)⟩

omit [DecidableEq κ] in
theorem Leaves.releaseHeld {deallocator}
    (h : ∀ v w, Leaves o w (deallocator v w)) (a : ObjcAssociation ν) (w : World ω κ ν) :
    Leaves o w (releaseHeld deallocator a w) := by
  unfold Assoc.releaseHeld
  split
  · split
    · exact h _ w
    · exact .refl
  · exact .refl

theorem setValue_lookup_of_ne {o'} (h : o' ≠ o) (k : κ) (a)
    (associations : AssociationsHashMap ω κ ν) :
    (setValue o k a associations).2.2.lookup o' = associations.lookup o' := by
  unfold setValue
  dsimp only
  split
  · exact lookup_insert_ne h
  · exact lookup_insert_ne h

theorem setNil_lookup_of_none {o'} (k : κ) (a) (h : associations.lookup o' = none) :
    (setNil o k a associations).2.lookup o' = none := by
  unfold setNil
  split
  · exact h
  next refs hlookup =>
    have hne : o' ≠ o := fun heq => by
      rw [heq, hlookup] at h
      cases h
    split
    · exact h
    · dsimp only
      split
      · rw [lookup_erase_ne hne, h]
      · rw [lookup_insert_ne hne, h]

theorem removeAssociations_lookup_of_none {o'} (deallocating) (h : associations.lookup o' = none) :
    (removeAssociations o deallocating associations).2.lookup o' = none := by
  unfold removeAssociations
  split
  · exact h
  next refs hlookup =>
    have hne : o' ≠ o := fun heq => by
      rw [heq, hlookup] at h
      cases h
    dsimp only
    split
    · rw [lookup_insert_ne hne, h]
    · rw [lookup_erase_ne hne, h]

theorem removeAssociations_lookup_self (associations : AssociationsHashMap ω κ ν) :
    (removeAssociations o true associations).2.lookup o = none := by
  unfold removeAssociations
  split
  · assumption
  · exact lookup_erase _ _

theorem Leaves.objectSetAssociativeReference {deallocator} (h : ∀ v w, Leaves o w (deallocator v w))
    (o' : ω) (k : κ) (value : Option ν) (policy : Nat) (copied : Option ν) (w) :
    Leaves o w (objectSetAssociativeReference o' k value policy copied deallocator w) := by
  unfold Assoc.objectSetAssociativeReference
  split
  next hvalue =>
    refine .trans (.call (.set o' k value policy) fun hstores hnone => ?_) (.releaseHeld h _ _)
    have hne : o ≠ o' := fun heq => by simp [Call.storesOn, heq, hvalue] at hstores
    rw [setValue_lookup_of_ne hne, hnone]
  · exact .trans (.call (.set o' k value policy) fun _ hnone => setNil_lookup_of_none k _ hnone)
      (.releaseHeld h _ _)

section Loops

variable {deallocator : κ → World ω κ ν → World ω κ ν}
  (h : ∀ k w, Leaves o w (deallocator k w))

include h

omit [DecidableEq κ] in
theorem Leaves.releaseLoop (deallocating) (refs : List (Sigma fun _ => ObjcAssociation ν)) :
    ∀ r, Leaves o r.2 (releaseLoop deallocating deallocator refs r).2 := by
  induction refs with
  | nil => exact fun r => .refl
  | cons i refs ih =>
    rintro ⟨laterRefs, w⟩
    unfold Assoc.releaseLoop
    split
    · exact ih (_, w)
    · exact .trans (.releaseHeld (fun _ => h i.1) i.2 w) (ih (laterRefs, _))

omit [DecidableEq κ] in
theorem Leaves.releaseLaterLoop (laterRefs : List (Sigma fun _ => ObjcAssociation ν)) :
    ∀ w, Leaves o w (releaseLaterLoop deallocator laterRefs w) := by
  induction laterRefs with
  | nil => exact fun w => .refl
  | cons later laterRefs ih =>
    intro w
    exact .trans (.releaseHeld (fun _ => h later.1) later.2 w) (ih _)

theorem Leaves.loops (o' : ω) (deallocating) (w) :
    Leaves o ⟨(removeAssociations o' deallocating w.associations).2,
        w.log ++ [.remove o' deallocating]⟩
      (objectRemoveAssociations o' deallocating deallocator w) :=
  .trans (Leaves.releaseLoop h deallocating _ _) (Leaves.releaseLaterLoop h _ _)

theorem Leaves.objectRemoveAssociations (o' : ω) (deallocating) (w) :
    Leaves o w (objectRemoveAssociations o' deallocating deallocator w) :=
  .trans (.call (.remove o' deallocating) fun _ => removeAssociations_lookup_of_none deallocating)
    (Leaves.loops h o' deallocating w)

end Loops

/-- **Only a call that stores an association on an object makes an entry for it**,
whatever deallocators the calls run. -/
theorem Code.run_leaves (o : ω) (code : Code ω κ ν) : ∀ w, Leaves o w (code.run w) := by
  induction code with
  | done => exact fun w => .refl
  | get o' k next ih =>
    intro w
    exact .trans (.call (.get o' k) fun _ hnone => hnone) (ih _ _)
  | set o' k value policy copied released next ihReleased ihNext =>
    intro w
    exact .trans (.objectSetAssociativeReference ihReleased o' k value policy copied w) (ihNext _)
  | remove o' deallocating released next ihReleased ihNext =>
    intro w
    exact .trans (Leaves.objectRemoveAssociations ihReleased o' deallocating w) (ihNext _)

/-! ### Destroying an object -/

/-- **A destroyed object leaves no association behind** if none is stored on it while
the values are released. -/
theorem destroyed_leaves_no_association (o : ω) (associations : AssociationsHashMap ω κ ν)
    (released : κ → Code ω κ ν)
    (h : ∀ call ∈ (objectRemoveAssociations o true (fun k => (released k).run)
      ⟨associations, []⟩).log, call.storesOn o = false) :
    (objectRemoveAssociations o true (fun k => (released k).run)
      ⟨associations, []⟩).associations.lookup o = none := by
  obtain ⟨calls, hlog, hleaves⟩ := Leaves.loops (o := o) (fun k => (released k).run_leaves o) o true
    ⟨associations, []⟩
  rw [hlog] at h
  exact hleaves (fun call hcall => h call (mem_append_right _ hcall))
    (removeAssociations_lookup_self associations)

/-- Object `0` with an association that is released when it dies. -/
def oneAssociation : AssociationsHashMap Nat Nat Nat :=
  (∅ : AssociationsHashMap Nat Nat Nat).insert 0
    ((∅ : ObjectAssociationMap Nat Nat).insert 0 ⟨setterRetain, some 7⟩)

/-- The deallocator of the value looks at the dying object and stores something on
another one. -/
theorem destroyed_leaves_no_association_elsewhere :
    (objectRemoveAssociations 0 true
      (fun _ => (Code.get 0 0 fun _ =>
        .set 1 0 (some 8) setterRetain none (fun _ => .done) .done).run)
      ⟨oneAssociation, []⟩).associations.lookup 0 = none :=
  destroyed_leaves_no_association 0 oneAssociation
    (fun _ => .get 0 0 fun _ => .set 1 0 (some 8) setterRetain none (fun _ => .done) .done)
    (by decide)

/-- The deallocator of the value stores something on the dying object: the entry
stays, for the next object at that address. -/
theorem destroyed_keeps_association :
    ((objectRemoveAssociations 0 true
      (fun _ => (Code.set 0 1 (some 8) setterRetain none (fun _ => .done) .done).run)
      ⟨oneAssociation, []⟩).associations.lookup 0).isSome = true := by
  decide

end ObjcRuntime.Assoc
