import Mathlib.Data.List.AList

/-!
# ObjcRuntime.Assoc.Table

The table of associated objects and what is done to it under
`AssociationsManagerLock`.

The table is a map from objects to maps from keys to associations. A `DenseMap` is
an association list without duplicate keys here; the order of its entries stands
for the order of the buckets, and nothing depends on it. `contents` is the flat map
that the nested ones stand for.
-/

namespace ObjcRuntime.Assoc

open List Option Bool AList

variable {ω κ ν : Type} [DecidableEq ω] [DecidableEq κ]

/-! ### Associations -/

/-- `OBJC_ASSOCIATION_SETTER_RETAIN` -/
def setterRetain : Nat := 1

/-- `OBJC_ASSOCIATION_SETTER_COPY` -/
def setterCopy : Nat := 3

/-- `OBJC_ASSOCIATION_GETTER_RETAIN` -/
def getterRetain : Nat := 1 <<< 8

/-- `OBJC_ASSOCIATION_GETTER_AUTORELEASE` -/
def getterAutorelease : Nat := 2 <<< 8

/-- `OBJC_ASSOCIATION_SYSTEM_OBJECT` -/
def systemObject : Nat := 1 <<< 16

/-- The policies of `objc_AssociationPolicy`, with or without the flag for system
objects. -/
def documented : List Nat :=
  [0, 1, 3, 0o1401, 0o1403] ++ [0, 1, 3, 0o1401, 0o1403].map (· ||| systemObject)

/-- Those that are documented as atomic. -/
def atomic : List Nat :=
  [0o1401, 0o1403] ++ [0o1401, 0o1403].map (· ||| systemObject)

/-- `ObjcAssociation`, with values `ν`. -/
structure ObjcAssociation (ν : Type) where
  policy : Nat
  value : Option ν
  deriving Repr, DecidableEq

/-- `ObjcAssociation()` -/
def ObjcAssociation.empty : ObjcAssociation ν := ⟨0, none⟩

/-- What `acquireValue` does to a value. -/
inductive Acquisition
  | assign | retain | copy
  deriving Repr, DecidableEq

/-- The `switch` of `acquireValue`. -/
def acquisition (policy : Nat) : Acquisition :=
  if policy &&& 0xFF = setterRetain then .retain
  else if policy &&& 0xFF = setterCopy then .copy
  else .assign

/-- Does a policy hold a reference, by the test of `releaseHeldValue`? -/
def holds (policy : Nat) : Bool := policy &&& setterRetain ≠ 0

/-- The test of `retainReturnedValue`. -/
def retainsReturned (policy : Nat) : Bool := policy &&& getterRetain ≠ 0

/-- The test of `autoreleaseReturnedValue`. -/
def autoreleasesReturned (policy : Nat) : Bool := policy &&& getterAutorelease ≠ 0

def ObjcAssociation.isSystem (a : ObjcAssociation ν) : Bool := a.policy &&& systemObject ≠ 0

/-- What is acquired is released: for the documented policies the two tests agree. -/
theorem holds_of_documented {policy} (h : policy ∈ documented) :
    holds policy = decide (acquisition policy ≠ .assign) := by
  revert policy
  decide

theorem retainsReturned_of_atomic {policy} (h : policy ∈ atomic) : retainsReturned policy := by
  revert policy
  decide

/-! ### Maps -/

abbrev ObjectAssociationMap (κ ν : Type) := AList fun _ : κ => ObjcAssociation ν

abbrev AssociationsHashMap (ω κ ν : Type) := AList fun _ : ω => ObjectAssociationMap κ ν

/-- What is stored for an object and a key. -/
def contents (associations : AssociationsHashMap ω κ ν) (o : ω) (k : κ) :
    Option (ObjcAssociation ν) :=
  (associations.lookup o).bind (AList.lookup k)

/-- The region of `_object_set_associative_reference` for a value that is not nil:
what is left in `association`, and whether it is the first one of the object. -/
def setValue (object : ω) (key : κ) (association : ObjcAssociation ν)
    (associations : AssociationsHashMap ω κ ν) :
    ObjcAssociation ν × Bool × AssociationsHashMap ω κ ν :=
  let refs := (associations.lookup object).getD ∅
  let isFirstAssociation := (associations.lookup object).isNone
  let associations := associations.insert object (refs.insert key association)
  match refs.lookup key with
  -- the association is moved into the map
  | none => (.empty, isFirstAssociation, associations)
  | some old => (old, isFirstAssociation, associations)

/-- The region for nil. -/
def setNil (object : ω) (key : κ) (association : ObjcAssociation ν)
    (associations : AssociationsHashMap ω κ ν) :
    ObjcAssociation ν × AssociationsHashMap ω κ ν :=
  match associations.lookup object with
  | none => (association, associations)
  | some refs =>
    match refs.lookup key with
    | none => (association, associations)
    | some old =>
      let refs := refs.erase key
      (old, if refs.entries.length = 0 then associations.erase object
        else associations.insert object refs)

/-- The loop of `_object_remove_assocations` that puts associations back. -/
def reInsert (entries : List (Sigma fun _ : κ => ObjcAssociation ν))
    (refs : ObjectAssociationMap κ ν) : ObjectAssociationMap κ ν :=
  entries.foldl (fun refs ref => if ref.2.isSystem then refs.insert ref.1 ref.2 else refs) refs

/-- The region of `_object_remove_assocations`: the map that was swapped out. -/
def removeAssociations (object : ω) (deallocating : Bool)
    (associations : AssociationsHashMap ω κ ν) :
    ObjectAssociationMap κ ν × AssociationsHashMap ω κ ν :=
  match associations.lookup object with
  | none => (∅, associations)
  | some refs =>
    let didReInsert := !deallocating && refs.entries.any fun ref => ref.2.isSystem
    (refs, if didReInsert then associations.insert object (reInsert refs.entries ∅)
      else associations.erase object)

/-! ### The flat map -/

variable (associations : AssociationsHashMap ω κ ν)

theorem contents_insert (o o' : ω) (refs) (k : κ) :
    contents (associations.insert o refs) o' k =
      if o' = o then refs.lookup k else contents associations o' k := by
  unfold contents
  split
  next h =>
    subst h
    rw [lookup_insert]
    rfl
  next h => rw [lookup_insert_ne h]

theorem contents_erase (o o' : ω) (k : κ) :
    contents (associations.erase o) o' k = if o' = o then none else contents associations o' k := by
  unfold contents
  split
  next h =>
    subst h
    rw [lookup_erase]
    rfl
  next h => rw [lookup_erase_ne h]

theorem lookup_getD (o : ω) (k : κ) :
    ((associations.lookup o).getD ∅).lookup k = contents associations o k := by
  unfold contents
  cases associations.lookup o with
  | none | some => rfl

/-- **Setting a value changes one place and gives back what was there.** -/
theorem setValue_spec (o : ω) (k : κ) (a) :
    (setValue o k a associations).1 = (contents associations o k).getD .empty ∧
    (setValue o k a associations).2.1 = (associations.lookup o).isNone ∧
    ∀ o' k', contents (setValue o k a associations).2.2 o' k' =
      if o' = o ∧ k' = k then some a else contents associations o' k' := by
  have hlookup := lookup_getD associations o k
  have hcontents : ∀ o' k',
      contents (associations.insert o (((associations.lookup o).getD ∅).insert k a)) o' k' =
        if o' = o ∧ k' = k then some a else contents associations o' k' := by
    intro o' k'
    rw [contents_insert]
    by_cases ho : o' = o
    · subst ho
      rw [if_pos rfl]
      by_cases hk : k' = k
      · subst hk
        rw [lookup_insert, if_pos ⟨rfl, rfl⟩]
      · rw [lookup_insert_ne hk, if_neg (fun h => hk h.2), lookup_getD]
    · rw [if_neg ho, if_neg (fun h => ho h.1)]
  unfold setValue
  dsimp only
  rw [hlookup]
  cases contents associations o k with
  | none | some old => exact ⟨rfl, rfl, hcontents⟩

theorem setNil_spec (o : ω) (k : κ) (a) :
    (setNil o k a associations).1 = (contents associations o k).getD a ∧
    ∀ o' k', contents (setNil o k a associations).2 o' k' =
      if o' = o ∧ k' = k then none else contents associations o' k' := by
  have hsame (hnone : contents associations o k = none) : ∀ o' k', contents associations o' k' =
      if o' = o ∧ k' = k then none else contents associations o' k' := by
    intro o' k'
    split
    next h => rw [h.1, h.2, hnone]
    · rfl
  unfold setNil
  split
  next hlookup =>
    have hnone : contents associations o k = none := by rw [contents, hlookup]; rfl
    exact ⟨by rw [hnone]; rfl, hsame hnone⟩
  next refs hlookup =>
    have hinner : contents associations o k = refs.lookup k := by rw [contents, hlookup]; rfl
    split
    next hk =>
      rw [hk] at hinner
      exact ⟨by rw [hinner]; rfl, hsame hinner⟩
    next old hold =>
      refine ⟨by rw [hinner, hold]; rfl, fun o' k' => ?_⟩
      have herase : (refs.erase k).lookup k' = if k' = k then none else refs.lookup k' := by
        split
        next h => rw [h, lookup_erase]
        next h => rw [lookup_erase_ne h]
      have hother : contents associations o k' = refs.lookup k' := by
        rw [contents, hlookup]; rfl
      dsimp only
      split
      next hlen =>
        have hempty : refs.erase k = ∅ := ext (length_eq_zero_iff.1 hlen)
        rw [contents_erase]
        by_cases ho : o' = o
        · subst ho
          rw [hempty, AList.lookup_empty] at herase
          rw [if_pos rfl, hother]
          by_cases hk : k' = k
          · rw [if_pos ⟨rfl, hk⟩]
          · rw [if_neg hk] at herase
            rw [if_neg (fun h => hk h.2), herase]
        · rw [if_neg ho, if_neg (fun h => ho h.1)]
      · rw [contents_insert]
        by_cases ho : o' = o
        · subst ho
          rw [if_pos rfl, herase, hother]
          simp
        · rw [if_neg ho, if_neg (fun h => ho h.1)]

theorem lookup_reInsert {entries} :
    ∀ {refs : ObjectAssociationMap κ ν}, entries.NodupKeys →
      (∀ k, k ∈ entries.keys → refs.lookup k = none) → ∀ k,
      (reInsert entries refs).lookup k =
        (refs.lookup k).or ((entries.dlookup k).filter (·.isSystem)) := by
  induction entries with
  | nil =>
    intro refs _ _ k
    simp [reInsert]
  | cons ref entries ih =>
    intro refs hnodup hdisj k
    obtain ⟨key, assoc⟩ := ref
    obtain ⟨hkey, hnodup⟩ := nodupKeys_cons.1 hnodup
    have hdisj' : ∀ k, k ∈ entries.keys → refs.lookup k = none := fun k hk =>
      hdisj k (mem_cons_of_mem _ hk)
    change (reInsert entries (if assoc.isSystem then refs.insert key assoc else refs)).lookup k = _
    by_cases hsystem : assoc.isSystem
    · rw [if_pos hsystem, ih hnodup]
      · by_cases hk : k = key
        · subst hk
          rw [lookup_insert, hdisj k mem_cons_self, dlookup_cons_eq]
          exact (filter_some_pos hsystem).symm
        · rw [lookup_insert_ne hk, dlookup_cons_ne _ _ hk]
      · intro k' hk'
        have hne : k' ≠ key := fun heq => hkey (heq ▸ hk')
        rw [lookup_insert_ne hne, hdisj' k' hk']
    · rw [if_neg hsystem, ih hnodup hdisj']
      by_cases hk : k = key
      · subst hk
        rw [dlookup_cons_eq, dlookup_eq_none.2 hkey]
        exact congrArg _ (filter_some_neg (eq_false_iff.2 hsystem)).symm
      · rw [dlookup_cons_ne _ _ hk]

/-- **Removing takes out what the object has, system objects apart if it is not being
deallocated.** -/
theorem removeAssociations_spec (o : ω) (deallocating) (associations : AssociationsHashMap ω κ ν) :
    (removeAssociations o deallocating associations).1 = (associations.lookup o).getD ∅ ∧
    ∀ o' k', contents (removeAssociations o deallocating associations).2 o' k' =
      if o' = o then (contents associations o k').filter fun a => !deallocating && a.isSystem
      else contents associations o' k' := by
  unfold removeAssociations
  split
  next hlookup =>
    refine ⟨by rw [hlookup]; rfl, fun o' k' => ?_⟩
    split
    next ho =>
      rw [ho, contents, hlookup]
      rfl
    · rfl
  next refs hlookup =>
    refine ⟨by rw [hlookup]; rfl, fun o' k' => ?_⟩
    have hinner : contents associations o k' = refs.lookup k' := by rw [contents, hlookup]; rfl
    dsimp only
    split
    next hre =>
      rw [and_eq_true, not_eq_true'] at hre
      rw [contents_insert, hinner, hre.1]
      split
      · rw [lookup_reInsert refs.nodupKeys (fun _ _ => AList.lookup_empty _)]
        simp [AList.lookup]
      · rfl
    next hre =>
      rw [contents_erase, hinner]
      split
      · -- nothing of the object is kept
        symm
        rw [filter_eq_none_iff]
        intro a ha hkeep
        refine hre (and_eq_true_iff.2 ⟨(and_eq_true_iff.1 hkeep).1, ?_⟩)
        exact List.any_eq_true.2 ⟨⟨k', a⟩, mem_lookup_iff.1 ha, (and_eq_true_iff.1 hkeep).2⟩
      · rfl

/-! ### Entries -/

variable {associations : AssociationsHashMap ω κ ν}

/-- No object has an empty map. -/
def NoEmpty (associations : AssociationsHashMap ω κ ν) : Prop :=
  ∀ o refs, associations.lookup o = some refs → ∃ k, (refs.lookup k).isSome

variable (h : NoEmpty associations)
include h

theorem NoEmpty.entry_iff (o : ω) :
    (associations.lookup o).isSome ↔ ∃ k, (contents associations o k).isSome := by
  unfold contents
  cases hlookup : associations.lookup o with
  | none => simp
  | some refs =>
    obtain ⟨k, hk⟩ := h o refs hlookup
    exact ⟨fun _ => ⟨k, hk⟩, fun _ => rfl⟩

theorem NoEmpty.insert {refs k}
    (hk : (refs.lookup k).isSome) (o : ω) : NoEmpty (associations.insert o refs) := by
  intro o' refs' hlookup
  by_cases ho : o' = o
  · subst ho
    rw [lookup_insert] at hlookup
    cases hlookup
    exact ⟨k, hk⟩
  · rw [lookup_insert_ne ho] at hlookup
    exact h o' refs' hlookup

theorem NoEmpty.erase (o : ω) : NoEmpty (associations.erase o) := by
  intro o' refs' hlookup
  by_cases ho : o' = o
  · rw [ho, lookup_erase] at hlookup
    cases hlookup
  · rw [lookup_erase_ne ho] at hlookup
    exact h o' refs' hlookup

theorem NoEmpty.setValue (o : ω) (k : κ) (a) : NoEmpty (setValue o k a associations).2.2 := by
  have hnew : NoEmpty (associations.insert o (((associations.lookup o).getD ∅).insert k a)) :=
    h.insert (k := k) (by rw [lookup_insert]; rfl) o
  unfold Assoc.setValue
  dsimp only
  split
  · exact hnew
  · exact hnew

theorem NoEmpty.setNil (o : ω) (k : κ) (a) : NoEmpty (setNil o k a associations).2 := by
  unfold Assoc.setNil
  split
  · exact h
  next refs hlookup =>
    split
    · exact h
    · dsimp only
      split
      · exact h.erase o
      next hlen =>
        obtain ⟨⟨key, b⟩, hmem⟩ := exists_mem_of_length_pos (Nat.pos_of_ne_zero hlen)
        have hkey := mem_lookup_iff.2 hmem
        exact h.insert (k := key) (by rw [hkey]; rfl) o

theorem NoEmpty.removeAssociations (o : ω) (deallocating) :
    NoEmpty (removeAssociations o deallocating associations).2 := by
  unfold Assoc.removeAssociations
  split
  · exact h
  next refs hlookup =>
    dsimp only
    split
    next hre =>
      obtain ⟨⟨key, b⟩, hmem, hsystem⟩ := List.any_eq_true.1 (and_eq_true_iff.1 hre).2
      have hkey := AList.mem_lookup_iff.2 hmem
      refine h.insert (k := key) ?_ o
      rw [lookup_reInsert refs.nodupKeys (fun _ _ => AList.lookup_empty _), AList.lookup_empty,
        none_or, ← AList.lookup, hkey]
      exact congrArg Option.isSome (filter_some_pos hsystem)
    · exact h.erase o

omit h

end ObjcRuntime.Assoc
