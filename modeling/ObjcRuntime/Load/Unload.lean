import Mathlib.Data.List.Nodup
import ObjcRuntime.Load.Sound

/-!
# ObjcRuntime.Load.Unload

Images that are unloaded while `+load` methods run.

`_unload_image` takes the classes and categories of the image off the loadable
lists. It does not see the list that `call_load_methods` has detached and is working
through: what is left of that list is called even if its image has gone. If no
image is unloaded while it has an entry there, no `+load` of an unloaded image is
called (`load_not_unloaded`).

An image that is loaded again is another image, with classes and categories of its
own.
-/

namespace ObjcRuntime.Load

open Lib List Option Prod State Control

variable {κ γ ι : Type}

/-! ### Unloading -/

/-- An image with its classes and categories, also those that are not called for
`+load`. -/
structure Bundle (κ γ : Type) where
  image : Image κ γ
  /-- `_getObjc2ClassList`, remapped. -/
  classlist : List (Option κ)
  catlist : List γ
  /-- A non-lazy category is in both sections. -/
  listed : ∀ cat ∈ image.categorylist, cat ∈ catlist

/-- The classes from both sections. -/
def Bundle.classes (b : Bundle κ γ) : List κ := (b.classlist ++ b.image.classlist).filterMap id

/-- Is the class or category of this image? -/
def Bundle.Defines (b : Bundle κ γ) : Receiver κ γ → Prop
  | .cls c => c ∈ b.classes
  | .cat k => k ∈ b.catlist

/-- Set the first entry of a class or category to nil. -/
def removeFrom {α : Type} [DecidableEq α] (a : α) : List (Option (α × ι)) → List (Option (α × ι))
  | [] => []
  | none :: rest => none :: removeFrom a rest
  | some e :: rest => if e.1 = a then none :: rest else some e :: removeFrom a rest

section Unload

variable [DecidableEq κ] [DecidableEq γ] (p : Program κ γ ι)

def removeClassFromLoadableList (s : State κ γ ι) (cls : κ) : State κ γ ι :=
  { s with loadableClasses := removeFrom cls s.loadableClasses }

def removeCategoryFromLoadableList (s : State κ γ ι) (cat : γ) : State κ γ ι :=
  { s with loadableCategories := removeFrom cat s.loadableCategories }

/-- The loop over `catlist`; it passes over categories of ignored classes. -/
def unloadCategory (s : State κ γ ι) (cat : γ) : State κ γ ι :=
  match p.categoryClass cat with
  | none => s
  | some _ => removeCategoryFromLoadableList s cat

/-- What `_unload_image` does to the loadable lists. -/
def unloadImage (b : Bundle κ γ) (s : State κ γ ι) : State κ γ ι :=
  b.classes.foldl removeClassFromLoadableList (b.catlist.foldl (unloadCategory p) s)

/-! ### Runs -/

/-- What is in an image that is mapped: no category of another image, and no class
with a superclass that has been unloaded. -/
structure Fresh (images unloaded : List (Bundle κ γ)) (b : Bundle κ γ) : Prop where
  nodup : b.image.categorylist.Nodup
  categories : ∀ cat ∈ b.image.categorylist, ∀ b' ∈ images, cat ∉ b'.catlist
  classes : ∀ c d, some d ∈ b.image.classlist → Ancestor p.superclass c d →
    ∀ b' ∈ unloaded, c ∉ b'.classes

/-- The states that loading and unloading images, one inside the other, leads to.
`may` tells which images may be unloaded in a state. -/
inductive UnloadRun (may : Bundle κ γ → State κ γ ι → Prop) :
    List (Bundle κ γ) → List (Bundle κ γ) → State κ γ ι → Prop
  | init : UnloadRun may [] [] .init
  | next {images unloaded s s'} :
      UnloadRun may images unloaded s → next p s = some s' → UnloadRun may images unloaded s'
  | load {images unloaded s s'} (b : Bundle κ γ) :
      UnloadRun may images unloaded s → s.control.mayLoad = true → Fresh p images unloaded b →
      loadImages p b.image s = some s' → UnloadRun may (images ++ [b]) unloaded s'
  | unload {images unloaded s} (b : Bundle κ γ) :
      UnloadRun may images unloaded s → s.control.mayLoad = true → b ∈ images → may b s →
      UnloadRun may images (unloaded ++ [b]) (unloadImage p b s)

end Unload

/-- The list that is being worked through has no entry of the image. -/
def Undetached (b : Bundle κ γ) (s : State κ γ ι) : Prop :=
  (∀ c method, some (c, method) ∈ s.control.detachedClasses → c ∉ b.classes) ∧
    ∀ k method, some (k, method) ∈ s.control.detachedCategories → k ∉ b.catlist

variable {p : Program κ γ ι} {images unloaded : List (Bundle κ γ)} {s s' : State κ γ ι}

/-! ### What is on the lists -/

/-- The classes or categories of the entries of a list. -/
def keys {α : Type} (l : List (Option (α × ι))) : List α := l.filterMap (Option.map Prod.fst)

section Keys

variable {α : Type}

@[simp] theorem keys_nil : keys ([] : List (Option (α × ι))) = [] := rfl

@[simp] theorem keys_none_cons (l : List (Option (α × ι))) : keys (none :: l) = keys l := rfl

@[simp] theorem keys_some_cons (e : α × ι) (l) : keys (some e :: l) = e.1 :: keys l := rfl

@[simp] theorem keys_append (l l' : List (Option (α × ι))) : keys (l ++ l') = keys l ++ keys l' :=
  filterMap_append

@[simp] theorem keys_map_some (l : List (α × ι)) : keys (l.map some) = l.map fst := by
  simp [keys, filterMap_map]

theorem mem_keys {l : List (Option (α × ι))} {a : α} : a ∈ keys l ↔ ∃ m, some (a, m) ∈ l := by
  simp [keys]

theorem keys_removeFrom [DecidableEq α] (a : α) (l : List (Option (α × ι))) :
    keys (removeFrom a l) = (keys l).erase a := by
  induction l with
  | nil => rfl
  | cons e l ih =>
    cases e with
    | none => simpa [removeFrom] using ih
    | some e =>
      rw [removeFrom, keys_some_cons, erase_cons]
      by_cases he : e.1 = a
      · simp [he]
      · simp [he, ih]

end Keys

def State.pendingClasses (s : State κ γ ι) : List κ :=
  keys (s.control.detachedClasses ++ s.loadableClasses)

def State.pendingCategories (s : State κ γ ι) : List γ :=
  keys (s.control.detachedCategories ++ s.loadableCategories)

def State.Pending (s : State κ γ ι) : Receiver κ γ → Prop
  | .cls c => c ∈ s.pendingClasses
  | .cat k => k ∈ s.pendingCategories

/-- What `call_load_methods` does to the lists: entries only go away, and what is
called was on them. -/
structure Advance (s s' : State κ γ ι) : Prop where
  loaded : s'.loaded = s.loaded
  classes : s'.pendingClasses.Sublist s.pendingClasses
  categories : s'.pendingCategories.Sublist s.pendingCategories
  tried : ∀ e ∈ s'.control.tried, e = none
  start : ∀ call, s'.log = s.log ++ [.start call] → s.Pending call.receiver

theorem not_self_append {α : Type} {l : List α} {a : α} (h : l = l ++ [a]) : False := by
  simp at h

theorem drop_of_slot {α : Type} {l : List α} {i a} (h : l[i]? = some a) :
    l.drop i = a :: l.drop (i + 1) := by
  obtain ⟨hlt, rfl⟩ := List.getElem?_eq_some_iff.1 h
  exact drop_eq_getElem_cons hlt

theorem next_advance (htried : ∀ e ∈ s.control.tried, e = none)
    (hknown : ∀ k ∈ s.pendingCategories, (p.categoryClass k).isSome)
    (hnext : next p s = some s') : Advance s s' := by
  obtain ⟨L, K, loaded, loading, control, log⟩ := s
  unfold next at hnext
  cases control with
  | idle => cases hnext
  | classes rest =>
    cases rest with
    | nil =>
      dsimp only at hnext
      split at hnext
      · cases hnext
        exact ⟨rfl, by simp [pendingClasses, detachedClasses], .refl _,
          forall_mem_nil _, fun _ h => (not_self_append h).elim⟩
      · cases hnext
        exact ⟨rfl, .refl _, by simp [pendingCategories, detachedCategories],
          by simp [tried], fun _ h => (not_self_append h).elim⟩
    | cons e rest =>
      cases e with
      | none =>
        cases hnext
        exact ⟨rfl, .refl _, .refl _, forall_mem_nil _, fun _ h => (not_self_append h).elim⟩
      | some e =>
        cases hnext
        refine ⟨rfl, sublist_cons_self .., .refl _, forall_mem_nil _, fun call h => ?_⟩
        obtain rfl : ⟨.cls e.1, e.2⟩ = call := by simpa using h
        exact mem_cons_self
  | classLoad cls method rest =>
    cases hnext
    exact ⟨rfl, .refl _, .refl _, forall_mem_nil _, fun call h => by simp at h⟩
  | categories cats i =>
    dsimp only at hnext
    split at hnext
    next hend =>
      cases hnext
      unfold endCategoryLoads
      rw [compact_eq_nil htried hend]
      dsimp only
      split <;>
        exact ⟨rfl, .refl _, by simp [pendingCategories, detachedCategories],
          forall_mem_nil _, fun _ h => (not_self_append h).elim⟩
    next hslot =>
      cases hnext
      refine ⟨rfl, .refl _, ?_, fun e he => ?_, fun _ h => (not_self_append h).elim⟩
      · simp [pendingCategories, detachedCategories, drop_of_slot hslot]
      · change e ∈ cats.take (i + 1) at he
        rw [take_add_one, hslot, mem_append] at he
        rcases he with he | he
        · exact htried e he
        · simpa using he
    next cat method hslot =>
      have hcat : cat ∈ pendingCategories ⟨L, K, loaded, loading, .categories cats i, log⟩ := by
        simp [pendingCategories, detachedCategories, drop_of_slot hslot]
      obtain ⟨c, hc⟩ := isSome_iff_exists.1 (hknown cat hcat)
      rw [hc, if_pos (by simp [isLoadable])] at hnext
      cases hnext
      refine ⟨rfl, .refl _, ?_, htried, fun call h => ?_⟩
      · simp [pendingCategories, detachedCategories, drop_of_slot hslot]
      · obtain rfl : ⟨.cat cat, method⟩ = call := by simpa using h
        exact hcat
  | categoryLoad cats i cat method =>
    cases hnext
    refine ⟨rfl, .refl _, ?_, eq_none_of_mem_take_set htried, fun call h => by simp at h⟩
    simp [pendingCategories, detachedCategories, drop_set_of_lt (Nat.lt_succ_self i)]

/-! ### The invariant -/

/-- Entries of the lists were scheduled once, and their images are not unloaded. -/
structure Held (p : Program κ γ ι) (images unloaded : List (Bundle κ γ)) (s : State κ γ ι) :
    Prop where
  order : ∃ order, Order p s.loaded order ∧ s.pendingClasses.Sublist (order.map Prod.fst)
  categories : s.pendingCategories.Sublist
    ((scheduledCategories p (images.map Bundle.image)).map Prod.fst)
  nodup : ((scheduledCategories p (images.map Bundle.image)).map Prod.fst).Nodup
  tried : ∀ e ∈ s.control.tried, e = none
  subset : ∀ b ∈ unloaded, b ∈ images
  held : ∀ r, s.Pending r → ∀ b ∈ unloaded, ¬ b.Defines r

theorem mem_scheduled {img : Image κ γ} {k method} (h : (k, method) ∈ img.scheduled p) :
    k ∈ img.categorylist ∧ (p.categoryClass k).isSome := by
  obtain ⟨cat, hcat, heq⟩ := mem_filterMap.1 h
  obtain ⟨c, hc, heq⟩ := bind_eq_some_iff.1 heq
  obtain ⟨m, -, heq⟩ := map_eq_some_iff.1 heq
  obtain ⟨rfl, -⟩ := mk.inj heq
  exact ⟨hcat, isSome_of_eq_some hc⟩

theorem mem_scheduledCategories {k}
    (h : k ∈ (scheduledCategories p (images.map Bundle.image)).map fst) :
    (∃ b ∈ images, k ∈ b.catlist) ∧ (p.categoryClass k).isSome := by
  obtain ⟨⟨k', method⟩, he, rfl⟩ := mem_map.1 h
  obtain ⟨img, himg, he⟩ := mem_flatMap.1 he
  obtain ⟨b, hb, rfl⟩ := mem_map.1 himg
  obtain ⟨hcat, hsome⟩ := mem_scheduled he
  exact ⟨⟨b, hb, b.listed k' hcat⟩, hsome⟩

theorem Held.known (h : Held p images unloaded s) :
    ∀ k ∈ s.pendingCategories, (p.categoryClass k).isSome :=
  fun _ hk => (mem_scheduledCategories (h.categories.subset hk)).2

theorem Held.next (h : Held p images unloaded s) (hnext : next p s = some s') :
    Held p images unloaded s' := by
  have hadv := next_advance h.tried h.known hnext
  obtain ⟨order, horder, hsub⟩ := h.order
  refine ⟨⟨order, hadv.loaded ▸ horder, hadv.classes.trans hsub⟩,
    hadv.categories.trans h.categories, h.nodup, hadv.tried, h.subset, fun r hr => h.held r ?_⟩
  cases r with
  | cls c => exact hadv.classes.subset hr
  | cat k => exact hadv.categories.subset hr

theorem scheduled_sublist (img : Image κ γ) :
    ((img.scheduled p).map fst).Sublist img.categorylist := by
  obtain ⟨classlist, categorylist⟩ := img
  induction categorylist with
  | nil => exact .refl _
  | cons cat categorylist ih =>
    unfold Image.scheduled at ih ⊢
    rw [filterMap_cons]
    split
    · exact ih.cons cat
    next e he =>
      obtain ⟨c, -, he⟩ := bind_eq_some_iff.1 he
      obtain ⟨m, -, rfl⟩ := map_eq_some_iff.1 he
      exact ih.cons_cons cat

theorem scheduledCategories_concat (b) :
    (scheduledCategories p ((images ++ [b]).map Bundle.image)).map fst =
      (scheduledCategories p (images.map Bundle.image)).map fst ++
        (b.image.scheduled p).map fst := by
  simp [scheduledCategories]

/-- Classes that an image adds to the list are its own or above them. -/
theorem Order.new_scheduled {loaded loaded'} {order new : List (κ × ι)}
    {img : Image κ γ} (h : Order p loaded order) (h' : Order p loaded' (order ++ new))
    (hloaded : ∀ c, loaded' c ↔
      loaded c ∨ ∃ d, some d ∈ img.classlist ∧ Ancestor p.superclass c d)
    {c} (hc : c ∈ new.map fst) : ∃ d, some d ∈ img.classlist ∧ Ancestor p.superclass c d := by
  obtain ⟨⟨c', method⟩, he, rfl⟩ := mem_map.1 hc
  obtain ⟨hmark, hmethod⟩ := (h'.mem_iff c' method).1 (mem_append_right _ he)
  rcases (hloaded c').1 hmark with hold | hnew
  · have hmem := mem_map_of_mem (f := fst) ((h.mem_iff c' method).2 ⟨hold, hmethod⟩)
    have hnodup := h'.nodup
    rw [map_append, nodup_append] at hnodup
    exact absurd rfl (hnodup.2.2 c' hmem c' hc)
  · exact hnew

theorem Held.map (h : Held p images unloaded s) {b}
    (hfresh : Fresh p images unloaded b) : Held p (images ++ [b]) unloaded s := by
  refine { h with categories := ?_, nodup := ?_, subset := ?_ }
  · rw [scheduledCategories_concat]
    exact h.categories.trans (sublist_append_left ..)
  · rw [scheduledCategories_concat, nodup_append]
    refine ⟨h.nodup, hfresh.nodup.sublist (scheduled_sublist _), fun k hk k' hk' heq => ?_⟩
    subst heq
    obtain ⟨⟨b', hb', hcat⟩, -⟩ := mem_scheduledCategories hk
    exact hfresh.categories k ((scheduled_sublist _).subset hk') b' hb' hcat
  · exact fun b' hb' => mem_append_left _ (h.subset b' hb')

theorem Held.callLoadMethods (h : Held p images unloaded s) :
    Held p images unloaded (callLoadMethods s) := by
  unfold Load.callLoadMethods
  split
  · exact h
  · have hclasses : (keys s.loadableClasses).Sublist s.pendingClasses := by
      rw [pendingClasses, keys_append]
      exact sublist_append_right ..
    have hcategories : (keys s.loadableCategories).Sublist s.pendingCategories := by
      rw [pendingCategories, keys_append]
      exact sublist_append_right ..
    obtain ⟨order, horder, hsub⟩ := h.order
    refine ⟨⟨order, horder, hclasses.trans hsub⟩, hcategories.trans h.categories, h.nodup, nofun,
      h.subset, fun r hr => h.held r ?_⟩
    cases r with
    | cls c => exact hclasses.subset hr
    | cat k => exact hcategories.subset hr

variable [DecidableEq κ]

theorem Held.load (h : Held p images unloaded s) {b}
    (hfresh : Fresh p images unloaded b) (hload : loadImages p b.image s = some s') :
    Held p (images ++ [b]) unloaded s' := by
  unfold loadImages at hload
  split at hload
  · obtain ⟨s₁, h₁, rfl⟩ := map_eq_some_iff.1 hload
    obtain ⟨order, horder, hsub⟩ := h.order
    obtain ⟨new, loaded, rfl, horder', hloaded⟩ := prepareLoadMethods_spec horder h₁
    refine Held.callLoadMethods { h.map hfresh with order := ?_, categories := ?_, held := ?_ }
    · refine ⟨_, horder', ?_⟩
      rw [pendingClasses, ← append_assoc, keys_append, keys_map_some, map_append]
      exact hsub.append (.refl _)
    · rw [pendingCategories, ← append_assoc, keys_append, keys_map_some, scheduledCategories_concat]
      exact h.categories.append (.refl _)
    · intro r hr b' hb'
      cases r with
      | cls c =>
        change c ∈ pendingClasses _ at hr
        rw [pendingClasses, ← append_assoc, keys_append, keys_map_some, mem_append] at hr
        rcases hr with hr | hr
        · exact h.held (.cls c) hr b' hb'
        · obtain ⟨d, hd, hanc⟩ := horder.new_scheduled horder' hloaded hr
          exact hfresh.classes c d hd hanc b' hb'
      | cat k =>
        change k ∈ pendingCategories _ at hr
        rw [pendingCategories, ← append_assoc, keys_append, keys_map_some, mem_append] at hr
        rcases hr with hr | hr
        · exact h.held (.cat k) hr b' hb'
        · exact hfresh.categories k ((scheduled_sublist _).subset hr) b' (h.subset b' hb')
  · cases hload
    exact h.map hfresh

/-! ### Unloading keeps it -/

variable [DecidableEq γ]

omit [DecidableEq γ] in
theorem unloadClasses_eq (classes : List κ) (s : State κ γ ι) :
    ∃ L, classes.foldl removeClassFromLoadableList s = { s with loadableClasses := L } ∧
      keys L = (keys s.loadableClasses).diff classes := by
  induction classes generalizing s with
  | nil => exact ⟨s.loadableClasses, rfl, rfl⟩
  | cons cls classes ih =>
    obtain ⟨L, hL, hkeys⟩ := ih (removeClassFromLoadableList s cls)
    refine ⟨L, hL, ?_⟩
    rw [hkeys, diff_cons, removeClassFromLoadableList, keys_removeFrom]

omit [DecidableEq κ] in
theorem unloadCategories_eq (cats : List γ) (s) :
    ∃ K, cats.foldl (unloadCategory p) s = { s with loadableCategories := K } ∧
      keys K =
        (keys s.loadableCategories).diff (cats.filter fun k => (p.categoryClass k).isSome) := by
  induction cats generalizing s with
  | nil => exact ⟨s.loadableCategories, rfl, rfl⟩
  | cons cat cats ih =>
    obtain ⟨K, hK, hkeys⟩ := ih (unloadCategory p s cat)
    rw [foldl_cons, hK]
    unfold unloadCategory at hkeys ⊢
    cases hc : p.categoryClass cat with
    | none =>
      rw [hc] at hkeys
      rw [filter_cons_of_neg (by simp [hc])]
      exact ⟨K, rfl, hkeys⟩
    | some c =>
      rw [hc] at hkeys
      rw [filter_cons_of_pos (by simp [hc]), diff_cons]
      exact ⟨K, rfl, by rw [hkeys, removeCategoryFromLoadableList, keys_removeFrom]⟩

theorem Held.unload (h : Held p images unloaded s) {b} (hb : b ∈ images)
    (hfree : Undetached b s) : Held p images (unloaded ++ [b]) (unloadImage p b s) := by
  obtain ⟨K, hK, hcats⟩ := unloadCategories_eq (p := p) b.catlist s
  obtain ⟨L, hL, hclasses⟩ := unloadClasses_eq b.classes { s with loadableCategories := K }
  have hunload : unloadImage p b s = { s with loadableClasses := L, loadableCategories := K } := by
    rw [unloadImage, hK, hL]
  obtain ⟨order, horder, hsub⟩ := h.order
  have hnodup : (keys s.loadableClasses).Nodup := by
    have := horder.nodup.sublist hsub
    rw [pendingClasses, keys_append, nodup_append] at this
    exact this.2.1
  have hnodup' : (keys s.loadableCategories).Nodup := by
    have := h.nodup.sublist h.categories
    rw [pendingCategories, keys_append, nodup_append] at this
    exact this.2.1
  have hlist : (unloadImage p b s).pendingClasses =
      keys s.control.detachedClasses ++ (keys s.loadableClasses).diff b.classes := by
    rw [hunload, pendingClasses, keys_append, hclasses]
  have hlist' : (unloadImage p b s).pendingCategories = keys s.control.detachedCategories ++
      (keys s.loadableCategories).diff (b.catlist.filter fun k => (p.categoryClass k).isSome) := by
    rw [hunload, pendingCategories, keys_append, hcats]
  have hless : (unloadImage p b s).pendingClasses.Sublist s.pendingClasses := by
    rw [hlist, pendingClasses, keys_append]
    exact (List.Sublist.refl _).append (diff_sublist ..)
  have hless' : (unloadImage p b s).pendingCategories.Sublist s.pendingCategories := by
    rw [hlist', pendingCategories, keys_append]
    exact (List.Sublist.refl _).append (diff_sublist ..)
  have hloaded : (unloadImage p b s).loaded = s.loaded := by rw [hunload]
  have hcontrol : (unloadImage p b s).control = s.control := by rw [hunload]
  refine ⟨⟨order, hloaded ▸ horder, hless.trans hsub⟩, hless'.trans h.categories, h.nodup,
    hcontrol ▸ h.tried, fun b' hb' => ?_, fun r hr b' hb' => ?_⟩
  · rcases mem_append.1 hb' with hb' | hb'
    · exact h.subset b' hb'
    · exact mem_singleton.1 hb' ▸ hb
  · rcases mem_append.1 hb' with hb' | hb'
    · refine h.held r ?_ b' hb'
      cases r with
      | cls c => exact hless.subset hr
      | cat k => exact hless'.subset hr
    · obtain rfl := mem_singleton.1 hb'
      cases r with
      | cls c =>
        intro hdef
        change c ∈ pendingClasses _ at hr
        rw [hlist, mem_append, hnodup.mem_sdiff_iff] at hr
        rcases hr with hr | ⟨-, hr⟩
        · obtain ⟨m, hm⟩ := mem_keys.1 hr
          exact hfree.1 c m hm hdef
        · exact hr hdef
      | cat k =>
        intro hdef
        have hsome := h.known k (hless'.subset hr)
        change k ∈ pendingCategories _ at hr
        rw [hlist', mem_append, hnodup'.mem_sdiff_iff] at hr
        rcases hr with hr | ⟨-, hr⟩
        · obtain ⟨m, hm⟩ := mem_keys.1 hr
          exact hfree.2 k m hm hdef
        · exact hr (mem_filter.2 ⟨hdef, hsome⟩)

theorem UnloadRun.held (h : UnloadRun p Undetached images unloaded s) :
    Held p images unloaded s := by
  induction h with
  | init => exact ⟨⟨[], Order.init, .refl _⟩, .refl _, nodup_nil, nofun, nofun, nofun⟩
  | next _ hnext ih => exact ih.next hnext
  | load b _ _ hfresh hload ih => exact ih.load hfresh hload
  | unload b _ _ hb hmay ih => exact ih.unload hb hmay

/-- If images are unloaded only while the detached list has no entry of theirs, no
`+load` of an unloaded image is called. -/
theorem load_not_unloaded (hrun : UnloadRun p Undetached images unloaded s)
    (hnext : next p s = some s') {call : Call κ γ ι} (hcall : s'.log = s.log ++ [.start call]) :
    ∀ b ∈ unloaded, ¬ b.Defines call.receiver :=
  hrun.held.held call.receiver
    ((next_advance hrun.held.tried hrun.held.known hnext).start call hcall)

/-! ### An example -/

/-- Root classes, each with a `+load`. -/
def rootProgram : Program Nat Nat Nat where
  superclass _ := none
  baseMethods c := some [("load", c)]
  isSwiftStable _ := false
  categoryClass _ := none
  classMethods _ := none
  depth _ := 0
  depth_lt := nofun

/-- The image of one of the classes. -/
def rootBundle (c : Nat) : Bundle Nat Nat := ⟨⟨[some c], []⟩, [some c], [], nofun⟩

theorem rootBundle_fresh (images) (c : Nat) : Fresh rootProgram images [] (rootBundle c) :=
  ⟨nodup_nil, nofun, nofun⟩

/-- The `+load` of class 0 loads the images of classes 1 and 2, and unloads the
second one again. -/
theorem load_not_unloaded_roots :
    ∃ s s', UnloadRun rootProgram Undetached [rootBundle 0, rootBundle 1, rootBundle 2]
        [rootBundle 2] s ∧ next rootProgram s = some s' ∧
      s'.log = s.log ++ [.start ⟨.cls 1, 1⟩] ∧
      ∀ b ∈ [rootBundle 2], ¬ b.Defines (.cls 1 : Receiver Nat Nat) := by
  have hrun : UnloadRun rootProgram Undetached _ _ _ :=
    .load (rootBundle 0) .init rfl (rootBundle_fresh _ 0) rfl
  replace hrun := (hrun.next rfl).next rfl
  replace hrun := hrun |>.load (rootBundle 1) rfl (rootBundle_fresh _ 1) rfl
    |>.load (rootBundle 2) rfl (rootBundle_fresh _ 2) rfl
    |>.unload (rootBundle 2) rfl (by simp) ⟨nofun, nofun⟩
  replace hrun := (hrun.next rfl).next rfl
  exact ⟨_, _, hrun, rfl, rfl, load_not_unloaded hrun rfl rfl⟩

/-- Here it is the `+load` of class 1 that unloads the image of class 2, which is on
the detached list already: its `+load` is called. -/
theorem load_after_unload :
    ∃ s s', UnloadRun rootProgram (fun _ _ => True) [rootBundle 0, rootBundle 1, rootBundle 2]
        [rootBundle 2] s ∧ next rootProgram s = some s' ∧
      s'.log = s.log ++ [.start ⟨.cls 2, 2⟩] ∧
      (rootBundle 2).Defines (.cls 2) := by
  have hrun : UnloadRun rootProgram (fun _ _ => True) _ _ _ :=
    .load (rootBundle 0) .init rfl (rootBundle_fresh _ 0) rfl
  replace hrun := (hrun.next rfl).next rfl
  replace hrun := hrun |>.load (rootBundle 1) rfl (rootBundle_fresh _ 1) rfl
    |>.load (rootBundle 2) rfl (rootBundle_fresh _ 2) rfl
  -- class 0 returns, the new list is detached, and class 1 is called
  replace hrun := ((hrun.next rfl).next rfl).next rfl
  replace hrun := hrun |>.unload (rootBundle 2) rfl (by simp) trivial |>.next rfl
  exact ⟨_, _, hrun, rfl, rfl, by simp [rootBundle, Bundle.Defines, Bundle.classes]⟩

end ObjcRuntime.Load
