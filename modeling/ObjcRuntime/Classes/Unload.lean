import ObjcRuntime.Classes.Methods
import ObjcRuntime.Classes.CategoryList

/-!
# ObjcRuntime.Classes.Unload

The map of pending categories, `UnattachedCategories`: images that are loaded put
their categories into it, the realization of a class takes its list out, and
`_unload_image` removes the categories of an image again.

Unloading looks for a category in the list of its class only, although loading may
also have put it into the list of the metaclass, and it erases through
`category_list::erase`, which does not shorten an array. So the categories of an
image are gone exactly if each of them was alone in the list of its class.
`attachCategories` does not touch the map and is left out.
-/

namespace ObjcRuntime.Classes.Unattached

open Function List Option

/-! ### The code -/

/-- What the images contain. -/
structure Images where
  /-- The `category_t` at an address. -/
  category : Nat → Category
  /-- Nothing for a weak-linked class that is missing. -/
  remapClass : Cls → Option Cls
  isStubClass : Cls → Bool
  isa : Cls → Cls

/-- `header_info` with the sections of the image. -/
structure HeaderInfo (lp64 : Bool) where
  address : Nat
  catlist : List Nat
  catlist2 : List Nat
  classlist : List Cls
  nlclslist : List Cls
  valid : ∀ cat ∈ catlist ++ catlist2, Locstamped.Valid lp64 ⟨cat, address⟩

/-- The map, and which classes are realized. -/
structure Loaded where
  realized : Cls → Bool
  unattached : Cls → Option CategoryList

/-- The map with another entry for a class. -/
def Loaded.set (s : Loaded) (cls : Cls) (entry : Option CategoryList) : Loaded :=
  { s with unattached := update s.unattached cls entry }

section Code

variable (lp64 : Bool) (imgs : Images)

def addForClass (lc : Locstamped) (cls : Cls) (address : Nat) (s : Loaded) : Option Loaded :=
  match s.unattached cls with
  | none => some (s.set cls (some (.ofCategory lp64 lc)))
  | some list => (list.append lp64 lc address).map fun list => s.set cls (some list)

/-- Attach a category to a class, or leave it for the realization of the class. -/
def attachOrAdd (lc : Locstamped) (cls : Cls) (address : Nat) (s : Loaded) : Option Loaded :=
  if s.realized cls then some s else addForClass lp64 lc cls address s

/-- The class's part of a category, or the metaclass's. -/
def loadFor (lc : Locstamped) (cls : Cls) (isMeta : Bool) (address : Nat) (s : Loaded) :
    Option Loaded :=
  if (imgs.category lc.cat).concerns isMeta then attachOrAdd lp64 lc cls address s else some s

/-- `processCatlist` for one category; `address` is where its lists are when they
have grown. -/
def processCategory (hi : HeaderInfo lp64) (address : Nat → Cls → Nat) (s : Loaded) (cat : Nat) :
    Option Loaded :=
  match imgs.remapClass (imgs.category cat).cls with
  -- the target class is missing
  | none => some s
  | some cls =>
    let lc : Locstamped := ⟨cat, hi.address⟩
    if imgs.isStubClass cls then
      if (imgs.category cat).concerns false || (imgs.category cat).concerns true then
        addForClass lp64 lc cls (address cat cls) s
      else some s
    else do
      let s ← loadFor lp64 imgs lc cls false (address cat cls) s
      loadFor lp64 imgs lc (imgs.isa cls) true (address cat (imgs.isa cls)) s

def loadCategoriesNolock (hi : HeaderInfo lp64) (address : Nat → Cls → Nat) (s : Loaded) :
    Option Loaded :=
  (hi.catlist ++ hi.catlist2).foldlM (processCategory lp64 imgs hi address) s

/-- The categories for `previously` are attached and leave the map. -/
def Loaded.attachToClass (previously : Cls) (s : Loaded) : Loaded := s.set previously none

/-- The end of a realization: `methodizeClass`. -/
def Loaded.methodizeClass (cls : Cls) (previously : Option Cls) (s : Loaded) : Loaded :=
  let s := match previously with
    | some previously => s.attachToClass previously
    | none => s
  let s := s.attachToClass cls
  { s with realized := update s.realized cls true }

def eraseCategoryForClass (cat : Nat) (cls : Cls) (s : Loaded) : Loaded :=
  match s.unattached cls with
  | none => s
  | some list =>
    let list := list.erase lp64 cat
    if list.count = 0 then s.set cls none else s.set cls (some list)

def Loaded.eraseClass (cls : Cls) (s : Loaded) : Loaded := s.set cls none

/-- The classes of the image, from both sections. -/
def HeaderInfo.classes (hi : HeaderInfo lp64) : List Cls :=
  (hi.classlist ++ hi.nlclslist).filterMap imgs.remapClass

def unloadCategory (s : Loaded) (cat : Nat) : Loaded :=
  match imgs.remapClass (imgs.category cat).cls with
  -- category for ignored weak-linked class
  | none => s
  | some cls => eraseCategoryForClass lp64 cat cls s

/-- Both calls of `detach_class` -/
def Loaded.detachClass (s : Loaded) (cls : Cls) : Loaded :=
  (s.eraseClass (imgs.isa cls)).eraseClass cls

/-- `_unload_image`; it ignores `catlist2`. -/
def unloadImage (hi : HeaderInfo lp64) (s : Loaded) : Loaded :=
  (hi.classes lp64 imgs).foldl (Loaded.detachClass imgs)
    (hi.catlist.foldl (unloadCategory lp64 imgs) s)

/-! ### Runs -/

/-- The states that loading images and realizing classes leads to. -/
inductive LoadRun : Loaded → Prop
  | init (realized : Cls → Bool) : LoadRun ⟨realized, fun _ => none⟩
  | load {s s'} (hi : HeaderInfo lp64) (address : Nat → Cls → Nat) : LoadRun s →
      loadCategoriesNolock lp64 imgs hi address s = some s' → LoadRun s'
  | realize {s} (cls : Cls) (previously : Option Cls) : LoadRun s →
      LoadRun (s.methodizeClass cls previously)

/-- The categories that wait for a class. -/
def Loaded.pending (s : Loaded) (cls : Cls) : List (Option Locstamped) :=
  match s.unattached cls with
  | none => []
  | some list => list.contents lp64

/-- Is this a category of the image? -/
def HeaderInfo.owns (hi : HeaderInfo lp64) (o : Option Locstamped) : Bool :=
  o.any fun lc => lc.cat ∈ hi.catlist ++ hi.catlist2

/-- A class or metaclass that is not the image's. -/
def HeaderInfo.Remains (hi : HeaderInfo lp64) (cls : Cls) : Prop :=
  ∀ c ∈ hi.classes lp64 imgs, cls ≠ imgs.isa c ∧ cls ≠ c

/-- None of the image's categories waits for this class, or nothing else does: it
is in `catlist`, and extends the class and not its metaclass. -/
def HeaderInfo.Alone (hi : HeaderInfo lp64) (s : Loaded) (cls : Cls) : Prop :=
  (∀ o ∈ s.pending lp64 cls, hi.owns lp64 o = false) ∨
    ∃ lc : Locstamped, s.pending lp64 cls = [some lc] ∧ lc.cat ∈ hi.catlist ∧
      imgs.remapClass (imgs.category lc.cat).cls = some cls

end Code

variable {lp64 : Bool} {imgs : Images} {hi : HeaderInfo lp64}

/-! ### Lists of the map -/

/-- Each list of the map holds at least one category. -/
def Loaded.Sound (lp64 : Bool) (s : Loaded) : Prop :=
  ∀ cls list, s.unattached cls = some list → ∃ l, Represents lp64 list l ∧ l ≠ []

@[simp] theorem Loaded.set_self (s : Loaded) (cls : Cls) (entry) :
    (s.set cls entry).unattached cls = entry :=
  update_self ..

theorem Loaded.set_other (s : Loaded) {cls c} (h : c ≠ cls) (entry) :
    (s.set cls entry).unattached c = s.unattached c :=
  update_of_ne h ..

variable {s : Loaded}

theorem Loaded.Sound.set (h : s.Sound lp64) (cls : Cls) {entry}
    (hentry : ∀ list, entry = some list → ∃ l, Represents lp64 list l ∧ l ≠ []) :
    (s.set cls entry).Sound lp64 := by
  intro c list hlist
  by_cases hc : c = cls
  · subst hc
    exact hentry list (s.set_self c entry ▸ hlist)
  · exact h c list (s.set_other hc entry ▸ hlist)

theorem Loaded.Sound.remove (h : s.Sound lp64) (cls : Cls) : (s.set cls none).Sound lp64 :=
  h.set cls nofun

variable {lc : Locstamped} {cls : Cls}

theorem addForClass_sound {s s'} (h : s.Sound lp64) (hlc : lc.Valid lp64) {address}
    (hs : addForClass lp64 lc cls address s = some s') : s'.Sound lp64 := by
  unfold addForClass at hs
  split at hs
  · cases hs
    refine h.set cls fun list hlist => ?_
    cases hlist
    exact ⟨[lc], ofCategory_represents hlc, cons_ne_nil lc []⟩
  next list hlist =>
    obtain ⟨list', hlist', rfl⟩ := map_eq_some_iff.1 hs
    obtain ⟨l, hl, -⟩ := h cls list hlist
    refine h.set cls fun list'' heq => ?_
    cases heq
    exact ⟨l ++ [lc], hl.of_append hlc hlist', by simp⟩

theorem attachOrAdd_sound {s s'} (h : s.Sound lp64) (hlc : lc.Valid lp64) {address}
    (hs : attachOrAdd lp64 lc cls address s = some s') : s'.Sound lp64 := by
  unfold attachOrAdd at hs
  split at hs
  · cases hs
    exact h
  · exact addForClass_sound h hlc hs

theorem loadFor_sound {s s'} (h : s.Sound lp64) (hlc : lc.Valid lp64) {isMeta address}
    (hs : loadFor lp64 imgs lc cls isMeta address s = some s') : s'.Sound lp64 := by
  unfold loadFor at hs
  split at hs
  · exact attachOrAdd_sound h hlc hs
  · cases hs
    exact h

variable {cat : Nat}

theorem processCategory_sound {address s s'} (h : s.Sound lp64)
    (hcat : cat ∈ hi.catlist ++ hi.catlist2)
    (hs : processCategory lp64 imgs hi address s cat = some s') : s'.Sound lp64 := by
  have hlc := hi.valid cat hcat
  unfold processCategory at hs
  split at hs
  · cases hs
    exact h
  next cls hcls =>
    split at hs
    · split at hs
      · exact addForClass_sound h hlc hs
      · cases hs
        exact h
    · obtain ⟨s₁, h₁, h₂⟩ := bind_eq_some_iff.1 hs
      exact loadFor_sound (loadFor_sound h hlc h₁) hlc h₂

variable {cats : List Nat}

theorem processCatlist_sound {address} :
    ∀ {s s'}, s.Sound lp64 → (∀ cat ∈ cats, cat ∈ hi.catlist ++ hi.catlist2) →
      cats.foldlM (processCategory lp64 imgs hi address) s = some s' → s'.Sound lp64 := by
  induction cats with
  | nil =>
    intro s s' h _ hs
    cases hs
    exact h
  | cons cat cats ih =>
    intro s s' h hcats hs
    obtain ⟨s₁, h₁, h₂⟩ := bind_eq_some_iff.1 hs
    exact ih (processCategory_sound h (hcats cat mem_cons_self) h₁)
      (fun c hc => hcats c (mem_cons_of_mem _ hc)) h₂

theorem LoadRun.sound (h : LoadRun lp64 imgs s) : s.Sound lp64 := by
  induction h with
  | init realized => exact nofun
  | load hi address _ hs ih => exact processCatlist_sound ih (fun _ h => h) hs
  | realize cls previously _ ih =>
    cases previously with
    | none => exact ih.remove cls
    | some previously => exact (ih.remove previously).remove cls

/-! ### Unloading -/

/-- What is left of a list after an erase. -/
def leftOf (lp64 : Bool) (list : CategoryList) (cat : Nat) : Option CategoryList :=
  if (list.erase lp64 cat).count = 0 then none else some (list.erase lp64 cat)

theorem eraseCategoryForClass_other {cls c} (h : c ≠ cls) :
    (eraseCategoryForClass lp64 cat cls s).unattached c = s.unattached c := by
  unfold eraseCategoryForClass
  split
  · rfl
  · dsimp only
    split <;> exact s.set_other h _

theorem eraseCategoryForClass_none
    (h : s.unattached cls = none) : eraseCategoryForClass lp64 cat cls s = s := by
  unfold eraseCategoryForClass
  rw [h]

variable {list : CategoryList}

theorem eraseCategoryForClass_some (h : s.unattached cls = some list) :
    (eraseCategoryForClass lp64 cat cls s).unattached cls = leftOf lp64 list cat := by
  unfold eraseCategoryForClass leftOf
  rw [h]
  dsimp only
  split <;> exact s.set_self cls _

theorem unloadCategory_of_some (h : imgs.remapClass (imgs.category cat).cls = some cls) :
    unloadCategory lp64 imgs s cat = eraseCategoryForClass lp64 cat cls s := by
  unfold unloadCategory
  rw [h]

variable {c : Cls}

/-- What each erase from a list keeps, unloading the categories keeps. -/
theorem unloadCategories_keeps {P : Option CategoryList → Prop}
    (hstep : ∀ cat ∈ cats, imgs.remapClass (imgs.category cat).cls = some c →
      ∀ list, P (some list) → P (leftOf lp64 list cat)) :
    ∀ {s}, P (s.unattached c) →
      P ((cats.foldl (unloadCategory lp64 imgs) s).unattached c) := by
  induction cats with
  | nil => exact fun h => h
  | cons cat cats ih =>
    intro s h
    refine ih (fun cat' hcat' => hstep cat' (mem_cons_of_mem _ hcat')) ?_
    unfold unloadCategory
    split
    · exact h
    next cls hcls =>
      by_cases hc : c = cls
      · subst hc
        cases hlist : s.unattached c with
        | none =>
          rw [eraseCategoryForClass_none hlist]
          exact h
        | some list =>
          rw [eraseCategoryForClass_some hlist]
          exact hstep cat mem_cons_self hcls list (hlist ▸ h)
      · rw [eraseCategoryForClass_other hc]
        exact h

theorem unloadCategories_same (h : s.unattached c = some list)
    (hstep : ∀ cat ∈ cats, imgs.remapClass (imgs.category cat).cls = some c →
      leftOf lp64 list cat = some list) :
    (cats.foldl (unloadCategory lp64 imgs) s).unattached c = some list :=
  unloadCategories_keeps (P := (· = some list))
    (fun cat hcat hcls _ hlist => some.inj hlist ▸ hstep cat hcat hcls) h

theorem unloadCategories_single (h : s.unattached c = some list) (hcat : cat ∈ cats)
    (hcls : imgs.remapClass (imgs.category cat).cls = some c) (hleft : leftOf lp64 list cat = none)
    (hstep : ∀ cat', leftOf lp64 list cat' = none ∨ leftOf lp64 list cat' = some list) :
    (cats.foldl (unloadCategory lp64 imgs) s).unattached c = none := by
  obtain ⟨before, after, rfl⟩ := append_of_mem hcat
  rw [foldl_append, foldl_cons]
  have hbefore : (before.foldl (unloadCategory lp64 imgs) s).unattached c = none ∨
      (before.foldl (unloadCategory lp64 imgs) s).unattached c = some list := by
    refine unloadCategories_keeps (P := fun o => o = none ∨ o = some list) ?_ (.inr h)
    intro cat' _ _ list' hlist'
    rcases hlist' with hlist' | hlist'
    · cases hlist'
    · cases hlist'
      exact hstep cat'
  refine unloadCategories_keeps (P := (· = none)) nofun ?_
  rw [unloadCategory_of_some hcls]
  rcases hbefore with hbefore | hbefore
  · rw [eraseCategoryForClass_none hbefore]
    exact hbefore
  · exact (eraseCategoryForClass_some hbefore).trans hleft

theorem detachClasses_remains {classes : List Cls}
    (h : ∀ cls ∈ classes, c ≠ imgs.isa cls ∧ c ≠ cls) :
    (classes.foldl (Loaded.detachClass imgs) s).unattached c = s.unattached c := by
  induction classes generalizing s with
  | nil => rfl
  | cons cls classes ih =>
    obtain ⟨hisa, hcls⟩ := h cls mem_cons_self
    rw [foldl_cons, ih fun cls' hcls' => h cls' (mem_cons_of_mem _ hcls')]
    calc (s.detachClass imgs cls).unattached c
        = (s.eraseClass (imgs.isa cls)).unattached c := Loaded.set_other _ hcls none
      _ = s.unattached c := s.set_other hisa none

theorem pending_of_none (h : s.unattached c = none) : s.pending lp64 c = [] := by
  unfold Loaded.pending
  rw [h]

theorem pending_of_some
    (h : s.unattached c = some list) : s.pending lp64 c = list.contents lp64 := by
  unfold Loaded.pending
  rw [h]

theorem unloadImage_unattached (h : hi.Remains lp64 imgs c) :
    (unloadImage lp64 imgs hi s).unattached c =
      (hi.catlist.foldl (unloadCategory lp64 imgs) s).unattached c :=
  detachClasses_remains h

/-! ### Erasing from the list of a class -/

theorem leftOf_other {l} (h : Represents lp64 list l)
    (hne : l ≠ []) (hcat : ∀ lc ∈ l, lc.cat ≠ cat) : leftOf lp64 list cat = some list := by
  have hsame : list.erase lp64 cat = list := by
    unfold CategoryList.erase
    cases h with
    | nil hfirst hsecond => exact absurd rfl hne
    | @single u block lc hcat₀ heq hsecond =>
      subst heq
      rw [isArray_eq_false hsecond, if_neg (by simp), if_neg]
      exact hcat _ mem_cons_self
    | @array u block l hsecond hthird hlimit hlen hblock =>
      obtain ⟨htag, hcount⟩ := isArray_eq_true hsecond
      rw [htag, if_pos rfl, hcount, findIdx?_eq_none_of_ne hblock hcat]
  unfold leftOf
  rw [hsame, h.contents.2, if_neg]
  exact fun hlen => hne (length_eq_zero_iff.1 hlen)

theorem leftOf_single (h : Represents lp64 list [lc]) : leftOf lp64 list lc.cat = none := by
  have hnot : list.u.isArray ≠ true := by
    cases h with
    | single hcat heq hsecond => simp [isArray_eq_false hsecond]
    | array hsecond hthird hlimit hlen hblock => simp at hlen
  have hleft : Represents lp64 (list.erase lp64 lc.cat) ([lc].eraseP (·.cat = lc.cat)) :=
    h.erase fun htag => absurd htag hnot
  unfold leftOf
  rw [hleft.contents.2, if_pos (by simp)]

/-- An array of `n` categories. -/
def ArrayOf (lp64 : Bool) (n : Nat) : Option CategoryList → Prop
  | none => False
  | some list => list.u.isArray = true ∧ list.u.count = n ∧ n ≤ list.block.length ∧
      list.block.length < sizeLimit lp64

theorem ArrayOf.leftOf {n} (h : ArrayOf lp64 n (some list))
    (hn : n ≠ 0) (cat : Nat) : ArrayOf lp64 n (Unattached.leftOf lp64 list cat) := by
  obtain ⟨htag, hcount, hle, hlimit⟩ := h
  obtain ⟨hu, hlen⟩ := erase_array htag (hcount ▸ hle) hlimit cat
  have hleft : (list.erase lp64 cat).count = n := by
    unfold CategoryList.count
    rw [hu, htag, if_pos rfl, hcount]
  unfold Unattached.leftOf
  rw [hleft, if_neg hn]
  exact ⟨hu ▸ htag, hu ▸ hcount, hlen ▸ hle, hlen ▸ hlimit⟩

theorem ArrayOf.length_pending {n}
    (h : ArrayOf lp64 n (s.unattached c)) : (s.pending lp64 c).length = n := by
  cases hlist : s.unattached c with
  | none =>
    rw [hlist] at h
    exact h.elim
  | some list =>
    rw [hlist] at h
    obtain ⟨htag, hcount, hle, -⟩ := h
    rw [pending_of_some hlist, CategoryList.contents, if_pos htag, length_take, hcount]
    omega

/-! ### The categories that are left -/

/-- A category of the image, in the list of a class, that unloading looks for. -/
def HeaderInfo.Finds (imgs : Images) (hi : HeaderInfo lp64) (cat : Nat) (c : Cls) : Prop :=
  cat ∈ hi.catlist ∧ imgs.remapClass (imgs.category cat).cls = some c

theorem owns_some : hi.owns lp64 (some lc) ↔ lc.cat ∈ hi.catlist ++ hi.catlist2 := by
  unfold HeaderInfo.owns
  rw [any_some, decide_eq_true_iff]

theorem unload_foreign {l} (hlist : s.unattached c = some list)
    (h : Represents lp64 list l) (hne : l ≠ []) (hforeign : ∀ lc ∈ l, ¬ hi.Finds imgs lc.cat c) :
    (hi.catlist.foldl (unloadCategory lp64 imgs) s).unattached c = some list := by
  refine unloadCategories_same hlist fun cat hcat hcls => leftOf_other h hne fun lc hlc heq => ?_
  exact hforeign lc hlc (heq ▸ ⟨hcat, hcls⟩)

theorem unload_single (hlist : s.unattached c = some list) (h : Represents lp64 list [lc])
    (hfinds : hi.Finds imgs lc.cat c) :
    (hi.catlist.foldl (unloadCategory lp64 imgs) s).unattached c = none := by
  refine unloadCategories_single hlist hfinds.1 hfinds.2 (leftOf_single h) fun cat => ?_
  by_cases hcat : lc.cat = cat
  · exact .inl (hcat ▸ leftOf_single h)
  · exact .inr (leftOf_other h (cons_ne_nil lc []) (by simpa using hcat))

theorem unload_array {n} (hn : n ≠ 0) (h : ArrayOf lp64 n (s.unattached c)) :
    ArrayOf lp64 n ((hi.catlist.foldl (unloadCategory lp64 imgs) s).unattached c) :=
  unloadCategories_keeps (P := ArrayOf lp64 n) (fun cat _ _ _ hlist => hlist.leftOf hn cat) h

theorem pending_unloadImage_iff (hs : s.Sound lp64) (hc : hi.Remains lp64 imgs c) :
    (unloadImage lp64 imgs hi s).pending lp64 c =
        (s.pending lp64 c).filter (fun o => !hi.owns lp64 o) ↔
      hi.Alone lp64 imgs s c := by
  have hafter := unloadImage_unattached (s := s) hc
  cases hlist : s.unattached c with
  | none =>
    have hnone : (unloadImage lp64 imgs hi s).unattached c = none := by
      rw [hafter]
      exact unloadCategories_keeps (P := (· = none)) nofun hlist
    rw [pending_of_none hnone, HeaderInfo.Alone, pending_of_none hlist]
    exact ⟨fun _ => .inl nofun, fun _ => rfl⟩
  | some list =>
    obtain ⟨l, h, hne⟩ := hs c list hlist
    have hpending : s.pending lp64 c = l.map some := (pending_of_some hlist).trans h.contents.1
    by_cases hforeign : ∀ o ∈ s.pending lp64 c, hi.owns lp64 o = false
    · -- nothing to remove
      have hsame : (unloadImage lp64 imgs hi s).unattached c = some list := by
        refine hafter.trans (unload_foreign hlist h hne fun lc hlc hfinds => ?_)
        have hown := hforeign (some lc) (hpending ▸ List.mem_map_of_mem hlc)
        rw [owns_some.2 (mem_append_left _ hfinds.1)] at hown
        cases hown
      rw [pending_of_some hsame, ← pending_of_some hlist,
        filter_eq_self.2 (by simpa using hforeign)]
      exact ⟨fun _ => .inl hforeign, fun _ => rfl⟩
    · cases h with
      | nil hfirst hsecond => exact absurd rfl hne
      | @single u block lc hcat heq hsecond =>
        have hrep : Represents lp64 ⟨u, block⟩ [lc] := .single hcat heq hsecond
        have hown : hi.owns lp64 (some lc) := by simpa [hpending] using hforeign
        rw [hpending, map_singleton, filter_cons_of_neg (by simp [hown]), filter_nil]
        by_cases hfinds : hi.Finds imgs lc.cat c
        · have hnone := hafter.trans (unload_single hlist hrep hfinds)
          rw [pending_of_none hnone]
          exact ⟨fun _ => .inr ⟨lc, hpending, hfinds⟩, fun _ => rfl⟩
        · have hsame := hafter.trans (unload_foreign hlist hrep hne (by simpa using hfinds))
          rw [pending_of_some hsame, ← pending_of_some hlist, hpending]
          refine ⟨nofun, fun halone => ?_⟩
          rcases halone with hnot | ⟨lc', hlc', hfinds'⟩
          · exact absurd hnot hforeign
          · obtain rfl : lc = lc' := by simpa [hpending] using hlc'
            exact absurd hfinds' hfinds
      | @array u block l hsecond hthird hlimit hlen hblock =>
        obtain ⟨htag, hcount⟩ := isArray_eq_true hsecond
        have hle : l.length ≤ block.length := by
          have := congrArg List.length hblock
          rw [length_take, length_map] at this
          omega
        have harray : ArrayOf lp64 l.length (s.unattached c) := hlist ▸ ⟨htag, hcount, hle, hlimit⟩
        have hlength : ((unloadImage lp64 imgs hi s).pending lp64 c).length = l.length :=
          ArrayOf.length_pending (hafter ▸ unload_array (by omega) harray)
        constructor
        · -- the count is the same, but a category should have gone
          intro heq
          refine absurd (fun o ho => ?_) hforeign
          have hfull : ((s.pending lp64 c).filter (fun o => !hi.owns lp64 o)).length =
              (s.pending lp64 c).length := by
            rw [← heq, hlength, hpending, length_map]
          simpa using length_filter_eq_length_iff.1 hfull o ho
        · intro halone
          rcases halone with hnot | ⟨lc, hlc, -⟩
          · exact absurd hnot hforeign
          · have := congrArg List.length (hpending.symm.trans hlc)
            rw [length_map, length_singleton] at this
            omega

/-- Unloading an image leaves none of its categories behind and keeps those of the
other images, exactly if each of its categories is alone where it waits, in the list
of its class. -/
theorem unloadImage_leaves_none_iff {s : Loaded} (hs : LoadRun lp64 imgs s) (hi : HeaderInfo lp64) :
    (∀ c, hi.Remains lp64 imgs c → (unloadImage lp64 imgs hi s).pending lp64 c =
        (s.pending lp64 c).filter (fun o => !hi.owns lp64 o)) ↔
      ∀ c, hi.Remains lp64 imgs c → hi.Alone lp64 imgs s c :=
  forall_congr' fun _ => forall_congr' fun hc => pending_unloadImage_iff hs.sound hc

/-! ### An example -/

/-- A category at 8 with an instance method, and one at 24 that also has a class
method, both for the class 2 with the metaclass 3. -/
def twoCategories : Images where
  category
    | 24 => ⟨2, some [], some [], none, none, none, false⟩
    | _ => ⟨2, some [], none, none, none, none, false⟩
  remapClass := some
  isStubClass _ := false
  isa _ := 3

/-- The image at 16 with the first category. -/
def instanceImage : HeaderInfo true where
  address := 16
  catlist := [8]
  catlist2 := []
  classlist := []
  nlclslist := []
  valid _ hcat := mem_singleton.1 hcat ▸ ⟨by decide, by decide, by decide⟩

/-- The image at 32 with the second category. -/
def classImage : HeaderInfo true where
  address := 32
  catlist := [24]
  catlist2 := []
  classlist := []
  nlclslist := []
  valid _ hcat := mem_singleton.1 hcat ▸ ⟨by decide, by decide, by decide⟩

/-- No class is realized, and no category waits. -/
def noneLoaded : Loaded := ⟨fun _ => false, fun _ => none⟩

def instanceLoaded : Loaded := noneLoaded.set 2 (some (.ofCategory true ⟨8, 16⟩))

def classLoaded : Loaded :=
  (noneLoaded.set 2 (some (.ofCategory true ⟨24, 32⟩))).set 3 (some (.ofCategory true ⟨24, 32⟩))

theorem instanceLoaded_run : LoadRun true twoCategories instanceLoaded :=
  .load instanceImage (fun _ _ => 0) (.init fun _ => false) rfl

theorem classLoaded_run : LoadRun true twoCategories classLoaded :=
  .load classImage (fun _ _ => 0) (.init fun _ => false) rfl

theorem unloadImage_leaves_none_instance :
    LoadRun true twoCategories instanceLoaded ∧
      instanceLoaded.pending true 2 = [some ⟨8, 16⟩] ∧
      ∀ c, instanceImage.Remains true twoCategories c →
        (unloadImage true twoCategories instanceImage instanceLoaded).pending true c =
          (instanceLoaded.pending true c).filter (fun o => !instanceImage.owns true o) := by
  refine ⟨instanceLoaded_run, rfl,
    (unloadImage_leaves_none_iff instanceLoaded_run instanceImage).2 fun c _ => ?_⟩
  by_cases hc : c = 2
  · subst hc
    exact .inr ⟨⟨8, 16⟩, rfl, mem_singleton_self 8, rfl⟩
  · have hnone : instanceLoaded.unattached c = none := noneLoaded.set_other hc _
    refine .inl ?_
    rw [pending_of_none hnone]
    exact nofun

/-- The metaclass's list still has the category of the unloaded image. -/
theorem unloadImage_leaves_metaclass :
    LoadRun true twoCategories classLoaded ∧ classImage.Remains true twoCategories 3 ∧
      (unloadImage true twoCategories classImage classLoaded).pending true 3 =
        [some ⟨24, 32⟩] ∧
      classImage.owns true (some ⟨24, 32⟩) = true :=
  ⟨classLoaded_run, nofun, rfl, rfl⟩

end ObjcRuntime.Classes.Unattached
