import ObjcRuntime.Classes.Methods

/-!
# ObjcRuntime.Classes.Frames

What the operations leave alone.

The scanners change nothing but the custom flags (`FlagsOnly`), and each keeps to
its bundle (`BundleOnly`). The operations on one class change the lists and
methods of that class, flags, and caches, which only lose entries (`ChangesAt`);
in particular they leave the graph of the classes alone (`SameGraph`). The
relations compose, so the lemma for an operation follows the operation's own
steps.
-/

namespace ObjcRuntime.Classes

open Function Lib Option MethodCache

variable {κ : Type} {img : Image} {count : Nat} {s s' s'' : State κ}

/-! ### The relations -/

/-- The states differ in the custom flags at most. -/
def FlagsOnly (s s' : State κ) : Prop :=
  ∃ isDefault swizzled, s' = { s with isDefault, swizzled }

/-- The states differ in the flags of bundle `b` at most. -/
def BundleOnly (b : Bundle) (s s' : State κ) : Prop :=
  ∃ isDefault swizzled, s' =
    { s with
      isDefault := update s.isDefault b isDefault
      swizzled := update s.swizzled b swizzled }

/-- The states have the same classes, linked in the same way. -/
structure SameGraph (s s' : State κ) : Prop where
  superclass : s'.superclass = s.superclass
  firstSubclass : s'.firstSubclass = s.firstSubclass
  nextSiblingClass : s'.nextSiblingClass = s.nextSiblingClass
  firstRealizedClass : s'.firstRealizedClass = s.firstRealizedClass
  realized : s'.realized = s.realized
  initialized : s'.initialized = s.initialized

/-- The states differ in the pointers between classes at most. -/
def Relinked (s s' : State κ) : Prop :=
  ∃ superclass firstSubclass nextSiblingClass firstRealizedClass,
    s' = { s with superclass, firstSubclass, nextSiblingClass, firstRealizedClass }

/-- Pointers and flags apart, the states are the same. -/
structure SameContents (s s' : State κ) : Prop where
  realized : s'.realized = s.realized
  initialized : s'.initialized = s.initialized
  ext : s'.ext = s.ext
  cache : s'.cache = s.cache
  method : s'.method = s.method
  unattached : s'.unattached = s.unattached

theorem FlagsOnly.refl (s : State κ) : FlagsOnly s s := ⟨s.isDefault, s.swizzled, rfl⟩

theorem FlagsOnly.trans (h : FlagsOnly s s') (h' : FlagsOnly s' s'') : FlagsOnly s s'' := by
  obtain ⟨_, _, rfl⟩ := h
  obtain ⟨d, w, rfl⟩ := h'
  exact ⟨d, w, rfl⟩

theorem BundleOnly.refl (b : Bundle) (s : State κ) : BundleOnly b s s := by
  refine ⟨s.isDefault b, s.swizzled b, ?_⟩
  rw [update_eq_self, update_eq_self]

variable {b : Bundle}

theorem BundleOnly.trans (h : BundleOnly b s s') (h' : BundleOnly b s' s'') :
    BundleOnly b s s'' := by
  obtain ⟨_, _, rfl⟩ := h
  obtain ⟨d, w, rfl⟩ := h'
  refine ⟨d, w, ?_⟩
  rw [update_idem, update_idem]

theorem BundleOnly.flagsOnly (h : BundleOnly b s s') : FlagsOnly s s' := by
  obtain ⟨d, w, rfl⟩ := h
  exact ⟨_, _, rfl⟩

theorem FlagsOnly.graph (h : FlagsOnly s s') : SameGraph s s' := by
  obtain ⟨_, _, rfl⟩ := h
  exact ⟨rfl, rfl, rfl, rfl, rfl, rfl⟩

theorem Relinked.trans (h : Relinked s s') (h' : Relinked s' s'') : Relinked s s'' := by
  obtain ⟨_, _, _, _, rfl⟩ := h
  obtain ⟨c, f, n, r, rfl⟩ := h'
  exact ⟨c, f, n, r, rfl⟩

theorem Relinked.contents (h : Relinked s s') : SameContents s s' := by
  obtain ⟨_, _, _, _, rfl⟩ := h
  exact ⟨rfl, rfl, rfl, rfl, rfl, rfl⟩

theorem FlagsOnly.contents (h : FlagsOnly s s') : SameContents s s' := by
  obtain ⟨_, _, rfl⟩ := h
  exact ⟨rfl, rfl, rfl, rfl, rfl, rfl⟩

theorem SameContents.trans (h : SameContents s s') (h' : SameContents s' s'') :
    SameContents s s'' :=
  ⟨h'.1.trans h.1, h'.2.trans h.2, h'.3.trans h.3, h'.4.trans h.4, h'.5.trans h.5, h'.6.trans h.6⟩

theorem relinked_pushSubclass (s : State κ) (supercls subcls : Cls) :
    Relinked s (s.pushSubclass supercls subcls) := ⟨_, _, _, _, rfl⟩

theorem SameGraph.refl (s : State κ) : SameGraph s s := ⟨rfl, rfl, rfl, rfl, rfl, rfl⟩

theorem SameGraph.trans (h : SameGraph s s') (h' : SameGraph s' s'') : SameGraph s s'' :=
  ⟨h'.1.trans h.1, h'.2.trans h.2, h'.3.trans h.3, h'.4.trans h.4, h'.5.trans h.5, h'.6.trans h.6⟩

theorem SameGraph.symm (h : SameGraph s s') : SameGraph s' s :=
  ⟨h.1.symm, h.2.symm, h.3.symm, h.4.symm, h.5.symm, h.6.symm⟩

theorem SameGraph.links (h : SameGraph s s') : s'.links = s.links := by
  unfold State.links
  rw [h.superclass, h.firstSubclass, h.nextSiblingClass]

theorem methods_congr {a} (h : s'.ext a = s.ext a) : s'.methods img a = s.methods img a := by
  unfold State.methods
  rw [h]

/-! ### The scanners -/

theorem forBundles_cases {scan} (h : forBundles scan s = some s') :
    ∃ s₁ s₂, scan .awz s = some s₁ ∧ scan .rr s₁ = some s₂ ∧ scan .core s₂ = some s' := by
  obtain ⟨s₁, h₁, h⟩ := bind_eq_some_iff.1 h
  obtain ⟨s₂, h₂, h₃⟩ := bind_eq_some_iff.1 h
  exact ⟨s₁, s₂, h₁, h₂, h₃⟩

theorem forBundles_flagsOnly {scan}
    (hscan : ∀ b s s', scan b s = some s' → BundleOnly b s s') (h : forBundles scan s = some s') :
    FlagsOnly s s' := by
  obtain ⟨s₁, s₂, h₁, h₂, h₃⟩ := forBundles_cases h
  exact ((hscan _ _ _ h₁).flagsOnly.trans (hscan _ _ _ h₂).flagsOnly).trans
    (hscan _ _ _ h₃).flagsOnly

variable {cls : Cls}

theorem setCustomRecursively_bundleOnly
    (h : setCustomRecursively img count b cls s = some s') : BundleOnly b s s' := by
  obtain ⟨d, -, rfl⟩ := map_eq_some_iff.1 h
  exact ⟨d, s.swizzled b, by rw [update_eq_self]⟩

variable {isMeta : Bool}

theorem setNSObjectSwizzled_bundleOnly {nso}
    (h : setNSObjectSwizzled img count b nso isMeta s = some s') : BundleOnly b s s' := by
  have hswizzle : ∀ w, BundleOnly b s { s with swizzled := update s.swizzled b w } :=
    fun w => ⟨s.isDefault b, w, by rw [update_eq_self]⟩
  unfold setNSObjectSwizzled at h
  dsimp only at h
  split at h
  · exact (hswizzle _).trans (setCustomRecursively_bundleOnly h)
  · cases h
    exact hswizzle _

variable {m : MethodId} {owner : Cls}

theorem scanChangedMethodOf_bundleOnly
    (h : scanChangedMethodOf img count b isMeta owner m s = some s') : BundleOnly b s s' := by
  unfold scanChangedMethodOf at h
  split at h
  · exact setNSObjectSwizzled_bundleOnly h
  · cases h
    exact .refl b s

theorem scanChangedMethod_bundleOnly {cls}
    (h : scanChangedMethod img count b cls owner m s = some s') : BundleOnly b s s' := by
  unfold scanChangedMethod at h
  split at h
  · cases h
    exact .refl b s
  · split at h
    · dsimp only at h
      split at h
      · exact setNSObjectSwizzled_bundleOnly h
      · cases h
        exact .refl b s
    · obtain ⟨s₁, h₁, h₂⟩ := bind_eq_some_iff.1 h
      exact (scanChangedMethodOf_bundleOnly h₁).trans (scanChangedMethodOf_bundleOnly h₂)

theorem adjustCustomFlags_flagsOnly {cls}
    (h : adjustCustomFlagsForMethodChange img count cls owner m s = some s') : FlagsOnly s s' :=
  forBundles_flagsOnly (fun _ _ _ => scanChangedMethod_bundleOnly) h

theorem scanAddedSubClass_bundleOnly {subcls supercls}
    (h : scanAddedSubClass img count b subcls supercls s = some s') : BundleOnly b s s' := by
  unfold scanAddedSubClass at h
  split at h
  · exact setCustomRecursively_bundleOnly h
  · cases h
    exact .refl b s

theorem addSubclass_flagsOnly {supercls subcls}
    (h : addSubclass img count supercls subcls s = some s') :
    FlagsOnly (s.pushSubclass supercls subcls) s' :=
  forBundles_flagsOnly (fun _ _ _ => scanAddedSubClass_bundleOnly) h

variable {mlists : List (List MethodId)}

theorem scanAddedMethodLists_bundleOnly
    (h : scanAddedMethodLists img count b cls mlists s = some s') : BundleOnly b s s' := by
  unfold scanAddedMethodLists at h
  split at h
  · cases h
    exact .refl b s
  · split at h
    · exact setCustomRecursively_bundleOnly h
    · cases h
      exact .refl b s

theorem scanCoveredClass_bundleOnly (b : Bundle) (cls : Cls) (isMeta : Bool) (s : State κ) :
    BundleOnly b s (scanCoveredClass img b cls isMeta s) := by
  unfold scanCoveredClass scanAddedClassImpl
  split
  · split
    · exact .refl b s
    · refine ⟨update (s.isDefault b) cls true, s.swizzled b, ?_⟩
      rw [update_eq_self]
      rfl
  · exact .refl b s

theorem scanInitializedClass_bundleOnly (b : Bundle) (cls metacls : Cls) (s : State κ) :
    BundleOnly b s (scanInitializedClass img b cls metacls s) :=
  (scanCoveredClass_bundleOnly ..).trans (scanCoveredClass_bundleOnly ..)

/-- `setInitialized` changes flags and marks the metaclass. -/
theorem setInitialized_frame (img : Image) (cls : Cls) (s : State κ) :
    ∃ s₁, FlagsOnly s s₁ ∧ setInitialized img cls s =
      { s₁ with initialized := update s₁.initialized (img.isa cls) true } :=
  ⟨_, ((scanInitializedClass_bundleOnly ..).flagsOnly.trans
    (scanInitializedClass_bundleOnly ..).flagsOnly).trans
    (scanInitializedClass_bundleOnly ..).flagsOnly, rfl⟩

theorem prepareMethodLists_flagsOnly
    (h : prepareMethodLists img count cls mlists s = some s') : FlagsOnly s s' := by
  unfold prepareMethodLists at h
  split at h
  · cases h
    exact .refl s
  · split at h
    · exact forBundles_flagsOnly (fun _ _ _ => scanAddedMethodLists_bundleOnly) h
    · cases h
      exact .refl s

/-! ### Operations on one class -/

theorem prepareAndAttach_cases (h : prepareAndAttach img count cls mlists s = some s') :
    ∃ s₁, prepareMethodLists img count cls mlists s = some s₁ ∧
      s' = s₁.attachMethodLists img cls mlists := by
  obtain ⟨s₁, h₁, rfl⟩ := map_eq_some_iff.1 h
  exact ⟨s₁, h₁, rfl⟩

theorem bufferEntry_rel {β : Type} {attach : List β → State κ → Option (State κ)}
    {R : State κ → State κ → Prop} (hrefl : ∀ s, R s s)
    (hattach : ∀ ls s s', attach ls s = some s' → R s s') {entry : Option β} {buffer : List β}
    {r : List β × State κ} (h : bufferEntry attach entry buffer s = some r) : R s r.2 := by
  unfold bufferEntry at h
  split at h
  · cases h
    exact hrefl s
  · split at h
    · obtain ⟨s₁, h₁, rfl⟩ := map_eq_some_iff.1 h
      exact hattach _ _ _ h₁
    · cases h
      exact hrefl s

theorem bufferEntry_eq_nil {β : Type} {attach entry buffer} {r : List β × State κ}
    (h : bufferEntry attach entry buffer s = some r) (hnil : r.1 = []) : buffer = [] ∧ r.2 = s := by
  unfold bufferEntry at h
  split at h
  · cases h
    exact ⟨hnil, rfl⟩
  · split at h
    · obtain ⟨s₁, h₁, rfl⟩ := map_eq_some_iff.1 h
      cases hnil
    · cases h
      cases hnil

variable {cats : List Category} {cat : Category}

theorem attachLoop_cases {b r} (h : attachLoop img count cls isMeta (cat :: cats) b s = some r) :
    ∃ r₁ r₂ r₃,
      bufferEntry (prepareAndAttach img count cls)
        ((cat.methodsForMeta isMeta).map (·.map MethodId.image)) b.mlists s = some r₁ ∧
      bufferEntry (fun ls s => some (s.attachPropertyLists img cls ls))
        (cat.propertiesForMeta isMeta) b.proplists r₁.2 = some r₂ ∧
      bufferEntry (fun ls s => some (s.attachProtocolLists img cls ls))
        (cat.protocolsForMeta isMeta) b.protolists r₂.2 = some r₃ ∧
      attachLoop img count cls isMeta cats ⟨r₁.1, r₂.1, r₃.1⟩ r₃.2 = some r := by
  obtain ⟨r₁, h₁, h⟩ := bind_eq_some_iff.1 h
  obtain ⟨r₂, h₂, h⟩ := bind_eq_some_iff.1 h
  obtain ⟨r₃, h₃, h⟩ := bind_eq_some_iff.1 h
  exact ⟨r₁, r₂, r₃, h₁, h₂, h₃, h⟩

/-- The states have the same method lists and methods. -/
structure SameMethods (img : Image) (s s' : State κ) : Prop where
  methods : ∀ a, s'.methods img a = s.methods img a
  method : s'.method = s.method

theorem SameMethods.trans (h : SameMethods img s s') (h' : SameMethods img s' s'') :
    SameMethods img s s'' :=
  ⟨fun a => (h'.methods a).trans (h.methods a), h'.method.trans h.method⟩

theorem sameMethods_setRwe {c e} (h : e.methods = s.methods img c) :
    SameMethods img s (s.setRwe c e) := ⟨methods_setRwe_self img s h, rfl⟩

theorem attachLoop_sameMethods :
    ∀ {b s} {r : Buffers × State κ},
      attachLoop img count cls isMeta cats b s = some r → r.1.mlists = [] →
      b.mlists = [] ∧ SameMethods img s r.2 := by
  induction cats with
  | nil =>
    intro b s r h hnil
    cases h
    exact ⟨hnil, fun _ => rfl, rfl⟩
  | cons cat cats ih =>
    intro b s r h hnil
    obtain ⟨r₁, r₂, r₃, h₁, h₂, h₃, h⟩ := attachLoop_cases h
    obtain ⟨hnil₁, hrest⟩ := ih h hnil
    obtain ⟨hnil₀, heq⟩ := bufferEntry_eq_nil h₁ hnil₁
    have hset : ∀ {e : State κ → RwExt} (_ : ∀ s, (e s).methods = s.methods img cls)
        s s', some (s.setRwe cls (e s)) = some s' → SameMethods img s s' := by
      intro e he s s' h
      cases h
      exact sameMethods_setRwe (he s)
    have hrefl : ∀ s : State κ, SameMethods img s s := fun _ => ⟨fun _ => rfl, rfl⟩
    have hprop := bufferEntry_rel hrefl (fun _ => hset fun _ => rfl) h₂
    have hproto := bufferEntry_rel hrefl (fun _ => hset fun _ => rfl) h₃
    exact ⟨hnil₀, heq ▸ (hprop.trans hproto).trans hrest⟩

variable [MethodCache κ]

/-- The caches of `s'` have no entries that those of `s` do not have. -/
def FewerEntries (s s' : State κ) : Prop :=
  ∀ d sel imp, MethodCache.find (s'.cache d) sel = some imp →
    MethodCache.find (s.cache d) sel = some imp

/-- Only class `c` may have got other lists, methods or pending categories, and
caches have only lost entries. -/
structure ChangesAt (c : Cls) (s s' : State κ) : Prop where
  graph : SameGraph s s'
  ext : ∀ a, a ≠ c → s'.ext a = s.ext a
  method : ∀ a, a ≠ c → s'.method a = s.method a
  unattached : ∀ a, a ≠ c → s'.unattached a = s.unattached a
  cache : FewerEntries s s'

theorem ChangesAt.refl (c : Cls) (s : State κ) : ChangesAt c s s :=
  ⟨.refl s, fun _ _ => rfl, fun _ _ => rfl, fun _ _ => rfl, fun _ _ _ h => h⟩

theorem ChangesAt.trans {c} (h : ChangesAt c s s') (h' : ChangesAt c s' s'') :
    ChangesAt c s s'' where
  graph := h.graph.trans h'.graph
  ext a ha := (h'.ext a ha).trans (h.ext a ha)
  method a ha := (h'.method a ha).trans (h.method a ha)
  unattached a ha := (h'.unattached a ha).trans (h.unattached a ha)
  cache d sel imp hfind := h.cache d sel imp (h'.cache d sel imp hfind)

theorem FlagsOnly.changesAt (h : FlagsOnly s s') (c : Cls) : ChangesAt c s s' := by
  obtain ⟨_, _, rfl⟩ := h
  exact ⟨⟨rfl, rfl, rfl, rfl, rfl, rfl⟩, fun _ _ => rfl, fun _ _ => rfl, fun _ _ => rfl,
    fun _ _ _ h => h⟩

theorem changesAt_setRwe (s : State κ) (c : Cls) (e) : ChangesAt c s (s.setRwe c e) :=
  ⟨⟨rfl, rfl, rfl, rfl, rfl, rfl⟩, fun _ ha => update_of_ne ha .., fun _ _ => rfl,
    fun _ _ => rfl, fun _ _ _ h => h⟩

theorem prepareAndAttach_changesAt
    (h : prepareAndAttach img count cls mlists s = some s') : ChangesAt cls s s' := by
  obtain ⟨s₁, h₁, rfl⟩ := prepareAndAttach_cases h
  exact ((prepareMethodLists_flagsOnly h₁).changesAt cls).trans (changesAt_setRwe s₁ cls _)

theorem attachLoop_changesAt :
    ∀ {b s} {r : Buffers × State κ},
      attachLoop img count cls isMeta cats b s = some r → ChangesAt cls s r.2 := by
  induction cats with
  | nil =>
    intro b s r h
    cases h
    exact .refl cls s
  | cons cat cats ih =>
    intro b s r h
    obtain ⟨r₁, r₂, r₃, h₁, h₂, h₃, h⟩ := attachLoop_cases h
    have hset : ∀ {e : State κ → RwExt} s s', some (s.setRwe cls (e s)) = some s' →
        ChangesAt cls s s' := by
      intro e s s' h
      cases h
      exact changesAt_setRwe s cls _
    exact (((bufferEntry_rel (.refl cls) (fun _ _ _ => prepareAndAttach_changesAt) h₁).trans
      (bufferEntry_rel (.refl cls) (fun _ => hset) h₂)).trans
      (bufferEntry_rel (.refl cls) (fun _ => hset) h₃)).trans (ih h)

theorem flushCaches_frame {cls predicate} (h : flushCaches count cls predicate s = some s') :
    ∃ cache, s' = { s with cache } ∧ FewerEntries s s' := by
  obtain ⟨cache, hcache, rfl⟩ := map_eq_some_iff.1 h
  refine ⟨cache, rfl, fun d sel imp => ?_⟩
  let R (k k' : κ) : Prop := find k' sel = some imp → find k sel = some imp
  have hcode : ∀ k, R k (if predicate k then erase k else k) := by
    intro k hfind
    split at hfind
    · rw [find_erase] at hfind
      cases hfind
    · exact hfind
  have hrel : R (s.cache d) (cache d) := by
    cases cls with
    | some c =>
      obtain ⟨r, hr, rfl⟩ := map_eq_some_iff.1 hcache
      exact traverse_related (fun _ h => h) (fun h h' h'' => h (h' h'')) (fun _ => hcode) hr d
    | none =>
      obtain ⟨r, hr, rfl⟩ := map_eq_some_iff.1 hcache
      exact traverseRoots_related (fun _ h => h) (fun h h' h'' => h (h' h'')) (fun _ => hcode) hr d
  exact hrel

theorem flushCaches_changesAt {cls predicate}
    (h : flushCaches count cls predicate s = some s') (c : Cls) : ChangesAt c s s' := by
  obtain ⟨cache, rfl, hfewer⟩ := flushCaches_frame h
  exact ⟨⟨rfl, rfl, rfl, rfl, rfl, rfl⟩, fun _ _ => rfl, fun _ _ => rfl, fun _ _ => rfl, hfewer⟩

theorem attachRest_cases {existing} (h : attachRest img count cls mlists existing s = some s') :
    mlists = [] ∧ s' = s ∨
      ∃ s₁, prepareAndAttach img count cls mlists s = some s₁ ∧
        (existing ∧ flushCaches count (some cls) (fun _ => true) s₁ = some s' ∨
          existing = false ∧ s' = s₁) := by
  unfold attachRest at h
  split at h
  next hempty => exact .inl ⟨List.isEmpty_iff.1 hempty, (some.inj h).symm⟩
  · obtain ⟨s₁, h₁, h⟩ := bind_eq_some_iff.1 h
    refine .inr ⟨s₁, h₁, ?_⟩
    cases existing with
    | true => exact .inl ⟨rfl, h⟩
    | false => exact .inr ⟨rfl, (some.inj h).symm⟩

theorem attachRest_changesAt {existing}
    (h : attachRest img count cls mlists existing s = some s') : ChangesAt cls s s' := by
  rcases attachRest_cases h with ⟨-, rfl⟩ | ⟨s₁, h₁, ⟨-, hflush⟩ | ⟨-, rfl⟩⟩
  · exact .refl cls _
  · exact (prepareAndAttach_changesAt h₁).trans (flushCaches_changesAt hflush cls)
  · exact prepareAndAttach_changesAt h₁

theorem attachCategories_cases {isMeta existing}
    (h : attachCategories img count cls cats isMeta existing s = some s') :
    ∃ r s₁, attachLoop img count cls isMeta cats ⟨[], [], []⟩ (s.extAllocIfNeeded img cls) =
      some r ∧
      attachRest img count cls r.1.mlists existing r.2 = some s₁ ∧
      s' = (s₁.attachPropertyLists img cls r.1.proplists).attachProtocolLists img cls
        r.1.protolists := by
  obtain ⟨r, hr, h⟩ := bind_eq_some_iff.1 h
  obtain ⟨s₁, h₁, h⟩ := bind_eq_some_iff.1 h
  exact ⟨r, s₁, hr, h₁, (some.inj h).symm⟩

theorem attachCategories_changesAt {isMeta existing}
    (h : attachCategories img count cls cats isMeta existing s = some s') : ChangesAt cls s s' := by
  obtain ⟨r, s₁, hr, h₁, rfl⟩ := attachCategories_cases h
  have hloop := (changesAt_setRwe s cls _).trans (attachLoop_changesAt hr)
  exact ((hloop.trans (attachRest_changesAt h₁)).trans (changesAt_setRwe s₁ cls _)).trans
    (changesAt_setRwe _ cls _)

theorem attachToClass_changesAt (h : attachToClass img count cls s = some s') :
    ChangesAt cls s s' := by
  unfold attachToClass at h
  split at h
  · cases h
    exact .refl cls s
  · obtain ⟨s₁, h₁, rfl⟩ := map_eq_some_iff.1 h
    refine (attachCategories_changesAt h₁).trans ⟨⟨rfl, rfl, rfl, rfl, rfl, rfl⟩, fun _ _ => rfl,
      fun _ _ => rfl, fun _ ha => update_of_ne ha .., fun _ _ _ h => h⟩

theorem changesAt_newMethod (s : State κ) (c : Cls) (name : Sel) (imp : Imp) :
    ChangesAt c s (s.newMethod c name imp) :=
  ⟨⟨rfl, rfl, rfl, rfl, rfl, rfl⟩, fun _ _ => rfl, fun _ ha => update_of_ne ha ..,
    fun _ _ => rfl, fun _ _ _ h => h⟩

theorem changesAt_setImp (s : State κ) (c : Cls) (m) (imp : Imp) :
    ChangesAt c s (s.setImp c m imp) :=
  ⟨⟨rfl, rfl, rfl, rfl, rfl, rfl⟩, fun _ _ => rfl, fun _ ha => update_of_ne ha ..,
    fun _ _ => rfl, fun _ _ _ h => h⟩

theorem addMethodsFinish_cases {newlist} (h : addMethodsFinish img count cls newlist s = some s') :
    ∃ s₁, prepareAndAttach img count cls [newlist] (s.extAllocIfNeeded img cls) = some s₁ ∧
      flushCaches count (some cls) (fun _ => true) s₁ = some s' := by
  obtain ⟨s₁, h₁, h⟩ := bind_eq_some_iff.1 h
  exact ⟨s₁, h₁, h⟩

theorem addMethodsFinish_changesAt {newlist}
    (h : addMethodsFinish img count cls newlist s = some s') : ChangesAt cls s s' := by
  obtain ⟨s₁, h₁, h₂⟩ := addMethodsFinish_cases h
  exact ((changesAt_setRwe s cls _).trans (prepareAndAttach_changesAt h₁)).trans
    (flushCaches_changesAt h₂ cls)

variable {r : Imp × State κ}

theorem methodSetImplementation_cases {cls imp}
    (h : methodSetImplementation img count cls owner m imp s = some r) :
    r.2 = s ∨ ∃ s₁, flushCaches count cls
        (fun k => shouldFlush k (s.method owner m).name (s.method owner m).imp)
        (s.setImp owner m imp) = some s₁ ∧
      adjustCustomFlagsForMethodChange img count cls owner m s₁ = some r.2 := by
  unfold methodSetImplementation at h
  split at h
  · cases h
    exact .inl rfl
  · obtain ⟨s₁, h₁, h⟩ := bind_eq_some_iff.1 h
    obtain ⟨s₂, h₂, h⟩ := bind_eq_some_iff.1 h
    cases h
    exact .inr ⟨s₁, h₁, h₂⟩

theorem methodSetImplementation_changesAt {cls imp}
    (h : methodSetImplementation img count cls owner m imp s = some r) : ChangesAt owner s r.2 := by
  rcases methodSetImplementation_cases h with heq | ⟨s₁, h₁, h₂⟩
  · exact heq ▸ .refl owner s
  · exact ((changesAt_setImp s owner m imp).trans (flushCaches_changesAt h₁ owner)).trans
      ((adjustCustomFlags_flagsOnly h₂).changesAt owner)

variable {replace : Bool}

theorem addMethod_cases {name imp} (h : addMethod img count cls name imp replace s = some r) :
    (∃ m, getMethodNoSuper img s cls name = some m ∧
      (replace = false ∧ r.2 = s ∨
        replace ∧ methodSetImplementation img count (some cls) cls m imp s = some r)) ∨
    getMethodNoSuper img s cls name = none ∧
      addMethodsFinish img count cls [.added s.fresh] (s.newMethod cls name imp) = some r.2 := by
  unfold addMethod at h
  split at h
  next m hm =>
    refine .inl ⟨m, hm, ?_⟩
    cases replace with
    | true => exact .inr ⟨rfl, h⟩
    | false =>
      cases h
      exact .inl ⟨rfl, rfl⟩
  next hm =>
    obtain ⟨s₁, h₁, rfl⟩ := map_eq_some_iff.1 h
    exact .inr ⟨hm, h₁⟩

theorem addMethod_changesAt {name imp} (h : addMethod img count cls name imp replace s = some r) :
    ChangesAt cls s r.2 := by
  rcases addMethod_cases h with ⟨m, -, ⟨-, heq⟩ | ⟨-, h⟩⟩ | ⟨-, h⟩
  · exact heq ▸ .refl cls s
  · exact methodSetImplementation_changesAt h
  · exact (changesAt_newMethod s cls name imp).trans (addMethodsFinish_changesAt h)

theorem addInitialize_changesAt (h : addInitialize img count cls s = some s') :
    ChangesAt cls s s' := by
  unfold addInitialize at h
  split at h
  · obtain ⟨r, hr, rfl⟩ := map_eq_some_iff.1 h
    exact addMethod_changesAt hr
  · cases h
    exact .refl cls s

theorem methodizeClass_cases (h : methodizeClass img count cls s = some s') :
    ∃ s₁ s₂, prepareMethodLists img count cls (baseMethods img cls).toList s = some s₁ ∧
      addInitialize img count cls s₁ = some s₂ ∧ attachToClass img count cls s₂ = some s' := by
  obtain ⟨s₁, h₁, h⟩ := bind_eq_some_iff.1 h
  obtain ⟨s₂, h₂, h⟩ := bind_eq_some_iff.1 h
  exact ⟨s₁, s₂, h₁, h₂, h⟩

theorem methodizeClass_changesAt (h : methodizeClass img count cls s = some s') :
    ChangesAt cls s s' := by
  obtain ⟨s₁, s₂, h₁, h₂, h₃⟩ := methodizeClass_cases h
  exact (((prepareMethodLists_flagsOnly h₁).changesAt cls).trans (addInitialize_changesAt h₂)).trans
    (attachToClass_changesAt h₃)

variable {methods : List (Sel × Imp)}

theorem addMethodsLoop_changesAt :
    ∀ {a s} {r : Added × State κ},
      addMethodsLoop img count cls replace methods a s = some r → ChangesAt cls s r.2 := by
  induction methods with
  | nil =>
    intro a s r h
    cases h
    exact .refl cls s
  | cons nameImp rest ih =>
    intro a s r h
    rw [addMethodsLoop] at h
    split at h
    · split at h
      · split at h
        next hset => exact (methodSetImplementation_changesAt hset).trans (ih h)
        · cases h
      · exact ih h
    · exact (changesAt_newMethod s cls _ _).trans (ih h)

theorem addMethodsLoop_newlist :
    ∀ {a s} {r : Added × State κ},
      addMethodsLoop img count cls replace methods a s = some r → a.newlist <+: r.1.newlist := by
  induction methods with
  | nil =>
    intro a s r h
    cases h
    exact List.prefix_rfl
  | cons nameImp rest ih =>
    intro a s r h
    rw [addMethodsLoop] at h
    split at h
    · split at h
      · split at h
        · exact ih h
        · cases h
      · have hpre := ih h
        exact hpre
    · exact (List.prefix_append _ _).trans (ih h)

theorem addMethods_cases {r} (h : addMethods img count cls methods replace s = some r) :
    ∃ r₁, addMethodsLoop img count cls replace methods ⟨[], []⟩ s = some r₁ ∧
      (r₁.1.newlist = [] ∧ r.2 = r₁.2 ∨
        addMethodsFinish img count cls r₁.1.newlist r₁.2 = some r.2) := by
  obtain ⟨r₁, h₁, h⟩ := bind_eq_some_iff.1 h
  refine ⟨r₁, h₁, ?_⟩
  split at h
  next hempty =>
    cases h
    exact .inl ⟨List.isEmpty_iff.1 hempty, rfl⟩
  · obtain ⟨s₂, h₂, rfl⟩ := map_eq_some_iff.1 h
    exact .inr h₂

theorem addMethods_changesAt {r} (h : addMethods img count cls methods replace s = some r) :
    ChangesAt cls s r.2 := by
  obtain ⟨r₁, h₁, ⟨-, heq⟩ | h₂⟩ := addMethods_cases h
  · exact heq ▸ addMethodsLoop_changesAt h₁
  · exact (addMethodsLoop_changesAt h₁).trans (addMethodsFinish_changesAt h₂)

theorem loadFor_cases (h : loadFor img count cat cls isMeta s = some s') :
    cat.concerns isMeta = false ∧ s' = s ∨ cat.concerns isMeta ∧
      (s.realized cls ∧ attachCategories img count cls [cat] isMeta true s = some s' ∨
        s.realized cls = false ∧ s' = addForClass cat cls s) := by
  unfold loadFor at h
  split at h
  next hconc =>
    refine .inr ⟨hconc, ?_⟩
    unfold attachOrAdd at h
    split at h
    next hreal => exact .inl ⟨hreal, h⟩
    next hreal => exact .inr ⟨by simpa using hreal, (some.inj h).symm⟩
  next hconc => exact .inl ⟨by simpa using hconc, (some.inj h).symm⟩

theorem loadFor_changesAt
    (h : loadFor img count cat cls isMeta s = some s') : ChangesAt cls s s' := by
  rcases loadFor_cases h with ⟨-, rfl⟩ | ⟨-, ⟨-, h⟩ | ⟨-, rfl⟩⟩
  · exact .refl cls _
  · exact attachCategories_changesAt h
  · exact ⟨⟨rfl, rfl, rfl, rfl, rfl, rfl⟩, fun _ _ => rfl, fun _ _ => rfl,
      fun _ ha => update_of_ne ha .., fun _ _ _ h => h⟩

theorem loadCategory_cases (h : loadCategory img count cat s = some s') :
    ∃ s₁, loadFor img count cat cat.cls false s = some s₁ ∧
      loadFor img count cat (img.isa cat.cls) true s₁ = some s' :=
  bind_eq_some_iff.1 h

theorem exchangeImplementations_cases {c₁ c₂ m₁ m₂}
    (h : methodExchangeImplementations img count c₁ m₁ c₂ m₂ s = some s') :
    ∃ s₁, flushCaches count none (fun k =>
        shouldFlush k (s.method c₁ m₁).name (s.method c₁ m₁).imp ||
          shouldFlush k (s.method c₂ m₂).name (s.method c₂ m₂).imp)
        ((s.setImp c₁ m₁ (s.method c₂ m₂).imp).setImp c₂ m₂ (s.method c₁ m₁).imp) = some s₁ ∧
      ∃ s₂, adjustCustomFlagsForMethodChange img count none c₁ m₁ s₁ = some s₂ ∧
        adjustCustomFlagsForMethodChange img count none c₂ m₂ s₂ = some s' := by
  obtain ⟨s₁, h₁, h⟩ := bind_eq_some_iff.1 h
  exact ⟨s₁, h₁, bind_eq_some_iff.1 h⟩

/-! ### Lookups -/

theorem cacheInsert_frame (img) (cls : Cls) (sel : Sel) (imp : Imp) (s : State κ) :
    ∃ cache, cacheInsert img cls sel imp s = { s with cache } ∧
      ∀ d sel' imp', find (cache d) sel' = some imp' →
        (d = cls ∧ sel' = sel ∧ imp' = imp) ∨ find (s.cache d) sel' = some imp' := by
  unfold cacheInsert
  split
  · refine ⟨_, rfl, fun d sel' imp' h => ?_⟩
    rw [update_apply] at h
    split at h
    next hd =>
      rcases find_insert _ _ _ _ _ h with ⟨hsel, himp⟩ | h
      · exact .inl ⟨hd, hsel, himp⟩
      · exact .inr (hd ▸ h)
    · exact .inr h
  · exact ⟨s.cache, rfl, fun _ _ _ h => .inr h⟩

theorem lookUpLocked_cases {sel behavior r}
    (h : lookUpLocked img count sel cls behavior s = some r) :
    ∃ imp found, searchImp img s sel (count - 1) cls = some (imp, found) ∧
      (r = (none, s) ∧ found = false ∧ behavior.resolver ∨
        r.1 = some (behavior.result imp) ∧ (r.2 = s ∨ r.2 = cacheInsert img cls sel imp s)) := by
  obtain ⟨⟨imp, found⟩, hsearch, rfl⟩ := map_eq_some_iff.1 h
  refine ⟨imp, found, hsearch, ?_⟩
  split
  next hcond => exact .inl ⟨rfl, hcond.1, hcond.2⟩
  · split
    · exact .inr ⟨rfl, .inl rfl⟩
    · exact .inr ⟨rfl, .inr rfl⟩

theorem lookUpLocked_frame {sel behavior r}
    (h : lookUpLocked img count sel cls behavior s = some r) : ∃ cache, r.2 = { s with cache } := by
  obtain ⟨imp, found, -, ⟨rfl, -⟩ | ⟨-, heq | heq⟩⟩ := lookUpLocked_cases h
  · exact ⟨s.cache, rfl⟩
  · exact ⟨s.cache, heq⟩
  · obtain ⟨cache, hcache, -⟩ := cacheInsert_frame img cls sel imp s
    exact ⟨cache, heq.trans hcache⟩

theorem lookupMethodInClass_cases (img : Image) (cls : Cls) (sel : Sel) (s : State κ) :
    (lookupMethodInClassAndLoadCache img cls sel s).2 = s ∨
      ∃ imp, (lookupMethodInClassAndLoadCache img cls sel s).2 = cacheInsert img cls sel imp s := by
  unfold lookupMethodInClassAndLoadCache
  dsimp only
  split
  · exact .inl rfl
  · exact .inr ⟨_, rfl⟩

theorem lookupMethodInClass_frame (img : Image) (cls : Cls) (sel : Sel) (s : State κ) :
    ∃ cache, (lookupMethodInClassAndLoadCache img cls sel s).2 = { s with cache } := by
  obtain heq | ⟨imp, heq⟩ := lookupMethodInClass_cases img cls sel s
  · exact ⟨s.cache, heq⟩
  · obtain ⟨cache, hcache, -⟩ := cacheInsert_frame img cls sel imp s
    exact ⟨cache, heq.trans hcache⟩

end ObjcRuntime.Classes
