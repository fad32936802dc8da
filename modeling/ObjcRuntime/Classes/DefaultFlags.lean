import ObjcRuntime.Classes.CacheCoherence

/-!
# ObjcRuntime.Classes.DefaultFlags

The default flags of the scanners: what they promise, and how each hook keeps the
promise.

A flag of a class says that the class inherits NSObject's own implementations of
a bundle of selectors. The flags are kept by hooks that look at little: a class
whose superclass has the flag is only scanned itself, and a walk that takes flags
away stops at classes that have none. So what holds is local (`FlagsOk`): a class
with the flag is NSObject or has a superclass with the flag, and its own lists do
not have the selectors. For NSObject itself the base list is exempt, and its
implementations are those it was compiled with unless it counts as swizzled
(`Compiled`).

The `core` bundle is left out: it exempts the root class of Swift as well.
-/

namespace ObjcRuntime.Classes

open Function Lib List Option

variable {κ : Type} {img : Image} {count : Nat} {s s' s'' s₀ : State κ} {b : Bundle}

/-! ### What the flags promise -/

/-- The lists in which a class with the flag has none of the selectors. -/
def checkedLists (img : Image) (s : State κ) (c : Cls) : List (List MethodId) :=
  if c = img.nso (img.isMeta c) then categoryMethodLists img s c else (s.methods img c).lists

/-- The flags of a bundle. The classes of `unchecked` have moved to another
superclass that has not been looked at yet. -/
structure FlagsOk (img : Image) (b : Bundle) (unchecked : Set Cls) (s : State κ) : Prop where
  realized : ∀ c, s.isInitialized img c = true → s.realized c = true
  live : ∀ c, s.isDefault b c = true → s.isInitialized img c = true
  nso : ∀ isMeta, s.isDefault b (img.nso isMeta) = true →
    b.covers img isMeta = true ∧ s.swizzled b isMeta = false
  above : ∀ c, s.isDefault b c = true → c ∉ unchecked → c = img.nso (img.isMeta c) ∨
    ∃ p, s.superclass c = some p ∧ s.isDefault b p = true
  own : ∀ c, s.isDefault b c = true → scanMethodLists b s c (checkedLists img s c) = false

/-- The lists of a class end with its base list, and their methods exist. -/
structure MethodsOk (img : Image) (s₀ s : State κ) : Prop where
  base : ∀ c, (baseMethods img c).toList <:+ (s.methods img c).lists
  ids : ∀ c, ∀ l ∈ (s.methods img c).lists, ∀ n, MethodId.added n ∈ l → n < s.fresh
  names : ∀ c n, (s.method c (.image n)).name = (s₀.method c (.image n)).name

/-- Unless NSObject is swizzled, its base methods for the selectors are as in `s₀`.
The methods of `changed` have just got another implementation. -/
def Compiled (img : Image) (b : Bundle) (s₀ : State κ) (changed : Set (Cls × MethodId))
    (s : State κ) : Prop :=
  ∀ isMeta, b.covers img isMeta = true → s.swizzled b isMeta = false →
    ∀ l, baseMethods img (img.nso isMeta) = some l → ∀ m ∈ l, (img.nso isMeta, m) ∉ changed →
      (s.method (img.nso isMeta) m).name ∈ b.sels →
      s.method (img.nso isMeta) m = s₀.method (img.nso isMeta) m

structure Tracked (img : Image) (b : Bundle) (s₀ : State κ) (changed : Set (Cls × MethodId))
    (unchecked : Set Cls) (s : State κ) : Prop where
  flags : FlagsOk img b unchecked s
  methods : MethodsOk img s₀ s
  compiled : Compiled img b s₀ changed s

variable {changed : Set (Cls × MethodId)} {unchecked : Set Cls}

/-! ### Lists and selectors -/

theorem Image.isMeta_nso (img : Image) (isMeta) : img.isMeta (img.nso isMeta) = isMeta := by
  cases isMeta with
  | true => exact img.isMeta_isa img.nsObject
  | false => exact img.isMeta_nsObject

variable {mlists : List (List MethodId)} {c : Cls}

theorem scanMethodLists_eq_false :
    scanMethodLists b s c mlists = false ↔
      ∀ l ∈ mlists, ∀ m ∈ l, (s.method c m).name ∉ b.sels := by
  simp only [scanMethodLists, searchMethodList, List.any_eq_false, Bool.not_eq_true,
    isSome_eq_false_iff, isNone_iff_eq_none, find?_eq_none, decide_eq_true_eq]
  constructor
  · intro h l hl m hm hin
    exact h l hl _ hin m hm rfl
  · intro h l hl sel hsel m hm hname
    exact h l hl m hm (hname ▸ hsel)

theorem checkedLists_congr (h : s'.methods img c = s.methods img c) :
    checkedLists img s' c = checkedLists img s c := by
  unfold checkedLists categoryMethodLists
  rw [h]

theorem mem_of_checkedLists {l} (h : l ∈ checkedLists img s c) : l ∈ (s.methods img c).lists := by
  unfold checkedLists categoryMethodLists at h
  split at h
  · split at h
    · exact h
    · exact (dropLast_sublist _).subset h
  · exact h

theorem checkedLists_attach (h : MethodsOk img s₀ s) (c : Cls) (added) :
    checkedLists img (s.attachMethodLists img c added) c = added ++ checkedLists img s c := by
  have hlists : ((s.attachMethodLists img c added).methods img c).lists =
      added ++ (s.methods img c).lists := by
    change ((s.setRwe c _).rwe img c).methods.lists = _
    rw [rwe_setRwe, if_pos rfl, ListArray.lists_attachLists]
  unfold checkedLists categoryMethodLists
  rw [hlists]
  split
  · have hbase := h.base c
    cases hl : baseMethods img c with
    | none => rfl
    | some l =>
      rw [hl] at hbase
      have hne : (s.methods img c).lists ≠ [] := by
        intro hnil
        rw [hnil] at hbase
        cases suffix_nil.1 hbase
      exact dropLast_append_of_ne_nil hne
  · rfl

/-! ### What does not concern a bundle -/

/-- Nothing that bundle `b` depends on has changed. -/
structure SameBundle (img : Image) (b : Bundle) (s s' : State κ) : Prop where
  superclass : s'.superclass = s.superclass
  realized : s'.realized = s.realized
  initialized : s'.initialized = s.initialized
  methods : ∀ c, s'.methods img c = s.methods img c
  method : s'.method = s.method
  fresh : s'.fresh = s.fresh
  isDefault : s'.isDefault b = s.isDefault b
  swizzled : s'.swizzled b = s.swizzled b

theorem SameBundle.refl (s : State κ) : SameBundle img b s s :=
  ⟨rfl, rfl, rfl, fun _ => rfl, rfl, rfl, rfl, rfl⟩

theorem scanMethodLists_congr (h : s'.method = s.method) (c : Cls) (mlists) :
    scanMethodLists b s' c mlists = scanMethodLists b s c mlists := by
  unfold scanMethodLists searchMethodList
  rw [h]

theorem MethodsOk.congr (h : MethodsOk img s₀ s)
    (hmethods : ∀ c, s'.methods img c = s.methods img c)
    (hmethod : s'.method = s.method) (hfresh : s'.fresh = s.fresh) : MethodsOk img s₀ s' := by
  refine ⟨fun c => ?_, fun c => ?_, fun c n => ?_⟩
  · rw [hmethods c]
    exact h.base c
  · rw [hmethods c, hfresh]
    exact h.ids c
  · rw [hmethod]
    exact h.names c n

theorem Compiled.congr (h : Compiled img b s₀ changed s) (hmethod : s'.method = s.method)
    (hswizzled : ∀ isMeta, s'.swizzled b isMeta = false → s.swizzled b isMeta = false) :
    Compiled img b s₀ changed s' := by
  intro isMeta hcovers hunswizzled
  rw [hmethod]
  exact h isMeta hcovers (hswizzled isMeta hunswizzled)

theorem FlagsOk.sameBundle (h : FlagsOk img b unchecked s) (hsame : SameBundle img b s s') :
    FlagsOk img b unchecked s' := by
  have hinit : ∀ c, s'.isInitialized img c = s.isInitialized img c := by
    intro c
    unfold State.isInitialized
    rw [hsame.initialized]
  refine ⟨fun c hc => ?_, fun c hc => ?_, fun isMeta hc => ?_, fun c hc hmem => ?_, fun c hc => ?_⟩
  · rw [hinit] at hc
    rw [hsame.realized]
    exact h.realized c hc
  all_goals rw [hsame.isDefault] at hc
  · rw [hinit]
    exact h.live c hc
  · rw [hsame.swizzled]
    exact h.nso isMeta hc
  · rw [hsame.superclass, hsame.isDefault]
    exact h.above c hc hmem
  · rw [scanMethodLists_congr hsame.method, checkedLists_congr (hsame.methods c)]
    exact h.own c hc

theorem Tracked.sameBundle (h : Tracked img b s₀ changed unchecked s)
    (hsame : SameBundle img b s s') : Tracked img b s₀ changed unchecked s' :=
  ⟨h.flags.sameBundle hsame, h.methods.congr hsame.methods hsame.method hsame.fresh,
    h.compiled.congr hsame.method fun isMeta hw => by rw [← hsame.swizzled]; exact hw⟩

theorem BundleOnly.sameBundle {b'} (h : BundleOnly b' s s') (hne : b ≠ b') :
    SameBundle img b s s' := by
  obtain ⟨d, w, rfl⟩ := h
  exact ⟨rfl, rfl, rfl, fun _ => rfl, rfl, rfl, update_of_ne hne .., update_of_ne hne ..⟩

theorem flushCaches_sameBundle [MethodCache κ] {cls predicate}
    (h : flushCaches count cls predicate s = some s') : SameBundle img b s s' := by
  obtain ⟨cache, rfl, -⟩ := flushCaches_frame h
  exact ⟨rfl, rfl, rfl, fun _ => rfl, rfl, rfl, rfl, rfl⟩

theorem setRwe_sameBundle {e} (h : e.methods = s.methods img c) :
    SameBundle img b s (s.setRwe c e) :=
  ⟨rfl, rfl, rfl, methods_setRwe_self img s h, rfl, rfl, rfl, rfl⟩

theorem SameBundle.trans (h : SameBundle img b s s') (h' : SameBundle img b s' s'') :
    SameBundle img b s s'' :=
  ⟨h'.1.trans h.1, h'.2.trans h.2, h'.3.trans h.3, fun c => (h'.4 c).trans (h.4 c), h'.5.trans h.5,
    h'.6.trans h.6, h'.7.trans h.7, h'.8.trans h.8⟩

theorem forBundles_bundle (img) {scan : Bundle → State κ → Option (State κ)}
    {Q : State κ → Prop} (hQ : ∀ s s', SameBundle img b s s' → Q s → Q s')
    (hscan : ∀ b s s', scan b s = some s' → BundleOnly b s s')
    (hown : ∀ s₁ s₂, SameGraph s s₁ → SameBundle img b s s₁ → scan b s₁ = some s₂ → Q s₂)
    (h : forBundles scan s = some s') : Q s' := by
  obtain ⟨s₁, s₂, h₁, h₂, h₃⟩ := forBundles_cases h
  have hg₁ := (hscan _ _ _ h₁).flagsOnly.graph
  have hg₂ := (hscan _ _ _ h₂).flagsOnly.graph
  cases b with
  | awz =>
    refine hQ _ _ ((hscan _ _ _ h₃).sameBundle (by decide)) ?_
    refine hQ _ _ ((hscan _ _ _ h₂).sameBundle (by decide)) ?_
    exact hown s s₁ (.refl s) (.refl s) h₁
  | rr =>
    refine hQ _ _ ((hscan _ _ _ h₃).sameBundle (by decide)) ?_
    exact hown s₁ s₂ hg₁ ((hscan _ _ _ h₁).sameBundle (by decide)) h₂
  | core =>
    refine hown s₂ s' (hg₁.trans hg₂) ?_ h₃
    exact ((hscan _ _ _ h₁).sameBundle (by decide)).trans ((hscan _ _ _ h₂).sameBundle (by decide))

/-! ### Taking flags away -/

section Custom

variable {pending : Set Cls} {kids : Cls → List Cls} {roots : List Cls} {rank : Cls → Nat}
  {bound : Nat}

/-- The walk takes the flag of its top; where it takes the flag of a class, it
takes the flags of the initialized subclasses too. -/
theorem Graph.setCustomRecursively (h : Graph img s pending kids roots rank bound) {cls}
    (hset : setCustomRecursively img count b cls s = some s') :
    s'.isDefault b cls = false ∧ (∀ c, s'.isDefault b c → s.isDefault b c) ∧
    ∀ p, ∀ c ∈ kids p, s.isDefault b p → s'.isDefault b p = false →
      s.isInitialized img c → s'.isDefault b c = false := by
  obtain ⟨d, hd, rfl⟩ := map_eq_some_iff.1 hset
  obtain ⟨r, hr, rfl⟩ := map_eq_some_iff.1 hd
  obtain ⟨code, hcode, hran⟩ : ∃ code, (∀ c isDefault, code c isDefault =
        if c ≠ cls ∧ s.isInitialized img c = false then (false, isDefault)
        else if isDefault = false then (false, isDefault) else (true, false)) ∧
      RanBelow kids code (s.isDefault b) cls r.2 := ⟨_, fun _ _ => rfl, traverse_ran h.wf hr⟩
  -- the code never gives a flag back, and takes it where it does not turn away
  have hfalse : ∀ c, (code c false).2 = false := by
    intro c
    rw [hcode]
    split <;> rfl
  have htaken : ∀ c, ¬ (c ≠ cls ∧ s.isInitialized img c = false) → code c true = (true, false) := by
    intro c hc
    rw [hcode, if_neg hc]
    rfl
  have hkept : ∀ c, c ≠ cls ∧ s.isInitialized img c = false → code c true = (false, true) := by
    intro c hc
    rw [hcode, if_pos hc]
  have hafter : ∀ c, Reached kids code (s.isDefault b) cls c →
      ¬ (c ≠ cls ∧ s.isInitialized img c = false) → r.2 c = false := by
    intro c hreach hc
    rw [(hran c).1 hreach]
    cases s.isDefault b c with
    | true => rw [htaken c hc]
    | false => exact hfalse c
  simp only [update_self]
  refine ⟨hafter cls .refl fun h => h.1 rfl, fun c hc => ?_, fun p c hkid hp hp' hinit => ?_⟩
  · by_cases hreach : Reached kids code (s.isDefault b) cls c
    · rw [(hran c).1 hreach] at hc
      by_contra hdef
      rw [Bool.not_eq_true] at hdef
      rw [hdef, hfalse c] at hc
      cases hc
    · rw [(hran c).2 hreach] at hc
      exact hc
  · by_cases hreach : Reached kids code (s.isDefault b) cls p
    · rw [(hran p).1 hreach, hp] at hp'
      have henter : ¬ (p ≠ cls ∧ s.isInitialized img p = false) := by
        intro hskip
        rw [hkept p hskip] at hp'
        cases hp'
      refine hafter c (hreach.snoc ?_ hkid) fun hskip => absurd (hskip.2.symm.trans hinit) (by simp)
      rw [hp, htaken p henter]
    · rw [(hran p).2 hreach, hp] at hp'
      cases hp'

theorem setCustomRecursively_swizzled {cls}
    (hset : Classes.setCustomRecursively img count b cls s = some s') :
    s'.swizzled = s.swizzled := by
  obtain ⟨d, -, rfl⟩ := map_eq_some_iff.1 hset
  rfl

theorem FlagsOk.setCustomRecursively (h : FlagsOk img b unchecked s)
    (hgraph : GraphWf img s pending) (hpending : pending ⊆ unchecked) {cls}
    (hset : setCustomRecursively img count b cls s = some s') :
    FlagsOk img b unchecked s' ∧ s'.isDefault b cls = false := by
  obtain ⟨kids, roots, rank, bound, hg⟩ := hgraph
  obtain ⟨hcls, hless, hkids⟩ := hg.setCustomRecursively hset
  obtain ⟨d, -, rfl⟩ := map_eq_some_iff.1 hset
  refine ⟨⟨h.realized, fun c hc => h.live c (hless c hc),
    fun isMeta hc => h.nso isMeta (hless _ hc),
    fun c hc hmem => ?_, fun c hc => h.own c (hless c hc)⟩, hcls⟩
  refine (h.above c (hless c hc) hmem).imp_right ?_
  rintro ⟨p, hp, hdef⟩
  refine ⟨p, hp, ?_⟩
  have hinit := h.live c (hless c hc)
  obtain ⟨hkid, -⟩ := hg.linked c p (h.realized c hinit) (fun hin => hmem (hpending hin)) hp
  by_contra hlost
  rw [hkids p c hkid hdef (by simpa using hlost) hinit] at hc
  cases hc

end Custom

/-! ### Added lists -/

theorem scanAddedMethodLists_flags (h : FlagsOk img b unchecked s)
    (hgraph : GraphWf img s unchecked)
    {cls} (hscan : scanAddedMethodLists img count b cls mlists s = some s') :
    FlagsOk img b unchecked s' ∧ s'.swizzled = s.swizzled ∧
      (s'.isDefault b cls → scanMethodLists b s cls mlists = false) := by
  unfold scanAddedMethodLists at hscan
  split at hscan
  next hcustom =>
    cases hscan
    refine ⟨h, rfl, fun hdef => ?_⟩
    rw [State.isCustom, hdef] at hcustom
    cases hcustom
  · split at hscan
    · obtain ⟨h', hcls⟩ := h.setCustomRecursively hgraph (Set.Subset.refl _) hscan
      exact ⟨h', setCustomRecursively_swizzled hscan,
        fun hdef => absurd (hcls.symm.trans hdef) (by simp)⟩
    next hclean =>
      cases hscan
      exact ⟨h, rfl, fun _ => by simpa using hclean⟩

variable (h : Tracked img b s₀ changed unchecked s)
include h

/-- A scanner that leaves the flags as promised keeps the rest as well. -/
theorem Tracked.bundleOnly (hflags : BundleOnly b s s')
    (hswizzled : ∀ isMeta, s'.swizzled b isMeta = false → s.swizzled b isMeta = false)
    {unchecked'} (h' : FlagsOk img b unchecked' s') : Tracked img b s₀ changed unchecked' s' := by
  refine ⟨h', ?_, h.compiled.congr hflags.flagsOnly.contents.method hswizzled⟩
  obtain ⟨d, w, rfl⟩ := hflags
  exact h.methods.congr (fun _ => rfl) rfl rfl

/-- After the scan of lists that are to be added, a class with the flag has none
of the selectors in them. -/
theorem prepareMethodLists_tracked (hgraph : GraphWf img s unchecked) {cls}
    (hprep : prepareMethodLists img count cls mlists s = some s') :
    Tracked img b s₀ changed unchecked s' ∧
      (s'.isDefault b cls → scanMethodLists b s' cls mlists = false) := by
  unfold prepareMethodLists at hprep
  split at hprep
  next hempty =>
    cases hprep
    rw [List.isEmpty_iff.1 hempty]
    exact ⟨h, fun _ => rfl⟩
  · split at hprep
    · refine forBundles_bundle img (b := b) (Q := fun t => Tracked img b s₀ changed unchecked t ∧
        (t.isDefault b cls → scanMethodLists b t cls mlists = false)) ?_
        (fun _ _ _ => scanAddedMethodLists_bundleOnly) ?_ hprep
      · intro t t' hsame ht
        refine ⟨ht.1.sameBundle hsame, fun hdef => ?_⟩
        rw [scanMethodLists_congr hsame.method]
        exact ht.2 (by rw [← hsame.isDefault]; exact hdef)
      · intro s₁ s₂ hg hsame hscan
        have hone := scanAddedMethodLists_bundleOnly hscan
        obtain ⟨hflags, hswizzled, hclean⟩ := scanAddedMethodLists_flags (h.flags.sameBundle hsame)
          (hgraph.congr hg) hscan
        refine ⟨(h.sameBundle hsame).bundleOnly hone (fun isMeta hw => ?_) hflags, fun hdef => ?_⟩
        · rw [← hswizzled]
          exact hw
        · rw [scanMethodLists_congr hone.flagsOnly.contents.method]
          exact hclean hdef
    next hinit =>
      cases hprep
      exact ⟨h, fun hdef => absurd (h.flags.live cls hdef) (by simpa using hinit)⟩

theorem prepareAndAttach_tracked (hgraph : GraphWf img s unchecked) {cls}
    (hids : ∀ l ∈ mlists, ∀ n, MethodId.added n ∈ l → n < s.fresh)
    (hattach : prepareAndAttach img count cls mlists s = some s') :
    Tracked img b s₀ changed unchecked s' := by
  obtain ⟨s₁, h₁, rfl⟩ := prepareAndAttach_cases hattach
  have hfresh : s₁.fresh = s.fresh := by
    obtain ⟨d, w, rfl⟩ := prepareMethodLists_flagsOnly h₁
    rfl
  obtain ⟨ht, hclean⟩ := prepareMethodLists_tracked h hgraph h₁
  have hother : ∀ c, c ≠ cls →
      (s₁.attachMethodLists img cls mlists).methods img c = s₁.methods img c := by
    intro c hc
    exact methods_congr (update_of_ne hc ..)
  have hself : ((s₁.attachMethodLists img cls mlists).methods img cls).lists =
      mlists ++ (s₁.methods img cls).lists := by
    change ((s₁.setRwe cls _).rwe img cls).methods.lists = _
    rw [rwe_setRwe, if_pos rfl, ListArray.lists_attachLists]
  refine ⟨⟨ht.flags.realized, ht.flags.live, ht.flags.nso, ht.flags.above, fun c hc => ?_⟩,
    ⟨fun c => ?_, fun c l hl n hn => ?_, ht.methods.names⟩, ht.compiled⟩
  · by_cases heq : c = cls
    · subst heq
      rw [checkedLists_attach ht.methods, scanMethodLists_eq_false]
      intro l hl
      rcases mem_append.1 hl with hl | hl
      · exact scanMethodLists_eq_false.1 (hclean hc) l hl
      · exact scanMethodLists_eq_false.1 (ht.flags.own c hc) l hl
    · rw [checkedLists_congr (hother c heq)]
      exact ht.flags.own c hc
  · by_cases heq : c = cls
    · subst heq
      rw [hself]
      exact (ht.methods.base c).trans (suffix_append _ _)
    · rw [hother c heq]
      exact ht.methods.base c
  · by_cases heq : c = cls
    · subst heq
      rw [hself] at hl
      rcases mem_append.1 hl with hl | hl
      · exact lt_of_lt_of_eq (hids l hl n hn) hfresh.symm
      · exact ht.methods.ids c l hl n hn
    · rw [hother c heq] at hl
      exact ht.methods.ids c l hl n hn

omit h

/-! ### Methods -/

variable {m : MethodId}

theorem newMethod_method {cls c} (hm : m ≠ .added s.fresh) (name : Sel)
    (imp : Imp) : (s.newMethod cls name imp).method c m = s.method c m := by
  change update s.method cls (update (s.method cls) (.added s.fresh) _) c m = _
  rw [update_apply]
  split
  next hc => rw [update_of_ne hm, hc]
  · rfl

theorem image_of_base {l} (h : baseMethods img c = some l) (hm : m ∈ l) : ∃ n, m = .image n := by
  obtain ⟨ns, -, rfl⟩ := map_eq_some_iff.1 h
  obtain ⟨n, -, rfl⟩ := List.mem_map.1 hm
  exact ⟨n, rfl⟩

theorem Tracked.newMethod (h : Tracked img b s₀ changed unchecked s) (cls : Cls) (name : Sel)
    (imp : Imp) : Tracked img b s₀ changed unchecked (s.newMethod cls name imp) := by
  have hids : ∀ c, ∀ l ∈ (s.methods img c).lists, ∀ m ∈ l, m ≠ .added s.fresh := by
    intro c l hl m hm heq
    exact lt_irrefl _ (h.methods.ids c l hl s.fresh (heq ▸ hm))
  refine ⟨⟨h.flags.realized, h.flags.live, h.flags.nso, h.flags.above, fun c hc => ?_⟩,
    ⟨h.methods.base, fun c l hl n hn => ?_, fun c n => ?_⟩,
      fun isMeta hcovers hw l hl m hm hmem => ?_⟩
  · rw [scanMethodLists_eq_false]
    intro l hl m hm
    rw [newMethod_method (hids c l (mem_of_checkedLists hl) m hm)]
    exact scanMethodLists_eq_false.1 (h.flags.own c hc) l hl m hm
  · exact Nat.lt_succ_of_lt (h.methods.ids c l hl n hn)
  · rw [newMethod_method (by simp)]
    exact h.methods.names c n
  · obtain ⟨n, rfl⟩ := image_of_base hl hm
    rw [newMethod_method (by simp)]
    exact h.compiled isMeta hcovers hw l hl _ hm hmem

theorem Tracked.setImp (h : Tracked img b s₀ changed unchecked s) (c : Cls) (m)
    (imp : Imp) : Tracked img b s₀ (insert (c, m) changed) unchecked (s.setImp c m imp) := by
  refine ⟨⟨h.flags.realized, h.flags.live, h.flags.nso, h.flags.above, fun d hd => ?_⟩,
    ⟨h.methods.base, h.methods.ids, fun d n => ?_⟩,
      fun isMeta hcovers hw l hl m' hm' hmem hname => ?_⟩
  · rw [scanMethodLists_eq_false]
    simp only [setImp_name]
    exact scanMethodLists_eq_false.1 (h.flags.own d hd)
  · rw [setImp_name]
    exact h.methods.names d n
  · rw [Set.mem_insert_iff, not_or] at hmem
    rw [setImp_name] at hname
    rw [setImp_method, if_neg fun heq => hmem.1 (Prod.ext heq.1 heq.2)]
    exact h.compiled isMeta hcovers hw l hl m' hm' hmem.2 hname

/-! ### Swizzling -/

/-- Marking NSObject as swizzled, once it has lost its flag. -/
theorem FlagsOk.swizzle (h : FlagsOk img b unchecked s) {isMeta}
    (hnso : s.isDefault b (img.nso isMeta) = false) :
    FlagsOk img b unchecked { s with
      swizzled := update s.swizzled b (update (s.swizzled b) isMeta true) } := by
  refine ⟨h.realized, h.live, fun isMeta' hdef => ?_, h.above, h.own⟩
  have hne : isMeta' ≠ isMeta := by
    intro heq
    rw [heq] at hdef
    cases hnso.symm.trans hdef
  obtain ⟨hcovers, hw⟩ := h.nso isMeta' hdef
  refine ⟨hcovers, ?_⟩
  change update s.swizzled b _ b isMeta' = false
  rw [update_self, update_of_ne hne]
  exact hw

theorem setCustomRecursively_of_swizzled {cls w}
    (hset : setCustomRecursively img count b cls { s with swizzled := w } = some s') :
    ∃ s₁, setCustomRecursively img count b cls s = some s₁ ∧ s' = { s₁ with swizzled := w } := by
  obtain ⟨d, hd, rfl⟩ := map_eq_some_iff.1 hset
  exact ⟨_, map_eq_some_iff.2 ⟨d, hd, rfl⟩, rfl⟩

theorem setNSObjectSwizzled_flags (h : FlagsOk img b unchecked s) (hgraph : GraphWf img s unchecked)
    {nso isMeta} (hnso : nso = img.nso isMeta)
    (hset : setNSObjectSwizzled img count b nso isMeta s = some s') :
    FlagsOk img b unchecked s' ∧
      s'.swizzled b = update (s.swizzled b) isMeta true := by
  subst hnso
  unfold setNSObjectSwizzled at hset
  dsimp only at hset
  split at hset
  · obtain ⟨s₁, h₁, rfl⟩ := setCustomRecursively_of_swizzled hset
    obtain ⟨hflags, hnso⟩ := h.setCustomRecursively hgraph (Set.Subset.refl _) h₁
    have hflags' := hflags.swizzle hnso
    rw [setCustomRecursively_swizzled h₁] at hflags'
    exact ⟨hflags', update_self ..⟩
  next hinit =>
    cases hset
    refine ⟨h.swizzle ?_, update_self ..⟩
    by_contra hdef
    exact hinit (h.live _ (by simpa using hdef))

theorem scanChangedMethodOf_flags (h : FlagsOk img b unchecked s) (hgraph : GraphWf img s unchecked)
    {isMeta owner} (hscan : scanChangedMethodOf img count b isMeta owner m s = some s') :
    FlagsOk img b unchecked s' ∧
      (∀ isMeta', s'.swizzled b isMeta' = false → s.swizzled b isMeta' = false) ∧
      (b.covers img isMeta → owner = img.nso isMeta →
        (∃ l ∈ (s.methods img owner).lists, m ∈ l) → s'.swizzled b isMeta) := by
  unfold scanChangedMethodOf at hscan
  split at hscan
  next hcond =>
    obtain ⟨hflags, hw⟩ := setNSObjectSwizzled_flags h hgraph rfl hscan
    rw [hw]
    refine ⟨hflags, fun isMeta' hw' => ?_, fun _ _ _ => update_self ..⟩
    rw [update_apply] at hw'
    split at hw'
    · cases hw'
    · exact hw'
  next hcond =>
    cases hscan
    refine ⟨h, fun _ => id, fun hcovers howner hmem => ?_⟩
    by_contra hw
    obtain ⟨l, hl, hm⟩ := hmem
    rw [howner] at hl
    refine hcond ⟨hcovers, by simpa using hw, howner, ?_⟩
    exact List.any_eq_true.2 ⟨l, hl, by simpa using hm⟩

/-- **After the hook for a changed method, NSObject counts as swizzled if it was
one of its methods that changed.** -/
theorem scanChangedMethod_tracked {cls owner}
    (h : Tracked img b s₀ (insert (owner, m) changed) unchecked s)
    (hgraph : GraphWf img s unchecked) (hcls : cls = none ∨ cls = some owner)
    (hscan : scanChangedMethod img count b cls owner m s = some s') :
    Tracked img b s₀ changed unchecked s' := by
  have hone := scanChangedMethod_bundleOnly hscan
  have hcontents := hone.flagsOnly.contents
  -- it is enough that the flags are right and that the marks say what they should
  suffices hmain : FlagsOk img b unchecked s' ∧
      (∀ isMeta, s'.swizzled b isMeta = false → s.swizzled b isMeta = false) ∧
      ∀ isMeta l, b.covers img isMeta → baseMethods img (img.nso isMeta) = some l → m ∈ l →
        owner = img.nso isMeta → (s.method owner m).name ∈ b.sels → s'.swizzled b isMeta by
    obtain ⟨hflags, hw, hmark⟩ := hmain
    refine ⟨hflags, (h.bundleOnly hone hw hflags).methods, ?_⟩
    intro isMeta hcovers hunswizzled l hl m' hm' hmem hname
    rw [hcontents.method] at hname ⊢
    refine h.compiled isMeta hcovers (hw isMeta hunswizzled) l hl m' hm' ?_ hname
    rw [Set.mem_insert_iff, not_or]
    refine ⟨fun heq => ?_, hmem⟩
    obtain ⟨howner, rfl⟩ := Prod.mk.inj heq
    rw [howner] at hname
    have hswizzled := hmark isMeta l hcovers hl hm' howner.symm hname
    cases hunswizzled.symm.trans hswizzled
  unfold scanChangedMethod at hscan
  split at hscan
  next hboring =>
    cases hscan
    refine ⟨h.flags, fun _ => id, fun isMeta l _ _ _ _ hname => ?_⟩
    exact absurd hname (by simpa [Bundle.isInterestingSelector] using hboring)
  · rcases hcls with rfl | rfl
    · obtain ⟨s₁, h₁, h₂⟩ := bind_eq_some_iff.1 hscan
      have hone₁ := scanChangedMethodOf_bundleOnly h₁
      obtain ⟨hflags₁, hw₁, hmark₁⟩ := scanChangedMethodOf_flags h.flags hgraph h₁
      obtain ⟨hflags₂, hw₂, hmark₂⟩ := scanChangedMethodOf_flags hflags₁
        (hgraph.congr hone₁.flagsOnly.graph) h₂
      refine ⟨hflags₂, fun isMeta hw => hw₁ isMeta (hw₂ isMeta hw), ?_⟩
      intro isMeta l hcovers hl hm howner _
      have hmem : ∃ l ∈ (s.methods img owner).lists, m ∈ l := by
        refine ⟨l, (h.methods.base owner).subset ?_, hm⟩
        rw [howner, hl]
        exact mem_singleton_self l
      have hsame : s₁.methods img owner = s.methods img owner :=
        methods_congr (congrFun hone₁.flagsOnly.contents.ext owner)
      cases isMeta with
      | false =>
        by_contra hw
        exact absurd ((hw₂ false (by simpa using hw)).symm.trans (hmark₁ hcovers howner hmem))
          (by simp)
      | true => exact hmark₂ hcovers howner (by rw [hsame]; exact hmem)
    · dsimp only at hscan
      split at hscan
      next hcond =>
        obtain ⟨hflags, hw⟩ := setNSObjectSwizzled_flags h.flags hgraph hcond.2.1 hscan
        rw [hw]
        refine ⟨hflags, fun isMeta hw' => ?_, fun isMeta l _ _ _ howner _ => ?_⟩
        · rw [update_apply] at hw'
          split at hw'
          · cases hw'
          · exact hw'
        · have hmeta : img.isMeta owner = isMeta := by rw [howner, Image.isMeta_nso]
          rw [hmeta]
          exact update_self ..
      next hcond =>
        cases hscan
        refine ⟨h.flags, fun _ => id, fun isMeta l hcovers _ _ howner _ => ?_⟩
        by_contra hw
        have hmeta : img.isMeta owner = isMeta := by rw [howner, Image.isMeta_nso]
        rw [hmeta] at hcond
        exact hcond ⟨hcovers, howner, by simpa using hw⟩

end ObjcRuntime.Classes
