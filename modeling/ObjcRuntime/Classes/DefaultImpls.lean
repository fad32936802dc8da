import Mathlib.Data.List.Find
import ObjcRuntime.Classes.DefaultFlags
import ObjcRuntime.Classes.LookUp

/-!
# ObjcRuntime.Classes.DefaultImpls

A class with a default flag inherits what NSObject was compiled with.

Every operation keeps `Tracked`, so it holds in all reachable states. From a class
with the flag, a search for one of the selectors goes up through classes that
have the flag too and do not have the selector, until it comes to NSObject or its
metaclass, and there to the base list.
-/

namespace ObjcRuntime.Classes

open Function Lib List Option Nat Set State

variable {κ : Type} {img : Image} {count : Nat} {s s' s₀ : State κ} {b : Bundle}
variable {changed : Set (Cls × MethodId)} {unchecked pending : Set Cls} {c cls : Cls}
  {isMeta : Bool}

/-! ### Linking a class -/

theorem FlagsOk.check (h : FlagsOk img b unchecked s)
    (hc : s.isDefault b c → c = img.nso (img.isMeta c) ∨
      ∃ p, s.superclass c = some p ∧ s.isDefault b p) : FlagsOk img b (unchecked \ {c}) s := by
  refine ⟨h.realized, h.live, h.nso, fun d hd hmem => ?_, h.own⟩
  by_cases heq : d = c
  · subst heq
    exact hc hd
  · exact h.above d hd fun hin => hmem ⟨hin, heq⟩

theorem addSubclass_tracked (h : Tracked img b s₀ changed unchecked s) {p c}
    (hgraph : GraphWf img (s.pushSubclass p c) pending) (hpending : pending ⊆ unchecked)
    (hsuper : s.superclass c = some p) (hadd : addSubclass img count p c s = some s') :
    Tracked img b s₀ changed (unchecked \ {c}) s' := by
  have hpush : SameBundle img b s (s.pushSubclass p c) :=
    ⟨rfl, rfl, rfl, fun _ => rfl, rfl, rfl, rfl, rfl⟩
  refine forBundles_bundle img (b := b) (fun t t' hsame ht => ht.sameBundle hsame)
    (fun _ _ _ => scanAddedSubClass_bundleOnly) ?_ hadd
  intro s₁ s₂ hg hsame hscan
  have ht₁ := (h.sameBundle hpush).sameBundle hsame
  have hsuper₁ : s₁.superclass c = some p := by rw [hsame.superclass]; exact hsuper
  have hone := scanAddedSubClass_bundleOnly hscan
  unfold scanAddedSubClass at hscan
  split at hscan
  · obtain ⟨hflags, hc⟩ := ht₁.flags.setCustomRecursively (hgraph.congr hg) hpending hscan
    have hswizzled := setCustomRecursively_swizzled hscan
    refine ht₁.bundleOnly hone (fun isMeta hw => by rw [← hswizzled]; exact hw) (hflags.check ?_)
    exact fun hdef => absurd (hc.symm.trans hdef) (by simp)
  next hcond =>
    cases hscan
    refine ht₁.bundleOnly hone (fun _ => id) (ht₁.flags.check fun hdef => .inr ⟨p, hsuper₁, ?_⟩)
    by_contra hp
    exact hcond (by simp [isCustom, hdef, hp])

theorem linkClass_tracked (h : Tracked img b s₀ changed unchecked s)
    (hinit : s.isInitialized img c = false)
    (hlink : linkClass img count c s = some s') (hgraph : GraphWf img s' (unchecked \ {c})) :
    Tracked img b s₀ changed (unchecked \ {c}) s' := by
  rcases linkClass_cases hlink with ⟨p, hp, hadd⟩ | ⟨-, rfl⟩
  · have hsame := (addSubclass_flagsOnly hadd).graph.symm
    exact addSubclass_tracked h (hgraph.congr hsame) (sdiff_subset) hp hadd
  · have hroot : SameBundle img b s (addRootClass c s) :=
      ⟨rfl, rfl, rfl, fun _ => rfl, rfl, rfl, rfl, rfl⟩
    refine Tracked.sameBundle ⟨h.flags.check fun hdef => ?_, h.methods, h.compiled⟩ hroot
    cases hinit.symm.trans (h.flags.live c hdef)

/-! ### Initializing a class -/

theorem scannedCustom_eq_false (hb : b ≠ .core) (h : scannedCustom img b cls isMeta s = false) :
    s.swizzled b isMeta = false ∧
    (cls = img.nso isMeta ∧ scanMethodLists b s cls (categoryMethodLists img s cls) = false ∨
      cls ≠ img.nso isMeta ∧ scanMethodLists b s cls (s.methods img cls).lists = false ∧
        ∃ p, s.superclass cls = some p ∧ s.isDefault b p) := by
  have hknown : knownClassHasDefaultImpl img s b cls isMeta ↔ cls = img.nso isMeta := by
    unfold knownClassHasDefaultImpl
    cases b with
    | core => exact absurd rfl hb
    | awz | rr => split <;> simp_all
  unfold scannedCustom at h
  split at h
  · cases h
  next hswizzled =>
    refine ⟨by simpa using hswizzled, ?_⟩
    split at h
    next hnso => exact .inl ⟨hknown.1 hnso, h⟩
    next hnso =>
      refine .inr ⟨fun heq => hnso (hknown.2 heq), ?_⟩
      split at h
      · cases h
      next p hp =>
        split at h
        · cases h
        next hcustom => exact ⟨h, p, hp, by simpa [isCustom] using hcustom⟩

theorem scanCoveredClass_flags (hb : b ≠ .core) (h : FlagsOk img b unchecked s)
    (hmeta : img.isMeta c = isMeta) (hinit : s.isInitialized img c) :
    FlagsOk img b unchecked (scanCoveredClass img b c isMeta s) ∧
      (scanCoveredClass img b c isMeta s).swizzled = s.swizzled := by
  subst hmeta
  unfold scanCoveredClass
  split
  next hcovers =>
    unfold scanAddedClassImpl
    split
    · exact ⟨h, rfl⟩
    next hscanned =>
      obtain ⟨hswizzled, hcases⟩ := scannedCustom_eq_false hb (by simpa using hscanned)
      have hdef : ∀ d, (setDefault b c s).isDefault b d ↔ d = c ∨ s.isDefault b d := by
        intro d
        change update s.isDefault b _ b d ↔ _
        rw [update_self, update_apply]
        split
        next hd => simp [hd]
        next hd => simp [hd]
      refine ⟨⟨h.realized, fun d hd => ?_, fun isMeta hd => ?_, fun d hd hmem => ?_,
        fun d hd => ?_⟩, rfl⟩
      · rcases (hdef d).1 hd with rfl | hd
        · exact hinit
        · exact h.live d hd
      · rcases (hdef _).1 hd with heq | hd
        · rw [← heq, Image.isMeta_nso] at hcovers hswizzled
          exact ⟨hcovers, hswizzled⟩
        · exact h.nso isMeta hd
      · rcases (hdef d).1 hd with rfl | hd
        · rcases hcases with ⟨hnso, -⟩ | ⟨-, -, p, hp, hpdef⟩
          · exact .inl hnso
          · exact .inr ⟨p, hp, (hdef p).2 (.inr hpdef)⟩
        · refine (h.above d hd hmem).imp_right ?_
          rintro ⟨p, hp, hpdef⟩
          exact ⟨p, hp, (hdef p).2 (.inr hpdef)⟩
      · rcases (hdef d).1 hd with rfl | hd
        · unfold checkedLists
          rcases hcases with ⟨hnso, hscan⟩ | ⟨hnso, hscan, -⟩
          · rw [if_pos hnso]
            exact hscan
          · rw [if_neg hnso]
            exact hscan
        · exact h.own d hd
  · exact ⟨h, rfl⟩

/-- A class and its metaclass are initialized together. -/
theorem isInitialized_isa (hc : img.isMeta c = false) :
    s.isInitialized img (img.isa c) = s.isInitialized img c := by
  unfold isInitialized Image.getMeta
  rw [if_pos (img.isMeta_isa c), if_neg (by simp [hc])]

theorem scanInitializedClass_tracked (hb : b ≠ .core) (b')
    (h : Tracked img b s₀ changed unchecked s) (hmeta : img.isMeta cls = false)
    (hinit : s.isInitialized img cls) :
    Tracked img b s₀ changed unchecked (scanInitializedClass img b' cls (img.isa cls) s) ∧
      (scanInitializedClass img b' cls (img.isa cls) s).isInitialized img cls := by
  have hone : BundleOnly b' s (scanInitializedClass img b' cls (img.isa cls) s) :=
    scanInitializedClass_bundleOnly ..
  refine ⟨?_, ?_⟩
  · by_cases heq : b = b'
    · subst heq
      obtain ⟨hflags₁, hw₁⟩ := scanCoveredClass_flags hb h.flags hmeta hinit
      have hinit₁ : (scanCoveredClass img b cls false s).isInitialized img (img.isa cls) := by
        rw [isInitialized_isa hmeta, isInitialized,
          (scanCoveredClass_bundleOnly ..).flagsOnly.graph.initialized]
        exact hinit
      obtain ⟨hflags₂, hw₂⟩ := scanCoveredClass_flags hb hflags₁ (img.isMeta_isa cls) hinit₁
      exact h.bundleOnly hone (fun isMeta hw => by rw [← hw₁, ← hw₂]; exact hw) hflags₂
    · exact h.sameBundle (hone.sameBundle heq)
  · rw [isInitialized, hone.flagsOnly.graph.initialized]
    exact hinit

theorem scanInitializedClass_initialized (img : Image) (b : Bundle) (cls metacls : Cls)
    (s : State κ)
    (initialized : Cls → Bool) :
    { scanInitializedClass img b cls metacls s with initialized } =
      scanInitializedClass img b cls metacls { s with initialized } := by
  have hcovered : ∀ c isMeta (s : State κ), { scanCoveredClass img b c isMeta s with initialized } =
        scanCoveredClass img b c isMeta { s with initialized } := by
    intro c isMeta s
    unfold scanCoveredClass scanAddedClassImpl
    have hsame : scannedCustom img b c isMeta { s with initialized } =
        scannedCustom img b c isMeta s := rfl
    rw [hsame]
    split
    · split <;> rfl
    · rfl
  unfold scanInitializedClass
  rw [hcovered, hcovered]

/-- The scans do not depend on the mark that is set after them. -/
theorem setInitialized_eq (img : Image) (cls : Cls) (s : State κ) :
    setInitialized img cls s =
      scanInitializedClass img .core cls (img.isa cls)
        (scanInitializedClass img .rr cls (img.isa cls)
          (scanInitializedClass img .awz cls (img.isa cls)
            { s with initialized := update s.initialized (img.isa cls) true })) := by
  have hflags : ∀ b (s : State κ), (scanInitializedClass img b cls (img.isa cls) s).initialized =
      s.initialized := fun b s => (scanInitializedClass_bundleOnly ..).flagsOnly.graph.initialized
  unfold setInitialized
  dsimp only
  rw [hflags, hflags, hflags, scanInitializedClass_initialized, scanInitializedClass_initialized,
    scanInitializedClass_initialized]

theorem setInitialized_tracked (hb : b ≠ .core) (h : Tracked img b s₀ changed unchecked s)
    (hgraph : GraphWf img s pending) (hpending : cls ∉ pending)
    (hmeta : img.isMeta cls = false) (hreal : s.realized cls) :
    Tracked img b s₀ changed unchecked (setInitialized img cls s) := by
  obtain ⟨kids, roots, rank, bound, hg⟩ := hgraph
  have hinit : ∀ c, ({ s with initialized := update s.initialized (img.isa cls) true } :
      State κ).isInitialized img c ↔ img.getMeta c = img.isa cls ∨ s.isInitialized img c := by
    intro c
    change update s.initialized (img.isa cls) true (img.getMeta c) ↔ _
    rw [update_apply]
    split
    next heq => simp [heq]
    next heq => simp [heq, isInitialized]
  have hmarked : Tracked img b s₀ changed unchecked
      { s with initialized := update s.initialized (img.isa cls) true } := by
    refine ⟨⟨fun c hc => ?_, fun c hc => (hinit c).2 (.inr (h.flags.live c hc)), h.flags.nso,
      h.flags.above, h.flags.own⟩, ⟨h.methods.base, h.methods.ids, h.methods.names⟩, h.compiled⟩
    rcases (hinit c).1 hc with heq | hc
    · unfold Image.getMeta at heq
      split at heq
      · rw [heq]
        exact hg.realized_isa cls hreal hpending
      next hc' => rw [img.isa_inj c cls (by simpa using hc') hmeta heq]; exact hreal
    · exact h.flags.realized c hc
  have hself : img.getMeta cls = img.isa cls := if_neg (by simp [hmeta])
  rw [setInitialized_eq]
  obtain ⟨h₁, hinit₁⟩ := scanInitializedClass_tracked hb .awz hmarked hmeta
    ((hinit cls).2 (.inl hself))
  obtain ⟨h₂, hinit₂⟩ := scanInitializedClass_tracked hb .rr h₁ hmeta hinit₁
  exact (scanInitializedClass_tracked hb .core h₂ hmeta hinit₂).1

/-! ### What a class with the flag inherits -/

/-- What NSObject, or its metaclass, was compiled with for a selector. -/
def compiledImp (img : Image) (s₀ : State κ) (isMeta : Bool) (sel : Sel) : Option Imp :=
  (baseMethods img (img.nso isMeta)).bind fun l =>
    (searchMethodList s₀ (img.nso isMeta) sel l).map fun m => (s₀.method (img.nso isMeta) m).imp

theorem searchMethodList_eq_none {mlists} (h : scanMethodLists b s c mlists = false) {sel}
    (hsel : sel ∈ b.sels) {l} (hl : l ∈ mlists) : searchMethodList s c sel l = none := by
  unfold searchMethodList
  rw [find?_eq_none]
  intro m hm hname
  rw [decide_eq_true_eq] at hname
  exact scanMethodLists_eq_false.1 h l hl m hm (hname ▸ hsel)

theorem Tracked.ownImp_nso (h : Tracked img b s₀ ∅ unchecked s)
    (hdef : s.isDefault b (img.nso isMeta)) {sel} (hsel : sel ∈ b.sels)
    (hcompiled : compiledImp img s₀ isMeta sel = some imp) :
    ownImp img s (img.nso isMeta) sel = some imp := by
  obtain ⟨l, hl, hfind⟩ := bind_eq_some_iff.1 hcompiled
  obtain ⟨m, hm, rfl⟩ := map_eq_some_iff.1 hfind
  obtain ⟨front, hfront⟩ := h.methods.base (img.nso isMeta)
  rw [hl, toList_some] at hfront
  have hown := h.flags.own _ hdef
  have hchecked : checkedLists img s (img.nso isMeta) = front := by
    unfold checkedLists categoryMethodLists
    rw [Image.isMeta_nso, if_pos rfl]
    rw [hl, ← hfront]
    exact dropLast_concat
  rw [hchecked] at hown
  have hnone : front.findSome? (searchMethodList s (img.nso isMeta) sel) = none := by
    rw [findSome?_eq_none_iff]
    exact fun l' hl' => searchMethodList_eq_none hown hsel hl'
  have hsame : searchMethodList s (img.nso isMeta) sel l = some m := by
    rw [← hm]
    refine find?_congr fun m' hm' => ?_
    obtain ⟨n, rfl⟩ := image_of_base hl hm'
    rw [h.methods.names]
  have hget : getMethodNoSuper img s (img.nso isMeta) sel = some m := by
    unfold getMethodNoSuper
    rw [← hfront, findSome?_append, hnone]
    simp [hsame]
  have hname := name_of_getMethodNoSuper hget
  obtain ⟨hcovers, hswizzled⟩ := h.flags.nso isMeta hdef
  have hmethod := h.compiled isMeta hcovers hswizzled l hl m (mem_of_find?_eq_some hm)
    (notMem_empty _) (hname ▸ hsel)
  rw [ownImp, hget, map_some, hmethod]

/-- A superclass with the flag is a class for a class and a metaclass for a
metaclass; NSObject's metaclass is the only one below a root class. -/
theorem Tracked.isMeta_super (h : Tracked img b s₀ changed ∅ s)
    (hgraph : GraphWf img s pending) {c p} (hc : c ≠ img.nso (img.isMeta c))
    (hp : s.superclass c = some p) (hdef : s.isDefault b p) : img.isMeta p = img.isMeta c := by
  obtain ⟨kids, roots, rank, bound, hg⟩ := hgraph
  rcases Bool.eq_false_or_eq_true (img.isMeta c) with hmeta | hmeta
  · obtain ⟨d, hd, rfl⟩ := img.exists_isa c hmeta
    cases hq : s.superclass d with
    | some q =>
      obtain rfl := some.inj ((hg.superclass_isa d q hd hq).2.symm.trans hp)
      rw [hmeta, img.isMeta_isa]
    | none =>
      obtain rfl := some.inj ((hg.superclass_isa_root d hd hq).symm.trans hp)
      rcases h.flags.above d hdef (notMem_empty d) with hnso | ⟨q, hq', -⟩
      · rw [hd] at hnso
        refine absurd ?_ hc
        rw [hmeta, hnso]
        rfl
      · cases hq.symm.trans hq'
  · rw [hmeta]
    exact (hg.superclass_isa c p hmeta hp).1

theorem Tracked.resolves (h : Tracked img b s₀ ∅ ∅ s) (hgraph : GraphWf img s ∅) {sel}
    (hsel : sel ∈ b.sels) (hdef : s.isDefault b c)
    (hcompiled : compiledImp img s₀ (img.isMeta c) sel = some imp) :
    Resolves img s sel c (some imp) := by
  have hwf := hgraph
  obtain ⟨kids, roots, rank, bound, hg⟩ := hgraph
  -- by induction up the superclasses
  induction hn : rank c using Nat.strong_induction_on generalizing c with
  | _ n ih =>
    by_cases hnso : c = img.nso (img.isMeta c)
    · refine .own ?_
      rw [hnso]
      refine h.ownImp_nso (hnso ▸ hdef) hsel ?_
      exact hcompiled
    · obtain ⟨p, hp, hpdef⟩ := (h.flags.above c hdef (notMem_empty c)).resolve_left hnso
      have hown := h.flags.own c hdef
      unfold checkedLists at hown
      rw [if_neg hnso] at hown
      have hnone : ownImp img s c sel = none := by
        unfold ownImp getMethodNoSuper
        rw [map_eq_none_iff, findSome?_eq_none_iff]
        exact fun l hl => searchMethodList_eq_none hown hsel hl
      refine .inherited hnone hp (ih (rank p) (hn ▸ hg.wf.rank_lt p c hp) hpdef ?_ rfl)
      rw [h.isMeta_super hwf hnso hp hpdef]
      exact hcompiled

/-! ### Changing methods -/

theorem adjustCustomFlags_tracked {cls owner m}
    (h : Tracked img b s₀ (insert (owner, m) changed) unchecked s)
    (hgraph : GraphWf img s unchecked) (hcls : cls = none ∨ cls = some owner)
    (hadjust : adjustCustomFlagsForMethodChange img count cls owner m s = some s') :
    Tracked img b s₀ changed unchecked s' := by
  refine forBundles_bundle img (b := b) (fun t t' hsame ht => ht.sameBundle hsame)
    (fun _ _ _ => scanChangedMethod_bundleOnly) ?_ hadjust
  intro s₁ s₂ hg hsame hscan
  exact scanChangedMethod_tracked (h.sameBundle hsame) (hgraph.congr hg) hcls hscan

variable [MethodCache κ] {imp : Imp} {r : Imp × State κ}

variable (h : Tracked img b s₀ changed unchecked s) (hgraph : GraphWf img s unchecked)
include h hgraph

theorem methodSetImplementation_tracked {cls owner m} (hcls : cls = none ∨ cls = some owner)
    (hset : methodSetImplementation img count cls owner m imp s = some r) :
    Tracked img b s₀ changed unchecked r.2 := by
  rcases methodSetImplementation_cases hset with heq | ⟨s₁, h₁, h₂⟩
  · exact heq ▸ h
  · refine adjustCustomFlags_tracked ((h.setImp owner m imp).sameBundle (flushCaches_sameBundle h₁))
      (hgraph.congr ?_) hcls h₂
    exact (changesAt_setImp s owner m imp).graph.trans (flushCaches_changesAt h₁ owner).graph

theorem exchangeImplementations_tracked {c₁ c₂ m₁ m₂}
    (hex : methodExchangeImplementations img count c₁ m₁ c₂ m₂ s = some s') :
    Tracked img b s₀ changed unchecked s' := by
  obtain ⟨s₁, h₁, s₂, h₂, h₃⟩ := exchangeImplementations_cases hex
  have hg₁ : GraphWf img s₁ unchecked := hgraph.congr
    (((changesAt_setImp s c₁ m₁ _).graph.trans (changesAt_setImp _ c₂ m₂ _).graph).trans
      (flushCaches_changesAt h₁ c₁).graph)
  have ht := ((h.setImp c₁ m₁ (s.method c₂ m₂).imp).setImp c₂ m₂ (s.method c₁ m₁).imp).sameBundle
    (flushCaches_sameBundle h₁)
  rw [insert_comm] at ht
  have ht₂ := adjustCustomFlags_tracked ht hg₁ (.inl rfl) h₂
  exact adjustCustomFlags_tracked ht₂ (hg₁.congr (adjustCustomFlags_flagsOnly h₂).graph)
    (.inl rfl) h₃

/-! ### Adding methods -/

theorem addMethodsFinish_tracked {newlist} (hids : ∀ n, MethodId.added n ∈ newlist → n < s.fresh)
    (hadd : addMethodsFinish img count cls newlist s = some s') :
    Tracked img b s₀ changed unchecked s' := by
  obtain ⟨s₁, h₁, h₂⟩ := addMethodsFinish_cases hadd
  refine Tracked.sameBundle ?_ (flushCaches_sameBundle h₂)
  refine prepareAndAttach_tracked (h.sameBundle (setRwe_sameBundle rfl))
    (hgraph.congr (changesAt_setRwe s cls _).graph) (fun l hl => ?_) h₁
  rw [mem_singleton.1 hl]
  exact hids

theorem addMethod_tracked {name replace}
    (hadd : addMethod img count cls name imp replace s = some r) :
    Tracked img b s₀ changed unchecked r.2 := by
  rcases addMethod_cases hadd with ⟨m, -, ⟨-, heq⟩ | ⟨-, hset⟩⟩ | ⟨-, hfin⟩
  · exact heq ▸ h
  · exact methodSetImplementation_tracked h hgraph (.inr rfl) hset
  · refine addMethodsFinish_tracked (h.newMethod cls name imp)
      (hgraph.congr (changesAt_newMethod s cls name imp).graph) (fun n hn => ?_) hfin
    obtain rfl := MethodId.added.inj (mem_singleton.1 hn)
    exact lt_succ_self _

omit h hgraph

theorem fresh_methodSetImplementation {cls owner m}
    (hset : methodSetImplementation img count cls owner m imp s = some r) :
    r.2.fresh = s.fresh := by
  rcases methodSetImplementation_cases hset with heq | ⟨s₁, h₁, h₂⟩
  · rw [heq]
  · obtain ⟨cache, rfl, -⟩ := flushCaches_frame h₁
    obtain ⟨d, w, heq⟩ := adjustCustomFlags_flagsOnly h₂
    rw [heq]
    rfl

theorem addMethodsLoop_tracked {replace methods} :
    ∀ {a s} {r}, Tracked img b s₀ changed unchecked s →
      GraphWf img s unchecked → (∀ n, MethodId.added n ∈ a.newlist → n < s.fresh) →
      addMethodsLoop img count cls replace methods a s = some r →
      Tracked img b s₀ changed unchecked r.2 ∧
        ∀ n, MethodId.added n ∈ r.1.newlist → n < r.2.fresh := by
  induction methods with
  | nil =>
    intro a s r h hgraph hids hloop
    cases hloop
    exact ⟨h, hids⟩
  | cons nameImp rest ih =>
    intro a s r h hgraph hids hloop
    rw [addMethodsLoop] at hloop
    split at hloop
    · split at hloop
      · split at hloop
        next r₁ hset =>
          refine ih (methodSetImplementation_tracked h hgraph (.inr rfl) hset)
            (hgraph.congr (methodSetImplementation_changesAt hset).graph) ?_ hloop
          rw [fresh_methodSetImplementation hset]
          exact hids
        · cases hloop
      · refine ih h hgraph ?_ hloop
        exact hids
    · refine ih (h.newMethod cls _ _) (hgraph.congr (changesAt_newMethod s cls _ _).graph) ?_ hloop
      intro n hn
      rcases mem_append.1 hn with hn | hn
      · exact lt_succ_of_lt (hids n hn)
      · obtain rfl := MethodId.added.inj (mem_singleton.1 hn)
        exact lt_succ_self _

variable (h : Tracked img b s₀ changed unchecked s) (hgraph : GraphWf img s unchecked)
include h hgraph

theorem addMethods_tracked {methods replace r}
    (hadd : addMethods img count cls methods replace s = some r) :
    Tracked img b s₀ changed unchecked r.2 := by
  obtain ⟨r₁, h₁, hrest⟩ := addMethods_cases hadd
  obtain ⟨ht, hids⟩ := addMethodsLoop_tracked h hgraph (by simp) h₁
  rcases hrest with ⟨-, heq⟩ | h₂
  · exact heq ▸ ht
  · exact addMethodsFinish_tracked ht (hgraph.congr (addMethodsLoop_changesAt h₁).graph) hids h₂

/-! ### Categories -/

/-- The lists come from an image. -/
def FromImage (mlists : List (List MethodId)) : Prop := ∀ l ∈ mlists, ∀ n, MethodId.added n ∉ l

theorem prepareAndAttach_fromImage {mlists}
    (himage : FromImage mlists) (hattach : prepareAndAttach img count cls mlists s = some s') :
    Tracked img b s₀ changed unchecked s' ∧ GraphWf img s' unchecked :=
  ⟨prepareAndAttach_tracked h hgraph (fun l hl n hn => absurd hn (himage l hl n)) hattach,
    hgraph.congr (prepareAndAttach_changesAt hattach).graph⟩

theorem bufferEntry_tracked {entry : Option (List Nat)}
    {buffer} {r : List (List MethodId) × State κ} (himage : FromImage buffer)
    (hbuffer : bufferEntry (prepareAndAttach img count cls) (entry.map (·.map MethodId.image))
      buffer s =
      some r) :
    FromImage r.1 ∧ Tracked img b s₀ changed unchecked r.2 ∧ GraphWf img r.2 unchecked := by
  have hcons : ∀ {ns : List Nat} {buffer}, FromImage buffer →
      FromImage (ns.map MethodId.image :: buffer) := by
    intro ns buffer hbuf l hl n hn
    rcases mem_cons.1 hl with rfl | hl
    · simp at hn
    · exact hbuf l hl n hn
  cases entry with
  | none =>
    cases hbuffer
    exact ⟨himage, h, hgraph⟩
  | some ns =>
    simp only [bufferEntry, map_some] at hbuffer
    split at hbuffer
    · obtain ⟨s₁, h₁, rfl⟩ := map_eq_some_iff.1 hbuffer
      exact ⟨hcons fun l hl => absurd hl (by simp), prepareAndAttach_fromImage h hgraph himage h₁⟩
    · cases hbuffer
      exact ⟨hcons himage, h, hgraph⟩

omit h hgraph

theorem attachLoop_tracked {cats} :
    ∀ {buf s} {r}, FromImage buf.mlists →
      Tracked img b s₀ changed unchecked s → GraphWf img s unchecked →
      attachLoop img count cls isMeta cats buf s = some r →
      FromImage r.1.mlists ∧ Tracked img b s₀ changed unchecked r.2 ∧
        GraphWf img r.2 unchecked := by
  induction cats with
  | nil =>
    intro buf s r himage h hgraph hloop
    cases hloop
    exact ⟨himage, h, hgraph⟩
  | cons cat cats ih =>
    intro buf s r himage h hgraph hloop
    obtain ⟨r₁, r₂, r₃, h₁, h₂, h₃, hloop⟩ := attachLoop_cases hloop
    obtain ⟨himage₁, ht₁, hg₁⟩ := bufferEntry_tracked h hgraph himage h₁
    -- properties and protocols are of no interest here
    have hset : ∀ {e : State κ → RwExt} (_ : ∀ s, (e s).methods = s.methods img cls)
        s s', some (s.setRwe cls (e s)) = some s' →
        SameBundle img b s s' ∧ SameGraph s s' := by
      intro e he s s' h
      cases h
      exact ⟨setRwe_sameBundle (he s), (changesAt_setRwe s cls _).graph⟩
    have hrefl : ∀ s : State κ, SameBundle img b s s ∧ SameGraph s s := fun s => ⟨.refl s, .refl s⟩
    have hprop := bufferEntry_rel hrefl (fun _ => hset fun _ => rfl) h₂
    have hproto := bufferEntry_rel hrefl (fun _ => hset fun _ => rfl) h₃
    exact ih himage₁ ((ht₁.sameBundle hprop.1).sameBundle hproto.1)
      ((hg₁.congr hprop.2).congr hproto.2) hloop

theorem attachCategories_tracked (h : Tracked img b s₀ changed unchecked s)
    (hgraph : GraphWf img s unchecked) {cats isMeta existing}
    (hattach : attachCategories img count cls cats isMeta existing s = some s') :
    Tracked img b s₀ changed unchecked s' := by
  obtain ⟨r, s₁, hr, h₁, rfl⟩ := attachCategories_cases hattach
  obtain ⟨himage, ht, hg⟩ := attachLoop_tracked (fun l hl => absurd hl (by simp))
    (h.sameBundle (setRwe_sameBundle rfl)) (hgraph.congr (changesAt_setRwe s cls _).graph) hr
  have ht₁ : Tracked img b s₀ changed unchecked s₁ := by
    rcases attachRest_cases h₁ with ⟨-, rfl⟩ | ⟨s₂, h₂, ⟨-, hflush⟩ | ⟨-, rfl⟩⟩
    · exact ht
    · exact (prepareAndAttach_fromImage ht hg himage h₂).1.sameBundle
        (flushCaches_sameBundle hflush)
    · exact (prepareAndAttach_fromImage ht hg himage h₂).1
  exact (ht₁.sameBundle (setRwe_sameBundle rfl)).sameBundle (setRwe_sameBundle rfl)

theorem loadFor_tracked (h : Tracked img b s₀ changed unchecked s)
    (hgraph : GraphWf img s unchecked) {cat}
    (hload : loadFor img count cat cls isMeta s = some s') :
    Tracked img b s₀ changed unchecked s' := by
  rcases loadFor_cases hload with ⟨-, rfl⟩ | ⟨-, ⟨-, hattach⟩ | ⟨-, rfl⟩⟩
  · exact h
  · exact attachCategories_tracked h hgraph hattach
  · exact h.sameBundle ⟨rfl, rfl, rfl, fun _ => rfl, rfl, rfl, rfl, rfl⟩

/-! ### Realizing a class -/

variable (h : Tracked img b s₀ changed unchecked s)
include h

theorem Tracked.allocRw
    (hc : s.realized c = false) : Tracked img b s₀ changed (insert c unchecked) (s.allocRw c) := by
  have hother : ∀ d, d ≠ c → (s.allocRw c).methods img d = s.methods img d :=
    fun d hd => methods_congr (update_of_ne hd ..)
  have hself : ((s.allocRw c).methods img c).lists = (baseMethods img c).toList := by
    have hext : (s.allocRw c).ext c = none := update_self ..
    unfold State.methods
    rw [hext, ListArray.lists_ofBase]
  have hne : ∀ d, s.isDefault b d → d ≠ c := by
    rintro d hd rfl
    cases hc.symm.trans (h.flags.realized d (h.flags.live d hd))
  refine ⟨⟨fun d hd => (realizes_allocRw s c).realized d (h.flags.realized d hd), h.flags.live,
    h.flags.nso, fun d hd hmem => ?_, fun d hd => ?_⟩,
    ⟨fun d => ?_, fun d l hl n hn => ?_, h.methods.names⟩, h.compiled⟩
  · exact h.flags.above d hd fun hin => hmem (mem_insert_of_mem c hin)
  · rw [checkedLists_congr (hother d (hne d hd))]
    exact h.flags.own d hd
  · by_cases hd : d = c
    · subst hd
      exact hself.symm ▸ suffix_rfl
    · rw [hother d hd]
      exact h.methods.base d
  · by_cases hd : d = c
    · subst hd
      rw [hself] at hl
      obtain ⟨k, hk⟩ := image_of_base (mem_toList.1 hl) hn
      cases hk
    · rw [hother d hd] at hl
      exact h.methods.ids d l hl n hn

theorem methodizeClass_tracked
    (hgraph : GraphWf img s unchecked) (hmeth : methodizeClass img count c s = some s') :
    Tracked img b s₀ changed unchecked s' := by
  obtain ⟨s₁, s₂, h₁, h₂, h₃⟩ := methodizeClass_cases hmeth
  have ht₁ := (prepareMethodLists_tracked h hgraph h₁).1
  have hg₁ := hgraph.congr (prepareMethodLists_flagsOnly h₁).graph
  have hg₂ := hg₁.congr (addInitialize_changesAt h₂).graph
  have ht₂ : Tracked img b s₀ changed unchecked s₂ := by
    unfold addInitialize at h₂
    split at h₂
    · obtain ⟨r, hr, rfl⟩ := map_eq_some_iff.1 h₂
      exact addMethod_tracked ht₁ hg₁ hr
    · cases h₂
      exact ht₁
  unfold attachToClass at h₃
  split at h₃
  · cases h₃
    exact ht₂
  · obtain ⟨s₃, hattach, rfl⟩ := map_eq_some_iff.1 h₃
    exact (attachCategories_tracked ht₂ hg₂ hattach).sameBundle
      ⟨rfl, rfl, rfl, fun _ => rfl, rfl, rfl, rfl, rfl⟩

omit h

/-- Classes that are being realized are not initialized, so they have no flag. -/
theorem realizeClass_tracked (h : Tracked img b s₀ ∅ ∅ s) (hgraph : GraphWf img s ∅)
    {depth cls} (hreal : realizeClassWithoutSwift img count depth cls s = some s') :
    Tracked img b s₀ ∅ ∅ s' := by
  let Inv (P : Set Cls) (s : State κ) : Prop :=
    Tracked img b s₀ ∅ P s ∧ ∀ c ∈ P, s.isInitialized img c = false
  have halloc : ∀ P s c, GraphWf img s P → Inv P s → s.realized c = false →
      Inv (insert c P) (s.allocRw c) := by
    intro P s c _ hinv hc
    refine ⟨hinv.1.allocRw hc, fun d hd => ?_⟩
    rcases mem_insert_iff.1 hd with rfl | hd
    · rcases Bool.eq_false_or_eq_true (s.isInitialized img d) with hinit | hinit
      · cases hc.symm.trans (hinv.1.flags.realized d hinit)
      · exact hinit
    · exact hinv.2 d hd
  have hmethodize : ∀ P s s₁ s' c, GraphWf img s P → Inv P s → c ∈ P → s.realized c →
      linkClass img count c s = some s₁ → GraphWf img s₁ (P \ {c}) →
      methodizeClass img count c s₁ = some s' → Inv (P \ {c}) s' := by
    intro P s s₁ s' c _ hinv hc _ hlink hg₁ hmeth
    refine ⟨methodizeClass_tracked (linkClass_tracked hinv.1 (hinv.2 c hc) hlink hg₁) hg₁ hmeth, ?_⟩
    intro d hd
    have hsame : s'.initialized = s.initialized :=
      (methodizeClass_changesAt hmeth).graph.initialized.trans
        (linkClass_contents hlink).1.initialized
    unfold isInitialized
    rw [hsame]
    exact hinv.2 d hd.1
  exact (realizeClass_induction Inv halloc hmethodize hgraph
    ⟨h, fun c hc => absurd hc (notMem_empty c)⟩ (fun c hc => absurd hc (notMem_empty c))
    hreal).2.1

/-! ### Moving a class -/

theorem setSuperclass_tracked (h : Tracked img b s₀ ∅ ∅ s) (hgraph : GraphWf img s ∅)
    {cls newSuper r} (hallowed : (Act.setSuperclass cls newSuper).Allowed img s)
    (hset : setSuperclass img count cls newSuper s = some r) : Tracked img b s₀ ∅ ∅ r.2 := by
  obtain ⟨s₂, s₃, s₄, s₅, hrel, hsuper, hg₂, h₃, hg₃, h₄, h₅, h₆⟩ :=
    setSuperclass_graph hgraph hallowed hset
  have hcls := hallowed.2.2.1
  have hmoved : ∀ c, c ∉ ({cls, img.isa cls} : Set Cls) → s₂.superclass c = s.superclass c := by
    intro c hc
    rw [mem_insert_iff, mem_singleton_iff, not_or] at hc
    rw [hsuper]
    exact (update_of_ne hc.2 ..).trans (update_of_ne hc.1 ..)
  -- both classes are unlinked and have their new superclasses
  have ht₂ : Tracked img b s₀ ∅ {cls, img.isa cls} s₂ := by
    obtain ⟨_, _, _, _, rfl⟩ := hrel
    refine ⟨⟨h.flags.realized, h.flags.live, h.flags.nso, fun c hc hmem => ?_, h.flags.own⟩,
      ⟨h.methods.base, h.methods.ids, h.methods.names⟩, h.compiled⟩
    rw [hmoved c hmem]
    exact h.flags.above c hc (notMem_empty c)
  have hself₂ : s₂.superclass cls = some newSuper := by
    rw [hsuper]
    exact (update_of_ne (Image.ne_isa hcls cls) ..).trans (update_self ..)
  have ht₃ := addSubclass_tracked ht₂ hg₂ (by simp) hself₂ h₃
  have hself₃ : s₃.superclass (img.isa cls) = some (img.isa newSuper) := by
    rw [(addSubclass_flagsOnly h₃).graph.superclass]
    change s₂.superclass (img.isa cls) = _
    rw [hsuper]
    exact update_self ..
  have ht₄ := addSubclass_tracked ht₃ hg₃ (empty_subset _) hself₃ h₄
  have hnone : (({cls, img.isa cls} : Set Cls) \ {cls}) \ {img.isa cls} = ∅ := by
    ext c
    simp only [mem_sdiff, mem_insert_iff, mem_singleton_iff, mem_empty_iff_false]
    tauto
  rw [hnone] at ht₄
  exact (ht₄.sameBundle (flushCaches_sameBundle h₅)).sameBundle (flushCaches_sameBundle h₆)

/-! ### Runs -/

theorem tracked_initial (h : Initial img s₀) : Tracked img b s₀ ∅ ∅ s₀ := by
  have hlists : ∀ c, (s₀.methods img c).lists = (baseMethods img c).toList := by
    intro c
    unfold State.methods
    rw [h.ext, ListArray.lists_ofBase]
  have hdef : ∀ c, ¬ s₀.isDefault b c := fun c hc => absurd ((h.isDefault b c).symm.trans hc)
    (by simp)
  refine ⟨⟨fun c hc => ?_, fun c hc => absurd hc (hdef c), fun isMeta hc => absurd hc (hdef _),
    fun c hc => absurd hc (hdef c), fun c hc => absurd hc (hdef c)⟩,
    ⟨fun c => ?_, fun c l hl n hn => ?_, fun _ _ => rfl⟩, fun _ _ _ _ _ _ _ _ _ => rfl⟩
  · cases (h.initialized _).symm.trans hc
  · exact (hlists c).symm ▸ suffix_rfl
  · rw [hlists c] at hl
    obtain ⟨k, hk⟩ := image_of_base (mem_toList.1 hl) hn
    cases hk

/-- **Every operation keeps the promise of the flags.** -/
theorem step_tracked (hb : b ≠ .core) (h : Tracked img b s₀ ∅ ∅ s) (hgraph : GraphWf img s ∅)
    {act} (hallowed : act.Allowed img s) (hstep : step img count s act = some s') :
    Tracked img b s₀ ∅ ∅ s' := by
  cases act with
  | realize cls => exact realizeClass_tracked h hgraph hstep
  | setInitialized cls =>
    cases hstep
    exact setInitialized_tracked hb h hgraph (notMem_empty cls) hallowed.1 hallowed.2.1
  | lookUp sel cls behavior =>
    obtain ⟨r, hr, rfl⟩ := map_eq_some_iff.1 hstep
    obtain ⟨cache, heq⟩ := lookUpLocked_frame hr
    rw [heq]
    exact h.sameBundle ⟨rfl, rfl, rfl, fun _ => rfl, rfl, rfl, rfl, rfl⟩
  | lookUpStructor cls sel =>
    cases hstep
    obtain ⟨cache, heq⟩ := lookupMethodInClass_frame img cls sel s
    rw [heq]
    exact h.sameBundle ⟨rfl, rfl, rfl, fun _ => rfl, rfl, rfl, rfl, rfl⟩
  | addMethod cls name imp replace =>
    obtain ⟨r, hr, rfl⟩ := map_eq_some_iff.1 hstep
    exact addMethod_tracked h hgraph hr
  | addMethods cls methods replace =>
    obtain ⟨r, hr, rfl⟩ := map_eq_some_iff.1 hstep
    exact addMethods_tracked h hgraph hr
  | setImplementation owner m imp =>
    obtain ⟨r, hr, rfl⟩ := map_eq_some_iff.1 hstep
    exact methodSetImplementation_tracked h hgraph (.inl rfl) hr
  | exchangeImplementations c₁ m₁ c₂ m₂ => exact exchangeImplementations_tracked h hgraph hstep
  | loadCategory cat =>
    obtain ⟨s₁, h₁, h₂⟩ := loadCategory_cases hstep
    exact loadFor_tracked (loadFor_tracked h hgraph h₁)
      (hgraph.congr (loadFor_changesAt h₁).graph) h₂
  | setSuperclass cls newSuper =>
    obtain ⟨r, hr, rfl⟩ := map_eq_some_iff.1 hstep
    exact setSuperclass_tracked h hgraph hallowed hr

theorem reachable_tracked (hb : b ≠ .core) (hinit : Initial img s₀) (h : Reachable img s₀ s) :
    Tracked img b s₀ ∅ ∅ s := by
  induction h with
  | init => exact tracked_initial hinit
  | step count act hreach hallowed hstep ih =>
    exact step_tracked hb ih (reachable_graph hinit hreach) hallowed hstep

/-- **The default flags are sound.** In every reachable state, if a class has not
got custom retain/release methods, then the search without caches finds for each
of those selectors what NSObject, or its metaclass for a metaclass, was compiled
with; and likewise for `alloc` and `allocWithZone:` on a metaclass. -/
theorem default_flags_sound (hinit : Initial img s₀) (hreach : Reachable img s₀ s) (c : Cls) :
    (s.isCustom .rr c = false → ∀ sel ∈ Bundle.rr.sels, ∀ imp,
      compiledImp img s₀ (img.isMeta c) sel = some imp → Resolves img s sel c (some imp)) ∧
    (img.isMeta c = true → s.isCustom .awz c = false → ∀ sel ∈ Bundle.awz.sels, ∀ imp,
      compiledImp img s₀ true sel = some imp → Resolves img s sel c (some imp)) := by
  have hgraph := reachable_graph hinit hreach
  refine ⟨fun hdef sel hsel imp himp => ?_, fun hmeta hdef sel hsel imp himp => ?_⟩
  · exact (reachable_tracked (by decide) hinit hreach).resolves hgraph hsel
      (by simpa [State.isCustom] using hdef) himp
  · exact (reachable_tracked (by decide) hinit hreach).resolves hgraph hsel
      (by simpa [State.isCustom] using hdef) (by rw [hmeta]; exact himp)

/-- Before anything is realized; the root class has a `retain`. -/
def flatRetain : State FullCache := { flatState with method := fun _ _ => ⟨.retain, .code 100⟩ }

theorem flatRetain_initial : Initial flatImage flatRetain :=
  ⟨rfl, rfl, fun _ => rfl, fun _ => rfl, fun _ => rfl, fun _ _ => rfl, fun _ _ => rfl, fun _ => rfl,
    fun _ _ => rfl, fun _ => rfl⟩

/-- A class whose superclass is NSObject inherits its `retain`. -/
theorem default_flags_sound_flat : ∃ s, Reachable flatImage flatRetain s ∧
    s.isCustom .rr 2 = false ∧ Resolves flatImage s .retain 2 (some (.code 100)) := by
  obtain ⟨s₁, h₁⟩ : ∃ s₁, s₁ = (step flatImage 64 flatRetain (.realize 2)).get (by decide) :=
    ⟨_, rfl⟩
  have hr₁ : Reachable flatImage flatRetain s₁ :=
    .step 64 (.realize 2) .init trivial (by rw [h₁, some_get])
  have hr₂ : Reachable flatImage flatRetain (setInitialized flatImage 0 s₁) := by
    refine .step 64 (.setInitialized 0) hr₁ ⟨by decide, by rw [h₁]; decide, fun p hp => ?_⟩ rfl
    rw [h₁] at hp
    cases hp.symm.trans (show _ = none by decide)
  have hr₃ : Reachable flatImage flatRetain
      (setInitialized flatImage 2 (setInitialized flatImage 0 s₁)) := by
    refine .step 64 (.setInitialized 2) hr₂ ⟨by decide, by rw [h₁]; decide, fun p hp => ?_⟩ rfl
    rw [h₁] at hp ⊢
    obtain rfl := some.inj (hp.symm.trans (show _ = some 0 by decide))
    decide
  have hdef : (setInitialized flatImage 2 (setInitialized flatImage 0 s₁)).isCustom .rr 2 =
      false := by
    rw [h₁]
    decide
  exact ⟨_, hr₃, hdef, (default_flags_sound flatRetain_initial hr₃ 2).1 hdef .retain (by decide)
    (.code 100) (by decide)⟩

end ObjcRuntime.Classes
