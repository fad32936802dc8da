import ObjcRuntime.Classes.Graph

/-!
# ObjcRuntime.Classes.CacheCoherence

What a method cache holds is what a search without caches finds.

`Resolves` is that search: the lists of the class, then those of its
superclasses. `CacheOk stale` says that every cache entry agrees with it, except
for classes that have one of the `stale` classes above them. An operation that
changes the methods of a class makes the class stale; the flush that follows ends
it. Each flush rule of the source gets one lemma (`CacheOk.flush`,
`CacheOk.setImp`).

While a class is being realized it is pending, and no class below a pending one
has anything in its cache (`CacheLive`), so that nothing becomes stale there.
-/

namespace ObjcRuntime.Classes

open Function Lib Option Set MethodCache

variable {κ : Type} {img : Image} {count : Nat} {s s' : State κ}

/-! ### The search without caches -/

/-- The implementation in the class's own lists. -/
def ownImp (img : Image) (s : State κ) (c : Cls) (sel : Sel) : Option Imp :=
  (getMethodNoSuper img s c sel).map fun m => (s.method c m).imp

/-- The search through a class and its superclasses, and its result. -/
inductive Resolves (img : Image) (s : State κ) (sel : Sel) : Cls → Option Imp → Prop
  | own {c imp} : ownImp img s c sel = some imp → Resolves img s sel c (some imp)
  | inherited {c p r} : ownImp img s c sel = none → s.superclass c = some p →
      Resolves img s sel p r → Resolves img s sel c r
  | nothing {c} : ownImp img s c sel = none → s.superclass c = none →
      Resolves img s sel c none

/-- The implementation is what the search finds, or forwards where it finds
nothing. -/
def Agrees (img : Image) (s : State κ) (c : Cls) (sel : Sel) (imp : Imp) : Prop :=
  Resolves img s sel c (some imp) ∨ Resolves img s sel c none ∧ imp = .msgForwardImpcache

variable {c : Cls} {sel : Sel}

theorem Resolves.congr {r} (h : Resolves img s sel c r) (hsame : ∀ a, Ancestor s.superclass a c →
      s'.superclass a = s.superclass a ∧ ownImp img s' a sel = ownImp img s a sel) :
    Resolves img s' sel c r := by
  induction h with
  | own himp => exact .own ((hsame _ .refl).2.trans himp)
  | inherited hnone hp _ ih =>
    exact .inherited ((hsame _ .refl).2.trans hnone) ((hsame _ .refl).1.trans hp)
      (ih fun a ha => hsame a (.step hp ha))
  | nothing hnone hp => exact .nothing ((hsame _ .refl).2.trans hnone) ((hsame _ .refl).1.trans hp)

variable {imp : Imp}

theorem Agrees.congr (h : Agrees img s c sel imp) (hsame : ∀ a, Ancestor s.superclass a c →
      s'.superclass a = s.superclass a ∧ ownImp img s' a sel = ownImp img s a sel) :
    Agrees img s' c sel imp :=
  h.imp (fun h => h.congr hsame) fun h => ⟨h.1.congr hsame, h.2⟩

theorem Resolves.unique {r r'} (h : Resolves img s sel c r)
    (h' : Resolves img s sel c r') : r = r' := by
  induction h with
  | own himp =>
    cases h' with
    | own himp' => exact himp.symm.trans himp'
    | inherited hnone | nothing hnone => cases himp.symm.trans hnone
  | inherited hnone hp _ ih =>
    cases h' with
    | own himp' => cases himp'.symm.trans hnone
    | inherited _ hp' h' =>
      obtain rfl := some.inj (hp.symm.trans hp')
      exact ih h'
    | nothing _ hp' => cases hp.symm.trans hp'
  | nothing hnone hp =>
    cases h' with
    | own himp' => cases himp'.symm.trans hnone
    | inherited _ hp' => cases hp.symm.trans hp'
    | nothing => rfl

theorem exists_resolves (h : GraphWf img s ∅) (sel : Sel) (c : Cls) :
    ∃ r, Resolves img s sel c r := by
  obtain ⟨kids, roots, rank, bound, hg⟩ := h
  induction hn : rank c using Nat.strong_induction_on generalizing c with
  | _ n ih =>
    cases himp : ownImp img s c sel with
    | some imp => exact ⟨_, .own himp⟩
    | none =>
      cases hp : s.superclass c with
      | none => exact ⟨_, .nothing himp hp⟩
      | some p =>
        obtain ⟨r, hr⟩ := ih (rank p) (hn ▸ hg.wf.rank_lt p c hp) p rfl
        exact ⟨r, .inherited himp hp hr⟩

theorem Agrees.eq {r} (h : Agrees img s c sel imp)
    (hr : Resolves img s sel c r) : imp = r.getD .msgForwardImpcache := by
  rcases h with h | ⟨h, rfl⟩
  · exact h.unique hr ▸ rfl
  · exact h.unique hr ▸ rfl

theorem ownImp_congr {a} (hext : s'.ext a = s.ext a) (hmethod : s'.method a = s.method a)
    (sel : Sel) : ownImp img s' a sel = ownImp img s a sel := by
  unfold ownImp getMethodNoSuper
  have hsearch : searchMethodList s' a sel = searchMethodList s a sel := by
    unfold searchMethodList
    rw [hmethod]
  rw [methods_congr hext, hsearch, hmethod]

theorem ownImp_sameMethods (h : SameMethods img s s') (a : Cls) (sel : Sel) :
    ownImp img s' a sel = ownImp img s a sel := by
  unfold ownImp getMethodNoSuper
  have hsearch : searchMethodList s' a sel = searchMethodList s a sel := by
    unfold searchMethodList
    rw [h.method]
  rw [h.methods, hsearch, h.method]

theorem Agrees.inherited {c p} (hown : ownImp img s c sel = none)
    (hp : s.superclass c = some p) (h : Agrees img s p sel imp) : Agrees img s c sel imp :=
  h.imp (.inherited hown hp) fun h => ⟨.inherited hown hp h.1, h.2⟩

/-! ### Changing an implementation -/

theorem setImp_method (s : State κ) (c : Cls) (m) (imp : Imp) (c' : Cls) (m') :
    (s.setImp c m imp).method c' m' =
      if c' = c ∧ m' = m then { s.method c m with imp } else s.method c' m' := by
  change update s.method c (update (s.method c) m { s.method c m with imp }) c' m' = _
  rw [update_apply]
  by_cases hc : c' = c
  · subst hc
    rw [if_pos rfl, update_apply]
    by_cases hm : m' = m
    · rw [if_pos hm, if_pos ⟨rfl, hm⟩]
    · rw [if_neg hm, if_neg fun h => hm h.2]
  · rw [if_neg hc, if_neg fun h => hc h.1]

theorem setImp_name (s : State κ) (c : Cls) (m) (imp : Imp) (c' : Cls)
    (m') : ((s.setImp c m imp).method c' m').name = (s.method c' m').name := by
  rw [setImp_method]
  split
  next h => rw [h.1, h.2]
  · rfl

theorem getMethodNoSuper_setImp (s : State κ) (c : Cls) (m) (imp : Imp) (c' : Cls)
    (sel : Sel) :
    getMethodNoSuper img (s.setImp c m imp) c' sel = getMethodNoSuper img s c' sel := by
  unfold getMethodNoSuper
  have hsearch : searchMethodList (s.setImp c m imp) c' sel = searchMethodList s c' sel := by
    unfold searchMethodList
    simp only [setImp_name]
  rw [hsearch]
  rfl

variable {m : MethodId}

theorem name_of_getMethodNoSuper
    (h : getMethodNoSuper img s c sel = some m) : (s.method c m).name = sel := by
  obtain ⟨mlist, -, hfind⟩ := List.exists_of_findSome?_eq_some h
  simpa using List.find?_some hfind

/-- A class's own implementations change where the old one was found only. -/
theorem ownImp_setImp {c c'}
    (h : sel = (s.method c m).name → ownImp img s c' sel ≠ some (s.method c m).imp) :
    ownImp img (s.setImp c m imp) c' sel = ownImp img s c' sel := by
  unfold ownImp at h ⊢
  rw [getMethodNoSuper_setImp]
  cases hget : getMethodNoSuper img s c' sel with
  | none => rfl
  | some m' =>
    have hne : ¬ (c' = c ∧ m' = m) := by
      rintro ⟨rfl, rfl⟩
      exact h (name_of_getMethodNoSuper hget).symm (by rw [hget]; rfl)
    rw [map_some, map_some, setImp_method, if_neg hne]

theorem Resolves.setImp {c d r} (h : Resolves img s sel d r)
    (hne : sel = (s.method c m).name → r ≠ some (s.method c m).imp) :
    Resolves img (s.setImp c m imp) sel d r := by
  induction h with
  | own himp =>
    refine .own ((ownImp_setImp fun hsel => ?_).trans himp)
    rw [himp]
    exact hne hsel
  | inherited hnone hp _ ih =>
    exact .inherited ((ownImp_setImp fun _ => by rw [hnone]; simp).trans hnone) hp (ih hne)
  | nothing hnone hp => exact .nothing ((ownImp_setImp fun _ => by rw [hnone]; simp).trans hnone) hp

theorem Agrees.setImp {c d imp imp'} (h : Agrees img s d sel imp')
    (hne : sel = (s.method c m).name → imp' ≠ (s.method c m).imp) :
    Agrees img (s.setImp c m imp) d sel imp' :=
  h.imp (fun h => h.setImp fun hsel heq => hne hsel (some.inj heq))
    fun h => ⟨h.1.setImp fun _ => by simp, h.2⟩

/-! ### Coherence -/

variable [MethodCache κ] {pending stale : Set Cls}

/-- The selectors of `lookupMethodInClassAndLoadCache`, which does not look at
superclasses. -/
def Sel.isStructor (sel : Sel) : Prop := sel = .cxxConstruct ∨ sel = .cxxDestruct

/-- Cache entries agree with the search, unless a stale class is above. -/
def CacheOk (img : Image) (stale : Set Cls) (s : State κ) : Prop :=
  ∀ d sel imp, MethodCache.find (s.cache d) sel = some imp → ¬ sel.isStructor →
    (∀ a, Ancestor s.superclass a d → a ∉ stale) → Agrees img s d sel imp

/-- Only realized classes without a pending class above have cache entries. -/
def CacheLive (pending : Set Cls) (s : State κ) : Prop :=
  ∀ d sel imp, MethodCache.find (s.cache d) sel = some imp →
    s.realized d = true ∧ ∀ a, Ancestor s.superclass a d → a ∉ pending

theorem CacheLive.congr (h : CacheLive pending s) (hgraph : SameGraph s s')
    (hcache : FewerEntries s s') : CacheLive pending s' := by
  intro d sel imp hfind
  rw [hgraph.realized, hgraph.superclass]
  exact h d sel imp (hcache d sel imp hfind)

theorem CacheOk.congr (h : CacheOk img stale s)
    (hsuper : s'.superclass = s.superclass) (hcache : FewerEntries s s')
    (hown : ∀ a sel, ownImp img s' a sel = ownImp img s a sel) : CacheOk img stale s' := by
  intro d sel imp hfind hsel hstale
  rw [hsuper] at hstale
  exact (h d sel imp (hcache d sel imp hfind) hsel hstale).congr
    fun a _ => ⟨congrFun hsuper a, hown a sel⟩

theorem CacheOk.flagsOnly (h : CacheOk img stale s) (hflags : FlagsOnly s s') :
    CacheOk img stale s' := by
  obtain ⟨_, _, rfl⟩ := hflags
  exact h.congr rfl (fun _ _ _ h => h) fun _ _ => rfl

theorem CacheOk.changesAt (h : CacheOk img stale s)
    (hchg : ChangesAt c s s') : CacheOk img (insert c stale) s' := by
  intro d sel imp hfind hsel hstale
  have hsuper := hchg.graph.superclass
  rw [hsuper] at hstale
  refine (h d sel imp (hchg.cache d sel imp hfind) hsel
    fun a ha hin => hstale a ha (mem_insert_of_mem c hin)).congr fun a ha => ?_
  have hne : a ≠ c := by
    rintro rfl
    exact hstale a ha (mem_insert a stale)
  exact ⟨congrFun hsuper a, ownImp_congr (hchg.ext a hne) (hchg.method a hne) sel⟩

theorem CacheOk.flush {stale pending} (h : CacheOk img (insert c stale) s)
    (hgraph : GraphWf img s pending) (hlive : CacheLive pending s)
    (hflush : flushCaches count (some c) (fun _ => true) s = some s') : CacheOk img stale s' := by
  obtain ⟨kids, roots, rank, bound, hg⟩ := hgraph
  intro d sel imp hfind hsel hstale
  obtain ⟨cache, heq, hfewer⟩ := flushCaches_frame hflush
  have hold := hfewer d sel imp hfind
  obtain ⟨hreal, hpend⟩ := hlive d sel imp hold
  have hsuper : s'.superclass = s.superclass := heq ▸ rfl
  rw [hsuper] at hstale
  have hnot : ¬ Ancestor s.superclass c d := by
    intro hanc
    rw [hg.flushCaches_below hflush (hg.under hanc hreal hpend) rfl, find_erase] at hfind
    simp at hfind
  have hagree := h d sel imp hold hsel fun a ha hin => by
    rcases mem_insert_iff.1 hin with rfl | hin
    · exact hnot ha
    · exact hstale a ha hin
  subst heq
  exact hagree.congr fun a _ => ⟨rfl, rfl⟩

/-- Nothing is stale below a pending class. -/
theorem CacheOk.of_pending {stale pending} (h : CacheOk img (insert c stale) s)
    (hlive : CacheLive pending s) (hc : c ∈ pending) : CacheOk img stale s := by
  intro d sel imp hfind hsel hstale
  refine h d sel imp hfind hsel fun a ha hin => ?_
  rcases mem_insert_iff.1 hin with rfl | hin
  · exact (hlive d sel imp hfind).2 a ha hc
  · exact hstale a ha hin

theorem ne_of_not_shouldFlush {k : κ} {imp old : Imp}
    (hfind : find k sel = some imp) (hnot : shouldFlush k sel old = false) : imp ≠ old := by
  rintro rfl
  unfold shouldFlush getImp at hnot
  rw [hfind] at hnot
  simp at hnot

/-- The flush after `setImp`: where the old implementation was cached, below the
class of the method or everywhere. -/
theorem CacheOk.setImp {cls}
    (h : CacheOk img ∅ s) (hgraph : GraphWf img s pending) (hlive : CacheLive pending s)
    (hcls : cls = none ∨ cls = some c) (hflush : flushCaches count cls
      (fun k => shouldFlush k (s.method c m).name (s.method c m).imp) (s.setImp c m imp) =
        some s') :
    CacheOk img ∅ s' := by
  obtain ⟨kids, roots, rank, bound, hg⟩ := hgraph.congr (changesAt_setImp s c m imp).graph
  intro d sel imp' hfind hsel _
  obtain ⟨cache, heq, hfewer⟩ := flushCaches_frame hflush
  have hold : find (s.cache d) sel = some imp' := hfewer d sel imp' hfind
  obtain ⟨hreal, hpend⟩ := hlive d sel imp' hold
  have hagree := h d sel imp' hold hsel fun _ _ => notMem_empty _
  have herased : ∀ {k}, s'.cache d = erase k → False := by
    intro k hk
    rw [hk, find_erase] at hfind
    simp at hfind
  have hset : Agrees img (s.setImp c m imp) d sel imp' := by
    by_cases hcov : cls = none ∨ Ancestor s.superclass c d
    · refine hagree.setImp ?_
      rintro rfl
      refine ne_of_not_shouldFlush hold ?_
      by_contra hshould
      have hpred : shouldFlush ((s.setImp c m imp).cache d) (s.method c m).name (s.method c m).imp =
          true := (Bool.not_eq_false _).mp hshould
      rcases hcls with rfl | rfl
      · obtain ⟨r, hr, hunder⟩ := hg.under_root (le_refl (rank d)) hreal hpend
        exact herased (hg.flushCaches_all hflush hr hunder hpred)
      · exact herased (hg.flushCaches_below hflush
          (hg.under (hcov.resolve_left (by simp)) hreal hpend) hpred)
    · -- the class of the method is not above
      refine hagree.congr fun a ha => ⟨rfl, ?_⟩
      have hne : a ≠ c := by
        rintro rfl
        exact hcov (.inr ha)
      have hchg := changesAt_setImp s c m imp
      exact ownImp_congr (hchg.ext a hne) (hchg.method a hne) sel
  subst heq
  exact hset.congr fun a _ => ⟨rfl, rfl⟩

theorem CacheOk.exchange {c₁ c₂ m₁ m₂}
    (h : CacheOk img ∅ s) (hgraph : GraphWf img s pending) (hlive : CacheLive pending s)
    (hflush : flushCaches count none (fun k =>
        shouldFlush k (s.method c₁ m₁).name (s.method c₁ m₁).imp ||
          shouldFlush k (s.method c₂ m₂).name (s.method c₂ m₂).imp)
        ((s.setImp c₁ m₁ (s.method c₂ m₂).imp).setImp c₂ m₂ (s.method c₁ m₁).imp) = some s') :
    CacheOk img ∅ s' := by
  obtain ⟨kids, roots, rank, bound, hg⟩ := hgraph.congr
    ((changesAt_setImp s c₁ m₁ (s.method c₂ m₂).imp).graph.trans
      (changesAt_setImp _ c₂ m₂ (s.method c₁ m₁).imp).graph)
  intro d sel imp hfind hsel _
  obtain ⟨cache, heq, hfewer⟩ := flushCaches_frame hflush
  have hold : find (s.cache d) sel = some imp := hfewer d sel imp hfind
  obtain ⟨hreal, hpend⟩ := hlive d sel imp hold
  have hagree := h d sel imp hold hsel fun _ _ => notMem_empty _
  have hnot : (shouldFlush (s.cache d) (s.method c₁ m₁).name (s.method c₁ m₁).imp ||
      shouldFlush (s.cache d) (s.method c₂ m₂).name (s.method c₂ m₂).imp) = false := by
    by_contra hshould
    obtain ⟨r, hr, hunder⟩ := hg.under_root (le_refl (rank d)) hreal hpend
    rw [hg.flushCaches_all hflush hr hunder ((Bool.not_eq_false _).mp hshould), find_erase] at hfind
    simp at hfind
  rw [Bool.or_eq_false_iff] at hnot
  have h₁ : Agrees img (s.setImp c₁ m₁ (s.method c₂ m₂).imp) d sel imp := by
    refine hagree.setImp ?_
    rintro rfl
    exact ne_of_not_shouldFlush hold hnot.1
  -- the second method still has its implementation, even if it is the first
  have himp : ((s.setImp c₁ m₁ (s.method c₂ m₂).imp).method c₂ m₂).imp = (s.method c₂ m₂).imp := by
    rw [setImp_method]
    split <;> rfl
  have h₂ : Agrees img ((s.setImp c₁ m₁ (s.method c₂ m₂).imp).setImp c₂ m₂ (s.method c₁ m₁).imp)
      d sel imp := by
    refine h₁.setImp ?_
    rw [setImp_name, himp]
    rintro rfl
    exact ne_of_not_shouldFlush hold hnot.2
  subst heq
  exact h₂.congr fun a _ => ⟨rfl, rfl⟩

/-! ### Operations on one class -/

/-- Entries of a coherent state agree with the search, and no class is pending
above a class that has entries. -/
structure Coherent (img : Image) (pending : Set Cls) (s : State κ) : Prop where
  ok : CacheOk img ∅ s
  live : CacheLive pending s

variable (h : Coherent img pending s)
include h

theorem Coherent.flagsOnly (hflags : FlagsOnly s s') : Coherent img pending s' := by
  refine ⟨h.ok.flagsOnly hflags, ?_⟩
  obtain ⟨_, _, rfl⟩ := hflags
  exact h.live

variable (hgraph : GraphWf img s pending)
include hgraph

theorem Coherent.changeAndFlush {s₁} (hchg : ChangesAt c s s₁)
    (hflush : flushCaches count (some c) (fun _ => true) s₁ = some s') :
    Coherent img pending s' := by
  have hlive := h.live.congr hchg.graph hchg.cache
  have hflushed := flushCaches_changesAt hflush c
  exact ⟨(h.ok.changesAt hchg).flush (hgraph.congr hchg.graph) hlive hflush,
    hlive.congr hflushed.graph hflushed.cache⟩

theorem addMethodsFinish_coherent {newlist s₀} (hnew : ChangesAt c s s₀)
    (hadd : addMethodsFinish img count c newlist s₀ = some s') : Coherent img pending s' := by
  obtain ⟨s₁, h₁, h₂⟩ := addMethodsFinish_cases hadd
  exact h.changeAndFlush hgraph
    ((hnew.trans (changesAt_setRwe s₀ c _)).trans (prepareAndAttach_changesAt h₁)) h₂

theorem methodSetImplementation_coherent {cls r} (hcls : cls = none ∨ cls = some c)
    (hset : methodSetImplementation img count cls c m imp s = some r) :
    Coherent img pending r.2 := by
  have hchg := methodSetImplementation_changesAt hset
  refine ⟨?_, h.live.congr hchg.graph hchg.cache⟩
  rcases methodSetImplementation_cases hset with heq | ⟨s₁, h₁, h₂⟩
  · exact heq ▸ h.ok
  · exact (h.ok.setImp hgraph h.live hcls h₁).flagsOnly (adjustCustomFlags_flagsOnly h₂)

theorem addMethod_coherent {name replace r}
    (hadd : addMethod img count c name imp replace s = some r) : Coherent img pending r.2 := by
  rcases addMethod_cases hadd with ⟨m, -, ⟨-, heq⟩ | ⟨-, hset⟩⟩ | ⟨-, hfin⟩
  · exact heq ▸ h
  · exact methodSetImplementation_coherent h hgraph (.inr rfl) hset
  · exact addMethodsFinish_coherent h hgraph (changesAt_newMethod s c name imp) hfin

omit hgraph

omit h

theorem Coherent.sameMethods (h : Coherent img pending s)
    (hchg : ChangesAt c s s') (hsame : SameMethods img s s') : Coherent img pending s' :=
  ⟨h.ok.congr hchg.graph.superclass hchg.cache fun a sel => ownImp_sameMethods hsame a sel,
    h.live.congr hchg.graph hchg.cache⟩

/-- Attaching to an existing class: if there are method lists, the class is
flushed at the end. -/
theorem attachCategories_coherent {cats isMeta} (h : Coherent img pending s)
    (hgraph : GraphWf img s pending)
    (hattach : attachCategories img count c cats isMeta true s = some s') :
    Coherent img pending s' := by
  obtain ⟨r, s₁, hr, h₁, rfl⟩ := attachCategories_cases hattach
  have hchg := (changesAt_setRwe s c (s.rwe img c)).trans (attachLoop_changesAt hr)
  have hmethods : Coherent img pending s₁ := by
    rcases attachRest_cases h₁ with ⟨hnil, rfl⟩ | ⟨s₂, h₂, ⟨-, hflush⟩ | ⟨hfalse, -⟩⟩
    · obtain ⟨-, hsame⟩ := attachLoop_sameMethods hr hnil
      exact h.sameMethods hchg ((sameMethods_setRwe rfl).trans hsame)
    · exact h.changeAndFlush hgraph (hchg.trans (prepareAndAttach_changesAt h₂)) hflush
    · simp at hfalse
  exact (hmethods.sameMethods (changesAt_setRwe s₁ c _) (sameMethods_setRwe rfl)).sameMethods
    (changesAt_setRwe _ c _) (sameMethods_setRwe rfl)

theorem loadFor_coherent {cat isMeta} (h : Coherent img pending s) (hgraph : GraphWf img s pending)
    (hload : loadFor img count cat c isMeta s = some s') : Coherent img pending s' := by
  rcases loadFor_cases hload with ⟨-, rfl⟩ | ⟨-, ⟨-, hattach⟩ | ⟨-, rfl⟩⟩
  · exact h
  · exact attachCategories_coherent h hgraph hattach
  · exact h.sameMethods (loadFor_changesAt hload) ⟨fun _ => rfl, rfl⟩

/-- A loop that adds no method has replaced implementations at most. -/
theorem addMethodsLoop_coherent {replace methods} :
    ∀ {a s} {r : Added × State κ}, Coherent img pending s →
      GraphWf img s pending → addMethodsLoop img count c replace methods a s = some r →
      r.1.newlist = [] → a.newlist = [] ∧ Coherent img pending r.2 := by
  induction methods with
  | nil =>
    intro a s r h hgraph hloop hnil
    cases hloop
    exact ⟨hnil, h⟩
  | cons nameImp rest ih =>
    intro a s r h hgraph hloop hnil
    rw [addMethodsLoop] at hloop
    split at hloop
    · split at hloop
      · split at hloop
        next hset =>
          exact ih (methodSetImplementation_coherent h hgraph (.inr rfl) hset)
            (hgraph.congr (methodSetImplementation_changesAt hset).graph) hloop hnil
        · simp at hloop
      · obtain ⟨hnil', h'⟩ := ih h hgraph hloop hnil
        exact ⟨hnil', h'⟩
    · -- the new method stays in the list
      have hnew := addMethodsLoop_newlist hloop
      rw [hnil] at hnew
      simp at hnew

theorem addMethods_coherent {methods replace r} (h : Coherent img pending s)
    (hgraph : GraphWf img s pending) (hadd : addMethods img count c methods replace s = some r) :
    Coherent img pending r.2 := by
  obtain ⟨r₁, h₁, ⟨hnil, heq⟩ | h₂⟩ := addMethods_cases hadd
  · exact heq ▸ (addMethodsLoop_coherent h hgraph h₁ hnil).2
  · exact addMethodsFinish_coherent h hgraph (addMethodsLoop_changesAt h₁) h₂

/-! ### Realizing and moving classes -/

theorem Coherent.allocRw (h : Coherent img pending s)
    (hgraph : GraphWf img s pending) (hc : s.realized c = false) :
    Coherent img (insert c pending) (s.allocRw c) := by
  obtain ⟨kids, roots, rank, bound, hg⟩ := hgraph
  -- a class with cache entries is not below the new one
  have hentry : ∀ {d sel imp}, find ((s.allocRw c).cache d) sel = some imp →
      find (s.cache d) sel = some imp ∧ ¬ Ancestor s.superclass c d := by
    intro d sel imp hfind
    by_cases hd : d = c
    · subst hd
      have hempty : (s.allocRw d).cache d = empty := update_self ..
      rw [hempty, find_empty] at hfind
      simp at hfind
    · have hsame : (s.allocRw c).cache d = s.cache d := update_of_ne hd ..
      rw [hsame] at hfind
      obtain ⟨hreal, hpend⟩ := h.live d sel imp hfind
      exact ⟨hfind, fun hanc => absurd (hc.symm.trans (hg.realized_above hanc hreal hpend))
        (by simp)⟩
  constructor
  · intro d sel imp hfind hsel _
    obtain ⟨hold, hnot⟩ := hentry hfind
    refine (h.ok d sel imp hold hsel fun _ _ => notMem_empty _).congr fun a ha => ⟨rfl, ?_⟩
    have hne : a ≠ c := by
      rintro rfl
      exact hnot ha
    have hext : (s.allocRw c).ext a = s.ext a := update_of_ne hne ..
    exact ownImp_congr hext rfl sel
  · intro d sel imp hfind
    obtain ⟨hold, hnot⟩ := hentry hfind
    obtain ⟨hreal, hpend⟩ := h.live d sel imp hold
    refine ⟨(realizes_allocRw s c).realized d hreal, fun a ha hin => ?_⟩
    rcases mem_insert_iff.1 hin with rfl | hin
    · exact hnot ha
    · exact hpend a ha hin

theorem CacheOk.contents (h : CacheOk img stale s) (hsame : SameContents s s')
    (hsuper : s'.superclass = s.superclass) : CacheOk img stale s' :=
  h.congr hsuper (fun d sel imp hfind => by rwa [hsame.cache] at hfind)
    fun a sel => ownImp_congr (congrFun hsame.ext a) (congrFun hsame.method a) sel

theorem CacheLive.contents (h : CacheLive pending s) (hsame : SameContents s s')
    (hsuper : s'.superclass = s.superclass) : CacheLive pending s' := by
  intro d sel imp hfind
  rw [hsame.cache] at hfind
  rw [hsame.realized, hsuper]
  exact h d sel imp hfind

theorem methodizeClass_coherent {s₁}
    (h : Coherent img pending s) (hc : c ∈ pending) (hlink : linkClass img count c s = some s₁)
    (hmeth : methodizeClass img count c s₁ = some s') : Coherent img (pending \ {c}) s' := by
  obtain ⟨hsame, hsuper⟩ := linkClass_contents hlink
  have hchg := methodizeClass_changesAt hmeth
  have hlive := (h.live.contents hsame hsuper).congr hchg.graph hchg.cache
  refine ⟨((h.ok.contents hsame hsuper).changesAt hchg).of_pending hlive hc,
    fun d sel imp hfind => ?_⟩
  obtain ⟨hreal, hpend⟩ := hlive d sel imp hfind
  exact ⟨hreal, fun a ha hin => hpend a ha hin.1⟩

theorem setSuperclass_coherent {cls newSuper r} (h : Coherent img ∅ s)
    (hgraph : GraphWf img s ∅) (hallowed : (Act.setSuperclass cls newSuper).Allowed img s)
    (hset : setSuperclass img count cls newSuper s = some r) : Coherent img ∅ r.2 := by
  obtain ⟨s₂, s₃, s₄, s₅, hrel, hsuper, -, h₃, hg, h₄, h₅, h₆⟩ :=
    setSuperclass_graph hgraph hallowed hset
  have hflags₃ := addSubclass_flagsOnly h₃
  have hflags₄ := addSubclass_flagsOnly h₄
  have hsame : SameContents s s₄ :=
    (((hrel.trans (relinked_pushSubclass ..)).contents.trans hflags₃.contents).trans
      (relinked_pushSubclass ..).contents).trans hflags₄.contents
  have hsuper₄ : s₄.superclass = (s.setSuperclasses img cls newSuper).superclass :=
    (hflags₄.graph.superclass.trans hflags₃.graph.superclass).trans hsuper
  have hg₄ := hg.congr hflags₄.graph
  have hlive₄ : CacheLive ∅ s₄ := by
    intro d sel imp hfind
    rw [hsame.cache] at hfind
    rw [hsame.realized]
    exact ⟨(h.live d sel imp hfind).1, fun _ _ => notMem_empty _⟩
  -- the two classes that have moved are stale
  have hok₄ : CacheOk img (insert cls (insert (img.isa cls) ∅)) s₄ := by
    intro d sel imp hfind hsel hstale
    rw [hsame.cache] at hfind
    have hunmoved : ∀ c, c ∉ insert cls (insert (img.isa cls) (∅ : Set Cls)) →
        s₄.superclass c = s.superclass c := by
      intro c hc
      rw [mem_insert_iff, mem_insert_iff, not_or, not_or] at hc
      rw [hsuper₄]
      exact (update_of_ne hc.2.1 ..).trans (update_of_ne hc.1 ..)
    refine (h.ok d sel imp hfind hsel fun _ _ => notMem_empty _).congr fun a ha => ?_
    have hnot := hstale a (ha.of_unmoved hunmoved hstale)
    exact ⟨hunmoved a hnot, ownImp_congr (congrFun hsame.ext a) (congrFun hsame.method a) sel⟩
  have hchg₅ := flushCaches_changesAt h₅ cls
  have hlive₅ := hlive₄.congr hchg₅.graph hchg₅.cache
  have hchg₆ := flushCaches_changesAt h₆ cls
  exact ⟨(hok₄.flush hg₄ hlive₄ h₅).flush (hg₄.congr hchg₅.graph) hlive₅ h₆,
    hlive₅.congr hchg₆.graph hchg₆.cache⟩

/-! ### Lookups -/

theorem find_of_getImp {k : κ} (h : getImp k sel ≠ .nil) : find k sel = some (getImp k sel) := by
  unfold getImp at h ⊢
  cases hfind : find k sel with
  | none =>
    rw [hfind] at h
    exact absurd rfl h
  | some imp => rfl

/-- The search that consults superclass caches finds what the search without
caches finds. -/
theorem searchImp_agrees (h : CacheOk img ∅ s) (hsel : ¬ sel.isStructor) {n} :
    ∀ {c imp} {found}, searchImp img s sel n c = some (imp, found) →
      Agrees img s c sel imp := by
  induction n using Nat.strong_induction_on with
  | _ n ih =>
    intro c imp found hsearch
    rw [searchImp] at hsearch
    split at hsearch
    next m hm =>
      cases hsearch
      exact .inl (.own (by rw [ownImp, hm]; rfl))
    next hm =>
      have hown : ownImp img s c sel = none := by rw [ownImp, hm]; rfl
      split at hsearch
      next hp =>
        cases hsearch
        exact .inr ⟨.nothing hown hp, rfl⟩
      next p hp =>
        obtain ⟨k, rfl⟩ : ∃ k, n = k + 1 := by
          cases n with
          | zero => cases hsearch
          | succ k => exact ⟨k, rfl⟩
        -- an entry of the superclass's cache, or on with the superclass
        have hentry : getImp (s.cache p) sel ≠ .nil →
            Agrees img s c sel (getImp (s.cache p) sel) := fun hne =>
          .inherited hown hp (h p sel _ (find_of_getImp hne) hsel fun _ _ => notMem_empty _)
        dsimp only at hsearch
        split at hsearch
        next hfwd =>
          cases hsearch
          exact hentry (by rw [hfwd]; simp)
        · split at hsearch
          next hne =>
            cases hsearch
            exact hentry hne
          · exact .inherited hown hp (ih k k.lt_succ_self hsearch)

theorem cacheInsert_coherent (h : Coherent img ∅ s)
    (hreal : s.realized c) (hagree : ¬ sel.isStructor → Agrees img s c sel imp) :
    Coherent img ∅ (cacheInsert img c sel imp s) := by
  obtain ⟨cache, heq, hentry⟩ := cacheInsert_frame img c sel imp s
  rw [heq]
  constructor
  · intro d sel' imp' hfind hsel _
    have hold : Agrees img s d sel' imp' := by
      rcases hentry d sel' imp' hfind with ⟨rfl, rfl, rfl⟩ | hold
      · exact hagree hsel
      · exact h.ok d sel' imp' hold hsel fun _ _ => notMem_empty _
    exact hold.congr fun _ _ => ⟨rfl, rfl⟩
  · intro d sel' imp' hfind
    rcases hentry d sel' imp' hfind with ⟨rfl, -, -⟩ | hold
    · exact ⟨hreal, fun _ _ => notMem_empty _⟩
    · exact h.live d sel' imp' hold

theorem lookUpLocked_coherent {behavior r} (h : Coherent img ∅ s) (hreal : s.realized c)
    (hlook : lookUpLocked img count sel c behavior s = some r) : Coherent img ∅ r.2 := by
  obtain ⟨imp, found, hsearch, ⟨rfl, -⟩ | ⟨-, heq | heq⟩⟩ := lookUpLocked_cases hlook
  · exact h
  · exact heq ▸ h
  · rw [heq]
    exact cacheInsert_coherent h hreal fun hsel => searchImp_agrees h.ok hsel hsearch

/-! ### Runs -/

theorem coherent_initial (h : Initial img s) : Coherent img ∅ s := by
  constructor
  · intro d sel imp hfind
    cases (h.cache d sel).symm.trans hfind
  · intro d sel imp hfind
    cases (h.cache d sel).symm.trans hfind

theorem step_coherent (h : Coherent img ∅ s) (hgraph : GraphWf img s ∅) {act}
    (hallowed : act.Allowed img s) (hstep : step img count s act = some s') :
    Coherent img ∅ s' := by
  cases act with
  | realize cls =>
    exact (realizeClass_induction (Coherent img) (fun P s c hg h => h.allocRw hg)
      (fun P s s₁ s' c _ h hc _ hlink _ => methodizeClass_coherent h hc hlink) hgraph h
      (fun c hc => absurd hc (notMem_empty c)) hstep).2
  | setInitialized cls =>
    obtain ⟨s₁, hflags, heq⟩ := setInitialized_frame img cls s
    obtain rfl := (some.inj hstep).symm.trans heq
    have h₁ := h.flagsOnly hflags
    exact ⟨h₁.ok.congr rfl (fun _ _ _ h => h) fun _ _ => rfl, h₁.live⟩
  | lookUp sel cls behavior =>
    obtain ⟨r, hr, rfl⟩ := map_eq_some_iff.1 hstep
    exact lookUpLocked_coherent h hallowed hr
  | lookUpStructor cls sel =>
    cases hstep
    rcases lookupMethodInClass_cases img cls sel s with heq | ⟨imp, heq⟩
    · rw [heq]
      exact h
    · rw [heq]
      exact cacheInsert_coherent h hallowed.1 fun hsel => absurd hallowed.2 hsel
  | addMethod cls name imp replace =>
    obtain ⟨r, hr, rfl⟩ := map_eq_some_iff.1 hstep
    exact addMethod_coherent h hgraph hr
  | addMethods cls methods replace =>
    obtain ⟨r, hr, rfl⟩ := map_eq_some_iff.1 hstep
    exact addMethods_coherent h hgraph hr
  | setImplementation owner m imp =>
    obtain ⟨r, hr, rfl⟩ := map_eq_some_iff.1 hstep
    exact methodSetImplementation_coherent h hgraph (.inl rfl) hr
  | exchangeImplementations c₁ m₁ c₂ m₂ =>
    obtain ⟨s₁, h₁, s₂, h₂, h₃⟩ := exchangeImplementations_cases hstep
    have hchg := flushCaches_changesAt h₁ c₁
    have hlive : CacheLive ∅ s₁ := fun d sel imp hfind => by
      rw [hchg.graph.realized]
      exact ⟨(h.live d sel imp (hchg.cache d sel imp hfind)).1, fun _ _ => notMem_empty _⟩
    exact ((Coherent.mk (h.ok.exchange hgraph h.live h₁) hlive).flagsOnly
      (adjustCustomFlags_flagsOnly h₂)).flagsOnly (adjustCustomFlags_flagsOnly h₃)
  | loadCategory cat =>
    obtain ⟨s₁, h₁, h₂⟩ := loadCategory_cases hstep
    exact loadFor_coherent (loadFor_coherent h hgraph h₁)
      (hgraph.congr (loadFor_changesAt h₁).graph) h₂
  | setSuperclass cls newSuper =>
    obtain ⟨r, hr, rfl⟩ := map_eq_some_iff.1 hstep
    exact setSuperclass_coherent h hgraph hallowed hr

theorem reachable_coherent {s₀} (hinit : Initial img s₀) (h : Reachable img s₀ s) :
    Coherent img ∅ s := by
  induction h with
  | init => exact coherent_initial hinit
  | step count act hreach hallowed hstep ih =>
    exact step_coherent ih (reachable_graph hinit hreach) hallowed hstep

end ObjcRuntime.Classes
