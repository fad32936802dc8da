import ObjcRuntime.Classes.CacheCoherence

/-!
# ObjcRuntime.Classes.LookUp

A whole call of `lookUpImpOrForward` returns what the search without caches
finds.

The call is a sequence of critical sections: the search, and if it fails the
resolvers, each of which looks up more selectors and runs the class's own code.
That code is a parameter; it may look methods up, which fills caches (`Fills`),
but it adds no method. A state is `Ready` for a lookup if the caches are coherent
and the counter is larger than the depth of the class.
-/

namespace ObjcRuntime.Classes

open Lib Option

variable {κ : Type} [MethodCache κ] {img : Image} {count : Nat} {s s' : State κ}

/-- The effect of any number of lookups: caches are filled. -/
inductive Fills (img : Image) (s : State κ) : State κ → Prop
  | refl : Fills img s s
  | lookUp {s₁ r} (count : Nat) (sel : Sel) (cls : Cls)
      (behavior : Behavior) : Fills img s s₁ → s₁.realized cls = true →
      lookUpLocked img count sel cls behavior s₁ = some r → Fills img s r.2

theorem Fills.trans {s''} (h : Fills img s s') (h' : Fills img s' s'') : Fills img s s'' := by
  induction h' with
  | refl => exact h
  | lookUp count sel cls behavior _ hreal hlook ih =>
    exact .lookUp count sel cls behavior ih hreal hlook

theorem Fills.frame (h : Fills img s s') : ∃ cache, s' = { s with cache } := by
  induction h with
  | refl => exact ⟨s.cache, rfl⟩
  | @lookUp s₁ r count sel cls behavior _ _ hlook ih =>
    obtain ⟨cache, rfl⟩ := ih
    obtain ⟨cache', heq⟩ := lookUpLocked_frame hlook
    exact ⟨cache', heq⟩

theorem Fills.agrees (h : Fills img s s') {sel c imp}
    (hagree : Agrees img s' c sel imp) : Agrees img s c sel imp := by
  obtain ⟨cache, rfl⟩ := h.frame
  exact hagree.congr fun _ _ => ⟨rfl, rfl⟩

theorem exists_searchImp {rank : Cls → Nat}
    (hrank : ∀ p c, s.superclass c = some p → rank p < rank c)
    (sel : Sel) {n : Nat} :
    ∀ {c}, rank c ≤ n → ∃ imp found, searchImp img s sel n c = some (imp, found) := by
  induction n using Nat.strong_induction_on with
  | _ n ih =>
    intro c hn
    rw [searchImp]
    split
    · exact ⟨_, _, rfl⟩
    · split
      · exact ⟨_, _, rfl⟩
      next p hp =>
        have := hrank p c hp
        obtain ⟨k, rfl⟩ := Nat.exists_eq_succ_of_ne_zero (show n ≠ 0 by omega)
        dsimp only
        split
        · exact ⟨_, _, rfl⟩
        · split
          · exact ⟨_, _, rfl⟩
          · exact ih k k.lt_succ_self (by omega)

/-- The assumptions on the state in which a lookup of `cls` is made. -/
structure Ready (img : Image) (count : Nat) (s : State κ) (cls : Cls) : Prop where
  coherent : Coherent img ∅ s
  realized : s.realized cls = true
  rank : ∃ rank : Cls → Nat, (∀ p c, s.superclass c = some p → rank p < rank c) ∧
    rank cls + 1 ≤ count

theorem Fills.coherent (h : Fills img s s') (hco : Coherent img ∅ s) : Coherent img ∅ s' := by
  induction h with
  | refl => exact hco
  | lookUp count sel cls behavior _ hreal hlook ih => exact lookUpLocked_coherent ih hreal hlook

theorem Ready.fills {cls} (h : Ready img count s cls) (hfills : Fills img s s') :
    Ready img count s' cls := by
  have hco := hfills.coherent h.coherent
  obtain ⟨cache, rfl⟩ := hfills.frame
  exact ⟨hco, h.realized, h.rank⟩

theorem Ready.searchImp {cls} (h : Ready img count s cls) (sel : Sel) :
    ∃ imp found, searchImp img s sel (count - 1) cls = some (imp, found) := by
  obtain ⟨rank, hrank, hcount⟩ := h.rank
  exact exists_searchImp hrank sel (by omega)

theorem lookUpLocked_ready {cls} (h : Ready img count s cls) (sel : Sel) (behavior) :
    ∃ r, lookUpLocked img count sel cls behavior s = some r ∧ Fills img s r.2 ∧
      (r.1 = none ∧ behavior.resolver ∨
        ∃ imp, r.1 = some (behavior.result imp) ∧
          (¬ sel.isStructor → Agrees img s cls sel imp)) := by
  obtain ⟨imp, found, hsearch⟩ := h.searchImp sel
  have hsome : ∃ r, lookUpLocked img count sel cls behavior s = some r := by
    unfold lookUpLocked
    rw [hsearch]
    exact ⟨_, rfl⟩
  obtain ⟨r, hr⟩ := hsome
  refine ⟨r, hr, .lookUp count sel cls behavior .refl h.realized hr, ?_⟩
  obtain ⟨imp', found', hsearch', ⟨rfl, -, hres⟩ | ⟨hresult, -⟩⟩ := lookUpLocked_cases hr
  · exact .inl ⟨rfl, hres⟩
  · exact .inr ⟨imp', hresult, fun hsel => searchImp_agrees h.coherent.ok hsel hsearch'⟩

theorem lookUpImpTryCache_ready {cls} (h : Ready img count s cls) (sel : Sel) (behavior) :
    ∃ imp s', lookUpImpTryCache img count sel cls behavior s = some (behavior.result imp, s') ∧
      Fills img s s' ∧ (¬ sel.isStructor → Agrees img s cls sel imp) := by
  unfold lookUpImpTryCache
  dsimp only
  split
  next hcache =>
    exact ⟨_, s, rfl, .refl, fun hsel => h.coherent.ok cls sel _ (find_of_getImp hcache.2) hsel
      fun _ _ => Set.notMem_empty _⟩
  · obtain ⟨r, hr, hfills, ⟨-, hres⟩ | ⟨imp, himp, hagree⟩⟩ :=
      lookUpLocked_ready h sel { behavior with resolver := false }
    · cases hres
    · refine ⟨imp, r.2, ?_, hfills, hagree⟩
      rw [hr, map_some, himp]
      rfl

section Resolver

variable {resolver : Cls → Sel → State κ → State κ}

variable (hresolver : ∀ c sel s, Fills img s (resolver c sel s))
include hresolver

theorem resolveBy_ready {cls metacls}
    (h : Ready img count s cls) (hmeta : Ready img count s metacls) (resolveSel sel : Sel) :
    ∃ s', resolveBy img count resolver resolveSel metacls sel cls s = some s' ∧ Fills img s s' := by
  obtain ⟨imp, s₁, h₁, hfills₁, -⟩ := lookUpImpTryCache_ready hmeta resolveSel ⟨false, true, false⟩
  unfold resolveBy lookUpImpOrNilTryCache
  rw [h₁, bind_eq_bind, bind_some]
  split
  · exact ⟨s₁, rfl, hfills₁⟩
  · have hfills₂ := hfills₁.trans (hresolver cls sel s₁)
    obtain ⟨imp', s₂, h₂, hfills₃, -⟩ :=
      lookUpImpTryCache_ready (h.fills hfills₂) sel ⟨false, true, false⟩
    exact ⟨s₂, by rw [h₂]; rfl, hfills₂.trans hfills₃⟩

theorem callResolvers_ready {cls}
    (h : Ready img count s cls) (hisa : Ready img count s (img.isa cls)) (sel : Sel) :
    ∃ s', callResolvers img count resolver sel cls s = some s' ∧ Fills img s s' := by
  unfold callResolvers
  split
  · exact resolveBy_ready hresolver h hisa _ sel
  · obtain ⟨s₁, h₁, hfills₁⟩ := resolveBy_ready hresolver h h .resolveClassMethod sel
    obtain ⟨imp, s₂, h₂, hfills₂, -⟩ :=
      lookUpImpTryCache_ready (h.fills hfills₁) sel ⟨false, true, false⟩
    have hfills := hfills₁.trans hfills₂
    rw [resolveClassMethod, h₁, bind_eq_bind, bind_some, lookUpImpOrNilTryCache, h₂,
      bind_eq_bind, bind_some]
    split
    · obtain ⟨s₃, h₃, hfills₃⟩ := resolveBy_ready hresolver (h.fills hfills) (hisa.fills hfills)
        .resolveInstanceMethod sel
      exact ⟨s₃, h₃, hfills.trans hfills₃⟩
    · exact ⟨s₂, rfl, hfills⟩

/-- The whole lookup, with the resolver if the search fails. -/
theorem lookUpImpOrForward_ready {cls} (h : Ready img count s cls)
    (hisa : Ready img count s (img.isa cls)) {sel} (hsel : ¬ sel.isStructor) (behavior) :
    ∃ imp s', lookUpImpOrForward img count resolver sel cls behavior s =
        some (behavior.result imp, s') ∧ Agrees img s cls sel imp := by
  obtain ⟨r, hr, hfills, ⟨hnone, -⟩ | ⟨imp, himp, hagree⟩⟩ := lookUpLocked_ready h sel behavior
  · obtain ⟨s₁, h₁, hfills₁⟩ :=
      callResolvers_ready hresolver (h.fills hfills) (hisa.fills hfills) sel
    obtain ⟨imp, s₂, h₂, -, hagree⟩ := lookUpImpTryCache_ready ((h.fills hfills).fills hfills₁) sel
      { behavior with resolver := false }
    refine ⟨imp, s₂, ?_, (hfills.trans hfills₁).agrees (hagree hsel)⟩
    rw [lookUpImpOrForward, hr, bind_eq_bind, bind_some, hnone]
    rw [resolveMethod, h₁, bind_eq_bind, bind_some, h₂]
    rfl
  · refine ⟨imp, r.2, ?_, hagree hsel⟩
    rw [lookUpImpOrForward, hr, bind_eq_bind, bind_some, himp]

omit hresolver

end Resolver

/-- In every reachable state a cache entry is what the search through the method
lists finds, or a forward entry where it finds nothing. So a lookup, which uses
the caches of superclasses and calls resolvers that only look methods up, returns
what the search without caches finds. -/
theorem caches_coherent {s₀ : State κ} (hinit : Initial img s₀) (hreach : Reachable img s₀ s) :
    (∀ c sel imp, ¬ sel.isStructor → MethodCache.find (s.cache c) sel = some imp →
      Resolves img s sel c (some imp) ∨
        Resolves img s sel c none ∧ imp = .msgForwardImpcache) ∧
    ∀ c sel behavior (resolver : Cls → Sel → State κ → State κ), ¬ sel.isStructor →
      s.realized c = true → (∀ c sel s, Fills img s (resolver c sel s)) →
      ∃ r bound, Resolves img s sel c r ∧ ∀ count, bound ≤ count →
        ∃ s', lookUpImpOrForward img count resolver sel c behavior s =
          some (behavior.result (r.getD .msgForwardImpcache), s') := by
  have hco := reachable_coherent hinit hreach
  have hgraph := reachable_graph hinit hreach
  refine ⟨fun c sel imp hsel hfind => hco.ok c sel imp hfind hsel fun _ _ => Set.notMem_empty _, ?_⟩
  intro c sel behavior resolver hsel hreal hresolver
  obtain ⟨r, hr⟩ := exists_resolves hgraph sel c
  obtain ⟨kids, roots, rank, bound, hg⟩ := hgraph
  refine ⟨r, max (rank c) (rank (img.isa c)) + 1, hr, fun count hcount => ?_⟩
  have hready : ∀ d, s.realized d = true → rank d ≤ max (rank c) (rank (img.isa c)) →
      Ready img count s d :=
    fun d hd hle => ⟨hco, hd, rank, fun p c hp => hg.wf.rank_lt p c hp, by omega⟩
  obtain ⟨imp, s', hlook, hagree⟩ := lookUpImpOrForward_ready hresolver
    (hready c hreal (Nat.le_max_left _ _))
    (hready _ (hg.realized_isa c hreal (Set.notMem_empty _)) (Nat.le_max_right _ _)) hsel behavior
  exact ⟨s', by rw [hlook, hagree.eq hr]⟩

/-! ### An example -/

/-- A cache that keeps everything. -/
abbrev FullCache := Sel → Option Imp

instance : MethodCache FullCache where
  empty := fun _ => none
  find k sel := k sel
  insert k sel imp := Function.update k sel (some imp)
  erase _ := fun _ => none
  find_empty _ := rfl
  find_erase _ _ := rfl
  find_insert k sel imp sel' imp' h := by
    rw [Function.update_apply] at h
    split at h
    next heq => exact .inl ⟨heq, (some.inj h).symm⟩
    · exact .inr h

def flatIsa (c : Nat) : Nat := if c % 2 = 0 then c + 1 else 1

def flatSuperclass (c : Nat) : Option Nat :=
  if c = 0 then none else if c = 1 ∨ c % 2 = 0 then some 0 else some 1

theorem flatSuperclass_cases {c p} (h : flatSuperclass c = some p) :
    (c = 1 ∨ c ≠ 0 ∧ c % 2 = 0) ∧ p = 0 ∨ c ≠ 1 ∧ c % 2 = 1 ∧ p = 1 := by
  unfold flatSuperclass at h
  split at h
  · cases h
  · split at h
    · cases h
      omega
    · cases h
      omega

theorem flatIsa_inj {c d} (hc : c % 2 ≠ 1) (hd : d % 2 ≠ 1) (h : flatIsa c = flatIsa d) :
    c = d := by
  unfold flatIsa at h
  split at h <;> split at h <;> omega

theorem flatIsa_pred {m} (hm : m % 2 = 1) : (m - 1) % 2 ≠ 1 ∧ flatIsa (m - 1) = m := by
  unfold flatIsa
  split <;> omega

theorem flatSuperclass_isa {c p} (hc : c % 2 ≠ 1) (hp : flatSuperclass c = some p) :
    p = 0 ∧ flatSuperclass (flatIsa c) = some (flatIsa p) := by
  obtain ⟨hc', rfl⟩ | ⟨_, h, _⟩ := flatSuperclass_cases hp
  · refine ⟨rfl, ?_⟩
    have hisa : flatIsa c = c + 1 := if_pos (by omega)
    unfold flatSuperclass
    rw [if_neg (by omega), if_neg (by omega)]
    rfl
  · exact absurd h hc

theorem flatSuperclass_eq_none {c} (h : flatSuperclass c = none) : c = 0 := by
  unfold flatSuperclass at h
  split at h
  · assumption
  · split at h <;> cases h

def flatDepth (c : Nat) : Nat := if c = 0 then 0 else if c = 1 ∨ c % 2 = 0 then 1 else 2

theorem flatDepth_lt {c p} (h : flatSuperclass c = some p) : flatDepth p < flatDepth c := by
  unfold flatDepth
  obtain ⟨hc, rfl⟩ | ⟨h1, h2, rfl⟩ := flatSuperclass_cases h
  · split_ifs <;> omega
  · split_ifs <;> omega

/-- Even numbers are classes and odd ones their metaclasses. Class 0 is the root,
all others are its subclasses. -/
def flatImage : Image where
  isMeta c := c % 2 = 1
  isa := flatIsa
  superclass := flatSuperclass
  ro c := ⟨if c = 0 then some [0] else none, none, none⟩
  nsObject := 0
  isSwiftObject _ := false
  nonpointerIsa := true
  isMeta_isa c := by
    have h : flatIsa c % 2 = 1 := by unfold flatIsa; split <;> omega
    exact decide_eq_true h
  isa_inj c d hc hd h := flatIsa_inj (of_decide_eq_false hc) (of_decide_eq_false hd) h
  exists_isa m hm :=
    have h := flatIsa_pred (of_decide_eq_true hm)
    ⟨m - 1, decide_eq_false h.1, h.2⟩
  superclass_isa c p hc hp := by
    obtain ⟨rfl, h⟩ := flatSuperclass_isa (of_decide_eq_false hc) hp
    exact ⟨rfl, h⟩
  superclass_isa_root c _ hp := by
    obtain rfl := flatSuperclass_eq_none hp
    rfl
  depth := flatDepth
  depth_lt _ _ h := flatDepth_lt h
  isMeta_nsObject := rfl
  superclass_nsObject := rfl

/-- The state before anything is realized; the root class has one method. -/
def flatState : State FullCache where
  superclass := flatImage.superclass
  firstSubclass _ := none
  nextSiblingClass _ := none
  firstRealizedClass := none
  realized _ := false
  initialized _ := false
  ext _ := none
  cache _ := MethodCache.empty
  isDefault _ _ := false
  method _ _ := ⟨.other 7, .code 100⟩
  fresh := 0
  swizzled _ _ := false
  unattached _ := []

theorem flatState_initial : Initial flatImage flatState :=
  ⟨rfl, rfl, fun _ => rfl, fun _ => rfl, fun _ => rfl, fun _ _ => rfl, fun _ _ => rfl, fun _ => rfl,
    fun _ _ => rfl, fun _ => rfl⟩

/-- Class 2 is realized, the root and the class are initialized, and a method of
the root is looked up in the class. -/
def flatRealized : State FullCache := (step flatImage 64 flatState (.realize 2)).get (by decide)

def flatRootReady : State FullCache :=
  (step flatImage 64 flatRealized (.setInitialized 0)).get (by decide)

def flatReady : State FullCache :=
  (step flatImage 64 flatRootReady (.setInitialized 2)).get (by decide)

def flatLooked : State FullCache :=
  (step flatImage 64 flatReady (.lookUp (.other 7) 2 ⟨true, false, false⟩)).get (by decide)

theorem flatLooked_reachable : Reachable flatImage flatState flatLooked := by
  have h₁ : Reachable flatImage flatState flatRealized :=
    .step 64 (.realize 2) .init trivial (some_get _).symm
  have h₂ : Reachable flatImage flatState flatRootReady :=
    .step 64 (.setInitialized 0) h₁
      ⟨by decide, by decide, fun p hp => absurd (hp.symm.trans (show _ = none by decide)) (by simp)⟩
      (some_get _).symm
  have h₃ : Reachable flatImage flatState flatReady := by
    refine .step 64 (.setInitialized 2) h₂ ⟨by decide, by decide, fun p hp => ?_⟩ (some_get _).symm
    obtain rfl := some.inj (hp.symm.trans (show _ = some 0 by decide))
    decide
  have hreal : flatReady.realized 2 := by decide
  exact .step 64 (.lookUp (.other 7) 2 ⟨true, false, false⟩) h₃ hreal (some_get _).symm

theorem enumerates_realized_flat : ∃ (m' : Cls → Nat) (bound : Nat),
    (∀ count, bound ≤ count → foreachRealizedClassAndMetaclass count flatLooked
      (fun _ x => (true, x + 1)) (fun _ => 0) = some m') ∧ m' 2 = 1 ∧ m' 4 = 0 := by
  have hcode : ∀ (_ : Cls) (x : Nat), (true, x + 1).1 = true := fun _ _ => rfl
  obtain ⟨⟨m', bound, hm', hd⟩, -⟩ :=
    enumerates_realized flatState_initial flatLooked_reachable hcode fun _ => 0
  exact ⟨m', bound, hm', (hd 2).1 (by decide), (hd 4).2 (by decide)⟩

theorem caches_coherent_flat :
    Initial flatImage flatState ∧ Reachable flatImage flatState flatLooked ∧
      MethodCache.find (flatLooked.cache 2) (.other 7) = some (.code 100) ∧
      Resolves flatImage flatLooked (.other 7) 2 (some (.code 100)) := by
  have hfind : MethodCache.find (flatLooked.cache 2) (.other 7) = some (.code 100) := by decide
  have hsel : ¬ (Sel.other 7).isStructor := by
    rintro (h | h)
    · exact absurd h (by decide)
    · exact absurd h (by decide)
  have h :=
    (caches_coherent flatState_initial flatLooked_reachable).1 2 (.other 7) (.code 100) hsel hfind
  exact ⟨flatState_initial, flatLooked_reachable, hfind,
    h.resolve_right fun h => absurd h.2 (by decide)⟩

end ObjcRuntime.Classes
