import ObjcRuntime.Initialize.Machine

/-!
# ObjcRuntime.Initialize.Sound

The invariant of the `+initialize` protocol.

The flags of a class go from nothing to `INITIALIZING` to `INITIALIZED`, and the
thread that sets the first keeps the class until the second. The heart of the
invariant is `Inv.owned`: the superclass of a class that a thread is initializing is
`INITIALIZED`, or the same thread is initializing it. A class whose `+initialize` is
over waits in the pending map below its superclass, so it is this thread that
finishes both.

`Inv g work` is the invariant in the middle of `_finishInitializing`, when the classes
in `work` are still to be marked. `Evolves` says what a step of one thread can do to
a class, in the terms in which the frames of all threads speak about classes
(`FrameOk.evolves`).
-/

namespace ObjcRuntime.Initialize

open Function List Prod Shared

variable {κ τ : Type}

/-! ### The list of a thread -/

section List

variable [DecidableEq κ]

theorem count_fetchInitializingClassList (list) (c : κ) :
    (fetchInitializingClassList list).count (some c) = list.count (some c) := by
  cases list with
  | nil | cons slot list => simp [fetchInitializingClassList]

theorem count_storeClass (list) (cls c : κ) :
    (storeClass list cls).count (some c) =
      list.count (some c) + if cls = c then 1 else 0 := by
  unfold storeClass
  split
  next hfree =>
    have hlt := idxOf_lt_length_iff.2 (contains_iff_mem.1 hfree)
    rw [count_set hlt, getElem_idxOf]
    simp
  · rw [count_append, count_cons, count_replicate]
    simp

theorem setThisThreadIsInitializingClass_cases {list list' cls}
    (h : setThisThreadIsInitializingClass list cls = .ok list') (c : κ) :
    list'.count (some c) = list.count (some c) + if cls = c then 1 else 0 := by
  unfold setThisThreadIsInitializingClass at h
  split at h
  · cases h
  · rw [← Except.ok.inj h, count_storeClass, count_fetchInitializingClassList]

theorem setThisThreadIsInitializingClass_ok {list : InitializingClasses κ} {cls}
    (h : list.count (some cls) = 0) (e) : setThisThreadIsInitializingClass list cls ≠ .error e := by
  have hnot : ¬ (fetchInitializingClassList list).contains (some cls) := by
    rw [contains_iff_mem, ← count_pos_iff, count_fetchInitializingClassList, h]
    simp
  unfold setThisThreadIsInitializingClass
  rw [if_neg hnot]
  simp

theorem setThisThreadIsNotInitializingClass_spec {list : InitializingClasses κ} {cls}
    (h : list.count (some cls) = 1) :
    ∃ list', setThisThreadIsNotInitializingClass list cls = .ok list' ∧
      ∀ c, list'.count (some c) = if cls = c then 0 else list.count (some c) := by
  have hmem : some cls ∈ list := count_pos_iff.1 (by rw [h]; exact Nat.one_pos)
  refine ⟨list.set (list.idxOf (some cls)) none, ?_, fun c => ?_⟩
  · unfold setThisThreadIsNotInitializingClass
    rw [if_pos (contains_iff_mem.2 hmem)]
  · rw [count_set (idxOf_lt_length_iff.2 hmem), getElem_idxOf]
    by_cases hc : cls = c
    · subst hc
      simp [h]
    · simp [hc]

end List

/-! ### The invariant -/

/-- Thread `t` is initializing the class. -/
def Own (t : τ) (g : Shared κ τ) (c : κ) : Prop :=
  g.initializing c = true ∧ g.owner c = some t

theorem Own.unique {t u : τ} {g : Shared κ τ} {c : κ} (h : Own t g c) (h' : Own u g c) : t = u :=
  Option.some.inj (h.2.symm.trans h'.2)

/-- The superclass is initialized, or thread `t` is initializing it. -/
def SuperOk (superclass : κ → Option κ) (t : τ) (g : Shared κ τ) (c : κ) : Prop :=
  ∀ p, superclass c = some p → g.initialized p = true ∨ Own t g p

/-- The classes in the pending map. -/
def Shared.queued (g : Shared κ τ) : List κ := g.pending.map Prod.snd

/-- The invariant of what the threads share, with the classes in `work` about to be
marked `INITIALIZED`. -/
structure Inv (superclass : κ → Option κ) (g : Shared κ τ) (work : List κ) : Prop where
  above : ∀ c p, g.initialized c = true → superclass c = some p → g.initialized p = true
  exclusive : ∀ c, g.initializing c = true → g.initialized c = false
  owned : ∀ c, g.initializing c = true → ∃ t, g.owner c = some t ∧ SuperOk superclass t g c
  pending : ∀ p c, (p, c) ∈ g.pending → superclass c = some p ∧ g.initializing p = true
  ready : ∀ c, c ∈ work → ∀ p, superclass c = some p → g.initialized p = true
  waiting : ∀ c, c ∈ work ++ g.queued → g.initializing c = true ∧ g.done c = true
  nodup : (work ++ g.queued).Nodup
  deferred : ∀ c, g.done c = true → g.initialized c = false → c ∈ work ++ g.queued
  sent : ∀ c, g.sent c ≤ 1 ∧ (g.sent c ≠ 0 → g.initializing c = true ∨ g.initialized c = true)

/-- The list of thread `t` holds the classes it is initializing, once each. -/
def ListOk [DecidableEq κ] (t : τ) (g : Shared κ τ) (list : InitializingClasses κ) : Prop :=
  ∀ c, (Own t g c → list.count (some c) = 1) ∧ (¬ Own t g c → list.count (some c) = 0)

/-- What a step of thread `t` does to a class. Only `x` may be sent `+initialize` or
be done with it. -/
structure Evolves (t : τ) (x : Option κ) (g g' : Shared κ τ) : Prop where
  initialized : ∀ c, g.initialized c = true → g'.initialized c = true
  started : ∀ c, g.initializing c = true → g'.initializing c = true ∨ g'.initialized c = true
  owner : ∀ c, g.initializing c = true ∨ g.initialized c = true → g'.owner c = g.owner c
  done : ∀ c, g.done c = true → g'.done c = true
  running : ∀ c, g.initializing c = true → g.done c = false → x ≠ some c →
    g'.initializing c = true ∧ g'.done c = false ∧ g'.sent c = g.sent c
  others : ∀ u c, u ≠ t → (Own u g' c ↔ Own u g c)

namespace Evolves

variable {t : τ} {x : Option κ} {g g' g'' : Shared κ τ}

theorem refl : Evolves t x g g where
  initialized := fun _ h => h
  started := fun _ h => .inl h
  owner := fun _ _ => rfl
  done := fun _ h => h
  running := fun _ h hdone _ => ⟨h, hdone, rfl⟩
  others := fun _ _ _ => Iff.rfl

theorem own {u c} (h : Evolves t x g g') (hown : Own u g c) : g'.initialized c ∨ Own u g' c := by
  rcases h.started c hown.1 with hstill | hdone
  · exact .inr ⟨hstill, (h.owner c (.inl hown.1)).trans hown.2⟩
  · exact .inl hdone

theorem trans (h : Evolves t x g g') (h' : Evolves t none g' g'') : Evolves t x g g'' where
  initialized := fun c hc => h'.initialized c (h.initialized c hc)
  started := fun c hc => by
    rcases h.started c hc with hstill | hdone
    · exact h'.started c hstill
    · exact .inr (h'.initialized c hdone)
  owner := fun c hc => by
    refine (h'.owner c ?_).trans (h.owner c hc)
    rcases hc with hc | hc
    · exact h.started c hc
    · exact .inr (h.initialized c hc)
  done := fun c hc => h'.done c (h.done c hc)
  running := fun c hc hdone hx => by
    obtain ⟨hc', hdone', hsent⟩ := h.running c hc hdone hx
    obtain ⟨hc'', hdone'', hsent'⟩ := h'.running c hc' hdone' (by simp)
    exact ⟨hc'', hdone'', hsent'.trans hsent⟩
  others := fun u c hu => (h'.others u c hu).trans (h.others u c hu)

end Evolves

theorem SuperOk.evolves {superclass : κ → Option κ} {t u : τ} {x : Option κ} {g g' : Shared κ τ}
    {c : κ} (h : SuperOk superclass t g c) (hev : Evolves u x g g') :
    SuperOk superclass t g' c := by
  intro p hp
  rcases h p hp with hdone | hown
  · exact .inl (hev.initialized p hdone)
  · exact hev.own hown

/-! ### Finishing -/

section Finish

variable [DecidableEq κ] {superclass : κ → Option κ} {g : Shared κ τ}

theorem mem_pendingUnder {cls c} : c ∈ g.pendingUnder cls ↔ (cls, c) ∈ g.pending := by
  unfold pendingUnder
  simp

theorem mem_erasePending {cls p c} :
    (p, c) ∈ (g.erasePending cls).pending ↔ (p, c) ∈ g.pending ∧ p ≠ cls := by
  unfold erasePending
  simp only [mem_filter, ne_eq, decide_not, Bool.not_eq_true', decide_eq_false_iff_not]

theorem perm_queued (cls : κ) :
    (g.pendingUnder cls ++ (g.erasePending cls).queued).Perm g.queued := by
  unfold pendingUnder queued erasePending
  rw [← map_append]
  refine List.Perm.map _ ?_
  have hperm := filter_append_perm (fun p => decide (p.1 = cls)) g.pending
  simpa only [ne_eq, decide_not] using hperm

theorem setInitialized_self (g : Shared κ τ) (cls : κ) :
    (g.setInitialized cls).initialized cls ∧
      (g.setInitialized cls).initializing cls = false :=
  ⟨update_self .., update_self ..⟩

theorem setInitialized_of_ne {c d} (h : c ≠ d) :
    (g.setInitialized d).initialized c = g.initialized c ∧
      (g.setInitialized d).initializing c = g.initializing c :=
  ⟨update_of_ne h _ _, update_of_ne h _ _⟩

theorem Inv.mark {cls rest} (h : Inv superclass g (cls :: rest)) :
    Inv superclass ((g.setInitialized cls).erasePending cls)
      ((g.setInitialized cls).pendingUnder cls ++ rest) := by
  have hperm : ((g.setInitialized cls).pendingUnder cls ++ rest ++
      ((g.setInitialized cls).erasePending cls).queued).Perm (rest ++ g.queued) := by
    have hq : ((g.setInitialized cls).pendingUnder cls ++
      ((g.setInitialized cls).erasePending cls).queued).Perm g.queued := perm_queued cls
    refine List.Perm.trans ?_ (hq.append_left rest)
    rw [← append_assoc]
    exact List.perm_append_comm.append_right _
  have hnodup := h.nodup
  rw [cons_append, nodup_cons] at hnodup
  have hinit := fun c => setInitialized_of_ne (g := g) (c := c) (d := cls)
  have hself := setInitialized_self g cls
  have hmono : ∀ c, g.initialized c → (g.setInitialized cls).initialized c := by
    intro c hc
    by_cases heq : c = cls
    · rw [heq]
      exact hself.1
    · rw [(hinit c heq).1]
      exact hc
  -- what is not yet initialized afterwards is another class
  have hne : ∀ c, (g.setInitialized cls).initialized c = false ∨
      (g.setInitialized cls).initializing c → c ≠ cls := by
    intro c hc heq
    subst heq
    simp [hself] at hc
  refine ⟨fun c p hc hp => ?_, fun c hc => ?_, fun c hc => ?_, fun p c hpc => ?_,
    fun c hc p hp => ?_,
    fun c hc => ?_, hperm.nodup_iff.2 hnodup.2, fun c hdone hc => ?_, fun c => ?_⟩
  · by_cases heq : c = cls
    · subst heq
      exact hmono p (h.ready c (by simp) p hp)
    · exact hmono p (h.above c p ((hinit c heq).1.symm.trans hc) hp)
  · have heq := hne c (.inr hc)
    exact (hinit c heq).1.trans (h.exclusive c ((hinit c heq).2.symm.trans hc))
  · have heq := hne c (.inr hc)
    obtain ⟨t, howner, hsuper⟩ := h.owned c ((hinit c heq).2.symm.trans hc)
    refine ⟨t, howner, fun p hp => ?_⟩
    by_cases hpc : p = cls
    · subst hpc
      exact .inl hself.1
    · rcases hsuper p hp with hdone | hown
      · exact .inl (hmono p hdone)
      · exact .inr ⟨(hinit p hpc).2.trans hown.1, hown.2⟩
  · obtain ⟨hin, hp⟩ := mem_erasePending.1 hpc
    obtain ⟨hsuper, hrunning⟩ := h.pending p c hin
    exact ⟨hsuper, (hinit p hp).2.trans hrunning⟩
  · rcases mem_append.1 hc with hc | hc
    · have hsuper := (h.pending cls c (mem_pendingUnder.1 hc)).1
      rw [hsuper] at hp
      cases hp
      exact hself.1
    · exact hmono p (h.ready c (mem_cons_of_mem _ hc) p hp)
  · have hin := hperm.mem_iff.1 hc
    have heq : c ≠ cls := fun heq => hnodup.1 (heq ▸ hin)
    obtain ⟨hrunning, hdone⟩ := h.waiting c (mem_cons_of_mem _ hin)
    exact ⟨(hinit c heq).2.trans hrunning, hdone⟩
  · have heq := hne c (.inl hc)
    have hin := h.deferred c hdone ((hinit c heq).1.symm.trans hc)
    rcases mem_cons.1 hin with hcls | hin
    · exact absurd hcls heq
    · exact hperm.mem_iff.2 hin
  · refine ⟨(h.sent c).1, fun hsent => ?_⟩
    by_cases heq : c = cls
    · subst heq
      exact .inr hself.1
    · rcases (h.sent c).2 hsent with hc | hc
      · exact .inl ((hinit c heq).2.trans hc)
      · exact .inr (hmono c hc)

theorem evolves_mark {t cls} (hown : Own t g cls) (hdone : g.done cls) :
    Evolves t none g ((g.setInitialized cls).erasePending cls) := by
  have hinit := fun c => setInitialized_of_ne (g := g) (c := c) (d := cls)
  have hself := setInitialized_self g cls
  refine ⟨fun c hc => ?_, fun c hc => ?_, fun _ _ => rfl, fun _ h => h, fun c hc hnot _ => ?_,
    fun u c hu => ?_⟩
  · by_cases heq : c = cls
    · subst heq
      exact hself.1
    · exact (hinit c heq).1.trans hc
  · by_cases heq : c = cls
    · subst heq
      exact .inr hself.1
    · exact .inl ((hinit c heq).2.trans hc)
  · have heq : c ≠ cls := by
      intro heq
      rw [heq, hdone] at hnot
      cases hnot
    exact ⟨(hinit c heq).2.trans hc, hnot, rfl⟩
  · by_cases heq : c = cls
    · subst heq
      refine ⟨fun hc => ?_, fun hc => absurd (hc.unique hown) hu⟩
      cases hself.2.symm.trans hc.1
    · show (g.setInitialized cls).initializing c ∧ _ ↔ _
      rw [(hinit c heq).2]
      rfl

omit [DecidableEq κ] in
/-- A class waits for a superclass of the same thread. -/
theorem Inv.owner_pending {t work} (h : Inv superclass g work) {p c}
    (hpc : (p, c) ∈ g.pending) (hp : Own t g p) : g.owner c = some t := by
  have hqueued : c ∈ g.queued := List.mem_map_of_mem hpc
  obtain ⟨u, howner, hsuper⟩ := h.owned c (h.waiting c (mem_append_right _ hqueued)).1
  rcases hsuper p (h.pending p c hpc).1 with hdone | hown
  · rw [h.exclusive p hp.1] at hdone
    cases hdone
  · rw [howner, hown.unique hp]

theorem finishInitializing_sent {list work} {r : Shared κ τ × InitializingClasses κ}
    (h : finishInitializing g list work = .ok r) : r.1.sent = g.sent := by
  fun_induction finishInitializing g list work with
  | case1 => cases h; rfl
  | case2 => cases h
  | case3 _ _ _ _ _ _ ih => exact ih h

theorem finishInitializing_spec {t} (list) (work) :
    Inv superclass g work → (∀ c ∈ work, g.owner c = some t) → ListOk t g list →
    ∃ g' list', finishInitializing g list work = .ok (g', list') ∧ Inv superclass g' [] ∧
      ListOk t g' list' ∧ Evolves t none g g' ∧ (∀ c, g'.initializing c → g.initializing c) ∧
      ∀ c ∈ work, g'.initialized c := by
  fun_induction finishInitializing g list work with
  | case1 g list => exact fun h _ hlist => ⟨g, list, rfl, h, hlist, .refl, fun _ hc => hc, by simp⟩
  | case2 g list cls rest e herror =>
    intro h hown hlist
    have hcls : Own t g cls := ⟨(h.waiting cls (by simp)).1, hown cls (by simp)⟩
    obtain ⟨list', hok, -⟩ := setThisThreadIsNotInitializingClass_spec ((hlist cls).1 hcls)
    rw [hok] at herror
    cases herror
  | case3 g list cls rest list' hok ih =>
    intro h hown hlist
    have hcls : Own t g cls := ⟨(h.waiting cls (by simp)).1, hown cls (by simp)⟩
    obtain ⟨list'', hok', hcount⟩ := setThisThreadIsNotInitializingClass_spec ((hlist cls).1 hcls)
    obtain rfl : list' = list'' := Except.ok.inj (hok.symm.trans hok')
    have hev := evolves_mark hcls (h.waiting cls (by simp)).2
    have hmarked := (setInitialized_self g cls).1
    have hown' : ∀ c ∈ (g.setInitialized cls).pendingUnder cls ++ rest, g.owner c = some t := by
      intro c hc
      rcases mem_append.1 hc with hc | hc
      · exact h.owner_pending (mem_pendingUnder.1 hc) hcls
      · exact hown c (mem_cons_of_mem _ hc)
    have hlist' : ListOk t ((g.setInitialized cls).erasePending cls) list' := by
      intro c
      rw [hcount c]
      by_cases heq : cls = c
      · subst heq
        refine ⟨fun hc => absurd ((setInitialized_self g cls).2.symm.trans hc.1) (by simp), ?_⟩
        exact fun _ => if_pos rfl
      · have hsame : Own t ((g.setInitialized cls).erasePending cls) c ↔ Own t g c := by
          show (g.setInitialized cls).initializing c ∧ _ ↔ _
          rw [(setInitialized_of_ne (Ne.symm heq)).2]
          rfl
        rw [if_neg heq, hsame]
        exact hlist c
    obtain ⟨g', list'', hfinish, h', hlist'', hev', hold, hall⟩ := ih h.mark hown' hlist'
    refine ⟨g', list'', hfinish, h', hlist'', hev.trans hev', fun c hc => ?_, fun c hc => ?_⟩
    · have hstill := hold c hc
      by_cases heq : c = cls
      · cases (setInitialized_self g cls).2.symm.trans (heq ▸ hstill)
      · exact (setInitialized_of_ne heq).2.symm.trans hstill
    · rcases mem_cons.1 hc with rfl | hc
      · exact hev'.initialized c hmarked
      · exact hall c (mem_append_right _ hc)

/-- The `+initialize` of `cls` is over. -/
def Shared.setDone (g : Shared κ τ) (cls : κ) : Shared κ τ :=
  { g with done := update g.done cls true }

theorem done_setDone {cls c} (h : (g.setDone cls).done c) : c = cls ∨ g.done c := by
  by_cases heq : c = cls
  · exact .inl heq
  · exact .inr ((update_of_ne heq _ _).symm.trans h)

theorem setDone_done {cls c} (h : c = cls ∨ g.done c) : (g.setDone cls).done c := by
  by_cases heq : c = cls
  · subst heq
    exact update_self ..
  · exact (update_of_ne heq _ _).trans (h.resolve_left heq)

theorem evolves_setDone {t cls} : Evolves t (some cls) g (g.setDone cls) where
  initialized := fun _ h => h
  started := fun _ h => .inl h
  owner := fun _ _ => rfl
  done := fun _ h => setDone_done (.inr h)
  running := fun c h hdone hx => by
    have hne : c ≠ cls := fun heq => hx (by rw [heq])
    exact ⟨h, (update_of_ne hne _ _).trans hdone, rfl⟩
  others := fun _ _ _ => Iff.rfl

/-- A class whose `+initialize` is over is marked right away or waits below its
superclass; `queue` is what the pending map gains. -/
theorem Inv.setDone {cls} (h : Inv superclass g []) (hrunning : g.initializing cls)
    (hdone : g.done cls = false) (work) (queue) (hwhere : work ++ queue.map snd = [cls])
    (hready : cls ∈ work → ∀ p, superclass cls = some p → g.initialized p)
    (hpending : ∀ p c, (p, c) ∈ queue → superclass c = some p ∧ g.initializing p) :
    Inv superclass { g.setDone cls with pending := queue ++ g.pending } work := by
  have hqueued : work ++ (queue ++ g.pending).map snd = cls :: g.queued := by
    rw [map_append, ← append_assoc, hwhere]
    rfl
  have hfresh : cls ∉ g.queued := by
    intro hin
    rw [(h.waiting cls (mem_append_right _ hin)).2] at hdone
    cases hdone
  have hwork : ∀ c ∈ work, c = cls := by
    intro c hc
    have hin : c ∈ work ++ queue.map snd := mem_append_left _ hc
    rw [hwhere] at hin
    exact mem_singleton.1 hin
  refine ⟨h.above, h.exclusive, h.owned, fun p c hpc => ?_, fun c hc => ?_, fun c hc => ?_, ?_,
    fun c hc hinit => ?_, h.sent⟩
  · rcases mem_append.1 hpc with hpc | hpc
    · exact hpending p c hpc
    · exact h.pending p c hpc
  · obtain rfl := hwork c hc
    exact hready hc
  · rw [queued, hqueued] at hc
    rcases mem_cons.1 hc with rfl | hc
    · exact ⟨hrunning, setDone_done (.inl rfl)⟩
    · obtain ⟨hc', hdone'⟩ := h.waiting c hc
      exact ⟨hc', setDone_done (.inr hdone')⟩
  · rw [queued, hqueued]
    exact nodup_cons.2 ⟨hfresh, h.nodup⟩
  · rw [queued, hqueued]
    rcases done_setDone hc with rfl | hc
    · exact mem_cons_self
    · exact mem_cons_of_mem _ (h.deferred c hc hinit)

/-- `lockAndFinishInitializing` goes through without an error, and takes no class. -/
theorem lockAndFinishInitializing_spec {t cls list} (h : Inv superclass g []) (hown : Own t g cls)
    (hdone : g.done cls = false) (hlist : ListOk t g list) :
    ∃ g' list', lockAndFinishInitializing (g.setDone cls) list cls (superclass cls) =
        .ok (g', list') ∧ Inv superclass g' [] ∧ ListOk t g' list' ∧ Evolves t (some cls) g g' ∧
      g'.done cls ∧ (∀ c, g'.initializing c → g.initializing c) ∧
      (g'.initialized cls ∨ Own t g' cls) := by
  have hfinish : (∀ p, superclass cls = some p → g.initialized p) →
      ∃ g' list', finishInitializing (g.setDone cls) list [cls] = .ok (g', list') ∧
        Inv superclass g' [] ∧ ListOk t g' list' ∧ Evolves t (some cls) g g' ∧
        g'.done cls ∧ (∀ c, g'.initializing c → g.initializing c) ∧
        (g'.initialized cls ∨ Own t g' cls) := by
    intro hsuper
    have hmiddle : Inv superclass (g.setDone cls) [cls] :=
      h.setDone hown.1 hdone [cls] [] rfl (fun _ => hsuper) (by simp)
    have howner : ∀ c ∈ [cls], (g.setDone cls).owner c = some t := by
      intro c hc
      rw [mem_singleton.1 hc]
      exact hown.2
    obtain ⟨g', list', hfinish, h', hlist', hev, hold, hall⟩ :=
      finishInitializing_spec list [cls] hmiddle howner hlist
    exact ⟨g', list', hfinish, h', hlist', evolves_setDone.trans hev,
      hev.done cls (setDone_done (.inl rfl)), hold, .inl (hall cls (by simp))⟩
  unfold lockAndFinishInitializing
  cases hsuper : superclass cls with
  | none => exact hfinish (by simp [hsuper])
  | some p =>
    dsimp only
    split
    next hp =>
      refine hfinish fun q hq => ?_
      obtain rfl := Option.some.inj (hsuper.symm.trans hq)
      exact hp
    next hp =>
      obtain ⟨u, howner, hsuperOk⟩ := h.owned cls hown.1
      have hrunning : g.initializing p := ((hsuperOk p hsuper).resolve_left hp).1
      have h' : Inv superclass (finishInitializingAfter (g.setDone cls) cls p) [] :=
        h.setDone hown.1 hdone [] [(p, cls)] rfl (by simp) (by
          intro q c hq
          obtain ⟨rfl, rfl⟩ := mk.inj (mem_singleton.1 hq)
          exact ⟨hsuper, hrunning⟩)
      have hset : Evolves t (some cls) g (g.setDone cls) := evolves_setDone
      have hev : Evolves t (some cls) g (finishInitializingAfter (g.setDone cls) cls p) :=
        ⟨hset.initialized, hset.started, hset.owner, hset.done, hset.running, hset.others⟩
      exact ⟨_, list, rfl, h', hlist, hev, setDone_done (.inl rfl), fun _ hc => hc, .inr hown⟩

end Finish

end ObjcRuntime.Initialize
