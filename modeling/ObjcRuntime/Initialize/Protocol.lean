import Mathlib.Data.List.Chain
import ObjcRuntime.Initialize.Sound

/-!
# ObjcRuntime.Initialize.Protocol

The `+initialize` protocol over all interleavings.

`FrameOk` is what a thread knows about the class of each of its frames; it survives the
steps of the other threads because they only touch classes of their own
(`FrameOk.evolves`). `step_spec` puts the shared invariant and the frames together for one
step, and `initialize_protocol` reads the guarantees off every reachable state.
-/

namespace ObjcRuntime.Initialize

open Function List Option Shared

variable {κ τ : Type} {superclass : κ → Option κ}

/-! ### What a thread knows -/

/-- The class that a frame is sending `+initialize` to. -/
def Frame.active : Frame κ → Option κ
  | .send cls | .body cls | .finish cls _ => some cls
  | _ => none

/-- The class of the activation. -/
def Frame.cls : Frame κ → Option κ
  | .superCheck cls | .superCall cls | .tryLock cls | .send cls | .body cls | .finish cls _
  | .testInitializing cls | .testInitialized cls | .wait cls | .ret cls _ => some cls
  | .fatal _ => none

def FrameOk (superclass : κ → Option κ) (t : τ) (g : Shared κ τ) : Frame κ → Prop
  | .superCheck _ | .superCall _ | .ret _ true => True
  | .tryLock cls => SuperOk superclass t g cls
  | .send cls => Own t g cls ∧ g.done cls = false ∧ g.sent cls = 0
  | .body cls | .finish cls _ => Own t g cls ∧ g.done cls = false
  | .testInitializing cls =>
    SuperOk superclass t g cls ∧ (g.initializing cls = true ∨ g.initialized cls = true)
  | .testInitialized cls => g.initialized cls = true
  | .wait cls => ∀ p, superclass cls = some p → g.initialized p = true
  | .ret cls false => g.initialized cls = true ∨ Own t g cls
  | .fatal _ => False

/-- A frame that waits for the one above it waits for the superclass. -/
def Above (superclass : κ → Option κ) (f f' : Frame κ) : Prop :=
  ∀ c, f' = .superCall c → superclass c = f.cls

structure ThreadOk [DecidableEq κ] (superclass : κ → Option κ) (t : τ) (g : Shared κ τ)
    (thread : Thread κ) : Prop where
  list : ListOk t g thread.list
  frames : ∀ f ∈ thread.stack, FrameOk superclass t g f
  active : (thread.stack.filterMap Frame.active).Nodup
  chain : thread.stack.IsChain (Above superclass)
  /-- A class of the thread is being sent `+initialize` until that is over. -/
  running : ∀ c, Own t g c → g.done c = false → ∃ f ∈ thread.stack, f.active = some c

theorem FrameOk.own {t} {g : Shared κ τ} {f : Frame κ} {c}
    (h : FrameOk superclass t g f) (hc : f.active = some c) : Own t g c ∧ g.done c = false := by
  cases f with
  | send cls => exact some.inj hc ▸ ⟨h.1, h.2.1⟩
  | body cls | finish cls thrown => exact some.inj hc ▸ h
  | _ => simp [Frame.active] at hc

theorem FrameOk.evolves {t u : τ} {g g' : Shared κ τ} {x : Option κ} {f : Frame κ}
    (h : FrameOk superclass t g f) (hev : Evolves u x g g')
    (hx : ∀ c, f.active = some c → x ≠ some c) : FrameOk superclass t g' f := by
  have hactive : ∀ c, f.active = some c →
      Own t g' c ∧ g'.done c = false ∧ g'.sent c = g.sent c := by
    intro c hc
    obtain ⟨hown, hdone⟩ := h.own hc
    obtain ⟨hrunning, hdone', hsent⟩ := hev.running c hown.1 hdone (hx c hc)
    exact ⟨⟨hrunning, (hev.owner c (.inl hown.1)).trans hown.2⟩, hdone', hsent⟩
  cases f with
  | superCheck cls | superCall cls => trivial
  | tryLock cls => exact SuperOk.evolves h hev
  | send cls =>
    obtain ⟨hown, hdone, hsent⟩ := hactive cls rfl
    exact ⟨hown, hdone, hsent.trans h.2.2⟩
  | body cls | finish cls thrown => exact ⟨(hactive cls rfl).1, (hactive cls rfl).2.1⟩
  | testInitializing cls =>
    refine ⟨SuperOk.evolves h.1 hev, ?_⟩
    rcases h.2 with hc | hc
    · exact hev.started cls hc
    · exact .inr (hev.initialized cls hc)
  | testInitialized cls => exact hev.initialized cls h
  | wait cls => exact fun p hp => hev.initialized p (h p hp)
  | ret cls thrown =>
    cases thrown with
    | true => trivial
    | false =>
      rcases h with hc | hc
      · exact .inl (hev.initialized cls hc)
      · exact hev.own hc
  | fatal e => exact h

/-! ### Changes of the stack -/

section Stack

variable [DecidableEq κ] {t : τ} {g : Shared κ τ} {f f' : Frame κ} {rest : List (Frame κ)}
  {list : InitializingClasses κ}

theorem ThreadOk.push {stack} (h : ThreadOk superclass t g ⟨stack, list⟩)
    (hf : FrameOk superclass t g f') (hactive : f'.active = none)
    (habove : ∀ below ∈ stack.head?, Above superclass f' below) :
    ThreadOk superclass t g ⟨f' :: stack, list⟩ where
  list := h.list
  frames := by
    intro f'' hin
    rcases mem_cons.1 hin with rfl | hin
    · exact hf
    · exact h.frames f'' hin
  active := by
    rw [filterMap_cons, hactive]
    exact h.active
  chain := isChain_cons.2 ⟨habove, h.chain⟩
  running := fun c hown hdone => by
    obtain ⟨f'', hin, hc⟩ := h.running c hown hdone
    exact ⟨f'', mem_cons_of_mem _ hin, hc⟩

variable (h : ThreadOk superclass t g ⟨f :: rest, list⟩)
include h

theorem ThreadOk.pop (hactive : f.active = none) : ThreadOk superclass t g ⟨rest, list⟩ where
  list := h.list
  frames := fun f' hin => h.frames f' (mem_cons_of_mem _ hin)
  active := h.active.sublist (List.Sublist.filterMap _ (sublist_cons_self f rest))
  chain := h.chain.tail
  running := fun c hown hdone => by
    obtain ⟨f', hin, hc⟩ := h.running c hown hdone
    rcases mem_cons.1 hin with rfl | hin
    · cases hactive.symm.trans hc
    · exact ⟨f', hin, hc⟩

theorem ThreadOk.top : FrameOk superclass t g f :=
  h.frames f mem_cons_self

theorem ThreadOk.evolves {g' x list'}
    (hev : Evolves t x g g') (hx : ∀ c, x = some c → f.active = some c) (hlist : ListOk t g' list')
    (hf : FrameOk superclass t g' f') (hactive : ((f' :: rest).filterMap Frame.active).Nodup)
    (hrunning : ∀ c, Own t g' c → g'.done c = false →
      f'.active = some c ∨ f.active ≠ some c ∧ g.initializing c ∧ g.done c = false)
    (hcls : f'.cls = f.cls) : ThreadOk superclass t g' ⟨f' :: rest, list'⟩ := by
  refine ⟨hlist, fun f'' hin => ?_, hactive, ?_, fun c hown hdone => ?_⟩
  · rcases mem_cons.1 hin with rfl | hin
    · exact hf
    · refine (h.frames f'' (mem_cons_of_mem _ hin)).evolves hev fun c hc hxc => ?_
      have hnodup := h.active
      rw [filterMap_cons, hx c hxc] at hnodup
      exact (nodup_cons.1 hnodup).1 (mem_filterMap.2 ⟨f'', hin, hc⟩)
  · have hold := h.chain
    cases rest with
    | nil => exact List.IsChain.singleton _
    | cons below rest =>
      rw [isChain_cons_cons] at hold ⊢
      refine ⟨fun c hc => ?_, hold.2⟩
      rw [hcls]
      exact hold.1 c hc
  · rcases hrunning c hown hdone with hc | ⟨hne, hold, hdone'⟩
    · exact ⟨f', mem_cons_self, hc⟩
    · have hown' : Own t g c := ⟨hold, (hev.owner c (.inl hold)).symm.trans hown.2⟩
      obtain ⟨f'', hin, hc⟩ := h.running c hown' hdone'
      rcases mem_cons.1 hin with rfl | hin
      · exact absurd hc hne
      · exact ⟨f'', mem_cons_of_mem _ hin, hc⟩

theorem ThreadOk.active_next (hactive : f'.active = f.active) :
    ((f' :: rest).filterMap Frame.active).Nodup := by
  rw [filterMap_cons, hactive, ← filterMap_cons]
  exact h.active

theorem ThreadOk.next (hf : FrameOk superclass t g f') (hactive : f'.active = f.active)
    (hcls : f'.cls = f.cls) : ThreadOk superclass t g ⟨f' :: rest, list⟩ := by
  refine h.evolves (x := none) .refl (by simp) h.list hf (h.active_next hactive) ?_ hcls
  intro c hown hdone
  by_cases hc : f.active = some c
  · exact .inl (hactive.trans hc)
  · exact .inr ⟨hc, hown.1, hdone⟩

omit h

end Stack

/-! ### One step -/

section Step

variable [DecidableEq κ] {t : τ} {g g' : Shared κ τ}

omit [DecidableEq κ] in
theorem Inv.untouched (h : Inv superclass g []) {cls} (hinitialized : g.initialized cls = false)
    (hinitializing : g.initializing cls = false) : g.done cls = false ∧ g.sent cls = 0 := by
  constructor
  · rw [← Bool.not_eq_true]
    intro hdone
    have hrunning := (h.waiting cls (h.deferred cls hdone hinitialized)).1
    rw [hinitializing] at hrunning
    cases hrunning
  · by_contra hsent
    rcases (h.sent cls).2 hsent with hc | hc
    · rw [hinitializing] at hc
      cases hc
    · rw [hinitialized] at hc
      cases hc

/-- `INITIALIZING` is set by thread `t`. -/
def Shared.take (g : Shared κ τ) (t : τ) (cls : κ) : Shared κ τ :=
  { g.setInitializing cls with owner := update g.owner cls (some t) }

theorem Inv.take (h : Inv superclass g []) {cls}
    (hinitialized : g.initialized cls = false) (hinitializing : g.initializing cls = false)
    (hsuper : SuperOk superclass t g cls) :
    Inv superclass (g.take t cls) [] ∧ Evolves t none g (g.take t cls) ∧
      Own t (g.take t cls) cls := by
  have hself : Own t (g.take t cls) cls := ⟨update_self .., update_self ..⟩
  have hsame : ∀ c, c ≠ cls → (g.take t cls).initializing c = g.initializing c ∧
      (g.take t cls).owner c = g.owner c :=
    fun c hc => ⟨update_of_ne hc _ _, update_of_ne hc _ _⟩
  have hne : ∀ c, g.initializing c ∨ g.initialized c → c ≠ cls := by
    intro c hc heq
    subst heq
    simp [hinitialized, hinitializing] at hc
  have hev : Evolves t none g (g.take t cls) := by
    refine ⟨fun _ hc => hc, fun c hc => ?_, fun c hc => (hsame c (hne c hc)).2,
      fun _ h => h, fun c hc hdone _ => ⟨?_, hdone, rfl⟩, fun u c hu => ?_⟩
    · exact .inl ((hsame c (hne c (.inl hc))).1.trans hc)
    · exact (hsame c (hne c (.inl hc))).1.trans hc
    · by_cases heq : c = cls
      · subst heq
        refine ⟨fun hc => absurd (hc.unique hself) hu, fun hc => ?_⟩
        exact absurd rfl (hne c (.inl hc.1))
      · unfold Own
        rw [(hsame c heq).1, (hsame c heq).2]
  refine ⟨⟨h.above, fun c hc => ?_, fun c hc => ?_, fun p c hpc => ?_, h.ready, fun c hc => ?_,
    h.nodup, h.deferred, fun c => ⟨(h.sent c).1, fun hsent => ?_⟩⟩, hev, hself⟩
  · by_cases heq : c = cls
    · rw [heq]
      exact hinitialized
    · exact h.exclusive c ((hsame c heq).1.symm.trans hc)
  · by_cases heq : c = cls
    · subst heq
      exact ⟨t, hself.2, hsuper.evolves hev⟩
    · obtain ⟨u, howner, hsuper'⟩ := h.owned c ((hsame c heq).1.symm.trans hc)
      exact ⟨u, (hsame c heq).2.trans howner, hsuper'.evolves hev⟩
  · obtain ⟨hsuper', hrunning⟩ := h.pending p c hpc
    exact ⟨hsuper', (hsame p (hne p (.inl hrunning))).1.trans hrunning⟩
  · obtain ⟨hrunning, hdone⟩ := h.waiting c hc
    exact ⟨(hsame c (hne c (.inl hrunning))).1.trans hrunning, hdone⟩
  · rcases (h.sent c).2 hsent with hc | hc
    · exact .inl ((hsame c (hne c (.inl hc))).1.trans hc)
    · exact .inr hc

theorem ListOk.take {list list'} (hlist : ListOk t g list)
    {cls} (hinitializing : g.initializing cls = false)
    (hset : setThisThreadIsInitializingClass list cls = .ok list') :
    ListOk t (g.take t cls) list' := by
  intro c
  rw [setThisThreadIsInitializingClass_cases hset c]
  by_cases heq : cls = c
  · subst heq
    have hzero : list.count (some cls) = 0 := by
      refine (hlist cls).2 fun hown => ?_
      cases hinitializing.symm.trans hown.1
    have hself : Own t (g.take t cls) cls := ⟨update_self .., update_self ..⟩
    rw [hzero, if_pos rfl]
    exact ⟨fun _ => rfl, fun hnot => absurd hself hnot⟩
  · have hsame : Own t (g.take t cls) c ↔ Own t g c := by
      unfold Own Shared.take Shared.setInitializing
      dsimp only
      rw [update_of_ne (Ne.symm heq), update_of_ne (Ne.symm heq)]
    rw [if_neg heq, Nat.add_zero, hsame]
    exact hlist c

/-- `+initialize` is sent. -/
def Shared.setSent (g : Shared κ τ) (cls : κ) : Shared κ τ :=
  { g with sent := update g.sent cls (g.sent cls + 1) }

theorem Inv.setSent (h : Inv superclass g []) {cls} (hrunning : g.initializing cls)
    (hsent : g.sent cls = 0) :
    Inv superclass (g.setSent cls) [] ∧ Evolves t (some cls) g (g.setSent cls) := by
  refine ⟨⟨h.above, h.exclusive, h.owned, h.pending, h.ready, h.waiting, h.nodup, h.deferred,
    fun c => ?_⟩, ⟨fun _ hc => hc, fun _ hc => .inl hc, fun _ _ => rfl, fun _ hc => hc,
    fun c hc hdone hx => ⟨hc, hdone, ?_⟩, fun _ _ _ => Iff.rfl⟩⟩
  · by_cases heq : c = cls
    · subst heq
      have hone : (g.setSent c).sent c = g.sent c + 1 := update_self ..
      rw [hone, hsent]
      exact ⟨le_refl 1, fun _ => .inl hrunning⟩
    · have hsame : (g.setSent cls).sent c = g.sent c := update_of_ne heq _ _
      rw [hsame]
      exact h.sent c
  · have hne : c ≠ cls := fun heq => hx (by rw [heq])
    exact update_of_ne hne _ _

/-- A step keeps the invariant and what its own thread knows, and it changes only classes
of its thread in a way that matters to others. -/
theorem step_spec {thread thread'} (h : Inv superclass g [])
    (ht : ThreadOk superclass t g thread) (hstep : Step superclass t g thread g' thread') :
    Inv superclass g' [] ∧ ThreadOk superclass t g' thread' ∧
      ∃ x, Evolves t x g g' ∧ ∀ c, x = some c → Own t g c := by
  -- most steps leave the shared state alone
  have hquiet : ∀ {thread'}, ThreadOk superclass t g thread' → Inv superclass g [] ∧
      ThreadOk superclass t g thread' ∧ ∃ x, Evolves t x g g ∧ ∀ c, x = some c → Own t g c :=
    fun ht' => ⟨h, ht', none, .refl, by simp⟩
  cases hstep with
  | call cls => exact hquiet (ht.push trivial rfl (by simp))
  | bodyCall cls => exact hquiet (ht.push trivial rfl (by simp [Above]))
  | superDone hsuper =>
    exact hquiet (ht.next (fun p hp => .inl (hsuper p hp)) rfl rfl)
  | superCall hsuper hnot =>
    have hbelow : ThreadOk superclass t g ⟨.superCall _ :: _, _⟩ := ht.next trivial rfl rfl
    refine hquiet (hbelow.push trivial rfl ?_)
    intro below hbelow c hc
    cases hbelow
    obtain rfl := Frame.superCall.inj hc
    exact hsuper
  | @setInitializing _ _ _ cls hinitialized hinitializing hset =>
    obtain ⟨h', hev, hown⟩ := h.take hinitialized hinitializing ht.top
    obtain ⟨hdone, hsent⟩ := h.untouched hinitialized hinitializing
    refine ⟨h', ht.evolves hev (by simp) (ht.list.take hinitializing hset)
      ⟨hown, hdone, hsent⟩ (nodup_cons.2 ⟨fun hin => ?_, (ht.pop rfl).active⟩) ?_ rfl,
      none, hev, by simp⟩
    · -- no frame has sent `+initialize` to a class that was not taken
      obtain ⟨f, hf, hc⟩ := mem_filterMap.1 hin
      have hrunning := (((ht.pop rfl).frames f hf).own hc).1.1
      cases hinitializing.symm.trans hrunning
    · intro c hc hnot
      by_cases heq : c = cls
      · exact .inl (by rw [heq]; rfl)
      · exact .inr ⟨by simp [Frame.active], (update_of_ne heq _ _).symm.trans hc.1, hnot⟩
  | setInitializingFatal hinitialized hinitializing hset =>
    have hzero := (ht.list _).2 fun hown =>
      absurd (hinitializing.symm.trans hown.1) (by simp)
    exact absurd hset (setThisThreadIsInitializingClass_ok hzero _)
  | alreadySet hset =>
    exact hquiet (ht.next ⟨ht.top, hset.symm⟩ rfl rfl)
  | @send _ _ cls =>
    obtain ⟨hown, hdone, hsent⟩ := ht.top
    obtain ⟨h', hev⟩ := h.setSent (t := t) hown.1 hsent
    refine ⟨h', ht.evolves hev (fun c hc => hc) ht.list ⟨hown, hdone⟩ (ht.active_next rfl)
      (fun c hc hnot => ?_) rfl, some cls, hev, fun c hc => ?_⟩
    · by_cases heq : c = cls
      · exact .inl (by rw [heq]; rfl)
      · exact .inr ⟨fun h => heq (some.inj h).symm, hc.1, hnot⟩
    · cases hc
      exact hown
  | bodyEnd thrown =>
    have hf : FrameOk superclass t g (.finish _ thrown) := ht.top
    exact hquiet (ht.next hf rfl rfl)
  | @finish _ _ list' _ cls thrown hfinish =>
    obtain ⟨hown, hdone⟩ := ht.top
    obtain ⟨g'', list'', hok, h', hlist, hev, hover, hold, hend⟩ :=
      lockAndFinishInitializing_spec h hown hdone ht.list
    obtain ⟨rfl, rfl⟩ := Prod.mk.inj (Except.ok.inj (hok.symm.trans hfinish))
    refine ⟨h', ht.evolves hev (fun c hc => hc) hlist ?_
      (nodup_cons.1 ht.active).2 (fun c hc hnot => .inr ⟨fun heq => ?_, hold c hc.1, ?_⟩) rfl,
      some cls, hev,
      fun c hc => ?_⟩
    · cases thrown with
      | true => trivial
      | false => exact hend
    · cases heq
      cases hover.symm.trans hnot
    · exact Bool.eq_false_iff.2 fun hset => absurd (hev.done c hset) (by rw [hnot]; simp)
    · cases hc
      exact hown
  | finishFatal hfinish =>
    obtain ⟨hown, hdone⟩ := ht.top
    obtain ⟨g'', list'', hok, -⟩ := lockAndFinishInitializing_spec h hown hdone ht.list
    cases hok.symm.trans hfinish
  | @initializingHere _ _ cls hinitializing hhere =>
    have hown : Own t g cls := by
      by_contra hnot
      have hpos := count_pos_iff.2 (contains_iff_mem.1 hhere)
      rw [(ht.list cls).2 hnot] at hpos
      cases hpos
    exact hquiet (ht.next (.inr hown) rfl rfl)
  | @initializingElsewhere _ _ cls hinitializing hhere =>
    refine hquiet (ht.next (fun p hp => ?_) rfl rfl)
    have hnot : ¬ Own t g cls := by
      intro hown
      have hone := (ht.list cls).1 hown
      have hmem := count_pos_iff.1 (by rw [hone]; exact Nat.one_pos)
      cases hhere.symm.trans (contains_iff_mem.2 hmem)
    -- the owner has the superclass initialized or is at it, and so has this thread
    obtain ⟨u, howner, hsuper⟩ := h.owned cls hinitializing
    rcases hsuper p hp with hdone | hown
    · exact hdone
    · refine (ht.top.1 p hp).resolve_right fun hown' => hnot ⟨hinitializing, ?_⟩
      rw [howner, hown.unique hown']
  | notInitializing hinitializing =>
    have hinitialized := ht.top.2.resolve_left
      fun hc => absurd (hinitializing.symm.trans hc) (by simp)
    exact hquiet (ht.next hinitialized rfl rfl)
  | initialized hinitialized | wake hinitialized =>
    exact hquiet (ht.next (.inl hinitialized) rfl rfl)
  | buggy hinitialized =>
    cases hinitialized.symm.trans ht.top
  | retOuter | retBody => exact hquiet (ht.pop rfl)
  | @retSuper _ _ cls c =>
    have habove := (isChain_cons_cons.1 ht.chain).1 c rfl
    refine hquiet ((ht.pop rfl).next (fun p hp => ?_) rfl rfl)
    obtain rfl := some.inj (habove.symm.trans hp)
    exact ht.top
  | throwSuper => exact hquiet ((ht.pop rfl).next trivial rfl rfl)

end Step

/-! ### All interleavings -/

theorem init_inv : Inv superclass (init κ τ) [] where
  above := by simp [init]
  exclusive := by simp [init]
  owned := by simp [init]
  pending := by simp [init]
  ready := by simp
  waiting := by simp [init, queued]
  nodup := by simp [init, queued]
  deferred := by simp [init]
  sent := fun _ => ⟨by simp [init], fun hc => absurd rfl hc⟩

/-- The superclasses of `c`, near and far. -/
def Superclass (superclass : κ → Option κ) (c p : κ) : Prop :=
  Relation.TransGen (fun c p => superclass c = some p) c p

theorem Inv.initialized_above {g : Shared κ τ} (h : Inv superclass g []) {c p}
    (hc : g.initialized c) (hp : Superclass superclass c p) : g.initialized p := by
  induction hp with
  | single hp => exact h.above _ _ hc hp
  | tail _ hp ih => exact h.above _ _ ih hp

theorem Inv.own_above {g : Shared κ τ} {t} (h : Inv superclass g []) {c p}
    (hc : Own t g c) (hp : Superclass superclass c p) : g.initialized p ∨ Own t g p := by
  have hsuper : ∀ {c}, Own t g c → SuperOk superclass t g c := by
    intro c hc
    obtain ⟨u, howner, hsuper⟩ := h.owned c hc.1
    obtain rfl := some.inj (howner.symm.trans hc.2)
    exact hsuper
  induction hp with
  | single hp => exact hsuper hc _ hp
  | tail _ hp ih =>
    rcases ih with hdone | hown
    · exact .inl (h.above _ _ hdone hp)
    · exact hsuper hown _ hp

section Runs

variable [DecidableEq κ]

theorem ListOk.here {g : Shared κ τ} {t : τ} {list : InitializingClasses κ} (h : ListOk t g list)
    {c : κ} (hc : Own t g c) : thisThreadIsInitializingClass list c :=
  contains_iff_mem.2 (count_pos_iff.1 (by rw [(h c).1 hc]; exact Nat.one_pos))

variable [DecidableEq τ]

theorem reachable_inv {s : Lib.Threads τ (Shared κ τ) (Thread κ)} (hs : Reachable superclass s) :
    Lib.Holds (fun g => Inv superclass g []) (fun t g thread => ThreadOk superclass t g thread)
      s := by
  refine Lib.run_preserves (fun s s' h hstep => ?_)
    ⟨init_inv, fun t => ⟨fun c => ⟨?_, ?_⟩, ?_, ?_, ?_, ?_⟩⟩ hs
  · refine Lib.Interleave.preserves ?_ ?_ h hstep
    · intro t g thread g' thread' hg ht hstep
      obtain ⟨hg', ht', -⟩ := step_spec hg ht hstep
      exact ⟨hg', ht'⟩
    · intro t u g thread g' thread' other hu hg ht hother hstep
      obtain ⟨-, -, x, hev, hx⟩ := step_spec hg ht hstep
      refine ⟨fun c => ?_, fun f hf => ?_, hother.active, hother.chain, fun c hown hdone => ?_⟩
      · rw [hev.others u c hu]
        exact hother.list c
      · refine (hother.frames f hf).evolves hev fun c hc hxc => hu ?_
        exact (((hother.frames f hf).own hc).1).unique (hx c hxc)
      · refine hother.running c ((hev.others u c hu).1 hown) (Bool.eq_false_iff.2 fun hset => ?_)
        exact absurd (hev.done c hset) (by rw [hdone]; simp)
  · exact fun hown => absurd hown.1 (by simp [init])
  · exact fun _ => rfl
  · simp
  · simp
  · exact List.IsChain.nil
  · exact fun c hown => absurd hown.1 (by simp [init])

/-- **The `+initialize` protocol.** In every reachable state: `+initialize` has been sent
at most once to each class, and to one in progress only with every superclass
`INITIALIZED` or being initialized by the same thread; what is above an `INITIALIZED`
class is `INITIALIZED`, and no class has both flags; `initializeNonMetaClass(cls)`
returns with `cls` `INITIALIZED` or being initialized by the calling thread; a thread
blocks only on a class whose superclasses are `INITIALIZED`; a class whose `+initialize`
has been sent and is no longer in progress on any thread is `INITIALIZED` exactly if all
its superclasses are, so it becomes so in the step in which the last of them does; and no
fatal error has been reached. -/
theorem initialize_protocol {s : Lib.Threads τ (Shared κ τ) (Thread κ)}
    (hs : Reachable superclass s) :
    (∀ c, s.shared.sent c ≤ 1) ∧
    (∀ t cls, .send cls ∈ (s.pcs t).stack ∨ .body cls ∈ (s.pcs t).stack →
      ∀ p, Superclass superclass cls p → s.shared.initialized p = true ∨
        (s.shared.initializing p = true ∧
          thisThreadIsInitializingClass (s.pcs t).list p = true)) ∧
    (∀ c p, s.shared.initialized c = true → Superclass superclass c p →
      s.shared.initialized p = true) ∧
    (∀ c, ¬ (s.shared.initializing c = true ∧ s.shared.initialized c = true)) ∧
    (∀ t cls, .ret cls false ∈ (s.pcs t).stack → s.shared.initialized cls = true ∨
      (s.shared.initializing cls = true ∧
        thisThreadIsInitializingClass (s.pcs t).list cls = true)) ∧
    (∀ t cls, .wait cls ∈ (s.pcs t).stack → ∀ p, Superclass superclass cls p →
      s.shared.initialized p = true) ∧
    (∀ c, s.shared.sent c = 1 → (∀ t, ∀ f ∈ (s.pcs t).stack, f.active ≠ some c) →
      (s.shared.initialized c = true ↔
        ∀ p, Superclass superclass c p → s.shared.initialized p = true)) ∧
    (∀ t e, .fatal e ∉ (s.pcs t).stack) := by
  obtain ⟨h, hthreads⟩ := reachable_inv hs
  refine ⟨fun c => (h.sent c).1, fun t cls hin p hp => ?_, fun c p => h.initialized_above,
    fun c hc => ?_, fun t cls hin => ?_, fun t cls hin p hp => ?_,
    fun c hsent hidle => ?_, fun t e hin => (hthreads t).frames _ hin⟩
  · have hown : Own t s.shared cls := by
      rcases hin with hin | hin
      · exact ((hthreads t).frames _ hin).1
      · exact ((hthreads t).frames _ hin).1
    rcases h.own_above hown hp with hinitialized | hown
    · exact .inl hinitialized
    · exact .inr ⟨hown.1, (hthreads t).list.here hown⟩
  · rw [h.exclusive c hc.1] at hc
    exact absurd hc.2 (by simp)
  · rcases (hthreads t).frames _ hin with hinitialized | hown
    · exact .inl hinitialized
    · exact .inr ⟨hown.1, (hthreads t).list.here hown⟩
  · have hsuper := (hthreads t).frames _ hin
    -- the superclass is initialized, and so is what is above it
    rcases Relation.TransGen.head'_iff.1 hp with ⟨q, hq, hqp⟩
    rcases Relation.reflTransGen_iff_eq_or_transGen.1 hqp with heq | hqp
    · rw [heq]
      exact hsuper q hq
    · exact h.initialized_above (hsuper q hq) hqp
  · refine ⟨fun hc p => h.initialized_above hc, fun hall => ?_⟩
    by_contra hnot
    have hrunning := ((h.sent c).2 (by rw [hsent]; simp)).resolve_right hnot
    obtain ⟨t, howner, -⟩ := h.owned c hrunning
    have hdone : s.shared.done c := by
      by_contra hnotdone
      obtain ⟨f, hf, hc⟩ := (hthreads t).running c ⟨hrunning, howner⟩ (by simpa using hnotdone)
      exact hidle t f hf hc
    have hin := h.deferred c hdone (Bool.eq_false_iff.2 hnot)
    obtain ⟨⟨p, c'⟩, hpc, rfl⟩ := List.mem_map.1 hin
    obtain ⟨hsuper, hrunning⟩ := h.pending p c' hpc
    have hinitialized := hall p (.single hsuper)
    cases (h.exclusive p hrunning).symm.trans hinitialized

end Runs

theorem Reachable.solo [DecidableEq κ] {g g' thread thread'}
    (h : Reachable superclass ⟨g, fun _ => thread⟩)
    (hstep : Step superclass () g thread g' thread') :
    Reachable superclass ⟨g', fun _ => thread'⟩ :=
  h.tail (.solo hstep)

/-- The `+initialize` of a class calls for its subclass, whose `+initialize` is over
first: it is marked in the step that marks the class. -/
theorem initialize_protocol_nested :
    ∃ s s' : Lib.Threads Unit (Shared Bool Unit) (Thread Bool),
      Reachable (fun c => if c then some false else none) s ∧
      s.shared.sent true = 1 ∧ s.shared.initialized true = false ∧
      Lib.Interleave (Step fun c => if c then some false else none) s s' ∧
      s'.shared.initialized false = true ∧ s'.shared.initialized true = true := by
  have hsuper : ∀ c, (fun c => if c then some false else none) false = some c →
      (Shared.init Bool Unit).initialized c = true := by simp
  have hinit : Reachable (fun c => if c then some false else none)
      ⟨Shared.init Bool Unit, fun _ => ⟨[], []⟩⟩ := .refl
  have hbody := ((hinit.solo (.call false)).solo (.superDone hsuper)).solo
    (.setInitializing rfl rfl rfl) |>.solo .send
  have hsubclass := (hbody.solo (.bodyCall true)).solo (.superCall rfl rfl)
  have hreturned := ((hsubclass.solo (.superDone hsuper)).solo (.alreadySet (.inr rfl))).solo
    (.initializingHere rfl rfl)
  have hsend := (hreturned.solo .retSuper).solo (.setInitializing rfl rfl rfl)
  have hover := ((hsend.solo .send).solo (.bodyEnd false)).solo (.finish rfl)
  have hrun := (hover.solo .retBody).solo (.bodyEnd false)
  obtain ⟨hinv, hthread⟩ := reachable_inv hrun
  obtain ⟨hown, hdone⟩ := (hthread ()).top
  obtain ⟨g', list', hfinish, -⟩ := lockAndFinishInitializing_spec hinv hown hdone (hthread ()).list
  have hmarked := (initialize_protocol (hrun.solo (.finish hfinish))).2.2.2.2.2.2.1
  have hidle : ∀ c, Unit → ∀ f ∈ [.ret false false], Frame.active f ≠ some c := by
    simp [Frame.active]
  have hroot : ∀ p, ¬ Superclass (fun c => if c then some false else none) false p := by
    intro p hp
    obtain ⟨q, hq, -⟩ := Relation.TransGen.head'_iff.1 hp
    cases hq
  have hfalse := (hmarked false (by rw [finishInitializing_sent hfinish]; rfl) (hidle false)).2
    fun p hp => absurd hp (hroot p)
  refine ⟨_, _, hrun, rfl, rfl, .solo (.finish hfinish), hfalse, ?_⟩
  refine (hmarked true (by rw [finishInitializing_sent hfinish]; rfl) (hidle true)).2 fun p hp => ?_
  obtain ⟨q, hq, hqp⟩ := Relation.TransGen.head'_iff.1 hp
  cases hq
  rcases Relation.reflTransGen_iff_eq_or_transGen.1 hqp with rfl | hqp
  · exact hfalse
  · exact absurd hqp (hroot p)

end ObjcRuntime.Initialize
