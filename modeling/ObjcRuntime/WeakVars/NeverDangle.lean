import ObjcRuntime.WeakVars.Sound

/-!
# ObjcRuntime.WeakVars.NeverDangle

Weak variables never dangle.

The regions of the calls are put together from the steps that keep the invariant.
Then come the steps in the life of an object, from `initIsa` to `free`. The theorem
reads the invariant off the reachable states.
-/

namespace ObjcRuntime.WeakVars

open Weak Option Function World

variable {L : IsaLayout} {isTaggedPointer : Addr → Bool} {memory : Memory}

/-! ### The regions of the calls -/

@[simp] theorem setAlive_alive (w : World L) (l) (b) :
    (w.setAlive l b).alive = update w.alive l b := rfl

theorem setAlive_setAlive (w : World L) (l) (a b) :
    (w.setAlive l a).setAlive l b = w.setAlive l b := by
  unfold setAlive
  rw [update_idem]

variable {w : World L}

theorem setAlive_self {l b} (h : w.alive l = b) : w.setAlive l b = w := by
  unfold setAlive
  rw [← h, update_eq_self]

@[simp] theorem setObject_self (w : World L) (o) (x) :
    (w.setObject o x).objects o = x := update_self ..

/-- A variable that has just been taken out of use gets nil or a tagged pointer. -/
theorem Inv.reattachNil {l v} (h : Inv isTaggedPointer memory (w.setAlive l false))
    (hl : IsLocation l) (hv : ¬ IsObject isTaggedPointer v) :
    Inv isTaggedPointer memory ((w.weakOp (.store l v)).setAlive l true) :=
  setAlive_setAlive (w.weakOp (.store l v)) l false true ▸
    h.attachNil ⟨update_self .., hl⟩ hv

variable {options : DeallocatingOptions}

theorem Inv.reattach {l o check} (h : Inv isTaggedPointer memory (w.setAlive l false))
    (hl : IsLocation l) (ho : IsObject isTaggedPointer o) (hacc : WeakOp.accepts options check)
    (hflag : (w.objects o).isWeaklyReferenced) (hgone : (w.phase o).gone = false) :
    Inv isTaggedPointer memory
      (((w.weakOp (.register o l options check)).weakOp (.store l o)).setAlive l true) :=
  setAlive_setAlive ((w.weakOp (.register o l options check)).weakOp (.store l o)) l false true ▸
    h.attach ⟨update_self .., hl⟩ ho hacc hflag hgone

theorem viable_eq_true {check} :
    viable options check = .ok true ↔ WeakOp.accepts options check := by
  unfold WeakOp.accepts
  cases options <;> cases check <;> simp [viable]

theorem register_cases {o l r} (h : w.register isTaggedPointer o l options = some r) :
    (¬ IsObject isTaggedPointer o ∧ r = (w, o)) ∨
    (¬ WeakOp.accepts options (w.referentCheck o) ∧ r = (w, 0)) ∨
    (IsObject isTaggedPointer o ∧ WeakOp.accepts options (w.referentCheck o) ∧
      r = (w.weakOp (.register o l options (w.referentCheck o)), o)) := by
  unfold register at h
  split at h
  next htagged => exact .inl ⟨isTaggedPointerOrNil_true.1 htagged, (some.inj h).symm⟩
  next htagged =>
    have ho := isTaggedPointerOrNil_false.1 (Bool.eq_false_iff.2 htagged)
    split at h
    · cases h
    next hviable =>
      refine .inr (.inl ⟨fun hacc => ?_, (some.inj h).symm⟩)
      rw [viable_eq_true.2 hacc] at hviable
      cases hviable
    next hviable =>
      exact .inr (.inr ⟨ho, viable_eq_true.1 hviable, (some.inj h).symm⟩)

variable {o : Addr}

theorem referentCheck_live (h : w.referentCheck o = .live) :
    (w.objects o).isDeallocating = false := by
  unfold referentCheck at h
  split at h
  · cases h
  next hlive => exact Bool.eq_false_iff.2 hlive

/-- "Assign new value": the variable may already be out of use. -/
theorem assign_inv {w w' : World L} {call : StoreWeak}
    (h : Inv isTaggedPointer memory (w.setAlive call.location false))
    (hl : IsLocation call.location)
    (husable : IsObject isTaggedPointer call.newObj → w.Usable call.newObj)
    (hassign : w.assign isTaggedPointer call = some w') : Inv isTaggedPointer memory w' := by
  obtain ⟨r, hregister, rfl⟩ := map_eq_some_iff.1 hassign
  rcases register_cases hregister with ⟨ho, rfl⟩ | ⟨-, rfl⟩ | ⟨ho, hacc, rfl⟩
  · rw [if_pos (isTaggedPointerOrNil_true.2 ho)]
    exact h.reattachNil hl ho
  · rw [if_pos (isTaggedPointerOrNil_true.2 not_isObject_zero)]
    exact h.reattachNil hl not_isObject_zero
  · rw [if_neg (by rw [isTaggedPointerOrNil_false.2 ho]; exact Bool.false_ne_true)]
    have hlive : (w.objects call.newObj).isDeallocating = false := by
      refine referentCheck_live (hacc.resolve_left ?_)
      unfold StoreWeak.options
      split <;> simp
    have hobject : ObjectOk (w.phase call.newObj) (w.released call.newObj)
        (w.objects call.newObj) := h.object call.newObj
    have hrunning := hobject.running_of_live (husable ho).1 (husable ho).2 hlive
    obtain ⟨hok, hnon, hweak, hdead⟩ := Object.setWeaklyReferencedNolock_spec hobject.ok
    have hset : Inv isTaggedPointer memory ((w.setAlive call.location false).setObject call.newObj
          (w.objects call.newObj).setWeaklyReferencedNolock) :=
      h.setObject (hobject.set hok hnon hdead (husable ho)) fun _ => hweak
    have hflag : ((w.setObject call.newObj
        (w.objects call.newObj).setWeaklyReferencedNolock).objects
          call.newObj).isWeaklyReferenced := by
      rw [setObject_self]
      exact hweak
    have hgone : (w.phase call.newObj).gone = false := by
      rw [hrunning]
      rfl
    exact Inv.reattach hset hl ho hacc hflag hgone

theorem storeWeak_inv {w w' : World L} (h : Inv isTaggedPointer memory w) {call : StoreWeak}
    {oldObj} (haccess : w.Access call) (hold : call.haveOld → w.map.memory call.location = oldObj)
    (husable : call.haveNew → IsObject isTaggedPointer call.newObj → w.Usable call.newObj)
    (hstore : w.storeWeak isTaggedPointer call oldObj = some w') :
    Inv isTaggedPointer memory w' := by
  unfold World.Access at haccess
  unfold storeWeak at hstore
  by_cases hhave : call.haveOld
  · rw [if_pos hhave] at haccess hstore
    obtain rfl := hold hhave
    have hdetach : Inv isTaggedPointer memory ((w.unregister isTaggedPointer
        (w.map.memory call.location) call.location).setAlive call.location false) :=
      h.detach haccess
    split at hstore
    next hnew =>
      refine assign_inv hdetach (h.location _ haccess) (fun ho => ?_) hstore
      unfold World.Usable
      rw [(unregister_fields isTaggedPointer w _ _).2.2.2.1]
      exact husable hnew ho
    · rw [← some.inj hstore]
      exact hdetach
  · rw [if_neg hhave] at haccess hstore
    have hself : w.setAlive call.location false = w := setAlive_self haccess.1
    split at hstore
    next hnew => exact assign_inv (by rw [hself]; exact h) haccess.2 (husable hnew) hstore
    · rw [← some.inj hstore, hself]
      exact h

/-- The end of `objc_moveWeak`: the destination has been attached while the source
was out of use, and the source gets nil. -/
theorem Inv.resetSource {dst src} (hsrc : w.alive src) (hne : src ≠ dst) (hl : IsLocation src)
    (h : Inv isTaggedPointer memory ((w.setAlive src false).setAlive dst true)) :
    Inv isTaggedPointer memory ((w.weakOp (.store src 0)).setAlive dst true) := by
  have hfresh : ((w.setAlive src false).setAlive dst true).Fresh src := by
    refine ⟨?_, hl⟩
    rw [setAlive_alive, setAlive_alive, update_of_ne hne, update_self]
  have hnil := h.attachNil hfresh not_isObject_zero
  have halive : Function.update (Function.update (Function.update w.alive src false) dst true)
      src true = Function.update w.alive dst true := by
    rw [update_comm hne.symm, update_idem, ← hsrc, update_eq_self]
  have hend : (((w.setAlive src false).setAlive dst true).weakOp (.store src 0)).setAlive src true =
      (w.weakOp (.store src 0)).setAlive dst true := by
    unfold setAlive weakOp
    rw [halive]
  exact hend ▸ hnil

theorem moveWeak_inv {w w' : World L} (h : Inv isTaggedPointer memory w) {dst src}
    (hsrc : w.alive src) (hdst : w.Fresh dst)
    (hmove : w.moveWeak isTaggedPointer dst src (w.map.memory src) = some w') :
    Inv isTaggedPointer memory w' := by
  have hne : src ≠ dst := by
    intro heq
    rw [heq, hdst.1] at hsrc
    exact absurd hsrc Bool.false_ne_true
  obtain ⟨-, halive, hobjects, hphase, -⟩ :=
    unregister_fields isTaggedPointer w (w.map.memory src) src
  have hdetach : Inv isTaggedPointer memory ((w.unregister isTaggedPointer
      (w.map.memory src) src).setAlive src false) := h.detach hsrc
  have hfresh : ((w.unregister isTaggedPointer (w.map.memory src) src).setAlive src
      false).Fresh dst := by
    refine ⟨?_, hdst.2⟩
    rw [setAlive_alive, halive, update_of_ne hne.symm]
    exact hdst.1
  have hsrc' : (w.unregister isTaggedPointer (w.map.memory src) src).alive src := by
    rw [halive]
    exact hsrc
  obtain ⟨r, hregister, rfl⟩ := map_eq_some_iff.1 hmove
  rcases register_cases hregister with ⟨ho, rfl⟩ | ⟨hacc, -⟩ | ⟨ho, hacc, rfl⟩
  · exact Inv.resetSource hsrc' hne (h.location src hsrc) (hdetach.attachNil hfresh ho)
  · exact absurd (.inl rfl) hacc
  · -- the source is registered, so the object is neither gone nor without its flag
    have hin : src ∈ w.map.locations (w.map.memory src) := (h.registered src _).2 ⟨hsrc, rfl, ho⟩
    have hflag := h.flagged _ _ hin
    have hgone : (w.phase (w.map.memory src)).gone = false :=
      Bool.eq_false_iff.2 fun hgone => h.gone _ _ hgone hin
    rw [← hobjects] at hflag
    rw [← hphase] at hgone
    exact Inv.resetSource hsrc' hne (h.location src hsrc)
      (hdetach.attach hfresh ho hacc hflag hgone)

theorem loadWeakRetained_inv (h : Inv isTaggedPointer memory w) {l}
    (hl : w.alive l) (ho : IsObject isTaggedPointer (w.map.memory l)) :
    Inv isTaggedPointer memory (w.loadWeakRetained (w.map.memory l)).1 ∧
      ((w.loadWeakRetained (w.map.memory l)).2 ≠ 0 →
        (w.loadWeakRetained (w.map.memory l)).2 = w.map.memory l ∧
          w.phase (w.map.memory l) = .running) := by
  have hin : l ∈ w.map.locations (w.map.memory l) := (h.registered l _).2 ⟨hl, rfl, ho⟩
  have husable : w.phase (w.map.memory l) ≠ .disposed ∧ w.phase (w.map.memory l) ≠ .freed := by
    constructor
    · intro hphase
      exact h.gone _ l (by rw [hphase]; rfl) hin
    · intro hphase
      exact h.gone _ l (by rw [hphase]; rfl) hin
  have hobject := h.object (w.map.memory l)
  obtain ⟨hok, hkeeps, hdead, hresult⟩ := Object.rootTryRetain_spec hobject.ok
  refine ⟨h.setObject (hobject.set hok hkeeps.nonpointer hdead husable)
    fun hweak => hkeeps.isWeaklyReferenced.trans hweak, fun hne => ?_⟩
  unfold loadWeakRetained at hne ⊢
  dsimp only at hne ⊢
  rw [hresult] at hne ⊢
  by_cases hlive : (w.objects (w.map.memory l)).isDeallocating
  · rw [hlive] at hne
    exact absurd rfl hne
  · rw [Bool.eq_false_iff.2 hlive, Bool.not_false, if_pos rfl]
    exact ⟨rfl, hobject.running_of_live husable.1 husable.2 (Bool.eq_false_iff.2 hlive)⟩

/-! ### The life of an object -/

@[simp] theorem setPhase_self (w : World L) (o) (p) :
    (w.setPhase o p).phase o = p := update_self ..

variable (h : Inv isTaggedPointer memory w)
include h

theorem Inv.locations_empty
    (hweak : (w.objects o).isWeaklyReferenced = false) (l) : l ∉ w.map.locations o := by
  intro hl
  rw [h.flagged o l hl] at hweak
  cases hweak

theorem alloc_inv (hfreed : w.phase o = .freed) (ho : IsObject isTaggedPointer o)
    (nonpointer hasCxxDtor : Bool) :
    Inv isTaggedPointer memory (w.alloc o nonpointer hasCxxDtor) := by
  have hnone : (w.objects o).refcnt = none := (h.object o).noEntry (.inr hfreed)
  have hempty : ∀ l, l ∉ w.map.locations o := fun l => h.gone o l (by rw [hfreed]; rfl)
  refine h.update (o := o) rfl rfl rfl (fun o' ho => ⟨update_of_ne ho _ _, update_of_ne ho _ _,
      update_of_ne ho _ _⟩) ?_ (fun _ => ho) (fun l hl => absurd hl (hempty l))
        (fun l _ => hempty l)
  have hphase : (w.alloc o nonpointer hasCxxDtor).phase o = .running := update_self ..
  have hreleased : (w.alloc o nonpointer hasCxxDtor).released o = false := update_self ..
  have hobject : (w.alloc o nonpointer hasCxxDtor).objects o =
      ⟨nonpointer, false, false, hasCxxDtor, false, 1, (w.objects o).refcnt⟩ :=
    update_self ..
  rw [hphase, hreleased, hobject, hnone]
  refine ⟨⟨fun _ _ => rfl, fun _ hside => absurd hside Bool.false_ne_true⟩, fun _ => ⟨?_, rfl⟩,
    fun hdying => absurd hdying Bool.false_ne_true, by simp,
    by simp⟩
  cases nonpointer <;> rfl

theorem rootRelease_inv (husable : w.Usable o) : Inv isTaggedPointer memory (w.rootRelease o) := by
  have hobject := h.object o
  obtain ⟨hok, hkeeps, htrue, hfalse⟩ := Object.rootRelease_spec hobject.ok
  unfold rootRelease
  dsimp only
  split
  next hresult =>
    obtain ⟨hlive, hdead⟩ := htrue hresult
    refine h.update (o := o) rfl rfl rfl (fun o' ho => ⟨update_of_ne ho _ _, update_of_ne ho _ _,
        update_of_ne ho _ _⟩) ?_ (fun _ => h.allocated o husable.2) ?_ ?_
    · dsimp only
      rw [setPhase_self, update_self]
      show ObjectOk _ _ (update w.objects o _ o)
      rw [update_self]
      exact ⟨hok, by simp, fun _ => hdead, by simp, by simp⟩
    · intro l hl
      show (update w.objects o _ o).isWeaklyReferenced
      rw [update_self]
      exact hkeeps.isWeaklyReferenced.trans (h.flagged o l hl)
    · intro l hgone
      rw [setPhase_self] at hgone
      exact absurd hgone Bool.false_ne_true
  next hresult =>
    exact h.setObject
      (hobject.set hok hkeeps.nonpointer (hfalse (Bool.eq_false_iff.2 hresult)) husable)
      fun hweak => hkeeps.isWeaklyReferenced.trans hweak

theorem rootDealloc_inv
    (hphase : w.phase o = .deallocating) : Inv isTaggedPointer memory (w.rootDealloc o) := by
  have hobject := h.object o
  have hdead : (w.objects o).isDeallocating := hobject.dying (by rw [hphase]; rfl)
  have hused : w.phase o ≠ .freed := by
    rw [hphase]
    simp
  unfold rootDealloc
  split
  next hfast =>
    unfold Object.fastFree at hfast
    simp only [Bool.and_eq_true, Bool.not_eq_true'] at hfast
    obtain ⟨⟨⟨⟨hnon, hweak⟩, -⟩, -⟩, -⟩ := hfast
    refine h.setPhase hused ⟨hobject.ok, by simp, fun _ => hdead, fun _ => hnon,
      by simp⟩ fun _ => h.locations_empty ?_
    rw [Object.isWeaklyReferenced_nonpointer hnon]
    exact hweak
  · exact h.setPhase hused ⟨hobject.ok, by simp, fun _ => hdead, by simp, by simp⟩
      fun hgone => absurd hgone Bool.false_ne_true

theorem clearDeallocating_inv
    (hphase : w.phase o = .disposing) : Inv isTaggedPointer memory (w.clearDeallocating o) := by
  have hobject := h.object o
  have hdead : (w.objects o).isDeallocating := hobject.dying (by rw [hphase]; rfl)
  have hused : w.phase o ≠ .freed := by
    rw [hphase]
    simp
  unfold clearDeallocating
  split
  · exact h.setPhase hused ⟨hobject.ok, by simp, fun _ => hdead, by simp, by simp⟩
      fun hgone => absurd hgone Bool.false_ne_true
  next hclear =>
    unfold Object.needsClear at hclear
    simp only [Bool.or_eq_true, Bool.not_eq_true', not_or, Bool.not_eq_false,
      Bool.not_eq_true] at hclear
    obtain ⟨⟨hnon, hweak⟩, -⟩ := hclear
    refine h.setPhase hused ⟨hobject.ok, by simp, by simp [Phase.dying],
      by simp, fun _ => (noEntry_of_dying hobject.ok hdead hnon).2⟩
      fun _ => h.locations_empty ?_
    rw [Object.isWeaklyReferenced_nonpointer hnon]
    exact hweak

theorem Inv.clear (ho : IsObject isTaggedPointer o) :
    Inv isTaggedPointer memory (w.weakOp (.clear o)) ∧
      ∀ l, l ∉ (w.weakOp (.clear o)).map.locations o := by
  have hmem : ∀ {o' l}, l ∈ (w.weakOp (.clear o)).map.locations o' ↔
      l ∈ w.map.locations o' ∧ o' ≠ o := by
    intro o' l
    show l ∈ Function.update w.map.locations o ∅ o' ↔ _
    by_cases heq : o' = o
    · rw [heq, update_self]
      simp
    · rw [update_of_ne heq]
      exact (and_iff_left heq).symm
  refine ⟨⟨fun l o' => ?_, h.location, fun o' l hl => h.flagged o' l (hmem.1 hl).1,
    fun o' l hphase hl => h.gone o' l hphase (hmem.1 hl).1, h.object, h.allocated,
    h.backed.weakOp (.clear o) ho id⟩, fun l hl => (hmem.1 hl).2 rfl⟩
  rw [hmem, h.registered l o']
  by_cases hheld : l ∈ w.map.locations o ∧ w.map.memory l = o
  · -- the variable held the object and is nil now
    have hnil : (w.weakOp (.clear o)).map.memory l = 0 := if_pos hheld
    rw [hnil]
    constructor
    · exact fun hold => absurd (hold.1.2.1.symm.trans hheld.2) hold.2
    · exact fun hnew => absurd hnew.2.1.symm hnew.2.2.1
  · have hsame : (w.weakOp (.clear o)).map.memory l = w.map.memory l := if_neg hheld
    rw [hsame]
    constructor
    · exact And.left
    · intro hnew
      refine ⟨hnew, fun heq => hheld ?_⟩
      rw [← heq]
      exact ⟨(h.registered l o').2 hnew, hnew.2.1⟩

omit h

theorem clearEntry_refcnt {x : Object L} (h : x.Ok) (hdead : x.isDeallocating) :
    x.clearEntry.Ok ∧ x.clearEntry.refcnt = none := by
  unfold Object.clearEntry
  rcases Bool.eq_false_or_eq_true x.nonpointer with hnon | hnon
  · obtain ⟨hside, hnone⟩ := noEntry_of_dying h hdead hnon
    rw [if_pos hnon, hside, if_neg Bool.false_ne_true]
    exact ⟨h, hnone⟩
  · rw [hnon, if_neg Bool.false_ne_true]
    exact ⟨.of_raw hnon, rfl⟩

theorem clearDeallocatingSlow_inv (h : Inv isTaggedPointer memory w)
    (hphase : w.phase o = .clearing) : Inv isTaggedPointer memory (w.clearDeallocatingSlow o) := by
  have hobject := h.object o
  have hdead : (w.objects o).isDeallocating := hobject.dying (by rw [hphase]; rfl)
  have ho : IsObject isTaggedPointer o := h.allocated o (by rw [hphase]; simp)
  obtain ⟨hok, hnone⟩ := clearEntry_refcnt hobject.ok hdead
  have hcleared : ∀ w', Inv isTaggedPointer memory w' →
      (∀ l, l ∉ w'.map.locations o) → Inv isTaggedPointer memory
        ((w'.setObject o (w.objects o).clearEntry).setPhase o .disposed) := by
    intro w' h' hempty
    refine h'.update (o := o) rfl rfl rfl
      (fun o' ho => ⟨update_of_ne ho _ _, update_of_ne ho _ _, rfl⟩) ?_
      (fun _ => ho) (fun l hl => absurd hl (hempty l)) (fun l _ => hempty l)
    show ObjectOk _ _ (update w'.objects o _ o)
    rw [update_self]
    exact ⟨hok, by simp, by simp [Phase.dying], by simp, fun _ => hnone⟩
  unfold clearDeallocatingSlow
  split
  · exact hcleared _ (h.clear ho).1 (h.clear ho).2
  next hweak => exact hcleared _ h (h.locations_empty (Bool.eq_false_iff.2 hweak))

theorem free_inv (h : Inv isTaggedPointer memory w)
    (hphase : w.phase o = .freeing ∨ w.phase o = .disposed) :
    Inv isTaggedPointer memory (w.setPhase o .freed) := by
  have hobject := h.object o
  have hgone : (w.phase o).gone := by
    rcases hphase with hphase | hphase <;> rw [hphase] <;> rfl
  have hused : w.phase o ≠ .freed := by
    rcases hphase with hphase | hphase <;> rw [hphase] <;> simp
  refine h.setPhase hused ⟨hobject.ok, by simp, by simp [Phase.dying], by simp, fun _ => ?_⟩
    fun _ l => h.gone o l hgone
  rcases hphase with hphase | hphase
  · exact (noEntry_of_dying hobject.ok (hobject.dying (by rw [hphase]; rfl))
      (hobject.freeing hphase)).2
  · exact hobject.noEntry (.inl hphase)

theorem objectStep_inv {w w' : World L} (h : Inv isTaggedPointer memory w)
    (hstep : ObjectStep isTaggedPointer w w') : Inv isTaggedPointer memory w' := by
  cases hstep with
  | alloc nonpointer hasCxxDtor hfreed ho => exact alloc_inv h hfreed ho nonpointer hasCxxDtor
  | @setHasAssociatedObjects o husable =>
    unfold setHasAssociatedObjects
    split
    · exact h.setObject ((h.object o).set ⟨(h.object o).ok.noEntry, (h.object o).ok.entry⟩
        rfl rfl husable) id
    · exact h
  | @rootRetain o husable =>
    obtain ⟨hok, hkeeps, hdead⟩ := Object.rootRetain_spec (h.object o).ok
    exact h.setObject ((h.object o).set hok hkeeps.nonpointer hdead husable)
      fun hweak => hkeeps.isWeaklyReferenced.trans hweak
  | rootRelease husable => exact rootRelease_inv h husable
  | rootDealloc hphase => exact rootDealloc_inv h hphase
  | clearDeallocating hphase => exact clearDeallocating_inv h hphase
  | clearDeallocatingSlow hphase => exact clearDeallocatingSlow_inv h hphase
  | free hphase => exact free_inv h hphase

/-! ### Runs -/

/-- The object that `objc_loadWeakRetained` goes to lock for is one. -/
def PcOk (isTaggedPointer : Addr → Bool) (pc : Pc) : Prop :=
  ∀ l obj, pc = .loadLock l obj → IsObject isTaggedPointer obj

theorem step_inv {w w' : World L} {pc pc' : Pc} (h : Inv isTaggedPointer memory w)
    (hpc : PcOk isTaggedPointer pc) (hstep : Step isTaggedPointer w pc w' pc') :
    Inv isTaggedPointer memory w' ∧ PcOk isTaggedPointer pc' := by
  have hother : ∀ {pc'}, (∀ l obj, pc' ≠ .loadLock l obj) → PcOk isTaggedPointer pc' :=
    fun hne l obj heq => absurd heq (hne l obj)
  cases hstep with
  | object hobject => exact ⟨objectStep_inv h hobject, hpc⟩
  | callInitNil | callInit | callStore | callStoreOrNil | callDestroy | callLoad | callMove
  | storeRead | storeChanged | loadNil | loadChanged | loadReturn | moveReadNil | moveRead
  | moveChanged => exact ⟨h, hother (by simp)⟩
  | initNil hfresh | moveStoreNil hfresh =>
    exact ⟨h.attachNil hfresh not_isObject_zero, hother (by simp)⟩
  | store haccess hold husable hstore =>
    exact ⟨storeWeak_inv h haccess hold husable hstore, hother (by simp)⟩
  | loadRead _ htagged =>
    refine ⟨h, fun l obj heq => ?_⟩
    cases heq
    exact isTaggedPointerOrNil_false.1 htagged
  | load hl hobj =>
    subst hobj
    exact ⟨(loadWeakRetained_inv h hl (hpc _ _ rfl)).1, hother (by simp)⟩
  | move hsrc hdst hobj hmove =>
    subst hobj
    exact ⟨moveWeak_inv h hsrc hdst hmove, hother (by simp)⟩

theorem init_inv (isTaggedPointer : Addr → Bool) (memory) :
    Inv isTaggedPointer memory (init L memory) where
  registered := fun l o =>
    ⟨fun hl => absurd hl (Set.notMem_empty l), fun hl => absurd hl.1 Bool.false_ne_true⟩
  location := fun _ hl => absurd hl Bool.false_ne_true
  flagged := fun _ l hl => absurd hl (Set.notMem_empty l)
  gone := fun _ l _ => Set.notMem_empty l
  object := fun _ =>
    ⟨⟨fun _ _ => rfl, fun _ hside => absurd hside Bool.false_ne_true⟩,
      by simp [init], by simp [init, Phase.dying],
      by simp [init], fun _ => rfl⟩
  allocated := fun _ hp => absurd rfl hp
  backed := ⟨⟨WeakTable.zero, memory⟩, rfl,
    ⟨fun entry he => absurd he (not_mem_zero entry), .inl rfl⟩, zero_abs memory⟩

theorem reachable_inv {τ : Type} [DecidableEq τ] {s : Lib.Threads τ (World L) Pc}
    (hs : Reachable isTaggedPointer memory s) :
    Lib.Holds (Inv isTaggedPointer memory) (fun _ _ pc => PcOk isTaggedPointer pc) s := by
  refine Lib.run_preserves (fun _ _ h hstep => ?_) ⟨init_inv isTaggedPointer memory, ?_⟩ hs
  · refine Lib.Interleave.preserves ?_ ?_ h hstep
    · exact fun _ _ _ _ _ h hpc hstep => step_inv h hpc hstep
    · exact fun _ _ _ _ _ _ _ _ _ _ hpc _ => hpc
  · exact fun _ _ _ heq => absurd heq (by simp)

theorem load_running {w w' : World L} {pc v} (h : Inv isTaggedPointer memory w)
    (hpc : PcOk isTaggedPointer pc) (hcall : ∀ r, pc ≠ .loaded r)
    (hstep : Step isTaggedPointer w pc w' (.loaded v)) (hv : IsObject isTaggedPointer v) :
    w.phase v = .running ∧ w'.released = w.released := by
  cases hstep with
  | object => exact absurd rfl (hcall v)
  | loadNil _ htagged => exact absurd hv (isTaggedPointerOrNil_true.1 htagged)
  | load hl hobj =>
    subst hobj
    obtain ⟨hself, hrunning⟩ := (loadWeakRetained_inv h hl (hpc _ _ rfl)).2 hv.1
    rw [hself]
    exact ⟨hrunning, rfl⟩

/-- **Weak variables never dangle.** In every reachable state the pairs in the
weak table are the live variables with the objects they hold; an object with a
registered variable carries the weakly-referenced bit and does not go down the
fast path of `rootDealloc`; `objc_loadWeakRetained` returns only objects that no
`rootRelease` has returned true for; and of an object whose memory is free neither
the table nor any live variable knows. -/
theorem weak_variables_never_dangle {τ : Type} [DecidableEq τ]
    {s : Lib.Threads τ (World L) Pc} (hs : Reachable isTaggedPointer memory s) :
    (∀ l o, l ∈ s.shared.map.locations o ↔ s.shared.alive l = true ∧
      s.shared.map.memory l = o ∧ IsObject isTaggedPointer o) ∧
    (∀ o l, l ∈ s.shared.map.locations o → (s.shared.objects o).isWeaklyReferenced = true ∧
      (s.shared.objects o).fastFree = false ∧ s.shared.phase o ≠ .freeing) ∧
    (∀ t w' v, (∀ r, s.pcs t ≠ .loaded r) →
      Step isTaggedPointer s.shared (s.pcs t) w' (.loaded v) → IsObject isTaggedPointer v →
      s.shared.released v = false ∧ w'.released v = false) ∧
    (∀ o, s.shared.phase o = .freed → s.shared.map.locations o = ∅ ∧
      ∀ l, s.shared.alive l = true → s.shared.map.memory l = o →
        ¬ IsObject isTaggedPointer o) := by
  obtain ⟨h, hpcs⟩ := reachable_inv hs
  refine ⟨h.registered, fun o l hl => ?_, fun t w' v hcall hstep hv => ?_, fun o hfreed => ?_⟩
  · have hflag := h.flagged o l hl
    refine ⟨hflag, ?_, fun hphase => h.gone o l (by rw [hphase]; rfl) hl⟩
    unfold Object.fastFree
    rcases Bool.eq_false_or_eq_true (s.shared.objects o).nonpointer with hnon | hnon
    · rw [Object.isWeaklyReferenced_nonpointer hnon] at hflag
      rw [hflag]
      simp
    · rw [hnon]
      simp
  · obtain ⟨hrunning, hreleased⟩ := load_running h (hpcs t) hcall hstep hv
    have hlive := ((h.object v).running hrunning).2
    exact ⟨hlive, by rw [hreleased]; exact hlive⟩
  · have hempty : ∀ l, l ∉ s.shared.map.locations o := fun l => h.gone o l (by rw [hfreed]; rfl)
    refine ⟨Set.eq_empty_iff_forall_notMem.2 hempty, fun l hl hmem ho => ?_⟩
    exact hempty l ((h.registered l o).2 ⟨hl, hmem, ho⟩)

/-- An object at 16 is allocated and a weak variable at 8 initialized with it. The object
is then released and deallocated, which clears the variable. -/
theorem reachable_initWeak : ∃ s s' : Lib.Threads Unit (World .arm64) Pc,
    Reachable (fun _ => false) (fun _ => 0) s ∧ (8 : Addr) ∈ s.shared.map.locations 16 ∧
    Reachable (fun _ => false) (fun _ => 0) s' ∧
    s'.shared.log = [.register 16 8 .crashIfDeallocating .live, .store 8 16, .clear 16] := by
  let w : World .arm64 := (World.init .arm64 fun _ => 0).alloc 16 true false
  have hobject : IsObject (fun _ => false) 16 := ⟨by decide, rfl⟩
  have hfresh : w.Access (initWeak true 8 16) := ⟨rfl, by decide, by decide⟩
  have husable : w.Usable 16 := by
    constructor <;> simp [w, World.alloc, World.setPhase]
  have hrun : Reachable (fun _ => false) (fun _ => 0)
      (⟨_, fun _ => .idle⟩ : Lib.Threads Unit _ Pc) :=
    (((Relation.ReflTransGen.refl.tail (.solo (.object (.alloc true false rfl hobject)))).tail
      (.solo (.callInit true 8 16 (by decide)))).tail
      (.solo (.storeRead hfresh))).tail
      (.solo (.store hfresh (fun hf => absurd hf Bool.false_ne_true) (fun _ _ => husable) rfl))
  refine ⟨_, _, hrun, (mem_register (.inr rfl)).2 (.inr ⟨rfl, rfl⟩),
    hrun |>.tail (.solo (.object (.rootRelease (o := 16) ⟨nofun, nofun⟩)))
      |>.tail (.solo (.object (.rootDealloc (o := 16) rfl)))
      |>.tail (.solo (.object (.clearDeallocating (o := 16) rfl)))
      |>.tail (.solo (.object (.clearDeallocatingSlow (o := 16) rfl))), rfl⟩

theorem weak_variables_never_dangle_init :
    ∃ s : Lib.Threads Unit (World IsaLayout.arm64) Pc,
      Reachable (fun _ => false) (fun _ => 0) s ∧ (8 : Addr) ∈ s.shared.map.locations 16 ∧
        (s.shared.objects 16).fastFree = false := by
  obtain ⟨s, -, hrun, hin, -⟩ := reachable_initWeak
  exact ⟨_, hrun, hin, ((weak_variables_never_dangle hrun).2.1 16 8 hin).2.1⟩

/-- The same holds with the weak table in the place of the map: it has gone
through the recorded operations without an error and stores the pairs. -/
theorem weakTable_backs_map {τ : Type} [DecidableEq τ]
    {s : Lib.Threads τ (World L) Pc} (hs : Reachable isTaggedPointer memory s) :
    ∃ table, WeakState.run isTaggedPointer ⟨WeakTable.zero, memory⟩ s.shared.log =
        .ok ⟨table, s.shared.map.memory⟩ ∧ locations table = s.shared.map.locations := by
  obtain ⟨state, hrun, -, habs⟩ := (reachable_inv hs).1.backed
  refine ⟨state.table, ?_, by rw [← habs]; rfl⟩
  rw [hrun, ← habs]
  rfl

/-- The object is then released and deallocated, which clears the variable. -/
theorem weakTable_backs_map_clear :
    ∃ (s : Lib.Threads Unit (World IsaLayout.arm64) Pc) (table : WeakTable),
      Reachable (fun _ => false) (fun _ => 0) s ∧
      s.shared.log = [.register 16 8 .crashIfDeallocating .live, .store 8 16, .clear 16] ∧
      WeakState.run (fun _ => false) ⟨WeakTable.zero, fun _ => 0⟩ s.shared.log =
        .ok ⟨table, s.shared.map.memory⟩ ∧ locations table = s.shared.map.locations := by
  obtain ⟨-, s, -, -, hrun, hlog⟩ := reachable_initWeak
  obtain ⟨table, htable⟩ := weakTable_backs_map hrun
  exact ⟨s, table, hrun, hlog, htable⟩

end ObjcRuntime.WeakVars
