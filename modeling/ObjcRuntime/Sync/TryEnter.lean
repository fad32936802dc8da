import ObjcRuntime.Sync.Nested

/-!
# ObjcRuntime.Sync.TryEnter

When `objc_sync_try_enter` returns NO.

The thread that leaves an object decrements the thread count of the record before it
unlocks the mutex. Between the two steps the record may be given to another object,
and then a try to enter that object fails although nobody is inside. If a record is
reused only when its mutex is free, a failed try means that another thread is inside
the object, or has not yet returned from its exit (`tryEnter_fails_within`).
-/

namespace ObjcRuntime.Sync

open Lib Sync.Shared Local Relation

variable {τ ω σ : Type} {stripe : ω → σ} {direct : Bool} {t u : τ} {g g' : Shared τ ω σ}
  {l l' : Local ω}
  {o : ω} {d : Nat} {extra : ω → Nat}

/-! ### Records that are being left -/

/-- The object that a thread is leaving, and its record. -/
def Pc.leaves : Pc ω → Option (ω × Nat)
  | .dropping .exit o d => some (o, d)
  | .done .exit o (some d) => some (o, d)
  | _ => none

/-- The record still is that of the object. -/
def Leaves (g : Shared τ ω σ) (l : Local ω) : Prop :=
  ∀ o d, l.pc.leaves = some (o, d) → (g.data d).object = o

theorem Pc.leaves_of_unlocks {pc : Pc ω} (h : pc.unlocks = some d) :
    ∃ o, pc.leaves = some (o, d) := by
  unfold Pc.unlocks at h
  split at h
  · exact ⟨_, congrArg _ (congrArg _ (Option.some.inj h))⟩
  · subst h
    exact ⟨_, rfl⟩
  · cases h

theorem Local.found_leaves {op r o' e}
    (h : (l.found op o d r).pc.leaves = some (o', e)) : o = o' ∧ d = e := by
  unfold found at h
  cases op <;> split at h <;> simp [Pc.leaves] at h <;> exact h

variable [DecidableEq ω]

/-- A thread is between a successful enter of the object and the return of the
matching exit. -/
def Within (l : Local ω) (o : ω) : Prop := 0 < l.depth o ∨ 0 < l.pc.leaving o

instance (l : Local ω) (o : ω) : Decidable (Within l o) :=
  inferInstanceAs (Decidable (0 < l.depth o ∨ 0 < l.pc.leaving o))

variable [DecidableEq τ]

theorem Pc.leaves_eq_some {pc : Pc ω} (h : pc.leaves = some (o, d)) :
    pc.unlocks = some d ∧ pc.leaving o = 1 := by
  unfold Pc.leaves at h
  split at h
  · cases h
    exact ⟨rfl, if_pos rfl⟩
  · cases h
    exact ⟨rfl, if_pos rfl⟩
  · cases h

theorem Counted.holds_leaving (h : Counted direct t g l extra) (hleaves : Leaves g l)
    (hpc : l.pc.leaves = some (o, d)) : d < g.next ∧ 0 < (g.data d).mutex.depth t := by
  obtain ⟨hunlocks, hleaving⟩ := Pc.leaves_eq_some hpc
  have hd := h.unlocks d hunlocks
  refine ⟨hd, ?_⟩
  rw [h.mutex d hd, hleaves o d hpc, hleaving, hunlocks, if_pos rfl]
  split
  · exact Nat.succ_pos _
  · exact Nat.one_pos

theorem Counted.within (h : Counted direct t g l extra) (hleaves : Leaves g l) (hd : d < g.next)
    (hheld : 0 < (g.data d).mutex.depth t) : Within l (g.data d).object := by
  rw [h.mutex d hd] at hheld
  split at hheld
  · exact Nat.add_pos_iff_pos_or_pos.1 hheld
  · split at hheld
    next hunlocks =>
      obtain ⟨o, ho⟩ := Pc.leaves_of_unlocks hunlocks
      rw [hleaves o d ho]
      exact .inr ((Pc.leaves_eq_some ho).2 ▸ Nat.one_pos)
    · exact absurd hheld (lt_irrefl 0)

/-! ### Steps -/

variable [DecidableEq σ]

/-- The next step of the thread gives a record to another object although its mutex is
held. -/
def ReusesHeld (stripe : ω → σ) (g : Shared τ ω σ) (l : Local ω) : Prop :=
  ∃ op o occupied p, l.pc = .looking op o (.locking occupied) ∧ op ≠ .exit ∧
    walk g.data o (g.lists (stripe o)) none = (none, some p) ∧ (g.data p).mutex ≠ .free

/-- A step that does not. -/
def FreeStep (stripe : ω → σ) (direct : Bool) (t : τ) (g : Shared τ ω σ) (l : Local ω)
    (g' : Shared τ ω σ) (l' : Local ω) : Prop :=
  Step .unbounded stripe direct Nested t g l g' l' ∧ ¬ReusesHeld stripe g l

/-- Any interleaving of such steps. -/
def FreeReachable (stripe : ω → σ) (direct : Bool) (s : Threads τ (Shared τ ω σ) (Local ω)) :
    Prop :=
  ∃ memory, ReflTransGen (Interleave (FreeStep stripe direct))
    ⟨.init memory, fun _ => .init⟩ s

/-- A record that is found again keeps its object, and so does one whose mutex is
held, unless it is reused. -/
theorem Shared.region_object {w why} (hd : d < g.next)
    (hreuse : ∀ p, walk g.data o (g.lists (stripe o)) none = (none, some p) → why = .acquire →
      p ≠ d) : ((g.region w stripe t why o).1.data d).object = (g.data d).object := by
  have huse : ∀ p r, (p = d → r.object = (g.data d).object) →
      ((g.use t p r).data d).object = (g.data d).object := by
    intro p r hr
    unfold use
    dsimp only
    by_cases hp : d = p
    · subst hp
      rw [Function.update_self]
      exact hr rfl
    · rw [Function.update_of_ne hp]
  unfold region
  split
  · exact huse _ _ fun hp => hp ▸ rfl
  next unused hwalk =>
    split
    · rfl
    next hwhy =>
      split
      next p => exact huse p _ fun hp => absurd hp (hreuse p hwalk (not_not.1 hwhy))
      · exact huse g.next _ fun hp => absurd hd (hp ▸ lt_irrefl _)

/-- A step that reuses no record whose mutex is held keeps the objects of those. -/
theorem FreeStep.object (h : FreeStep stripe direct t g l g' l') (hd : d < g.next)
    (hheld : (g.data d).mutex ≠ .free) : (g'.data d).object = (g.data d).object := by
  obtain ⟨hstep, hfree⟩ := h
  cases hstep with
  | decrement hpc => exact decrement_object d
  | @region op o occupied hpc =>
    refine region_object hd fun p hwalk hwhy hp => ?_
    refine hfree ⟨op, o, occupied, p, hpc, ?_, hwalk, hp ▸ hheld⟩
    rintro rfl
    cases hwhy
  | lock hpc hlock | tryLock hpc hlock | unlock hpc hunlock => exact setMutex_object d
  | _ => rfl

theorem Step.leaves (hknows : Knows direct g l.tls (l.count extra) l.pc) (hleaves : Leaves g l)
    (hstep : Step .unbounded stripe direct Nested t g l g' l') : Leaves g' l' := by
  intro o d h
  cases hstep with
  | @useFast op o' d' hpc hthreads hcount =>
    obtain ⟨rfl, rfl⟩ := found_leaves h
    rw [hpc] at hknows
    cases hknows with
    | fast hfast hobject => exact hobject
  | @useItem op o' i cache item hpc hcache hitem hthreads hcount =>
    obtain ⟨rfl, rfl⟩ := found_leaves h
    rw [hpc] at hknows
    cases hknows with
    | item hitem' hobject =>
      rw [Tls.list, hcache] at hitem'
      obtain rfl := Option.some.inj (hitem.symm.trans hitem')
      exact hobject
  | @decrement op o' d' hpc =>
    rw [decrement_object]
    refine hleaves o d ?_
    rw [hpc]
    cases op with
    | enter | tryEnter => cases h
    | exit => exact h
  | @notFound op o' occupied result hpc hresult =>
    cases op <;> cases h
  | @save op o' occupied d' tls hpc husage hobject hsave =>
    cases op with
    | enter | tryEnter => cases h
    | exit => cases husage
  | _ => cases h

/-- A call that returns NO has failed to lock the mutex. -/
theorem Step.returns_no {may} (h : Step .unbounded stripe direct may t g l g' l')
    (hno : l'.log = l.log ++ [(.tryEnter, o, .no)]) :
    ∃ d, l.pc = .done .tryEnter o (some d) ∧ (g.data d).mutex.lock t = none := by
  cases h with
  | @tryLockFails o' d hpc hlock =>
    obtain rfl : o' = o := by simpa [returned] using hno
    exact ⟨d, hpc, hlock⟩
  | lock hpc hlock | tryLock hpc hlock => simp [entered] at hno
  | exitNil hpc | unlock hpc hunlock | unlockFails hpc hunlock => simp [returned] at hno
  | _ => simp [begin, goto, found] at hno

/-! ### Runs -/

/-- The invariant of a thread. -/
def Leaving (direct : Bool) (t : τ) (g : Shared τ ω σ) (l : Local ω) : Prop :=
  (∃ extra, Tracked direct extra t g l) ∧ Leaves g l

theorem FreeReachable.holds {s : Threads τ (Shared τ ω σ) (Local ω)}
    (h : FreeReachable stripe direct s) : Holds (·.Ok stripe) (Leaving direct) s := by
  obtain ⟨memory, hrun⟩ := h
  refine run_preserves (fun s s' hs hstep => ?_)
    ⟨.init memory, fun t => ⟨⟨_, .init memory⟩, fun _ _ h => (by cases h)⟩⟩ hrun
  refine Interleave.preserves ?_ ?_ hs hstep
  · intro t g l g' l' hok hleaving hstep
    obtain ⟨⟨extra, htracked⟩, hleaves⟩ := hleaving
    obtain ⟨extra', hkeeps, -⟩ := hstep.1.tracked .unbounded (fun _ _ => id) hok htracked
    exact ⟨hkeeps.ok, ⟨extra', hkeeps.tracked⟩, hstep.1.leaves htracked.2 hleaves⟩
  · intro t u g l g' l' m hne hok hleaving hother hstep
    obtain ⟨⟨extra, htracked⟩, -⟩ := hleaving
    obtain ⟨⟨extra', htracked'⟩, hleaves'⟩ := hother
    obtain ⟨extra₁, hkeeps, -⟩ := hstep.1.tracked .unbounded (fun _ _ => id) hok htracked
    refine ⟨⟨extra', htracked'.same hok (hkeeps.same u hne)⟩, fun o d hpc => ?_⟩
    obtain ⟨hd, hheld⟩ := htracked'.1.holds_leaving hleaves' hpc
    have hmutex : (g.data d).mutex ≠ .free := by
      intro hfree
      rw [hfree, RecursiveMutex.depth_free] at hheld
      exact lt_irrefl 0 hheld
    rw [hstep.object hd hmutex]
    exact hleaves' o d hpc

/-- If no record is reused while its mutex is held, `objc_sync_try_enter` returns NO
only if another thread is within the object at that moment. -/
theorem tryEnter_fails_within {s : Threads τ (Shared τ ω σ) (Local ω)}
    (h : FreeReachable stripe direct s)
    (hstep : Step .unbounded stripe direct Nested t s.shared (s.pcs t) g' l')
    (hno : l'.log = (s.pcs t).log ++ [(.tryEnter, o, .no)]) : ∃ u, u ≠ t ∧ Within (s.pcs u) o := by
  obtain ⟨hok, hleaving⟩ := h.holds
  obtain ⟨d, hpc, hlock⟩ := hstep.returns_no hno
  obtain ⟨⟨extra, hcounted, hknows⟩, -⟩ := hleaving t
  rw [hpc] at hknows
  obtain ⟨u, hu, hheld⟩ := RecursiveMutex.lock_eq_none hlock
  refine ⟨u, hu, ?_⟩
  obtain ⟨⟨extra', hcounted', -⟩, hleaves⟩ := hleaving u
  cases hknows with
  | entering hop hrec hobject =>
    rw [← hobject]
    exact hcounted'.within hleaves (hcounted.below hok hrec) hheld

/-! ### Examples -/

/-- Does the thread take the spinlock next? -/
def Pc.locks : Pc ω → Bool
  | .looking _ _ (.locking _) => true
  | _ => false

theorem FreeStep.of_step (h : Step .unbounded stripe direct Nested t g l g' l')
    (hpc : l.pc.locks = false) :
    FreeStep stripe direct t g l g' l' := by
  refine ⟨h, ?_⟩
  rintro ⟨op, o, occupied, p, hlocking, -⟩
  rw [hlocking] at hpc
  cases hpc

theorem FreeStep.of_region {op occupied found unused}
    (hpc : l.pc = .looking op o (.locking occupied))
    (hwalk : walk g.data o (g.lists (stripe o)) none = (found, unused))
    (hused : found ≠ none ∨ unused = none) :
    FreeStep stripe direct t g l (g.region .unbounded stripe t op.usage o).1
      (l.goto (.saving op o occupied (g.region .unbounded stripe t op.usage o).2)) := by
  refine ⟨.region hpc, ?_⟩
  rintro ⟨op', o', occupied', p, hpc', -, hwalk', -⟩
  cases hpc.symm.trans hpc'
  obtain ⟨hfound, hunused⟩ := Prod.mk.inj (hwalk.symm.trans hwalk')
  rcases hused with hsome | hnone
  · exact hsome hfound
  · cases hnone.symm.trans hunused

/-- Two threads, before they do anything. -/
def twoThreads : Threads Bool (Shared Bool Nat Unit) (Local Nat) :=
  ⟨.init fun _ => ⟨0, 0, .free⟩, fun _ => .init⟩

/-- A thread is inside an object, and another one fails to enter it. -/
theorem tryEnter_fails_within_inside :
    ∃ (s : Threads Bool (Shared Bool Nat Unit) (Local Nat)) (g : Shared Bool Nat Unit)
      (l : Local Nat), FreeReachable (fun _ => ()) true s ∧
      Step .unbounded (fun _ => ()) true Nested true s.shared (s.pcs true) g l ∧
      l.log = (s.pcs true).log ++ [(.tryEnter, 5, .no)] ∧
      ∃ u, u ≠ true ∧ Within (s.pcs u) 5 := by
  have hrun : ReflTransGen (Interleave (FreeStep (fun _ => ()) true)) twoThreads
    twoThreads := .refl
  -- the first thread enters
  replace hrun := hrun |>.moved false (.of_step (.call .enter 5 rfl nofun) rfl)
    |>.moved false (.of_step (.miss rfl nofun) rfl)
    |>.moved false (.of_step (.scanEnd rfl rfl) rfl)
    |>.moved false (.of_region rfl rfl (.inr rfl))
    |>.moved false (.of_step (.save rfl rfl rfl rfl) rfl)
    |>.moved false (.of_step (.lock rfl rfl) rfl)
    -- the second one finds its record
    |>.moved true (.of_step (.call .tryEnter 5 rfl nofun) rfl)
    |>.moved true (.of_step (.miss rfl nofun) rfl)
    |>.moved true (.of_step (.scanEnd rfl rfl) rfl)
    |>.moved true (.of_region rfl rfl (.inl nofun))
    |>.moved true (.of_step (.save rfl rfl rfl rfl) rfl)
  have hreach : FreeReachable (fun _ => ()) true _ := ⟨_, hrun⟩
  exact ⟨_, _, _, hreach, .tryLockFails rfl rfl, rfl,
    tryEnter_fails_within hreach (.tryLockFails rfl rfl) rfl⟩

/-- A thread leaves the object 3 and has decremented the thread count of the record,
which the other one gets for the object 5. Nobody has ever been inside that one. -/
theorem tryEnter_fails_outside :
    ∃ s : Threads Bool (Shared Bool Nat Unit) (Local Nat),
      Reachable .unbounded (fun _ => ()) true Nested s ∧
      (s.pcs true).log = [(.tryEnter, 5, .no)] ∧ (s.pcs false).log = [(.enter, 3, .success)] ∧
      ∀ u, ¬Within (s.pcs u) 5 := by
  have hrun : ReflTransGen (Interleave (Step .unbounded (fun _ => ()) true Nested))
      twoThreads
    twoThreads := .refl
  -- the first thread enters, and begins its exit
  replace hrun := hrun |>.moved false (.call .enter 3 rfl nofun) |>.moved false (.miss rfl nofun)
    |>.moved false (.scanEnd rfl rfl)
    |>.moved false (.region rfl)
    |>.moved false (.save rfl rfl rfl rfl)
    |>.moved false (.lock rfl rfl)
    |>.moved false (.call .exit 3 rfl fun _ => by decide)
    |>.moved false (.hit rfl rfl rfl)
    |>.moved false (.useFast rfl (by decide) (by decide))
    |>.moved false (.decrement rfl)
    -- the second one reuses the record before the mutex is unlocked
    |>.moved true (.call .tryEnter 5 rfl nofun)
    |>.moved true (.miss rfl nofun)
    |>.moved true (.scanEnd rfl rfl)
    |>.moved true (.region rfl)
    |>.moved true (.save rfl rfl rfl rfl)
    |>.moved true (.tryLockFails rfl rfl)
  refine ⟨_, ⟨_, hrun⟩, rfl, rfl, fun u hwithin => ?_⟩
  cases u with
  | false | true => exact absurd hwithin (by decide)

end ObjcRuntime.Sync
