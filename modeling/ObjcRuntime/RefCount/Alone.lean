import ObjcRuntime.RefCount.Conservation

/-!
# ObjcRuntime.RefCount.Alone

Calls of `rootRetain` and `rootRelease` that no other thread disturbs.

`releaseAlone` is a whole release call as a function: `exec` with every store
succeeding, until the call returns. `runActs` computes where any acts of a thread
lead, in any machine whose threads can take the steps of `act` (`Embeds`); it gives
the runs behind concrete scenarios that need hundreds of calls.
-/

namespace ObjcRuntime

open Isa Relation Bool Shared

variable {L : IsaLayout} {τ : Type} [DecidableEq τ]

/-! ### A release as a function -/

/-- Run a thread, with every store succeeding, until its call returns. -/
def runAlone (t : τ) : Nat → Shared L τ → Pc L → Option (Shared L τ)
  | 0, _, _ => none
  | fuel + 1, g, pc =>
    if pc = .idle then some g
    else (exec t true g pc).bind fun next => runAlone t fuel next.1 next.2

/-- A call of `rootRelease`. The longest path borrows from the side table and empties
it, in eight steps. -/
def releaseAlone (t : τ) (performDealloc : Bool) (variant : RRVariant) (g : Shared L τ) :
    Option (Shared L τ) :=
  runAlone t 10 g (.releaseLoad performDealloc variant false)

/-- The given number of release calls, one after the other. -/
def releaseTimes (t : τ) (performDealloc : Bool) (variant : RRVariant) :
    Nat → Shared L τ → Option (Shared L τ)
  | 0, g => some g
  | n + 1, g => (releaseAlone t performDealloc variant g).bind
      (releaseTimes t performDealloc variant n)

/-- Of the releases that follow, the `k`-th returns true and none before it does. -/
def DeallocatesAfter (t : τ) (performDealloc : Bool) (variant : RRVariant) (g : Shared L τ)
    (k : Nat) : Prop :=
  (∀ j < k, ∃ g', releaseTimes t performDealloc variant j g = some g' ∧
    g'.tally.returnedTrue = g.tally.returnedTrue) ∧
  ∃ g', releaseTimes t performDealloc variant k g = some g' ∧
    g'.tally.returnedTrue = g.tally.returnedTrue + 1

theorem runAlone_idle (t : τ) (fuel : Nat) (g : Shared L τ) :
    runAlone t (fuel + 1) g .idle = some g := if_pos rfl

variable {t : τ}

theorem runAlone_exec {fuel : Nat} {g g' : Shared L τ} {pc pc' : Pc L}
    (hpc : pc ≠ .idle) (h : exec t true g pc = some (g', pc')) :
    runAlone t (fuel + 1) g pc = runAlone t fuel g' pc' := by
  rw [runAlone, if_neg hpc, h]
  rfl

variable {performDealloc : Bool} {g : Shared L τ} {variant : RRVariant}

theorem DeallocatesAfter.unique {k k'} (h : DeallocatesAfter t performDealloc variant g k)
    (h' : DeallocatesAfter t performDealloc variant g k') : k = k' := by
  have hnot : ∀ {i j}, DeallocatesAfter t performDealloc variant g i →
      DeallocatesAfter t performDealloc variant g j → ¬ i < j := by
    intro i j hi hj hlt
    obtain ⟨g₁, hrun, hsame⟩ := hj.1 i hlt
    obtain ⟨g₂, hrun', hmore⟩ := hi.2
    rw [hrun] at hrun'
    cases hrun'
    omega
  exact Nat.le_antisymm (Nat.le_of_not_lt (hnot h' h)) (Nat.le_of_not_lt (hnot h h'))

variable {n : Nat}

/-- A count that every release lowers by one and that deallocates when it runs out. -/
theorem deallocatesAfter_of_live (Live : Shared L τ → Nat → Prop)
    (hstep : ∀ g n, Live g (n + 1) → ∃ g', releaseAlone t performDealloc variant g = some g' ∧
      g'.tally.returnedTrue = g.tally.returnedTrue + (if n = 0 then 1 else 0) ∧
      (n ≠ 0 → Live g' n)) (h : Live g (n + 1)) :
    DeallocatesAfter t performDealloc variant g (n + 1) := by
  induction n generalizing g with
  | zero =>
    obtain ⟨g', hrun, hret, -⟩ := hstep g 0 h
    refine ⟨fun j hj => ?_, g', ?_, hret⟩
    · obtain rfl : j = 0 := by omega
      exact ⟨g, rfl, rfl⟩
    · rw [releaseTimes, hrun]
      rfl
  | succ n ih =>
    obtain ⟨g', hrun, hret, hlive⟩ := hstep g (n + 1) h
    rw [if_neg (by omega), add_zero] at hret
    obtain ⟨hbefore, g'', hlast, hone⟩ := ih (hlive (by omega))
    have hnext : ∀ j, releaseTimes t performDealloc variant (j + 1) g =
        releaseTimes t performDealloc variant j g' := by
      intro j
      rw [releaseTimes, hrun]
      rfl
    refine ⟨fun j hj => ?_, g'', (hnext _).trans hlast, hone.trans (by rw [hret])⟩
    cases j with
    | zero => exact ⟨g, rfl, rfl⟩
    | succ j =>
      obtain ⟨g₁, hg₁, hsame⟩ := hbefore j (by omega)
      exact ⟨g₁, (hnext j).trans hg₁, hsame.trans hret⟩

/-! ### Releases of a nonpointer isa -/

/-- An object between calls that holds `n` references. -/
structure Quiescent (g : Shared L τ) (n : Nat) : Prop where
  nonpointer : nonpointer g.isa = true
  free : g.slock = none
  balanced : Balanced g 0 0 0
  count : g.tally.logicalCount = n

namespace Quiescent

omit [DecidableEq τ]

variable {g : Shared L τ} {n : Nat}

theorem total (h : Quiescent g n) : extraRc g.isa + g.sideCount = n := by
  have hc := h.balanced.count
  have hn := h.count
  omega

theorem isDeallocating_iff (h : Quiescent g n) : isDeallocating g.isa ↔ n = 0 := by
  have ht := h.total
  have hs := h.balanced.side
  unfold isDeallocating
  rw [and_eq_true, beq_iff_eq, not_eq_true', ← not_eq_true, hs]
  omega

theorem returnedTrue (h : Quiescent g n) : g.tally.returnedTrue = if n = 0 then 1 else 0 := by
  have hr := h.balanced.returned
  split
  next hz =>
    rw [h.isDeallocating_iff.2 hz, toNat_true] at hr
    omega
  next hz =>
    rw [eq_false_iff.2 (mt h.isDeallocating_iff.1 hz), Bool.toNat_false] at hr
    omega

end Quiescent

theorem exec_releaseLoad (hn : nonpointer g.isa) (hx : 0 < extraRc g.isa) :
    exec t true g (.releaseLoad performDealloc variant false) =
      some (g, .releaseStore performDealloc variant false g.isa
        (pack L (low g.isa) (hasSidetableRc g.isa) (extraRc g.isa - 1))) := by
  simp only [exec, releaseLoop, hn, isDeallocating_of_pos hx, subc_of_pos hx, Bool.not_true,
    Bool.false_eq_true, if_false, After.apply]

theorem exec_releaseStore (newisa) :
    exec t true g (.releaseStore performDealloc variant false g.isa newisa) =
      some ((g.storeIsa newisa).finish
        (.release performDealloc (isDeallocating newisa) true), .idle) := by
  simp only [exec, if_true, releaseStored, deallocate, Bool.false_eq_true, if_false, Bool.and_false]
  cases isDeallocating newisa <;> rfl

theorem logicalCount_release (tally : Tally) (deallocating) :
    (tally.finish (.release performDealloc deallocating true)).logicalCount =
      tally.logicalCount + -1 := by
  simp only [Tally.finish, Tally.logicalCount, Bool.not_true, Bool.toNat_false]
  omega

theorem releaseAlone_fast (h : Quiescent g (n + 1)) (hx : 0 < extraRc g.isa) :
    ∃ g', releaseAlone t performDealloc variant g = some g' ∧ Quiescent g' n := by
  have hquiet := Quiet.fastRelease performDealloc hx rfl
  refine ⟨_, ?_, hquiet.nonpointer.trans h.nonpointer, h.free, hquiet.balanced h.balanced, ?_⟩
  · rw [releaseAlone, runAlone_exec (by simp) (exec_releaseLoad h.nonpointer hx),
      runAlone_exec (by simp) (exec_releaseStore _), runAlone_idle]
  · have hc := h.count
    rw [finish_tally, logicalCount_release, storeIsa_tally]
    omega

/-- The end of a release that borrowed: an entry that became empty is cleared, and the
lock is given back. -/
theorem runAlone_borrowStored (t : τ) (fuel : Nat) (performDealloc) (hn : nonpointer g.isa)
    (hb : Balanced g 0 (-1) 0) (hc : g.tally.logicalCount = (n : Int) + 1) :
    ∃ g', runAlone t (fuel + 3)
      ((borrowStored performDealloc ⟨L.rcHalf, g.sideCount⟩ false).apply g).1
      ((borrowStored performDealloc ⟨L.rcHalf, g.sideCount⟩ false).apply g).2 = some g' ∧
      Quiescent g' n := by
  have hend : ∀ k (g₁ : Shared L τ), nonpointer g₁.isa → Balanced g₁ 0 (-1) 0 → g₁.tally = g.tally →
      ∃ g', runAlone t (k + 2) g₁ (.releaseUnlock (.release performDealloc false true)) = some g' ∧
        Quiescent g' n := by
    intro k g₁ hn₁ hb₁ ht
    have hb' : Balanced g₁.unlock 0 (0 - 1) (0 + false.toNat) := hb₁.unlock
    refine ⟨g₁.unlock.finish (.release performDealloc false true), ?_, hn₁, rfl,
      hb'.finishRelease performDealloc, ?_⟩
    · rw [runAlone_exec (by simp) rfl, runAlone_idle]
    · rw [finish_tally, logicalCount_release, unlock_tally, ht]
      omega
  unfold borrowStored SidetableBorrow.emptySideTable
  by_cases hz : g.sideCount = 0
  · simp only [hz, beq_self_eq_true, if_true, After.apply]
    rw [runAlone_exec (by simp) rfl]
    exact hend fuel _ hn (hb.clearExtraRC hz) rfl
  · rw [beq_false_of_ne hz]
    exact hend (fuel + 1) g hn hb rfl

theorem releaseAlone_borrow (h : Quiescent g (n + 1)) (hx : extraRc g.isa = 0) :
    ∃ g', releaseAlone t performDealloc variant g = some g' ∧ Quiescent g' n := by
  have hl := low_lt g.isa
  have hhalf := L.two_le_rcHalf
  have hrange := L.rcRange_eq
  have htotal := h.total
  have hside : hasSidetableRc g.isa := h.balanced.side.2 (by omega)
  have hlive : isDeallocating g.isa = false := by simp [isDeallocating, hside]
  obtain ⟨hborrow, hcount, hbal⟩ := (h.balanced.lock t).subExtraRC hside
  have hlocked : ∀ locked, releaseLoop performDealloc .full locked g.isa =
      .goto (if locked then .releaseSubExtraRC performDealloc g.isa
        else .releaseLock performDealloc) := by
    intro locked
    simp only [releaseLoop, underflow, h.nonpointer, hlive, subc_borrow.2 hx, hside, if_true,
      Bool.not_true, Bool.false_eq_true, if_false]
    cases locked <;> rfl
  -- the word stored with the borrowed counts
  have hnew : pack L (low g.isa) (!(g.sideCount - L.rcHalf == 0)) (L.rcHalf - 1) =
      pack L (low ((g.lock t).setRefcnts
          (sidetableSubExtraRCNolock (g.lock t).refcnts L.rcHalf).2).isa)
        (!(((g.lock t).setRefcnts
          (sidetableSubExtraRCNolock (g.lock t).refcnts L.rcHalf).2).sideCount == 0))
        (extraRc ((g.lock t).setRefcnts
          (sidetableSubExtraRCNolock (g.lock t).refcnts L.rcHalf).2).isa + (L.rcHalf - 1)) := by
    rw [hcount]
    simp only [setRefcnts_isa, lock_isa, lock_sideCount, hx, zero_add]
  obtain ⟨hstored, -⟩ := hbal.storeBorrow (by simp only [setRefcnts_isa, lock_isa, hx]; omega) hnew
  have hfull : ∀ fuel, ∃ g',
      runAlone t (fuel + 8) g (.releaseLoad performDealloc .full false) = some g' ∧
        Quiescent g' n := by
    intro fuel
    have hload : exec t true g (.releaseLoad performDealloc .full false) =
        some (g, .releaseLock performDealloc) := by
      simp only [exec, hlocked]
      rfl
    have hlock : exec t true g (.releaseLock performDealloc) =
        some (g.lock t, .releaseLoad performDealloc .full true) := by
      simp only [exec, h.free, if_true]
    have hreload : exec t true (g.lock t) (.releaseLoad performDealloc .full true) =
        some (g.lock t, .releaseSubExtraRC performDealloc g.isa) := by
      simp only [exec, lock_isa, hlocked]
      rfl
    have hsub : exec t true (g.lock t) (.releaseSubExtraRC performDealloc g.isa) =
        some ((g.lock t).setRefcnts (sidetableSubExtraRCNolock g.refcnts L.rcHalf).2,
          .releaseBorrowStore performDealloc ⟨L.rcHalf, g.sideCount - L.rcHalf⟩ g.isa
            (pack L (low g.isa) (!(g.sideCount - L.rcHalf == 0)) (L.rcHalf - 1))) := by
      have hb : (sidetableSubExtraRCNolock g.refcnts L.rcHalf).1 =
        ⟨L.rcHalf, g.sideCount - L.rcHalf⟩ := hborrow
      simp only [exec, show (g.lock t).refcnts = g.refcnts from rfl, hb, borrowed]
      rw [if_pos (by omega), setExtraRc_eq _ (by omega), setHasSidetableRc_eq,
        low_pack hl _ (by omega), extraRc_pack hl _ (by omega)]
      rfl
    rw [runAlone_exec (by simp) hload, runAlone_exec (by simp) hlock,
      runAlone_exec (by simp) hreload, runAlone_exec (by simp) hsub]
    have hput : exec t true ((g.lock t).setRefcnts (sidetableSubExtraRCNolock g.refcnts L.rcHalf).2)
        (.releaseBorrowStore performDealloc ⟨L.rcHalf, g.sideCount - L.rcHalf⟩ g.isa
          (pack L (low g.isa) (!(g.sideCount - L.rcHalf == 0)) (L.rcHalf - 1))) = some (_, _) :=
      if_pos rfl
    rw [runAlone_exec (by simp) hput]
    have hend := runAlone_borrowStored t fuel performDealloc
      ((nonpointer_pack g.isa _ (by omega)).trans h.nonpointer) hstored h.count
    rw [storeIsa_sideCount, hcount] at hend
    exact hend
  by_cases hvariant : variant = .full
  · subst hvariant
    exact hfull 2
  · have hslow : exec t true g (.releaseLoad performDealloc variant false) =
        some (g, .releaseLoad performDealloc .full false) := by
      simp only [exec, releaseLoop, underflow, h.nonpointer, hlive, subc_borrow.2 hx, hside,
        if_true, Bool.not_true, Bool.false_eq_true, if_false, ne_eq, hvariant, not_false_eq_true]
      rfl
    rw [releaseAlone, runAlone_exec (by simp) hslow]
    exact hfull 1

/-- An object with a nonpointer isa is deallocated by as many releases as it holds
references. -/
theorem Quiescent.deallocatesAfter (h : Quiescent g (n + 1)) :
    DeallocatesAfter t performDealloc variant g (n + 1) := by
  refine deallocatesAfter_of_live Quiescent (fun g n h => ?_) h
  obtain ⟨g', hrun, hg'⟩ : ∃ g', releaseAlone t performDealloc variant g = some g' ∧
      Quiescent g' n := by
    by_cases hx : extraRc g.isa = 0
    · exact releaseAlone_borrow h hx
    · exact releaseAlone_fast h (by omega)
  refine ⟨g', hrun, ?_, fun _ => hg'⟩
  rw [hg'.returnedTrue, h.returnedTrue, if_neg (by omega : ¬ n + 1 = 0), zero_add]

/-! ### Many calls, one after the other -/

/-- Is the next step `sidetable_lock()`? -/
def Pc.locksNext : Pc L → Bool
  | .retainLock _ _ => true
  | .retainRawLock => true
  | .releaseLock _ => true
  | .releaseRawLock _ => true
  | _ => false

/-- Is the next step `sidetable_unlock()`? -/
def Pc.unlocksNext : Pc L → Bool
  | .retainUnlock _ => true
  | .releaseUnlock _ => true
  | _ => false

/-- A step of a call that neither takes nor gives back the lock. -/
def Pc.Free (pc : Pc L) : Prop := pc.locksNext = false ∧ pc.unlocksNext = false

instance : DecidablePred (Pc.Free (L := L)) := fun _ => inferInstanceAs (Decidable (_ ∧ _))

end ObjcRuntime
