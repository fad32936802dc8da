import ObjcRuntime.RefCount.Machine

/-!
# ObjcRuntime.RefCount.Sound

No count is lost or duplicated by `rootRetain` and `rootRelease`.

The count of an object lives in three places: `extra_rc`, the side table, and,
while a thread moves `RC_HALF` counts between the two, the local variables of
the thread that holds the side-table lock (`Pc.transit`). A call that has
stored its change to the isa but has not returned yet is ahead of the tally by
`Pc.delta`. `Balanced` is the equation between all of these; the machine keeps
it with the lock holder's numbers, and with zeros when the lock is free.

A thread without the lock can only do three things to the shared state: nothing,
increment a word that does not overflow, or decrement a word that does not
underflow. That is `Quiet`, and it is all the other threads need to know.
-/

namespace ObjcRuntime

open Isa Relation Option Nat Bool Shared

variable {L : IsaLayout} {τ : Type}

/-! ### Ghost readings of a control state -/

namespace Pc

/-- Does the thread hold the side-table lock here? -/
def holdsLock : Pc L → Bool
  | .idle => false
  | .retainLoad _ _ => false
  | .retainLock _ _ => false
  | .retainStore _ _ locked _ _ _ => locked
  | .retainAddExtraRC _ locked => locked
  | .retainUnlock _ => true
  | .retainRawLock => false
  | .retainRaw => true
  | .retainRawTry => false
  | .releaseLoad _ _ locked => locked
  | .releaseStore _ _ locked _ _ => locked
  | .releaseLock _ => false
  | .releaseSubExtraRC _ _ => true
  | .releaseBorrowStore _ _ _ _ => true
  | .releaseBorrowRetry _ _ _ _ => true
  | .releasePutBack _ _ => true
  | .releaseClearExtraRC _ _ => true
  | .releaseUnlock _ => true
  | .releaseRawLock _ => false
  | .releaseRaw _ => true

/-- Counts that are in neither the isa nor the side table. -/
def transit : Pc L → Nat
  | .retainAddExtraRC _ _ => L.rcHalf
  | .releaseBorrowStore _ borrow _ _ => borrow.borrowed
  | .releaseBorrowRetry _ borrow _ _ => borrow.borrowed
  | .releasePutBack _ borrow => borrow.borrowed
  | _ => 0

/-- The change the call has stored but not yet returned from. -/
def delta : Pc L → Int
  | .retainAddExtraRC _ _ => 1
  | .retainUnlock (.retain _ true) => 1
  | .releaseClearExtraRC _ _ => -1
  | .releaseUnlock (.release _ _ true) => -1
  | _ => 0

/-- Is the call about to return true? -/
def pendingTrue : Pc L → Nat
  | .releaseUnlock (.release _ true _) => 1
  | _ => 0

end Pc

/-! ### The invariant -/

/-- The counts add up, with `transit` counts on the way between the isa and the
side table and `delta` stored but not yet tallied. -/
structure Balanced (g : Shared L τ) (transit : Nat) (delta : Int) (pending : Nat) : Prop where
  holds : HoldsCount g.refcnts g.sideCount
  half : L.rcHalf ∣ g.sideCount
  count : (extraRc g.isa : Int) + g.sideCount + transit = g.tally.logicalCount + delta
  side : hasSidetableRc g.isa = true ↔ g.sideCount + transit ≠ 0
  room : g.sideCount + transit + L.rcHalf ≤ maxCount L
  returned : g.tally.returnedTrue + pending = (isDeallocating g.isa).toNat

/-- The word `rootRetain` stores over `oldisa`. -/
def retainWord (transcribe : Bool) (oldisa : L.Word) : L.Word :=
  if transcribe then pack L (low oldisa) true L.rcHalf
  else pack L (low oldisa) (hasSidetableRc oldisa) (extraRc oldisa + 1)

/-- What is known of the local variables at each control state. -/
def LocalOk (g : Shared L τ) : Pc L → Prop
  | .idle => True
  | .retainLoad tryRetain _ => tryRetain = false
  | .retainLock oldisa newisa =>
    extraRc oldisa + 1 = L.rcRange ∧ newisa = retainWord true oldisa
  | .retainStore tryRetain variant locked transcribe oldisa newisa =>
    tryRetain = false ∧ isDeallocating oldisa = false ∧
      newisa = retainWord transcribe oldisa ∧ (locked = true → variant = .full) ∧
      if transcribe then locked = true ∧ extraRc oldisa + 1 = L.rcRange
      else extraRc oldisa + 1 < L.rcRange
  | .retainAddExtraRC tryRetain locked => tryRetain = false ∧ locked = true
  | .retainUnlock r => ∃ counted, r = .retain true counted
  | .retainRawLock => False
  | .retainRaw => False
  | .retainRawTry => False
  | .releaseLoad _ variant locked => locked = true → variant = .full
  | .releaseStore _ variant locked oldisa newisa =>
    0 < extraRc oldisa ∧
      newisa = pack L (low oldisa) (hasSidetableRc oldisa) (extraRc oldisa - 1) ∧
      (locked = true → variant = .full)
  | .releaseLock _ => True
  | .releaseSubExtraRC _ oldisa => extraRc oldisa = 0 ∧ hasSidetableRc g.isa = true
  | .releaseBorrowStore _ borrow oldisa newisa =>
    borrow = ⟨L.rcHalf, g.sideCount⟩ ∧ extraRc oldisa = 0 ∧
      newisa = pack L (low oldisa) (!borrow.emptySideTable) (L.rcHalf - 1)
  | .releaseBorrowRetry _ borrow oldisa newisa =>
    borrow = ⟨L.rcHalf, g.sideCount⟩ ∧ extraRc oldisa + (L.rcHalf - 1) < L.rcRange ∧
      newisa = pack L (low oldisa) (!borrow.emptySideTable) (extraRc oldisa + (L.rcHalf - 1))
  | .releasePutBack _ borrow => borrow.borrowed = L.rcHalf
  | .releaseClearExtraRC _ didTransition => didTransition = false ∧ g.sideCount = 0
  | .releaseUnlock r => ∃ performDealloc result counted,
      r = .release performDealloc result counted ∧ (result = true → counted = true)
  | .releaseRawLock _ => False
  | .releaseRaw _ => False

/-- The shared part of the invariant. -/
structure SharedOk (g : Shared L τ) : Prop where
  nonpointer : nonpointer g.isa = true
  bound : g.tally.logicalCount ≤ maxCount L
  free : g.slock = none → Balanced g 0 0 0

/-- The assertion of thread `t`. -/
structure ThreadOk (t : τ) (g : Shared L τ) (pc : Pc L) : Prop where
  lock : pc.holdsLock = true ↔ g.slock = some t
  balanced : pc.holdsLock = true → Balanced g pc.transit pc.delta pc.pendingTrue
  localOk : LocalOk g pc

/-- `LocalOk` reads the shared state only where the thread holds the lock. -/
theorem LocalOk.of_unlocked {g g' : Shared L τ} {pc : Pc L} (h : LocalOk g pc)
    (hpc : pc.holdsLock = false) : LocalOk g' pc := by
  cases pc <;> first | exact h | simp [Pc.holdsLock] at hpc

theorem LocalOk.congr {g g' : Shared L τ} {pc} (h : LocalOk g pc)
    (hs : hasSidetableRc g'.isa = hasSidetableRc g.isa) (hr : g'.refcnts = g.refcnts) :
    LocalOk g' pc := by
  have hc : g'.sideCount = g.sideCount := by unfold sideCount; rw [hr]
  cases pc <;> first | exact h | (simp only [LocalOk, hs, hc] at h ⊢; exact h)

/-! ### What a thread without the lock can do -/

/-- A step that leaves the lock, the side table and `has_sidetable_rc` alone and
keeps every balance. -/
structure Quiet (g g' : Shared L τ) : Prop where
  slock : g'.slock = g.slock
  refcnts : g'.refcnts = g.refcnts
  side : hasSidetableRc g'.isa = hasSidetableRc g.isa
  nonpointer : Isa.nonpointer g'.isa = Isa.nonpointer g.isa
  balanced : ∀ {transit delta pending},
    Balanced g transit delta pending → Balanced g' transit delta pending

theorem Quiet.refl (g : Shared L τ) : Quiet g g := ⟨rfl, rfl, rfl, rfl, fun h => h⟩

theorem retainWord_false (oldisa) : retainWord false oldisa =
    pack L (low oldisa) (hasSidetableRc oldisa) (extraRc oldisa + 1) := rfl

theorem retainWord_true (oldisa) : retainWord true oldisa =
    pack L (low oldisa) true L.rcHalf := rfl

theorem isDeallocating_of_pos {isa : L.Word} (h : 0 < extraRc isa) :
    isDeallocating isa = false := by
  unfold isDeallocating
  rw [beq_false_of_ne (by omega)]
  rfl

/-! ### Steps of the balance -/

namespace Balanced

variable {g : Shared L τ} {transit : Nat} {delta : Int} {pending : Nat}

/-- Storing an increment that does not overflow runs ahead of the tally by one. -/
theorem storeRetain (h : Balanced g transit delta pending)
    (hd : isDeallocating g.isa = false) (hx : extraRc g.isa + 1 < L.rcRange) :
    Balanced (g.storeIsa (retainWord false g.isa)) transit (delta + 1) pending := by
  have hl := low_lt g.isa
  rw [retainWord_false]
  refine ⟨h.holds, h.half, ?_, ?_, h.room, ?_⟩
  · have hc := h.count
    simp only [storeIsa_isa, storeIsa_sideCount, storeIsa_tally, extraRc_pack hl _ hx]
    omega
  · simpa only [storeIsa_isa, storeIsa_sideCount, hasSidetableRc_pack hl _ hx] using h.side
  · have hr := h.returned
    simp only [storeIsa_isa, storeIsa_tally, isDeallocating_pack hl _ hx, hd] at hr ⊢
    simpa using hr

/-- Storing a decrement that does not underflow; it decides the call's result. -/
theorem storeRelease (h : Balanced g transit delta pending) (hx : 0 < extraRc g.isa) {newisa}
    (hnew : newisa = pack L (low g.isa) (hasSidetableRc g.isa) (extraRc g.isa - 1)) :
    Balanced (g.storeIsa newisa) transit (delta - 1)
      (pending + (isDeallocating newisa).toNat) := by
  have hl := low_lt g.isa
  have hlt : extraRc g.isa - 1 < L.rcRange := by have := extraRc_lt g.isa; omega
  refine ⟨h.holds, h.half, ?_, ?_, h.room, ?_⟩
  · have hc := h.count
    simp only [storeIsa_isa, storeIsa_sideCount, storeIsa_tally, hnew, extraRc_pack hl _ hlt]
    omega
  · simpa only [storeIsa_isa, storeIsa_sideCount, hnew, hasSidetableRc_pack hl _ hlt] using h.side
  · have hr := h.returned
    rw [isDeallocating_of_pos hx, Bool.toNat_false] at hr
    simp only [storeIsa_isa, storeIsa_tally]
    omega

theorem finishRetain (h : Balanced g transit (delta + 1) pending) (self) :
    Balanced (g.finish (.retain self true)) transit delta pending := by
  refine ⟨h.holds, h.half, ?_, h.side, h.room, h.returned⟩
  have hc := h.count
  simp only [finish_isa, finish_sideCount, finish_tally, Tally.finish,
    Tally.logicalCount, Bool.not_true, Bool.toNat_false] at hc ⊢
  omega

theorem finishRelease {result}
    (h : Balanced g transit (delta - 1) (pending + result.toNat)) (performDealloc) :
    Balanced (g.finish (.release performDealloc result true)) transit delta pending := by
  refine ⟨h.holds, h.half, ?_, h.side, h.room, ?_⟩
  · have hc := h.count
    simp only [finish_isa, finish_sideCount, finish_tally, Tally.finish,
      Tally.logicalCount, Bool.not_true, Bool.toNat_false] at hc ⊢
    omega
  · have hr := h.returned
    simp only [finish_isa, finish_tally, Tally.finish]
    omega

variable (h : Balanced g transit delta pending)
include h

theorem finishDeadRetain (self) :
    Balanced (g.finish (.retain self false)) transit delta pending := by
  refine ⟨h.holds, h.half, ?_, h.side, h.room, h.returned⟩
  have hc := h.count
  simp only [finish_isa, finish_sideCount, finish_tally, Tally.finish,
    Tally.logicalCount, Bool.not_false, Bool.toNat_true] at hc ⊢
  omega

theorem finishDeadRelease (performDealloc) :
    Balanced (g.finish (.release performDealloc false false)) transit delta pending := by
  refine ⟨h.holds, h.half, ?_, h.side, h.room, h.returned⟩
  have hc := h.count
  simp only [finish_isa, finish_sideCount, finish_tally, Tally.finish,
    Tally.logicalCount, Bool.not_false, Bool.toNat_true] at hc ⊢
  omega

theorem lock (t : τ) : Balanced (g.lock t) transit delta pending :=
  ⟨h.holds, h.half, h.count, h.side, h.room, h.returned⟩

theorem unlock : Balanced g.unlock transit delta pending :=
  ⟨h.holds, h.half, h.count, h.side, h.room, h.returned⟩

omit h

/-- Storing an overflow puts `RC_HALF` counts on the way to the side table. This
is the only step that raises the side-table total, so the room left below the
pinned bit is checked here, from the bound on the logical count. -/
theorem storeOverflow (h : Balanced g 0 0 pending) (hb : g.tally.logicalCount ≤ maxCount L)
    (hx : extraRc g.isa + 1 = L.rcRange) :
    Balanced (g.storeIsa (retainWord true g.isa)) L.rcHalf 1 pending := by
  have hl := low_lt g.isa
  have hhalf := L.two_le_rcHalf
  have hrange := L.rcRange_eq
  have hc := h.count
  have hlt : L.rcHalf < L.rcRange := by omega
  rw [retainWord_true]
  refine ⟨h.holds, h.half, ?_, ?_, ?_, ?_⟩
  · simp only [storeIsa_isa, storeIsa_sideCount, storeIsa_tally, extraRc_pack hl _ hlt]
    omega
  · simp only [storeIsa_isa, storeIsa_sideCount, hasSidetableRc_pack hl _ hlt]
    constructor
    · intro _; omega
    · intro _; trivial
  · -- `RC_HALF` divides both sides, so an excess of less than `RC_HALF` is none
    obtain ⟨k, hk⟩ := h.half
    obtain ⟨m, hm⟩ : L.rcHalf ∣ maxCount L := by
      have h2 := L.two_le_rcShift
      unfold IsaLayout.rcHalf maxCount IsaLayout.wordBits
      exact pow_dvd_pow 2 (by omega)
    simp only [storeIsa_sideCount]
    have hle : L.rcHalf * (k + 2) ≤ L.rcHalf * m + 1 := by
      rw [mul_add, ← hk, ← hm]; omega
    have hkm : k + 2 ≤ m := by
      by_contra hlt'
      have h3 : L.rcHalf * (m + 1) ≤ L.rcHalf * (k + 2) := mul_le_mul_left _ (by omega)
      rw [mul_add, mul_one] at h3
      omega
    have h4 := mul_le_mul_left L.rcHalf hkm
    rw [mul_add, ← hk, ← hm] at h4
    omega
  · have hr := h.returned
    have hd : isDeallocating g.isa = false := isDeallocating_of_pos (by omega)
    simp only [storeIsa_isa, storeIsa_tally, isDeallocating_pack hl _ hlt, hd] at hr ⊢
    simpa using hr

theorem addExtraRC (h : Balanced g L.rcHalf delta pending) :
    Balanced (g.setRefcnts (sidetableAddExtraRCNolock g.refcnts L.rcHalf).1) 0 delta pending := by
  have hhalf := L.two_le_rcHalf
  have hroom := h.room
  have hadd := h.holds.add (d := L.rcHalf) (by omega)
  have hside : (g.setRefcnts (sidetableAddExtraRCNolock g.refcnts L.rcHalf).1).sideCount =
      g.sideCount + L.rcHalf := hadd.getExtraRC
  refine ⟨?_, ?_, ?_, ?_, ?_, h.returned⟩
  · rw [hside]; exact hadd
  · rw [hside]; exact (Nat.dvd_add_right h.half).2 dvd_rfl
  · have hc := h.count
    simp only [setRefcnts_isa, setRefcnts_tally]
    omega
  · rw [hside]; exact h.side
  · rw [hside]; omega

/-- While `has_sidetable_rc` is set the side table holds at least `RC_HALF`. -/
theorem half_le (h : Balanced g 0 delta pending) (hs : hasSidetableRc g.isa) :
    L.rcHalf ≤ g.sideCount :=
  le_of_dvd (pos_of_ne_zero (h.side.1 hs)) h.half

theorem subExtraRC (h : Balanced g 0 delta pending) (hs : hasSidetableRc g.isa) :
    (sidetableSubExtraRCNolock g.refcnts L.rcHalf).1 = ⟨L.rcHalf, g.sideCount - L.rcHalf⟩ ∧
      (g.setRefcnts (sidetableSubExtraRCNolock g.refcnts L.rcHalf).2).sideCount =
        g.sideCount - L.rcHalf ∧
      Balanced (g.setRefcnts (sidetableSubExtraRCNolock g.refcnts L.rcHalf).2)
        L.rcHalf delta pending := by
  have hhalf := L.two_le_rcHalf
  have hle := h.half_le hs
  obtain ⟨hb, hsub⟩ := h.holds.sub (by omega) hle
  have hside : (g.setRefcnts (sidetableSubExtraRCNolock g.refcnts L.rcHalf).2).sideCount =
      g.sideCount - L.rcHalf := hsub.getExtraRC
  refine ⟨hb, hside, ?_, ?_, ?_, ?_, ?_, h.returned⟩
  · rw [hside]; exact hsub
  · rw [hside]; exact dvd_sub h.half dvd_rfl
  · have hc := h.count
    simp only [setRefcnts_isa, setRefcnts_tally]
    omega
  · have hsd := h.side
    rw [hside, Nat.sub_add_cancel hle]
    simpa using hsd
  · have hroom := h.room
    rw [hside]; omega

/-- Storing borrowed counts, less the one that is released. -/
theorem storeBorrow (h : Balanced g L.rcHalf 0 pending)
    (hx : extraRc g.isa + (L.rcHalf - 1) < L.rcRange) {newisa} (hnew : newisa =
      pack L (low g.isa) (!(g.sideCount == 0)) (extraRc g.isa + (L.rcHalf - 1))) :
    Balanced (g.storeIsa newisa) 0 (-1) pending ∧ isDeallocating newisa = false := by
  have hl := low_lt g.isa
  have hhalf := L.two_le_rcHalf
  have hs : hasSidetableRc g.isa := h.side.2 (by omega)
  have hdead : isDeallocating g.isa = false := by simp [isDeallocating, hs]
  have hnd : isDeallocating newisa = false := by
    rw [hnew, isDeallocating_pack hl _ hx, beq_false_of_ne (by omega)]
    rfl
  refine ⟨⟨h.holds, h.half, ?_, ?_, ?_, ?_⟩, hnd⟩
  · have hc := h.count
    simp only [storeIsa_isa, storeIsa_sideCount, storeIsa_tally, hnew, extraRc_pack hl _ hx]
    omega
  · simp only [storeIsa_isa, storeIsa_sideCount, hnew, hasSidetableRc_pack hl _ hx]
    simp
  · have hroom := h.room
    simp only [storeIsa_sideCount]
    omega
  · have hr := h.returned
    simpa only [storeIsa_isa, storeIsa_tally, hnd, hdead] using hr

theorem clearExtraRC (h : Balanced g 0 delta pending) (hz : g.sideCount = 0) :
    Balanced (g.setRefcnts (sidetableClearExtraRCNolock g.refcnts)) 0 delta pending := by
  have hside : (g.setRefcnts (sidetableClearExtraRCNolock g.refcnts)).sideCount =
      g.sideCount := by rw [hz]; rfl
  refine ⟨?_, ?_, ?_, ?_, ?_, h.returned⟩
  · rw [hside, hz]; exact HoldsCount.none
  · rw [hside]; exact h.half
  · rw [hside]; exact h.count
  · rw [hside]; exact h.side
  · rw [hside]; exact h.room

end Balanced

theorem Quiet.deadRetain (g : Shared L τ) (self) : Quiet g (g.finish (.retain self false)) :=
  ⟨rfl, rfl, rfl, rfl, fun h => h.finishDeadRetain self⟩

theorem Quiet.deadRelease (g : Shared L τ) (performDealloc) :
    Quiet g (g.finish (.release performDealloc false false)) :=
  ⟨rfl, rfl, rfl, rfl, fun h => h.finishDeadRelease performDealloc⟩

variable {g : Shared L τ}

theorem Quiet.fastRetain (hd : isDeallocating g.isa = false) (hx : extraRc g.isa + 1 < L.rcRange) :
    Quiet g ((g.storeIsa (retainWord false g.isa)).finish (.retain true true)) := by
  have hl := low_lt g.isa
  refine ⟨rfl, rfl, ?_, ?_, fun h => (h.storeRetain hd hx).finishRetain true⟩
  · exact hasSidetableRc_pack hl _ hx
  · exact nonpointer_pack _ _ hx

theorem Quiet.fastRelease (performDealloc) (hx : 0 < extraRc g.isa) {newisa}
    (hnew : newisa = pack L (low g.isa) (hasSidetableRc g.isa) (extraRc g.isa - 1)) :
    Quiet g ((g.storeIsa newisa).finish
      (.release performDealloc (isDeallocating newisa) true)) := by
  have hl := low_lt g.isa
  have hlt : extraRc g.isa - 1 < L.rcRange := by have := extraRc_lt g.isa; omega
  refine ⟨rfl, rfl, ?_, ?_, fun h => (h.storeRelease hx hnew).finishRelease performDealloc⟩
  · exact hnew ▸ hasSidetableRc_pack hl _ hlt
  · exact hnew ▸ nonpointer_pack _ _ hlt

/-! ### The code between two atomic steps -/

/-- The outcome of code that starts and ends with the lock in the same hands and
nothing on the way. -/
structure Continues (g : Shared L τ) (locked : Bool) (r : Shared L τ × Pc L) : Prop where
  quiet : Quiet g r.1
  holds : r.2.holdsLock = locked
  transit : r.2.transit = 0
  delta : r.2.delta = 0
  pending : r.2.pendingTrue = 0
  localOk : LocalOk r.1 r.2

theorem retainLoop_continues {variant : RRVariant} {locked : Bool}
    (hn : nonpointer g.isa) (hv : locked → variant = .full) :
    Continues g locked ((retainLoop false variant locked g.isa).apply g) := by
  have hl := low_lt g.isa
  have hlt := extraRc_lt g.isa
  have hrange := L.rcRange_eq
  unfold retainLoop
  simp only [hn, Bool.not_true, Bool.false_eq_true, if_false]
  by_cases hd : isDeallocating g.isa
  · simp only [hd, if_true]
    cases locked with
    | true => exact ⟨Quiet.refl g, rfl, rfl, rfl, rfl, ⟨false, rfl⟩⟩
    | false => exact ⟨Quiet.deadRetain g true, rfl, rfl, rfl, rfl, trivial⟩
  simp only [hd, Bool.false_eq_true, if_false]
  rw [not_eq_true] at hd
  by_cases hx : extraRc g.isa + 1 < L.rcRange
  · rw [addc_of_lt hx]
    exact ⟨Quiet.refl g, rfl, rfl, rfl, rfl, rfl, hd, rfl, hv, hx⟩
  · -- the overflow path
    have hmax : extraRc g.isa + 1 = L.rcRange := by omega
    have hcarry : (addc g.isa (rcOnes L 1)).2 := (addc_carry (by omega)).2 (by omega)
    have hnew : setHasSidetableRc (setExtraRc (addc g.isa (rcOnes L 1)).1 L.rcHalf) true =
        retainWord true g.isa := by
      rw [addc_wrap hmax, setExtraRc_eq _ (by omega), setHasSidetableRc_eq,
        low_pack hl _ (by omega), hasSidetableRc_pack hl _ (by omega), low_pack hl _ (by omega),
        extraRc_pack hl _ (by omega), retainWord_true]
    simp only [hcarry, if_true, hnew]
    cases variant with
    | full =>
      cases locked with
      | true => exact ⟨Quiet.refl g, rfl, rfl, rfl, rfl, rfl, hd, rfl, hv, rfl, hmax⟩
      | false => exact ⟨Quiet.refl g, rfl, rfl, rfl, rfl, hmax, rfl⟩
    | fast | fastOrMsgSend =>
      cases locked with
      | true => exact absurd (hv rfl) (by decide)
      | false => exact ⟨Quiet.refl g, rfl, rfl, rfl, rfl, rfl⟩

variable {performDealloc : Bool}

theorem releaseLoop_continues {variant : RRVariant}
    {locked : Bool} (hn : nonpointer g.isa) (hv : locked → variant = .full) :
    Continues g locked ((releaseLoop performDealloc variant locked g.isa).apply g) := by
  unfold releaseLoop
  simp only [hn, Bool.not_true, Bool.false_eq_true, if_false]
  by_cases hd : isDeallocating g.isa
  · simp only [hd, if_true]
    cases locked with
    | true =>
      exact ⟨Quiet.refl g, rfl, rfl, rfl, rfl, performDealloc, false, false, rfl, by simp⟩
    | false => exact ⟨Quiet.deadRelease g performDealloc, rfl, rfl, rfl, rfl, trivial⟩
  simp only [hd, Bool.false_eq_true, if_false]
  by_cases hx : 0 < extraRc g.isa
  · rw [subc_of_pos hx]
    exact ⟨Quiet.refl g, rfl, rfl, rfl, rfl, hx, rfl, hv⟩
  · -- the underflow path: a word that is not deallocating has `has_sidetable_rc`
    have hzero : extraRc g.isa = 0 := by omega
    have hside : hasSidetableRc g.isa := by
      simpa [isDeallocating, hzero] using hd
    simp only [subc_borrow.2 hzero, if_true, underflow, hside]
    cases variant with
    | full =>
      cases locked with
      | true => exact ⟨Quiet.refl g, rfl, rfl, rfl, rfl, hzero, hside⟩
      | false => exact ⟨Quiet.refl g, rfl, rfl, rfl, rfl, trivial⟩
    | fast | fastOrMsgSend =>
      cases locked with
      | true => exact absurd (hv rfl) (by decide)
      | false => exact ⟨Quiet.refl g, rfl, rfl, rfl, rfl, by simp [After.apply, LocalOk]⟩

/-! ### Steps of a thread without the lock -/

variable {t : τ}

/-- A thread without the lock either stays without it and is quiet, or takes
it while it is free. -/
theorem act_unlocked [DecidableEq τ] {a} {g g' : Shared L τ} {pc pc' : Pc L} (hn : nonpointer g.isa)
    (hok : LocalOk g pc) (hpc : pc.holdsLock = false) (h : act t a g pc = some (g', pc')) :
    Continues g false (g', pc') ∨
      (g.slock = none ∧ g' = g.lock t ∧ Continues (g.lock t) true (g', pc')) := by
  cases a with
  | call c =>
    left
    simp only [act] at h
    split at h
    · cases h
      cases c with
      | rootRetain variant => exact ⟨Quiet.refl g, rfl, rfl, rfl, rfl, rfl⟩
      | rootRelease performDealloc variant =>
        exact ⟨Quiet.refl g, rfl, rfl, rfl, rfl, by simp [Call.entry, LocalOk]⟩
    · cases h
  | exec ok =>
    simp only [act] at h
    cases pc with
    | idle => simp [exec] at h
    | retainLoad tryRetain variant =>
      left
      obtain rfl : tryRetain = false := hok
      rw [← some.inj h]
      exact retainLoop_continues hn (by simp)
    | retainLock oldisa newisa =>
      right
      obtain ⟨hx, hnew⟩ := hok
      obtain ⟨hfree, ⟨⟩⟩ := ite_none_right_eq_some.1 h
      have hd : isDeallocating oldisa = false := by
        apply isDeallocating_of_pos
        have := L.rcRange_eq
        omega
      exact ⟨hfree, rfl, Quiet.refl _, rfl, rfl, rfl, rfl, rfl, hd, hnew, fun _ => rfl, rfl, hx⟩
    | retainStore tryRetain variant locked transcribe oldisa newisa =>
      left
      obtain ⟨rfl, hd, hnew, hv, hcase⟩ := hok
      obtain rfl : locked = false := hpc
      cases transcribe with
      | true => exact absurd hcase.1 (by simp)
      | false =>
        rcases store_cases h with ⟨rfl, hr⟩ | hr
        · subst hnew
          have hret : retainStored (L := L) false variant false false =
              .ret (.retain true true) := by
            cases variant <;> rfl
          rw [← hr, hret]
          exact ⟨Quiet.fastRetain hd hcase, rfl, rfl, rfl, rfl, trivial⟩
        · rw [← hr]
          exact retainLoop_continues hn (by simp)
    | retainAddExtraRC tryRetain locked =>
      obtain ⟨-, rfl⟩ := hok
      simp [Pc.holdsLock] at hpc
    | releaseLoad performDealloc variant locked =>
      left
      obtain rfl : locked = false := hpc
      rw [← some.inj h]
      exact releaseLoop_continues hn (by simp)
    | releaseStore performDealloc variant locked oldisa newisa =>
      left
      obtain ⟨hx, hnew, hv⟩ := hok
      obtain rfl : locked = false := hpc
      rcases store_cases h with ⟨rfl, hr⟩ | hr
      · have hret : releaseStored performDealloc variant false newisa =
            .ret (.release performDealloc (isDeallocating newisa) true) := by
          unfold releaseStored deallocate
          cases isDeallocating newisa <;> simp
        rw [← hr, hret]
        exact ⟨Quiet.fastRelease performDealloc hx hnew, rfl, rfl, rfl, rfl, trivial⟩
      · rw [← hr]
        exact releaseLoop_continues hn (by simp)
    | releaseLock performDealloc =>
      right
      obtain ⟨hfree, ⟨⟩⟩ := ite_none_right_eq_some.1 h
      exact ⟨hfree, rfl, Quiet.refl _, rfl, rfl, rfl, rfl, fun _ => rfl⟩
    | retainRawLock | retainRawTry | releaseRawLock _ | retainRaw | releaseRaw _ => exact hok.elim
    | _ => simp [Pc.holdsLock] at hpc

/-! ### Steps of the lock holder -/

/-- Where a step of the lock holder may end: still holding the lock with its
numbers balanced, or with the lock free and everything settled. -/
structure HolderOk (t : τ) (g : Shared L τ) (pc : Pc L) : Prop where
  nonpointer : nonpointer g.isa = true
  localOk : LocalOk g pc
  lock : (pc.holdsLock = true ∧ g.slock = some t ∧
      Balanced g pc.transit pc.delta pc.pendingTrue) ∨
    (pc.holdsLock = false ∧ g.slock = none ∧ Balanced g 0 0 0)

theorem Continues.holderOk {g g' : Shared L τ} {pc'}
    (h : Continues g true (g', pc')) (hn : nonpointer g.isa)
    (hlock : g.slock = some t) (hb : Balanced g 0 0 0) : HolderOk t g' pc' := by
  refine ⟨h.quiet.nonpointer.trans hn, h.localOk, .inl ⟨h.holds, h.quiet.slock.trans hlock, ?_⟩⟩
  rw [h.transit, h.delta, h.pending]
  exact h.quiet.balanced hb

variable (hn : nonpointer g.isa)
include hn

theorem unlockRetain_holderOk {self counted}
    (hb : Balanced g 0 (Pc.retainUnlock (L := L) (.retain self counted)).delta 0) :
    HolderOk t (g.unlock.finish (.retain self counted)) .idle := by
  refine ⟨hn, trivial, .inr ⟨rfl, rfl, ?_⟩⟩
  cases counted with
  | true =>
    have hb' : Balanced g.unlock 0 (0 + 1) 0 := hb.unlock
    exact hb'.finishRetain self
  | false => exact hb.unlock.finishDeadRetain self

theorem unlockRelease_holderOk {performDealloc result counted : Bool} (hr : result → counted)
    (hb : Balanced g 0
      (Pc.releaseUnlock (L := L) (.release performDealloc result counted)).delta
      (Pc.releaseUnlock (L := L) (.release performDealloc result counted)).pendingTrue) :
    HolderOk t (g.unlock.finish (.release performDealloc result counted)) .idle := by
  refine ⟨hn, trivial, .inr ⟨rfl, rfl, ?_⟩⟩
  cases counted with
  | true =>
    have hb' : Balanced g.unlock 0 (0 - 1) (0 + result.toNat) := by
      cases result <;> exact hb.unlock
    exact hb'.finishRelease performDealloc
  | false =>
    cases result with
    | true => cases hr rfl
    | false => exact hb.unlock.finishDeadRelease performDealloc

/-- The store that ends a borrow leads to the unlock of a call that returns
false, through the erasure of an entry that became empty. -/
theorem borrowStored_holderOk (hlock : g.slock = some t) (hb : Balanced g 0 (-1) 0) {g' pc'}
    (h : (borrowStored performDealloc ⟨L.rcHalf, g.sideCount⟩ false).apply g = (g', pc')) :
    HolderOk t g' pc' := by
  unfold borrowStored SidetableBorrow.emptySideTable borrowEnd at h
  by_cases hz : g.sideCount = 0
  · simp only [hz, beq_self_eq_true, if_true, After.apply, Prod.mk.injEq] at h
    obtain ⟨rfl, rfl⟩ := h
    exact ⟨hn, ⟨rfl, hz⟩, .inl ⟨rfl, hlock, hb⟩⟩
  · rw [beq_false_of_ne hz] at h
    obtain ⟨rfl, rfl⟩ := h
    exact ⟨hn, ⟨performDealloc, false, true, rfl, fun _ => rfl⟩, .inl ⟨rfl, hlock, hb⟩⟩

theorem putBack_holderOk {borrow}
    (hlock : g.slock = some t) (hbr : borrow.borrowed = L.rcHalf) (hb : Balanced g L.rcHalf 0 0) :
    HolderOk t g (.releasePutBack performDealloc borrow) :=
  ⟨hn, hbr, .inl ⟨rfl, hlock, by simpa only [Pc.transit, Pc.delta, Pc.pendingTrue, hbr] using hb⟩⟩

theorem borrowRetry_holderOk (hlock : g.slock = some t) (hb : Balanced g L.rcHalf 0 0) {g' pc'}
    (h : (borrowRetry performDealloc ⟨L.rcHalf, g.sideCount⟩ g.isa).apply g = (g', pc')) :
    HolderOk t g' pc' := by
  have hl := low_lt g.isa
  have hhalf := L.two_le_rcHalf
  have hrange := L.rcRange_eq
  unfold borrowRetry at h
  simp only [hn, if_true] at h
  by_cases hx : extraRc g.isa + (L.rcHalf - 1) < L.rcRange
  · rw [addc_of_lt hx] at h
    obtain ⟨rfl, rfl⟩ := h
    refine ⟨hn, ⟨rfl, hx, ?_⟩, .inl ⟨rfl, hlock, hb⟩⟩
    rw [setHasSidetableRc_eq, low_pack hl _ hx, extraRc_pack hl _ hx]
  · have hcarry : (addc g.isa (rcOnes L (L.rcHalf - 1))).2 := (addc_carry (by omega)).2 (by omega)
    simp only [hcarry, Bool.not_true, Bool.false_eq_true, if_false, After.apply, Prod.mk.injEq] at h
    obtain ⟨rfl, rfl⟩ := h
    exact putBack_holderOk hn hlock rfl hb

omit hn

theorem act_locked [DecidableEq τ] {a g g'} {pc pc' : Pc L} (hI : SharedOk g) (hA : ThreadOk t g pc)
    (hpc : pc.holdsLock) (h : act t a g pc = some (g', pc')) : HolderOk t g' pc' := by
  have hn := hI.nonpointer
  have hlock := hA.lock.1 hpc
  have hb := hA.balanced hpc
  have hok := hA.localOk
  cases a with
  | call c =>
    simp only [act] at h
    split at h
    next hidle => rw [hidle] at hpc; simp [Pc.holdsLock] at hpc
    · cases h
  | exec ok =>
    simp only [act] at h
    cases pc with
    | retainStore tryRetain variant locked transcribe oldisa newisa =>
      obtain ⟨rfl, hd, hnew, hv, hcase⟩ := hok
      obtain rfl : locked := hpc
      obtain rfl : variant = .full := hv rfl
      rcases store_cases h with ⟨rfl, hr⟩ | hr
      · subst hnew
        cases transcribe with
        | true =>
          cases hr
          have hhalf := L.two_le_rcHalf
          have hrange := L.rcRange_eq
          refine ⟨(nonpointer_pack _ _ (by omega)).trans hn, ⟨rfl, rfl⟩,
            .inl ⟨rfl, hlock, hb.storeOverflow hI.bound hcase.2⟩⟩
        | false =>
          cases hr
          refine ⟨(nonpointer_pack _ _ hcase).trans hn, ⟨true, rfl⟩,
            .inl ⟨rfl, hlock, hb.storeRetain hd hcase⟩⟩
      · exact (hr ▸ retainLoop_continues hn (fun _ => rfl) :
          Continues g true (g', pc')).holderOk hn hlock hb
    | retainAddExtraRC tryRetain locked =>
      obtain ⟨rfl, rfl⟩ := hok
      cases h
      exact ⟨hn, ⟨true, rfl⟩, .inl ⟨rfl, hlock, hb.addExtraRC⟩⟩
    | retainUnlock r =>
      obtain ⟨counted, rfl⟩ := hok
      cases h
      exact unlockRetain_holderOk hn hb
    | releaseLoad performDealloc variant locked =>
      obtain rfl : locked := hpc
      obtain rfl : variant = .full := hok rfl
      rw [exec, some.injEq] at h
      exact (h ▸ releaseLoop_continues hn (fun _ => rfl) :
        Continues g true (g', pc')).holderOk hn hlock hb
    | releaseStore performDealloc variant locked oldisa newisa =>
      obtain ⟨hx, hnew, hv⟩ := hok
      obtain rfl : locked := hpc
      obtain rfl : variant = .full := hv rfl
      rcases store_cases h with ⟨rfl, hr⟩ | hr
      · have hlt : extraRc g.isa - 1 < L.rcRange := by
          have := extraRc_lt g.isa; omega
        have hret : releaseStored performDealloc .full true newisa = .goto (.releaseUnlock
              (.release performDealloc (isDeallocating newisa) true)) := by
          unfold releaseStored deallocate
          cases isDeallocating newisa <;> simp
        rw [hret] at hr
        cases hr
        refine ⟨?_, ⟨performDealloc, _, true, rfl, fun _ => rfl⟩, .inl ⟨rfl, hlock, ?_⟩⟩
        · exact (hnew ▸ nonpointer_pack _ _ hlt : nonpointer newisa = _).trans hn
        · have hst := hb.storeRelease hx hnew
          cases hd : isDeallocating newisa <;> rw [hd] at hst <;> exact hst
      · exact (hr ▸ releaseLoop_continues hn (fun _ => rfl) :
          Continues g true (g', pc')).holderOk hn hlock hb
    | releaseSubExtraRC performDealloc oldisa =>
      obtain ⟨hx, hs⟩ := hok
      obtain ⟨hbr, hside, hbal⟩ := hb.subExtraRC hs
      have hhalf := L.two_le_rcHalf
      have hrange := L.rcRange_eq
      simp only [exec, hbr, borrowed] at h
      rw [if_pos (by omega)] at h
      cases h
      refine ⟨hn, ⟨by rw [hside], hx, ?_⟩, .inl ⟨rfl, hlock, hbal⟩⟩
      rw [setExtraRc_eq _ (by omega), setHasSidetableRc_eq,
        low_pack (low_lt oldisa) _ (by omega), extraRc_pack (low_lt oldisa) _ (by omega)]
    | releaseBorrowStore performDealloc borrow oldisa newisa =>
      obtain ⟨rfl, hx, hnew⟩ := hok
      have hhalf := L.two_le_rcHalf
      have hrange := L.rcRange_eq
      rcases store_cases h with ⟨rfl, hr⟩ | hr
      · have hnew' : newisa = pack L (low g.isa) (!(g.sideCount == 0))
            (extraRc g.isa + (L.rcHalf - 1)) := by
          rw [hnew, hx, zero_add]; rfl
        obtain ⟨hst, -⟩ := hb.storeBorrow (by omega) hnew'
        refine borrowStored_holderOk (g := g.storeIsa newisa) ?_ hlock hst hr
        exact (hnew' ▸ nonpointer_pack _ _ (by omega) : nonpointer newisa = _).trans hn
      · exact borrowRetry_holderOk hn hlock hb hr
    | releaseBorrowRetry performDealloc borrow oldisa newisa =>
      obtain ⟨rfl, hx, hnew⟩ := hok
      rcases store_cases h with ⟨rfl, hr⟩ | hr
      · obtain ⟨hst, hnd⟩ := hb.storeBorrow hx hnew
        rw [hnd] at hr
        refine borrowStored_holderOk (g := g.storeIsa newisa) ?_ hlock hst hr
        exact (hnew ▸ nonpointer_pack _ _ hx : nonpointer newisa = _).trans hn
      · cases hr
        exact putBack_holderOk hn hlock rfl hb
    | releasePutBack performDealloc borrow =>
      cases h
      have hbr : borrow.borrowed = L.rcHalf := hok
      have hb' : Balanced g L.rcHalf 0 0 := hbr ▸ hb
      exact ⟨hn, fun _ => rfl, .inl ⟨rfl, hlock, hbr ▸ hb'.addExtraRC⟩⟩
    | releaseClearExtraRC performDealloc didTransition =>
      obtain ⟨rfl, hz⟩ := hok
      cases h
      exact ⟨hn, ⟨performDealloc, false, true, rfl, fun _ => rfl⟩,
        .inl ⟨rfl, hlock, hb.clearExtraRC hz⟩⟩
    | releaseUnlock r =>
      obtain ⟨performDealloc, result, counted, rfl, hr⟩ := hok
      cases h
      exact unlockRelease_holderOk hn hr hb
    | retainRaw | releaseRaw _ => exact hok.elim
    | _ => simp [Pc.holdsLock] at hpc

/-! ### Every interleaving -/

/-- A step of thread `t` after which the logical count is in range. -/
def CountedLocal [DecidableEq τ] (t : τ) (g : Shared L τ) (pc : Pc L) (g' : Shared L τ)
    (pc' : Pc L) : Prop :=
  (∃ a, act t a g pc = some (g', pc')) ∧ g'.tally.logicalCount ≤ maxCount L

/-- A step of the machine after which the logical count is in range. -/
abbrev CountedStep [DecidableEq τ] : State L τ → State L τ → Prop :=
  Lib.Interleave CountedLocal

theorem ThreadOk.step [DecidableEq τ] {g g' : Shared L τ} {pc pc' : Pc L}
    (hI : SharedOk g) (hA : ThreadOk t g pc) (h : CountedLocal t g pc g' pc') :
    SharedOk g' ∧ ThreadOk t g' pc' := by
  obtain ⟨⟨a, ha⟩, hbound⟩ := h
  by_cases hpc : pc.holdsLock
  · have hH := act_locked hI hA hpc ha
    rcases hH.lock with ⟨hholds, hlock, hb⟩ | ⟨hholds, hfree, hb⟩
    · refine ⟨⟨hH.nonpointer, hbound, ?_⟩, ⟨?_, fun _ => hb, hH.localOk⟩⟩
      · intro hnone; rw [hlock] at hnone; cases hnone
      · simp only [hholds, hlock]
    · refine ⟨⟨hH.nonpointer, hbound, fun _ => hb⟩, ⟨?_, ?_, hH.localOk⟩⟩
      · simp [hholds, hfree]
      · intro hyes; rw [hholds] at hyes; cases hyes
  · rw [not_eq_true] at hpc
    have hmine : g.slock ≠ some t := fun heq => by
      rw [hA.lock.2 heq] at hpc; cases hpc
    rcases act_unlocked hI.nonpointer hA.localOk hpc ha with hc | ⟨hfree, rfl, hc⟩
    · have hq := hc.quiet
      refine ⟨⟨hq.nonpointer.trans hI.nonpointer, hbound, ?_⟩, ⟨?_, ?_, hc.localOk⟩⟩
      · intro hnone; exact hq.balanced (hI.free (hq.slock ▸ hnone))
      · have hholds : pc'.holdsLock = false := hc.holds
        have hsame : g'.slock = g.slock := hq.slock
        simp [hholds, hsame, hmine]
      · intro hyes
        have hholds : pc'.holdsLock = false := hc.holds
        rw [hholds] at hyes; cases hyes
    · have hholds : pc'.holdsLock := hc.holds
      refine ⟨⟨hI.nonpointer, hbound, ?_⟩, ⟨?_, fun _ => ?_, hc.localOk⟩⟩
      · intro hnone; cases hnone
      · simp [hholds]
      · have htr : pc'.transit = 0 := hc.transit
        have hde : pc'.delta = 0 := hc.delta
        have hpe : pc'.pendingTrue = 0 := hc.pending
        rw [htr, hde, hpe]
        exact (hI.free hfree).lock t

theorem ThreadOk.stable [DecidableEq τ] {t u : τ} {g g' : Shared L τ} {pc pc' m : Pc L}
    (hne : u ≠ t) (hI : SharedOk g) (hA : ThreadOk t g pc) (hU : ThreadOk u g m)
    (h : CountedLocal t g pc g' pc') : ThreadOk u g' m := by
  obtain ⟨⟨a, ha⟩, -⟩ := h
  by_cases hpc : pc.holdsLock
  · -- `t` has the lock, so `u` does not and reads nothing shared
    have hlock := hA.lock.1 hpc
    have hm : m.holdsLock = false := by
      rw [← not_eq_true, hU.lock, hlock, some.injEq]
      exact fun heq => hne heq.symm
    have hother : g'.slock ≠ some u := by
      rcases (act_locked hI hA hpc ha).lock with ⟨-, hl, -⟩ | ⟨-, hl, -⟩
      · rw [hl, ne_eq, some.injEq]; exact fun heq => hne heq.symm
      · rw [hl]; simp
    refine ⟨?_, ?_, hU.localOk.of_unlocked hm⟩
    · simp [hm, hother]
    · intro hyes; rw [hm] at hyes; cases hyes
  · rw [not_eq_true] at hpc
    rcases act_unlocked hI.nonpointer hA.localOk hpc ha with hc | ⟨hfree, rfl, -⟩
    · have hq := hc.quiet
      have hsame : g'.slock = g.slock := hq.slock
      refine ⟨?_, fun hm => hq.balanced (hU.balanced hm), hU.localOk.congr hq.side hq.refcnts⟩
      rw [hsame]; exact hU.lock
    · have hm : m.holdsLock = false := by
        rw [← not_eq_true, hU.lock, hfree]; simp
      refine ⟨?_, ?_, hU.localOk.of_unlocked hm⟩
      · simp [hm, Ne.symm hne]
      · intro hyes; rw [hm] at hyes; cases hyes

theorem initState_holds {isa : L.Word} (h0 : IsInstanceIsa isa) :
    Lib.Holds SharedOk ThreadOk (initState τ isa) := by
  obtain ⟨hn, hx, hs⟩ := h0
  have hhalf := L.two_le_rcHalf
  have hmax : L.rcHalf ≤ maxCount L := by
    have h2 := L.two_le_rcShift
    unfold IsaLayout.rcHalf maxCount IsaLayout.wordBits
    exact Nat.pow_le_pow_right (by decide) (by omega)
  refine ⟨⟨hn, ?_, fun _ => ⟨HoldsCount.none, ?_, ?_, ?_, ?_, ?_⟩⟩, fun t => ⟨?_, ?_, trivial⟩⟩
  · simp only [initState, Tally.zero, Tally.logicalCount]
    omega
  · exact dvd_zero _
  · simp [initState, Tally.zero, Tally.logicalCount, hx, sideCount, sidetableGetExtraRCNolock]
  · simp [initState, hs, sideCount, sidetableGetExtraRCNolock]
  · simpa [initState, sideCount, sidetableGetExtraRCNolock] using hmax
  · simp [initState, Tally.zero, isDeallocating, hx]
  · simp [initState, Pc.holdsLock]
  · intro hyes; simp [initState, Pc.holdsLock] at hyes

theorem run_holds [DecidableEq τ] {isa : L.Word} (h0 : IsInstanceIsa isa) {s : State L τ}
    (hrun : ReflTransGen CountedStep (initState τ isa) s) : Lib.Holds SharedOk ThreadOk s := by
  refine Lib.run_preserves ?_ (initState_holds h0) hrun
  intro a b ha hstep
  refine Lib.Interleave.preserves ?_ ?_ ha hstep
  · intro t g l g' l' hI hA h
    exact hA.step hI h
  · intro t u g l g' l' m hne hI hA hU h
    exact hA.stable hne hI hU h

end ObjcRuntime
