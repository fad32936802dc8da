import ObjcRuntime.RefCount.Alone
import ObjcRuntime.RefCount.ClassChange
import ObjcRuntime.RefCount.RawCount

/-!
# ObjcRuntime.RefCount.CountMove

What a change to a class that requires a raw isa does to the reference count.

`changeIsa` moves the count from `extra_rc` and the side table into the side table
alone, where the count is stored minus one: `sidetable_moveExtraRC_nolock` adds
`extra_rc - 1`. While `extra_rc` is not 0 that is right. An object whose references
are all in the side table has `extra_rc` 0; then the subtraction wraps around, the
addition carries, and the object is pinned.
-/

namespace ObjcRuntime.ClassChange

open Isa Relation RawCount Nat

variable {L : IsaLayout} {τ : Type} {F : IsaFormat L}

/-- `rootRetainCount` -/
def rootRetainCount (g : Shared L τ) : Nat :=
  if nonpointer g.isa then
    extraRc g.isa + if hasSidetableRc g.isa then sidetableGetExtraRCNolock g.refcnts else 0
  else sidetableRetainCount g.refcnts

/-- A call of `changeIsa` that no other thread disturbs. -/
def changeIsaAlone (cls : Target F) (g : Shared L τ) : Shared L τ :=
  let stored := g.storeIsa (newisaFrom cls 0 g.isa)
  if !toNonpointer cls g.isa && nonpointer g.isa then
    stored.setRefcnts (sidetableMoveExtraRCNolock g.refcnts (extraRc g.isa)
      (isDeallocating g.isa) (weaklyReferenced F g.isa))
  else stored

variable {g : Shared L τ}

/-- A step of thread `t` within a call of `changeIsa`. -/
def CallStep [DecidableEq τ] (t : τ) (p q : Shared L τ × Control F) : Prop :=
  Step t p.1 p.2 q.1 q.2 ∧ ∃ pc, p.2 = .changing pc

/-- Does the call move the count? -/
def movesCount (cls : Target F) (isa : L.Word) : Bool := !toNonpointer cls isa && nonpointer isa

/-- Where a call on the object `g` is that no other thread disturbs. -/
inductive Undisturbed (t : τ) (cls : Target F) (g : Shared L τ) : Shared L τ → Control F → Prop
  | load : Undisturbed t cls g g (.changing (.load cls))
  | lock {attempts} : movesCount cls g.isa = true →
      Undisturbed t cls g g (.changing (.lock cls g.isa (newisaFrom cls 0 g.isa) attempts))
  | store {attempts} : movesCount cls g.isa = false →
      Undisturbed t cls g g
        (.changing (.store cls false false g.isa (newisaFrom cls 0 g.isa) attempts))
  | lockedStore {attempts} : movesCount cls g.isa = true →
      Undisturbed t cls g (g.lock t)
        (.changing (.store cls true true g.isa (newisaFrom cls 0 g.isa) attempts))
  | move : movesCount cls g.isa = true →
      Undisturbed t cls g ((g.lock t).storeIsa (newisaFrom cls 0 g.isa))
        (.changing (.moveExtraRC g.isa))
  | unlock {k} : k.unlock = changeIsaAlone cls g →
      Undisturbed t cls g k (.changing .unlock)
  | returned : Undisturbed t cls g (changeIsaAlone cls g) (.counting .idle)

/-- An attempt leaves in `newisa` what the next one would start from. -/
theorem newisaFrom_newisaFrom (cls : Target F) (isa : L.Word) :
    newisaFrom cls (newisaFrom cls 0 isa) isa = newisaFrom cls 0 isa := by
  unfold newisaFrom
  split
  · rfl
  · refine BitVec.eq_of_getLsbD_eq fun i _ => ?_
    simp only [setClass, getLsbD_setMasked]
    split <;> rfl

theorem changeLoop_eq (cls : Target F) (locked : Bool) (oldisa newisa : L.Word) (attempts) :
    changeLoop cls locked oldisa newisa attempts =
      if movesCount cls oldisa then
        if locked then .store cls true true oldisa (newisaFrom cls newisa oldisa) attempts
        else .lock cls oldisa (newisaFrom cls newisa oldisa) attempts
      else .store cls locked false oldisa (newisaFrom cls newisa oldisa) attempts := by
  unfold changeLoop movesCount
  cases toNonpointer cls oldisa <;> cases nonpointer oldisa <;> cases locked <;> rfl

section

variable {t : τ} {cls : Target F}

theorem Undisturbed.loop {newisa : L.Word} (attempts)
    (hnew : newisaFrom cls newisa g.isa = newisaFrom cls 0 g.isa) :
    Undisturbed t cls g g (.changing (changeLoop cls false g.isa newisa attempts)) := by
  rw [changeLoop_eq, hnew]
  split
  next hmoves => exact .lock hmoves
  next hmoves => exact .store (by simpa using hmoves)

theorem changeIsaAlone_of_not_moves (h : movesCount cls g.isa = false) :
    changeIsaAlone cls g = g.storeIsa (newisaFrom cls 0 g.isa) := by
  unfold changeIsaAlone
  exact if_neg (ne_true_of_eq_false h)

theorem unlock_eq_changeIsaAlone (hfree : g.slock = none) (h : movesCount cls g.isa = true) :
    (((g.lock t).storeIsa (newisaFrom cls 0 g.isa)).setRefcnts
      (sidetableMoveExtraRCNolock g.refcnts (extraRc g.isa) (isDeallocating g.isa)
        (weaklyReferenced F g.isa))).unlock = changeIsaAlone cls g := by
  refine Eq.trans ?_ (if_pos h).symm
  cases g
  subst hfree
  rfl

variable [DecidableEq τ]

/-- **One step of the call.** -/
theorem Undisturbed.step (hfree : g.slock = none) {k k' : Shared L τ} {c c' : Control F}
    (h : Undisturbed t cls g k c) (hstep : CallStep t (k, c) (k', c')) :
    Undisturbed t cls g k' c' := by
  obtain ⟨hstep, pc, hpc⟩ := hstep
  cases h with
  | load =>
    cases hstep with
    | load => exact .loop [] rfl
  | lock hmoves =>
    cases hstep with
    | lock => exact .lockedStore hmoves
  | store hmoves =>
    cases hstep with
    | store =>
      change Undisturbed t cls g (g.storeIsa (newisaFrom cls 0 g.isa)) _
      rw [← changeIsaAlone_of_not_moves hmoves]
      exact .returned
    | storeFails => exact .loop _ (newisaFrom_newisaFrom cls g.isa)
  | lockedStore hmoves =>
    cases hstep with
    | store => exact .move hmoves
    | storeFails =>
      change Undisturbed t cls g (g.lock t) (.changing (changeLoop cls true g.isa _ _))
      rw [changeLoop_eq, if_pos hmoves, if_pos rfl, newisaFrom_newisaFrom]
      exact .lockedStore hmoves
  | move hmoves =>
    cases hstep with
    | moveExtraRC =>
      exact .unlock (unlock_eq_changeIsaAlone hfree hmoves)
  | unlock hdone =>
    cases hstep with
    | unlock =>
      change Undisturbed t cls g k.unlock _
      rw [hdone]
      exact .returned
  | returned => cases hpc

/-- **An undisturbed call of `changeIsa`.** It begins, it can come to its end, and however
often its store fails it leaves the object as `changeIsaAlone` says. -/
theorem changeIsaAlone_run (t : τ) (cls : Target F) {pcs : τ → Control F}
    (hpcs : pcs t = .counting .idle) (hfree : g.slock = none) :
    Lib.Interleave Step ⟨g, pcs⟩ ⟨g, Function.update pcs t (.changing (.load cls))⟩ ∧
    ReflTransGen (Lib.Interleave Step) ⟨g, Function.update pcs t (.changing (.load cls))⟩
      ⟨changeIsaAlone cls g, pcs⟩ ∧
    ∀ k pc, ReflTransGen (CallStep t) (g, .changing (.load cls)) (k, .counting pc) →
      k = changeIsaAlone cls g ∧ pc = .idle := by
  refine ⟨.step ?_, ?_, fun k pc hrun => ?_⟩
  · dsimp only
    rw [hpcs]
    exact .call cls
  · have hlocal : ReflTransGen (fun p q : Shared L τ × Control F => Step t p.1 p.2 q.1 q.2)
        (g, .changing (.load cls)) (changeIsaAlone cls g, .counting .idle) := by
      refine .head (b := (g, .changing (changeLoop cls false g.isa 0 []))) Step.load ?_
      rw [changeLoop_eq]
      split
      next hmoves =>
        rw [if_neg Bool.false_ne_true, ← unlock_eq_changeIsaAlone hfree hmoves]
        refine .head (b := (g.lock t, _)) (Step.lock hfree) ?_
        refine .head (b := ((g.lock t).storeIsa _, _)) Step.store ?_
        refine .head (b := (((g.lock t).storeIsa _).setRefcnts _, _)) Step.moveExtraRC ?_
        exact .single Step.unlock
      next hmoves =>
        rw [changeIsaAlone_of_not_moves (Bool.eq_false_iff.2 hmoves)]
        exact .single Step.store
    have hrun := Lib.Interleave.alone pcs hlocal
    rwa [← hpcs, Function.update_eq_self] at hrun
  · have hundisturbed : Undisturbed t cls g k (.counting pc) :=
      Lib.run_preserves (P := fun p : Shared L τ × Control F => Undisturbed t cls g p.1 p.2)
        (fun p q hp hstep => hp.step hfree hstep) .load hrun
    cases hundisturbed with
    | returned => exact ⟨rfl, rfl⟩

end

/-- A change to a class that requires a raw isa. -/
theorem changeIsaAlone_run_raw :
    let s := initState .x86_64 Unit instanceIsa none
    ReflTransGen (Lib.Interleave Step)
      ⟨s.shared, Function.update s.pcs () (.changing (.load rawClass))⟩
      ⟨changeIsaAlone rawClass s.shared, s.pcs⟩ ∧
    movesCount rawClass s.shared.isa = true ∧
    (changeIsaAlone rawClass s.shared).isa ≠ s.shared.isa :=
  ⟨(changeIsaAlone_run () rawClass rfl rfl).2.1, by decide, by decide⟩

/-! ### The move -/

/-- `(extra_rc - 1) << SIDE_TABLE_RC_SHIFT` for an `extra_rc` that is not 0. -/
theorem toNat_moved {x} (hpos : 0 < x) (hx : x < L.rcRange) :
    ((BitVec.ofNat L.wordBits x - 1) <<< 2).toNat = 4 * (x - 1) := by
  have hbits : 4 * L.rcRange ≤ 2 ^ L.wordBits := by
    have h := L.two_le_rcShift
    calc 4 * 2 ^ L.rcBits = 2 ^ (2 + L.rcBits) := by rw [Nat.pow_add]
      _ ≤ 2 ^ (L.rcShift + L.rcBits) := Nat.pow_le_pow_right (by decide) (by omega)
  have hone : (1 : L.Word).toNat = 1 := WeakVars.flag_toNat (n := 1) (by decide)
  have hsub : (BitVec.ofNat L.wordBits x - 1).toNat = x - 1 := by
    rw [BitVec.toNat_sub_of_le, BitVec.toNat_ofNat, mod_eq_of_lt (by omega), hone]
    rw [BitVec.le_def, BitVec.toNat_ofNat, mod_eq_of_lt (by omega), hone]
    exact hpos
  rw [BitVec.toNat_shiftLeft, hsub, shiftLeft_eq, mod_eq_of_lt (by omega)]
  omega

/-- For an `extra_rc` of 0 it wraps around. -/
theorem toNat_moved_zero : ((BitVec.ofNat L.wordBits 0 - 1) <<< 2).toNat = 2 ^ L.wordBits - 4 := by
  have hw := two_pow_wordBits_eq L
  have hone : (1 : L.Word).toNat = 1 := WeakVars.flag_toNat (n := 1) (by decide)
  rw [BitVec.toNat_shiftLeft, BitVec.toNat_sub, hone, BitVec.toNat_ofNat, shiftLeft_eq]
  rw [zero_mod, add_zero, mod_eq_of_lt (show 2 ^ L.wordBits - 1 < 2 ^ L.wordBits by omega)]
  rw [show (2 ^ L.wordBits - 1) * 2 ^ 2 = 2 ^ L.wordBits - 4 + 2 ^ L.wordBits * 3 by omega,
    add_mul_mod_self_left, mod_eq_of_lt (by omega)]

/-- The whole count arrives in the entry, less one. -/
theorem moveExtraRC_reads {entry : Option L.Word} {n x : Nat} (h : HoldsCount entry n)
    (hpos : 0 < x) (hx : x < L.rcRange) (hlt : n + (x - 1) < maxCount L) (weak) :
    Reads (sidetableMoveExtraRCNolock entry x false weak) (n + (x - 1)) false weak := by
  have hw := two_pow_wordBits_eq L
  have hmoved := toNat_moved (L := L) hpos hx
  unfold HoldsCount at h
  have hcarry : (addc (entry.getD 0) ((BitVec.ofNat L.wordBits x - 1) <<< 2)).2 = false := by
    simp only [addc, h, hmoved, decide_eq_false_iff_not]
    omega
  have hsum : (addc (entry.getD 0) ((BitVec.ofNat L.wordBits x - 1) <<< 2)).1.toNat =
      word (n + (x - 1)) false false := by
    simp only [addc, BitVec.toNat_add, h, hmoved]
    rw [mod_eq_of_lt (by omega)]
    simp only [word, Bool.toNat_false]
    omega
  have hone : (sideTableWeaklyReferenced L).toNat = 1 := WeakVars.flag_toNat (by omega)
  refine ⟨?_, hlt⟩
  unfold sidetableMoveExtraRCNolock
  simp only [hcarry, Bool.false_eq_true, if_false, Option.getD_some]
  cases weak with
  | false => exact hsum
  | true =>
    rw [if_pos rfl, BitVec.toNat_or, hsum, hone, word_or_one]

/-- With `extra_rc` 0 and counts in the side table the object is pinned. -/
theorem moveExtraRC_pinned {entry : Option L.Word} {n : Nat} (h : HoldsCount entry n)
    (hpos : 0 < n) (weak) : isPinned ((sidetableMoveExtraRCNolock entry 0 false weak).getD 0) := by
  have hw := two_pow_wordBits_eq L
  have hp := two_pow_pinned_eq L
  unfold HoldsCount at h
  have hcarry : (addc (entry.getD 0) ((BitVec.ofNat L.wordBits 0 - 1) <<< 2)).2 := by
    simp only [addc, h, toNat_moved_zero, decide_eq_true_eq]
    omega
  have hpin : (sideTableRcPinned L).toNat = 2 ^ (L.wordBits - 1) := by
    unfold sideTableRcPinned
    rw [BitVec.toNat_ofNat, mod_eq_of_lt (by omega)]
  unfold sidetableMoveExtraRCNolock isPinned
  simp only [hcarry, if_true, Bool.false_eq_true, if_false, Option.getD_some, decide_eq_true_eq]
  cases weak with
  | false => rw [if_neg (by simp), hpin]
  | true =>
    rw [if_pos rfl, BitVec.toNat_or, hpin]
    exact left_le_or

/-! ### Releases of a raw isa -/

/-- An object with a raw isa, between calls, that holds `n` references. -/
structure RawLive (g : Shared L τ) (n : Nat) : Prop where
  raw : nonpointer g.isa = false
  free : g.slock = none
  pos : 0 < n
  reads : ∃ weak, Reads g.refcnts (n - 1) false weak

theorem releaseAlone_raw [DecidableEq τ] {t performDealloc variant}
    (hraw : nonpointer g.isa = false) (hfree : g.slock = none) :
    releaseAlone t performDealloc variant g =
      some ((((g.lock t).setRefcnts (sidetableRelease g.refcnts).1).unlock).finish
        (.release performDealloc (sidetableRelease g.refcnts).2 true)) := by
  have hload : exec t true g (.releaseLoad performDealloc variant false) =
      some (g, .releaseRawLock performDealloc) := by
    simp only [exec, releaseLoop, hraw, Bool.not_false, if_true, Bool.false_eq_true, if_false,
      After.apply]
  have hlock : exec t true g (.releaseRawLock performDealloc) =
      some (g.lock t, .releaseRaw performDealloc) := by
    simp only [exec, hfree, if_true]
  rw [releaseAlone, runAlone_exec (by simp) hload, runAlone_exec (by simp) hlock,
    runAlone_exec (by simp) rfl, runAlone_exec (by simp) rfl, runAlone_idle]
  rfl

theorem RawLive.deallocatesAfter [DecidableEq τ] {t performDealloc variant n}
    (h : RawLive g (n + 1)) :
    DeallocatesAfter t performDealloc variant g (n + 1) := by
  refine deallocatesAfter_of_live RawLive (fun g n h => ?_) h
  obtain ⟨weak, hreads⟩ := h.reads
  refine ⟨_, releaseAlone_raw h.raw h.free, ?_, fun hne => ?_⟩
  · cases n with
    | zero =>
      rw [hreads.release_last.2]
      rfl
    | succ m =>
      rw [hreads.release.2]
      rfl
  · obtain ⟨m, rfl⟩ := exists_eq_succ_of_ne_zero hne
    exact ⟨h.raw, rfl, succ_pos m, weak, hreads.release.1⟩

/-! ### The count across a class change -/

theorem quiescent_of_run [DecidableEq τ] {isa} (h0 : IsInstanceIsa isa) {s : State L τ}
    (hrun : ReflTransGen CountedStep (ObjcRuntime.initState τ isa) s)
    (hidle : ∀ t, s.pcs t = .idle) : ∃ n, Quiescent s.shared n ∧ n ≤ maxCount L := by
  have hs := run_holds h0 hrun
  have hfree : s.shared.slock = none := by
    cases hlock : s.shared.slock with
    | none => rfl
    | some t =>
      have hholds := (hs.2 t).lock.2 hlock
      rw [hidle t] at hholds
      cases hholds
  have hb := hs.1.free hfree
  have hc := hb.count
  have hbound := hs.1.bound
  exact ⟨(extraRc s.shared.isa + s.shared.sideCount), ⟨hs.1.nonpointer, hfree, hb, by omega⟩,
    by omega⟩

theorem rootRetainCount_eq {n} (h : Quiescent g n) : rootRetainCount g = n := by
  have htotal := h.total
  have hside := h.balanced.side
  unfold rootRetainCount
  rw [if_pos h.nonpointer]
  split
  · exact htotal
  next hno =>
    have hzero : g.sideCount = 0 := by
      by_contra hne
      exact hno (hside.2 (by omega))
    omega

theorem changeIsaAlone_raw (hn : nonpointer g.isa) (hlive : isDeallocating g.isa = false)
    {cls : Target F} (hcls : cls.allowsNonpointer = false) :
    changeIsaAlone cls g = (g.storeIsa cls.pointer).setRefcnts
      (sidetableMoveExtraRCNolock g.refcnts (extraRc g.isa) false
        (weaklyReferenced F g.isa)) := by
  have hto : toNonpointer cls g.isa = false := by
    unfold toNonpointer
    rw [hcls, Bool.and_false]
  unfold changeIsaAlone newisaFrom
  simp only [hto, hn, Bool.not_false, Bool.and_self, if_true, Bool.false_eq_true, if_false,
    setClass_zero, hlive]

/-- An object whose references are all in the side table is pinned by the change. -/
theorem changeIsaAlone_pins {n} (hq : Quiescent g n) (hlive : isDeallocating g.isa = false)
    (hzero : extraRc g.isa = 0) {cls : Target F} (hcls : cls.allowsNonpointer = false) :
    isPinned ((changeIsaAlone cls g).refcnts.getD 0) := by
  have htotal := hq.total
  have hpos : n ≠ 0 := by
    intro hz
    rw [hq.isDeallocating_iff.2 hz] at hlive
    cases hlive
  rw [changeIsaAlone_raw hq.nonpointer hlive hcls, hzero, Shared.setRefcnts_refcnts]
  exact moveExtraRC_pinned hq.balanced.holds (by omega) _

/-- **A class change to a raw isa and the reference count.** For every state reached by
retains and releases, with no call in progress and the object not deallocating,
`changeIsa` to a class that requires a raw isa keeps `rootRetainCount`, leaves the
object unpinned and leaves the number of releases to its deallocation as it was, exactly
if `extra_rc` is not 0. -/
theorem changeIsa_keeps_count [DecidableEq τ] {isa : L.Word} (h0 : IsInstanceIsa isa)
    {s : State L τ} (hrun : ReflTransGen CountedStep (ObjcRuntime.initState τ isa) s)
    (hidle : ∀ t, s.pcs t = .idle) (hlive : isDeallocating s.shared.isa = false)
    (cls : Target F) (hcls : cls.allowsNonpointer = false) (t : τ) (performDealloc : Bool)
    (variant : RRVariant) :
    (rootRetainCount (changeIsaAlone cls s.shared) = rootRetainCount s.shared ∧
      isPinned ((changeIsaAlone cls s.shared).refcnts.getD 0) = false ∧
      ∀ k, DeallocatesAfter t performDealloc variant (changeIsaAlone cls s.shared) k ↔
        DeallocatesAfter t performDealloc variant s.shared k) ↔ extraRc s.shared.isa ≠ 0 := by
  obtain ⟨n, hq, hbound⟩ := quiescent_of_run h0 hrun hidle
  have htotal := hq.total
  have hpos : n ≠ 0 := by
    intro hz
    rw [hq.isDeallocating_iff.2 hz] at hlive
    cases hlive
  obtain ⟨m, rfl⟩ := Nat.exists_eq_succ_of_ne_zero hpos
  constructor
  · rintro ⟨-, hpinned, -⟩ hzero
    rw [changeIsaAlone_pins hq hlive hzero hcls] at hpinned
    cases hpinned
  · intro hx
    rw [changeIsaAlone_raw hq.nonpointer hlive hcls]
    have hreads := moveExtraRC_reads hq.balanced.holds (by omega) (extraRc_lt s.shared.isa)
      (by omega) (weaklyReferenced F s.shared.isa)
    rw [show s.shared.sideCount + (extraRc s.shared.isa - 1) = m by omega] at hreads
    have hraw : RawLive ((s.shared.storeIsa cls.pointer).setRefcnts
        (sidetableMoveExtraRCNolock s.shared.refcnts (extraRc s.shared.isa) false
          (weaklyReferenced F s.shared.isa))) (m + 1) :=
      ⟨cls.aligned, hq.free, Nat.succ_pos m, _, hreads⟩
    refine ⟨?_, hreads.isPinned, fun k => ⟨fun hk => ?_, fun hk => ?_⟩⟩
    · rw [rootRetainCount_eq hq]
      unfold rootRetainCount
      rw [if_neg (by simp [cls.aligned]), Shared.setRefcnts_refcnts, hreads.retainCount]
      omega
    · rw [hk.unique hraw.deallocatesAfter]
      exact hq.deallocatesAfter
    · rw [hk.unique hq.deallocatesAfter]
      exact hraw.deallocatesAfter

/-- A fresh object has its reference in `extra_rc`. -/
theorem changeIsa_keeps_count_fresh :
    rootRetainCount (changeIsaAlone rawClass (ObjcRuntime.initState Unit freshIsa).shared) = 1 ∧
    DeallocatesAfter () true .fast
      (changeIsaAlone rawClass (ObjcRuntime.initState Unit freshIsa).shared) 1 := by
  obtain ⟨hcount, -, hreleases⟩ := (changeIsa_keeps_count freshIsa_isInstanceIsa
    (s := ObjcRuntime.initState Unit freshIsa) .refl (fun _ => rfl) (by decide) rawClass
    rfl () true .fast).2 (by decide)
  refine ⟨hcount, (hreleases 1).2 ?_⟩
  exact ⟨fun j hj => ⟨_, by rw [Nat.lt_one_iff.1 hj]; rfl, rfl⟩, _, rfl, rfl⟩

/-- After 255 retains and 128 releases of an object on x86_64 its references are all in
the side table, and a change to a class that requires a raw isa pins it. -/
theorem changeIsa_pins_object :
    ¬ ∀ s : State .x86_64 Unit, ReflTransGen CountedStep (ObjcRuntime.initState Unit freshIsa) s →
      (∀ t, s.pcs t = .idle) → isDeallocating s.shared.isa = false →
      isPinned ((changeIsaAlone rawClass s.shared).refcnts.getD 0) = false := by
  intro hclaim
  exact absurd (hclaim _ run_overflow (fun _ => rfl) (by decide)) (by decide)

end ObjcRuntime.ClassChange
