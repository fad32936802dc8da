import ObjcRuntime.RefCount.Sound

/-!
# ObjcRuntime.RefCount.Conservation

What the invariant of `ObjcRuntime.RefCount.Sound` says about a whole run of
retains and releases: the count is conserved, borrowing never fails, and exactly
one release is told to deallocate.
-/

namespace ObjcRuntime

open Isa Relation Bool

variable {L : IsaLayout} {τ : Type}

/-- All the references an object has: those in the isa, those in the side table
and those the lock holder is moving between the two. -/
def heldCount (s : State L τ) : Nat :=
  extraRc s.shared.isa + s.shared.sideCount +
    match s.shared.slock with
    | some t => (s.pcs t).transit
    | none => 0

/-- The balance that holds in a state, with the numbers of whoever has the lock. -/
theorem Lib.Holds.balanced {s : State L τ} (h : Lib.Holds SharedOk ThreadOk s) :
    ∃ delta pending, Balanced s.shared
      (match s.shared.slock with
        | some t => (s.pcs t).transit
        | none => 0) delta pending := by
  cases hl : s.shared.slock with
  | none => exact ⟨0, 0, h.1.free hl⟩
  | some t => exact ⟨_, _, (h.2 t).balanced ((h.2 t).lock.2 hl)⟩

/-- `isDeallocating` reads only the isa, yet says that no reference is left
anywhere. -/
theorem Lib.Holds.isDeallocating_iff {s : State L τ} (h : Lib.Holds SharedOk ThreadOk s) :
    isDeallocating s.shared.isa ↔ heldCount s = 0 := by
  obtain ⟨delta, pending, hb⟩ := h.balanced
  have hs := hb.side
  unfold isDeallocating heldCount
  rw [and_eq_true, beq_iff_eq, not_eq_true', ← not_eq_true, hs]
  omega

theorem Lib.Holds.toNat_isDeallocating {s : State L τ} (h : Lib.Holds SharedOk ThreadOk s) :
    (isDeallocating s.shared.isa).toNat = if heldCount s = 0 then 1 else 0 := by
  split_ifs with hz
  · rw [h.isDeallocating_iff.2 hz, toNat_true]
  · rw [eq_false_iff.2 (mt h.isDeallocating_iff.1 hz), toNat_false]

theorem pendingTrue_of_unlocked {pc : Pc L} (h : pc.holdsLock = false) : pc.pendingTrue = 0 := by
  cases pc <;> first | rfl | simp [Pc.holdsLock] at h

theorem decided_step [DecidableEq τ] {s : State L τ} (hs : Lib.Holds SharedOk ThreadOk s)
    {t a} {g' : Shared L τ} {pc' : Pc L} (h : act t a s.shared (s.pcs t) = some (g', pc')) :
    g'.tally.returnedTrue + pc'.pendingTrue + (isDeallocating s.shared.isa).toNat =
      s.shared.tally.returnedTrue + (s.pcs t).pendingTrue + (isDeallocating g'.isa).toNat := by
  by_cases hpc : (s.pcs t).holdsLock
  · have hr := ((hs.2 t).balanced hpc).returned
    rcases (act_locked hs.1 (hs.2 t) hpc h).lock with ⟨-, -, hb⟩ | ⟨hun, -, hb⟩
    · have hr' := hb.returned
      omega
    · have hr' := hb.returned
      rw [pendingTrue_of_unlocked hun]
      omega
  · rw [not_eq_true] at hpc
    obtain ⟨delta, pending, hb⟩ := hs.balanced
    have hr := hb.returned
    rw [pendingTrue_of_unlocked hpc]
    rcases act_unlocked hs.1.nonpointer (hs.2 t).localOk hpc h with hc | ⟨-, rfl, hc⟩
    · have hr' : g'.tally.returnedTrue + pending = (isDeallocating g'.isa).toNat :=
        (hc.quiet.balanced hb).returned
      rw [pendingTrue_of_unlocked hc.holds]
      omega
    · have hpe : pc'.pendingTrue = 0 := hc.pending
      rw [hpe]
      simp

theorem After.apply_returnedTrue (a : After L) (g : Shared L τ) :
    g.tally.returnedTrue ≤ (a.apply g).1.tally.returnedTrue := by
  rcases a with pc | (_ | _) <;> simp [After.apply, Tally.finish]

theorem decided_mono [DecidableEq τ] {t a} {g g' : Shared L τ} {pc pc' : Pc L}
    (h : act t a g pc = some (g', pc')) :
    g.tally.returnedTrue + pc.pendingTrue ≤ g'.tally.returnedTrue + pc'.pendingTrue := by
  have happly : ∀ (b : After L) k, b.apply k = (g', pc') → k.tally = g.tally →
      g.tally.returnedTrue ≤ g'.tally.returnedTrue := by
    intro b k hb hk
    have hle := b.apply_returnedTrue k
    rw [hb, hk] at hle
    exact hle
  cases a with
  | call c =>
    simp only [act] at h
    split at h
    next hidle =>
      subst hidle
      cases h
      simp [Pc.pendingTrue]
    · cases h
  | exec ok =>
    simp only [act] at h
    cases pc with
    | retainUnlock r =>
      cases h
      cases r <;> simp [Pc.pendingTrue, Tally.finish]
    | releaseUnlock r =>
      cases h
      rcases r with _ | ⟨_, result, _⟩
      · simp [Pc.pendingTrue, Tally.finish]
      · cases result <;> simp [Pc.pendingTrue, Tally.finish]
    | _ =>
      refine Nat.le_trans ?_ (Nat.le_add_right _ _)
      simp only [exec] at h
      repeat' split at h
      all_goals first
        | exact happly _ _ (Option.some.inj h) rfl
        | (obtain ⟨rfl, rfl⟩ := Prod.mk.inj (Option.some.inj h); exact le_refl _)
        | cases h

/-- **Conservation of references.** In every interleaving of retains and
releases in which the logical count stays within `maxCount` (2^61 on LP64):

* whenever the side-table lock is free, `extra_rc` and the side table together
  hold the logical count, the side table holds a multiple of `RC_HALF`,
  `has_sidetable_rc` says whether it holds any, and a release has returned true
  exactly when the logical count is 0, and then only one;
* a borrow finds at least `RC_HALF` counts, so it neither underflows nor comes
  back empty;
* a release becomes due to return true in exactly the step in which its store
  takes the last reference. -/
theorem references_conserved [DecidableEq τ] {isa : L.Word} (h0 : IsInstanceIsa isa)
    {s : State L τ} (hrun : ReflTransGen CountedStep (initState τ isa) s) :
    (s.shared.slock = none →
      (extraRc s.shared.isa : Int) + s.shared.sideCount = s.shared.tally.logicalCount ∧
      L.rcHalf ∣ s.shared.sideCount ∧
      (hasSidetableRc s.shared.isa = true ↔ s.shared.sideCount ≠ 0) ∧
      s.shared.tally.returnedTrue = if s.shared.tally.logicalCount = 0 then 1 else 0) ∧
    (∀ t performDealloc oldisa, s.pcs t = .releaseSubExtraRC performDealloc oldisa →
      hasSidetableRc s.shared.isa = true ∧
      L.rcHalf * 4 ≤ (s.shared.refcnts.getD 0).toNat ∧
      (sidetableSubExtraRCNolock s.shared.refcnts L.rcHalf).1.borrowed = L.rcHalf) ∧
    s.shared.tally.returnedTrue ≤ 1 ∧ (∀ t a g' pc', act t a s.shared (s.pcs t) = some (g', pc') →
      g'.tally.logicalCount ≤ maxCount L →
      g'.tally.returnedTrue + pc'.pendingTrue =
        s.shared.tally.returnedTrue + (s.pcs t).pendingTrue +
          if heldCount s ≠ 0 ∧ heldCount ⟨g', Function.update s.pcs t pc'⟩ = 0 then 1 else 0) := by
  have hs := run_holds h0 hrun
  refine ⟨fun hfree => ?_, fun t performDealloc oldisa hpc => ?_, ?_, ?_⟩
  · have hb := hs.1.free hfree
    have hc := hb.count
    have hr := hb.returned
    have hd := hs.isDeallocating_iff
    simp only [heldCount, hfree] at hd
    refine ⟨by omega, hb.half, by simpa using hb.side, ?_⟩
    by_cases hz : s.shared.tally.logicalCount = 0
    · rw [if_pos hz]
      rw [hd.2 (by omega)] at hr
      simpa using hr
    · rw [if_neg hz]
      have hnd : isDeallocating s.shared.isa = false := by
        rw [← Bool.not_eq_true, hd]; omega
      rw [hnd] at hr
      simpa using hr
  · have hA := hs.2 t
    rw [hpc] at hA
    have hb := hA.balanced rfl
    have hside := hA.localOk.2
    refine ⟨hside, ?_, ?_⟩
    · rw [hb.holds]
      exact Nat.mul_le_mul_right _ (hb.half_le hside)
    · rw [(hb.subExtraRC hside).1]
  · obtain ⟨delta, pending, hb⟩ := hs.balanced
    have hr := hb.returned
    have := Bool.toNat_le (isDeallocating s.shared.isa)
    omega
  · intro t a g' pc' hact hbound
    have hstep := decided_step hs hact
    have hs' : Lib.Holds SharedOk ThreadOk (⟨g', Function.update s.pcs t pc'⟩ : State L τ) :=
      run_holds h0 (hrun.tail (.step ⟨⟨a, hact⟩, hbound⟩))
    have hold := hs.toNat_isDeallocating
    have hnew := hs'.toNat_isDeallocating
    -- a decision is never taken back, so the isa never leaves the deallocating state
    have hmono := decided_mono hact
    dsimp only at hnew
    split_ifs at hold hnew ⊢ <;> omega

/-- The isa of a fresh instance on x86_64, with the class bits left out. -/
def freshIsa : IsaLayout.x86_64.Word := 0x0100000000000001

theorem freshIsa_isInstanceIsa : IsInstanceIsa freshIsa :=
  ⟨by decide, by decide, by decide⟩

/-- The machine of a single thread after the given tally, at `pc`. -/
def soloState (isa : IsaLayout.x86_64.Word) (n : Tally) (pc : Pc IsaLayout.x86_64) :
    State IsaLayout.x86_64 Unit :=
  ⟨⟨isa, none, none, n⟩, fun _ => pc⟩

theorem CountedStep.solo {isa isa' n n' pc pc'} (a : Act)
    (h : act () a (soloState isa n pc).shared pc = some ((soloState isa' n' pc').shared, pc'))
    (hb : n'.logicalCount ≤ maxCount IsaLayout.x86_64) :
    CountedStep (soloState isa n pc) (soloState isa' n' pc') :=
  @Lib.Interleave.step _ _ _ _ CountedLocal (soloState isa n pc) () _ _ ⟨⟨a, h⟩, hb⟩

/-- The last release of a fresh object: it returns true and leaves nothing. -/
theorem references_conserved_lastRelease :
    ∃ s : State IsaLayout.x86_64 Unit,
      ReflTransGen CountedStep (initState Unit freshIsa) s ∧ s.shared.slock = none ∧
      (extraRc s.shared.isa : Int) + s.shared.sideCount = s.shared.tally.logicalCount ∧
      s.shared.tally.logicalCount = 0 ∧ s.shared.tally.returnedTrue ≤ 1 := by
  have hcall : CountedStep (initState Unit freshIsa)
      (soloState freshIsa Tally.zero (.releaseLoad true .fast false)) :=
    CountedStep.solo (.call (.rootRelease true .fast)) rfl (by decide)
  have hload : CountedStep (soloState freshIsa Tally.zero (.releaseLoad true .fast false))
      (soloState freshIsa Tally.zero (.releaseStore true .fast false freshIsa 1)) :=
    CountedStep.solo (.exec true) rfl (by decide)
  have hstore : CountedStep
      (soloState freshIsa Tally.zero (.releaseStore true .fast false freshIsa 1))
      (soloState 1 ⟨0, 1, 0, 0, 1, 1⟩ .idle) :=
    CountedStep.solo (.exec true) rfl (by decide)
  have hrun := ((ReflTransGen.single hcall).tail hload).tail hstore
  have h := references_conserved freshIsa_isInstanceIsa hrun
  exact ⟨_, hrun, rfl, (h.1 rfl).1, by decide, h.2.2.1⟩

/-! ### Long runs -/

section

variable [DecidableEq τ]

/-- The threads of a machine can take the steps of `act` from the given control states,
in range of the count. -/
def Embeds {ℓ : Type} (t : τ) (lstep : τ → Shared L τ → ℓ → Shared L τ → ℓ → Prop)
    (wrap : Pc L → ℓ) (P : Pc L → Prop) : Prop :=
  ∀ a g pc g' pc', P pc → act t a g pc = some (g', pc') →
    g'.tally.logicalCount ≤ maxCount L → lstep t g (wrap pc) g' (wrap pc')

/-- Run a thread through the given acts, as far as `Embeds` goes. -/
def runActs (P : Pc L → Prop) [DecidablePred P] (t : τ) :
    List Act → Shared L τ × Pc L → Option (Shared L τ × Pc L)
  | [], p => some p
  | a :: acts, p =>
    match act t a p.1 p.2 with
    | some q =>
      if P p.2 ∧ q.1.tally.logicalCount ≤ maxCount L then runActs P t acts q else none
    | none => none

/-- `n` calls of two steps each. -/
def calls (n : Nat) (c : Call) : List Act :=
  (List.replicate n [.call c, .exec true, .exec true]).flatten

theorem Embeds.run {ℓ : Type} {t : τ} {lstep} {wrap : Pc L → ℓ} {P} [DecidablePred P]
    (h : Embeds t lstep wrap P) {pcs acts p q} (hpcs : pcs t = wrap p.2)
    (hacts : runActs P t acts p = some q) :
    ReflTransGen (Lib.Interleave lstep) ⟨p.1, pcs⟩ ⟨q.1, Function.update pcs t (wrap q.2)⟩ := by
  have hlocal : ReflTransGen (fun p q => lstep t p.1 p.2 q.1 q.2) (p.1, wrap p.2)
      (q.1, wrap q.2) := by
    clear hpcs
    induction acts generalizing p with
    | nil =>
      cases hacts
      exact .refl
    | cons a acts ih =>
      rw [runActs] at hacts
      split at hacts
      next next hact =>
        split at hacts
        next hok => exact .head (h a _ _ _ _ hok.1 hact hok.2) (ih hacts)
        · cases hacts
      · cases hacts
  have hrun := Lib.Interleave.alone pcs hlocal
  rwa [← hpcs, Function.update_eq_self] at hrun

end

/-- After 255 retains and 128 releases of an object on x86_64 its references are all in
the side table. -/
theorem run_overflow : ReflTransGen CountedStep (initState Unit freshIsa)
    ⟨⟨0x0080000000000001, some 512, none, ⟨255, 128, 0, 0, 0, 0⟩⟩, fun _ => .idle⟩ := by
  have hembed : Embeds (L := .x86_64) () CountedLocal id fun _ => True :=
    fun a _ _ _ _ _ hact hb => ⟨⟨a, hact⟩, hb⟩
  -- up to the top of `extra_rc`, over it, and down to 0
  have hacts : runActs (fun _ => True) () (calls 254 (.rootRetain .fast) ++
      .call (.rootRetain .full) :: List.replicate 5 (.exec true) ++
      calls 128 (.rootRelease false .fast)) ((initState Unit freshIsa).shared, .idle) =
      some (⟨0x0080000000000001, some 512, none, ⟨255, 128, 0, 0, 0, 0⟩⟩, .idle) := by
    decide +kernel
  have hrun : ReflTransGen CountedStep (initState Unit freshIsa)
      ⟨_, Function.update (fun _ => .idle) () .idle⟩ := hembed.run rfl hacts
  rwa [Function.update_eq_self] at hrun

/-! ### The other fields -/

theorem LocalOk.low_eq [DecidableEq τ] {t a} {g g' : Shared L τ} {pc pc' : Pc L}
    (hok : LocalOk g pc) (h : act t a g pc = some (g', pc')) : low g'.isa = low g.isa := by
  have hrange := L.rcRange_eq
  have hhalf := L.two_le_rcHalf
  have happly : ∀ (b : After L) k, b.apply k = (g', pc') → low k.isa = low g.isa →
      low g'.isa = low g.isa := by
    rintro (pc | r) k ⟨⟩ hk <;> exact hk
  have hstore : ∀ {ok : Bool} (b c : After L) {oldisa side x}, x < L.rcRange →
      (if ok then
        if g.isa = oldisa then some (b.apply (g.storeIsa (pack L (low oldisa) side x))) else none
      else some (c.apply g)) = some (g', pc') → low g'.isa = low g.isa := by
    intro ok b c oldisa side x hx h
    rcases store_cases h with ⟨rfl, hb⟩ | hc
    · exact happly b _ hb (low_pack (low_lt _) side hx)
    · exact happly c g hc rfl
  cases a with
  | call c =>
    obtain ⟨-, ⟨⟩⟩ := Option.ite_none_right_eq_some.1 h
    rfl
  | exec ok =>
    simp only [act] at h
    cases pc with
    | retainStore _ _ _ transcribe oldisa newisa =>
      obtain ⟨-, -, rfl, -, hx⟩ := hok
      cases transcribe with
      | true => exact hstore _ _ (by omega) h
      | false => exact hstore _ _ hx h
    | releaseStore _ _ _ oldisa newisa =>
      obtain ⟨-, rfl, -⟩ := hok
      have hlt := extraRc_lt oldisa
      exact hstore _ _ (by omega) h
    | releaseBorrowStore _ _ oldisa newisa =>
      obtain ⟨-, -, rfl⟩ := hok
      exact hstore _ _ (by omega) h
    | releaseBorrowRetry _ _ oldisa newisa =>
      obtain ⟨-, hx, rfl⟩ := hok
      exact hstore _ (.goto _) hx h
    | _ =>
      simp only [exec] at h
      repeat' split at h
      all_goals first
        | exact happly _ _ (Option.some.inj h) rfl
        | (cases h; done)
        | (cases h; rfl)

/-- No interleaving of retains and releases changes the bits below `has_sidetable_rc`: the
class and the other flags. -/
theorem isa_fields_kept [DecidableEq τ] {isa : L.Word} (h0 : IsInstanceIsa isa)
    {s : State L τ} (hrun : ReflTransGen CountedStep (initState τ isa) s) :
    low s.shared.isa = low isa := by
  induction hrun with
  | refl => rfl
  | tail hrun hstep ih =>
    cases hstep with
    | step hlocal =>
      obtain ⟨⟨a, hact⟩, -⟩ := hlocal
      exact (((run_holds h0 hrun).2 _).localOk.low_eq hact).trans ih

theorem isa_fields_kept_overflow :
    ∃ s : State .x86_64 Unit, ReflTransGen CountedStep (initState Unit freshIsa) s ∧
      s.shared.tally.retains = 255 ∧ s.shared.tally.releases = 128 ∧ extraRc s.shared.isa = 0 ∧
      hasSidetableRc s.shared.isa = true ∧ low s.shared.isa = low freshIsa := by
  exact ⟨_, run_overflow, rfl, rfl, by decide, by decide,
    isa_fields_kept freshIsa_isInstanceIsa run_overflow⟩

/-! ### Calls on a deallocating object -/

/-- A step of the machine after which one plus the completed retains minus the
completed releases is in range, where a release is only started while that
number is not 0. -/
def CompletedStep [DecidableEq τ] (s s' : State L τ) : Prop :=
  ∃ t a g' pc', act t a s.shared (s.pcs t) = some (g', pc') ∧
    s' = ⟨g', Function.update s.pcs t pc'⟩ ∧ g'.tally.completedCount ≤ maxCount L ∧
    ∀ performDealloc variant, a = .call (.rootRelease performDealloc variant) →
      s.shared.tally.completedCount ≠ 0

/-- Counting every completed call is not enough: after the last release a retain
still completes, and it leaves the deallocating object alone. -/
theorem completed_calls_not_conserved :
    ¬ ∀ s : State IsaLayout.x86_64 Unit,
      ReflTransGen CompletedStep (initState Unit freshIsa) s → s.shared.slock = none →
      (extraRc s.shared.isa : Int) + s.shared.sideCount = s.shared.tally.completedCount := by
  intro h
  have h1 : CompletedStep (initState Unit freshIsa)
      (soloState freshIsa Tally.zero (.releaseLoad true .fast false)) :=
    ⟨(), .call (.rootRelease true .fast), _, _, rfl, rfl, by decide, fun _ _ _ => by decide⟩
  have h2 : CompletedStep (soloState freshIsa Tally.zero (.releaseLoad true .fast false))
      (soloState freshIsa Tally.zero (.releaseStore true .fast false freshIsa 1)) :=
    ⟨(), .exec true, _, _, rfl, rfl, by decide, fun _ _ ha => absurd ha (by simp)⟩
  have h3 : CompletedStep
      (soloState freshIsa Tally.zero (.releaseStore true .fast false freshIsa 1))
      (soloState 1 ⟨0, 1, 0, 0, 1, 1⟩ .idle) :=
    ⟨(), .exec true, _, _, rfl, rfl, by decide, fun _ _ ha => absurd ha (by simp)⟩
  have h4 : CompletedStep (soloState 1 ⟨0, 1, 0, 0, 1, 1⟩ .idle)
      (soloState 1 ⟨0, 1, 0, 0, 1, 1⟩ (.retainLoad false .fast)) :=
    ⟨(), .call (.rootRetain .fast), _, _, rfl, rfl, by decide, fun _ _ ha => absurd ha (by simp)⟩
  have h5 : CompletedStep (soloState 1 ⟨0, 1, 0, 0, 1, 1⟩ (.retainLoad false .fast))
      (soloState 1 ⟨1, 1, 1, 0, 1, 1⟩ .idle) :=
    ⟨(), .exec true, _, _, rfl, rfl, by decide, fun _ _ ha => absurd ha (by simp)⟩
  have hrun := ((((ReflTransGen.single h1).tail h2).tail h3).tail h4).tail h5
  exact absurd (h _ hrun rfl) (by decide)

end ObjcRuntime
