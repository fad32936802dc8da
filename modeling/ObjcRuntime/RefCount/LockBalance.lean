import ObjcRuntime.RefCount.Alone

/-!
# ObjcRuntime.RefCount.LockBalance

Who unlocks the side table.

`rootRetain` with `tryRetain` set is called by `objc_loadWeakRetained`, which holds the
side-table lock around the call. Its local flag `sideTableLocked` then means that
the caller has locked: on an overflow the flag is set without taking the lock, and
at the end of the call the lock is only given back if `tryRetain` is not set. The
exit for a deallocating object does not make that distinction. A `tryRetain` that
overflows, loses the race for the isa and then reads an isa that is deallocating
unlocks the lock of its caller.

`Misses` is that moment. Along every run without it, each call unlocks as often as it
locks, and only the holder unlocks. The counts of the side table play no role here,
so the invariant (`At`) is about control states only, and the runs are not bounded.
-/

namespace ObjcRuntime.LockBalance

open Function Isa Relation Nat

variable {L : IsaLayout} {τ : Type}

/-! ### The machine -/

/-- What a thread is doing. -/
inductive Control (L : IsaLayout)
  /-- A call of `rootRetain` or `rootRelease`, or no call. -/
  | calling (pc : Pc L)
  /-- `objc_loadWeakRetained`: `table->lock()`, with `obj` read from the location. -/
  | loadLock
  /-- `*location != obj` -/
  | loadCheck
  /-- `obj->rootTryRetain()` -/
  | trying (pc : Pc L)
  /-- `table->unlock()`, then return `obj` or nil. -/
  | loadUnlock (retained : Bool)
  deriving Repr, DecidableEq

/-- A thread, with the locks and unlocks made by its current or last call of
`rootRetain`, `rootTryRetain` or `rootRelease`. -/
structure Local (L : IsaLayout) where
  control : Control L
  locks : Nat
  unlocks : Nat
  deriving Repr, DecidableEq

namespace Local

/-- After a step of the call from `pc`. -/
def count (l : Local L) (pc : Pc L) (control : Control L) : Local L :=
  ⟨control, l.locks + pc.locksNext.toNat, l.unlocks + pc.unlocksNext.toNat⟩

/-- After a step that belongs to `objc_loadWeakRetained` itself. -/
def goto (l : Local L) (control : Control L) : Local L := { l with control }

end Local

/-- One atomic step of thread `t`. -/
inductive Step [DecidableEq τ] (t : τ) : Shared L τ → Local L → Shared L τ → Local L → Prop
  | call {g l} (c : Call) : l.control = .calling .idle →
      Step t g l g ⟨.calling c.entry, 0, 0⟩
  | exec {g g' l pc pc'} (ok : Bool) :
      l.control = .calling pc → exec t ok g pc = some (g', pc') →
      Step t g l g' (l.count pc (.calling pc'))
  | load {g l} : l.control = .calling .idle →
      Step t g l g (l.goto .loadLock)
  | lock {g l} : l.control = .loadLock → g.slock = none →
      Step t g l (g.lock t) (l.goto .loadCheck)
  /-- The location changed: unlock and start over, with this object or another one. -/
  | retry {g l} : l.control = .loadCheck →
      Step t g l g.unlock (l.goto .loadLock)
  | leave {g l} : l.control = .loadCheck →
      Step t g l g.unlock (l.goto (.calling .idle))
  | tryRetain {g l} : l.control = .loadCheck →
      Step t g l g ⟨.trying (.retainLoad true .fast), 0, 0⟩
  | execTry {g g' l pc pc'} (ok : Bool) :
      l.control = .trying pc → ObjcRuntime.exec t ok g pc = some (g', pc') → pc' ≠ .idle →
      Step t g l g' (l.count pc (.trying pc'))
  /-- The call returns; it returned nil if the object was deallocating. -/
  | tried {g g' l pc} (ok : Bool) :
      l.control = .trying pc → ObjcRuntime.exec t ok g pc = some (g', .idle) →
      Step t g l g' (l.count pc (.loadUnlock (g'.tally.deadRetains == g.tally.deadRetains)))
  | unlock {g l retained} : l.control = .loadUnlock retained →
      Step t g l g.unlock (l.goto (.calling .idle))

/-- The object with any side-table entry, and no thread in a call. -/
def initState (τ : Type) (isa : L.Word) (refcnts : Option L.Word) :
    Lib.Threads τ (Shared L τ) (Local L) :=
  ⟨⟨isa, refcnts, none, Tally.zero⟩, fun _ => ⟨.calling .idle, 0, 0⟩⟩

/-- A `tryRetain` that has taken the overflow path, and so has set `sideTableLocked`, is
about to find that the object is deallocating. -/
def Misses (g : Shared L τ) (l : Local L) : Prop :=
  isDeallocating g.isa = true ∧ ∃ variant transcribe oldisa newisa,
    l.control = .trying (.retainStore true variant true transcribe oldisa newisa)

/-- A step of a thread that is not at that point. -/
def RegularStep [DecidableEq τ] (t : τ) (g : Shared L τ) (l : Local L) (g' : Shared L τ)
    (l' : Local L) : Prop :=
  Step t g l g' l' ∧ ¬ Misses g l

/-- The last call of `rootRetain`, `rootTryRetain` or `rootRelease` has returned. -/
def Local.Returned (l : Local L) : Prop :=
  l.control = .calling .idle ∨ ∃ retained, l.control = .loadUnlock retained

/-- The next step may unlock the side table. -/
def Local.UnlocksNext (l : Local L) : Prop :=
  (∃ pc, (l.control = .calling pc ∨ l.control = .trying pc) ∧ pc.unlocksNext = true) ∨
    l.control = .loadCheck ∨ ∃ retained, l.control = .loadUnlock retained

/-! ### The nonpointer bit -/

theorem nonpointer_ofNat (n : Nat) :
    nonpointer (BitVec.ofNat L.wordBits n) = decide (n % 2 = 1) := by
  have htwo : 2 ∣ 2 ^ L.wordBits := by
    rw [two_pow_wordBits_eq]
    exact ⟨4 * maxCount L, by omega⟩
  unfold nonpointer
  rw [BitVec.toNat_ofNat, mod_mod_of_dvd _ htwo]

theorem two_dvd_rcOne (L : IsaLayout) : 2 ∣ L.rcOne := ⟨sideBit L, rcOne_eq L⟩

theorem nonpointer_addc (isa) (n : Nat) :
    nonpointer (addc isa (rcOnes L n)).1 = nonpointer isa := by
  have hsum : (addc isa (rcOnes L n)).1 = BitVec.ofNat _ (isa.toNat + L.rcOne * n) := by
    unfold addc rcOnes
    apply BitVec.eq_of_toNat_eq
    rw [BitVec.toNat_add, BitVec.toNat_ofNat, BitVec.toNat_ofNat, add_mod_mod]
  obtain ⟨k, hk⟩ := two_dvd_rcOne L
  rw [hsum, nonpointer_ofNat, hk, mul_assoc, add_mul_mod_self_left]
  rfl

theorem nonpointer_subc (isa) : nonpointer (subc isa (rcOnes L 1)).1 = nonpointer isa := by
  have hone : 1 < L.rcRange := by
    rw [L.rcRange_eq]
    have := L.two_le_rcHalf
    omega
  have hsub : (subc isa (rcOnes L 1)).1 =
      BitVec.ofNat _ (2 ^ L.wordBits - L.rcOne + isa.toNat) := by
    unfold subc
    apply BitVec.eq_of_toNat_eq
    rw [BitVec.toNat_sub, toNat_rcOnes hone, one_mul, BitVec.toNat_ofNat]
  obtain ⟨k, hk⟩ := two_dvd_rcOne L
  have hw := two_pow_wordBits_eq L
  rw [hsub, nonpointer_ofNat]
  congr 2
  omega

theorem nonpointer_setExtraRc (isa : L.Word) (v : Nat) :
    nonpointer (setExtraRc isa v) = nonpointer isa := by
  obtain ⟨k, hk⟩ := two_dvd_rcOne L
  unfold setExtraRc
  rw [nonpointer_ofNat, hk, ← mul_assoc, mul_comm (v % L.rcRange) 2, mul_assoc,
    add_mul_mod_self_left, ← hk, mod_mod_of_dvd _ (two_dvd_rcOne L)]
  rfl

theorem nonpointer_setHasSidetableRc (isa : L.Word) (v : Bool) :
    nonpointer (setHasSidetableRc isa v) = nonpointer isa := by
  rw [setHasSidetableRc_eq, nonpointer_pack _ _ (extraRc_lt isa)]

/-! ### Control states of a call that locks for itself -/

/-- What is known of the local variables, without the counts. -/
def Shape : Pc L → Prop
  | .retainLoad tryRetain _ => tryRetain = false
  | .retainLock _ newisa => nonpointer newisa = true
  | .retainStore tryRetain variant locked transcribe _ newisa =>
    tryRetain = false ∧ nonpointer newisa = true ∧ (locked = true → variant = .full) ∧
      (transcribe = true → locked = true)
  | .retainAddExtraRC tryRetain locked => tryRetain = false ∧ locked = true
  | .retainRawLock => False
  | .retainRaw => False
  | .retainRawTry => False
  | .releaseLoad _ variant locked => locked = true → variant = .full
  | .releaseStore _ variant locked _ newisa =>
    nonpointer newisa = true ∧ (locked = true → variant = .full)
  | .releaseSubExtraRC _ oldisa => nonpointer oldisa = true
  | .releaseBorrowStore _ _ _ newisa => nonpointer newisa = true
  | .releaseBorrowRetry _ _ _ newisa => nonpointer newisa = true
  | .releaseRawLock _ => False
  | .releaseRaw _ => False
  | _ => True

/-- The code between two atomic steps keeps the lock in the same hands. -/
def Fits (locked : Bool) : After L → Prop
  | .goto pc => Shape pc ∧ pc.holdsLock = locked
  | .ret _ => locked = false

variable {isa : L.Word} {variant : RRVariant} {locked : Bool}

theorem retainLoop_fits (hn : nonpointer isa) (hv : locked → variant = .full) :
    Fits locked (retainLoop false variant locked isa) := by
  have hnew : nonpointer (addc isa (rcOnes L 1)).1 := (nonpointer_addc isa 1).trans hn
  unfold retainLoop
  simp only [hn, Bool.not_true, Bool.false_eq_true, if_false, Bool.not_false, Bool.true_and]
  split
  · cases locked with
    | true => exact ⟨trivial, rfl⟩
    | false => rfl
  · split
    · split
      next hslow =>
        cases locked with
        | true => exact absurd (hv rfl) hslow
        | false => exact ⟨rfl, rfl⟩
      next hfull =>
        have hwide : nonpointer (setHasSidetableRc
            (setExtraRc (addc isa (rcOnes L 1)).1 L.rcHalf) true) := by
          rw [nonpointer_setHasSidetableRc, nonpointer_setExtraRc, hnew]
        cases locked with
        | true => exact ⟨⟨rfl, hwide, hv, fun _ => rfl⟩, rfl⟩
        | false => exact ⟨hwide, rfl⟩
    · exact ⟨⟨rfl, hnew, hv, nofun⟩, rfl⟩

theorem retainStored_fits {locked transcribe : Bool}
    (hv : locked → variant = .full) (ht : transcribe → locked) :
    Fits (L := L) locked (retainStored false variant locked transcribe) := by
  cases locked with
  | true =>
    rw [hv rfl]
    cases transcribe with
    | true => exact ⟨⟨rfl, rfl⟩, rfl⟩
    | false => exact ⟨trivial, rfl⟩
  | false =>
    cases transcribe with
    | true => cases ht rfl
    | false => cases variant <;> rfl

theorem deallocate_fits (performDealloc locked) :
    Fits (L := L) locked (deallocate performDealloc locked) := by
  cases locked with
  | true => exact ⟨trivial, rfl⟩
  | false => rfl

theorem releaseLoop_fits (hn : nonpointer isa) {performDealloc} (hv : locked → variant = .full) :
    Fits locked (releaseLoop performDealloc variant locked isa) := by
  unfold releaseLoop underflow
  simp only [hn, Bool.not_true, Bool.false_eq_true, if_false]
  split
  · cases locked with
    | true => exact ⟨trivial, rfl⟩
    | false => rfl
  · split
    · split
      · split
        next hslow =>
          cases locked with
          | true => exact absurd (hv rfl) hslow
          | false => exact ⟨nofun, rfl⟩
        · cases locked with
          | true => exact ⟨hn, rfl⟩
          | false => exact ⟨trivial, rfl⟩
      · exact deallocate_fits _ _
    · exact ⟨⟨(nonpointer_subc isa).trans hn, hv⟩, rfl⟩

theorem releaseStored_fits {performDealloc} (hv : locked → variant = .full) (newisa : L.Word) :
    Fits locked (releaseStored performDealloc variant locked newisa) := by
  unfold releaseStored
  split
  · exact deallocate_fits _ _
  · cases locked with
    | true =>
      rw [hv rfl]
      exact ⟨trivial, rfl⟩
    | false =>
      rw [Bool.and_false]
      rfl

theorem borrowed_fits (hn : nonpointer isa) (performDealloc)
    (borrow) : Fits true (borrowed performDealloc borrow isa) := by
  unfold borrowed
  split
  · refine ⟨?_, rfl⟩
    show nonpointer _
    rw [nonpointer_setHasSidetableRc, nonpointer_setExtraRc, hn]
  · exact deallocate_fits _ _

theorem borrowRetry_fits (hn : nonpointer isa) (performDealloc)
    (borrow) : Fits true (borrowRetry performDealloc borrow isa) := by
  unfold borrowRetry
  simp only [hn, if_true]
  split
  · refine ⟨?_, rfl⟩
    show nonpointer _
    rw [nonpointer_setHasSidetableRc, nonpointer_addc, hn]
  · exact ⟨trivial, rfl⟩

theorem borrowEnd_fits (performDealloc didTransition) :
    Fits (L := L) true (borrowEnd performDealloc didTransition) := by
  cases didTransition <;> exact ⟨trivial, rfl⟩

theorem borrowStored_fits (performDealloc) (borrow) (didTransition) :
    Fits (L := L) true (borrowStored performDealloc borrow didTransition) := by
  unfold borrowStored
  split
  · exact ⟨trivial, rfl⟩
  · exact borrowEnd_fits _ _

/-! ### Steps of such a call -/

/-- What a step of a call does to the lock. -/
inductive Locks (t : τ) (g g' : Shared L τ) (pc pc' : Pc L) : Prop
  | keeps (free : pc.Free) (slock : g'.slock = g.slock) (holds : pc'.holdsLock = pc.holdsLock)
  | takes (locks : pc.locksNext = true) (unlocks : pc.unlocksNext = false)
      (free : g.slock = none) (slock : g'.slock = some t) (before : pc.holdsLock = false)
      (after : pc'.holdsLock = true)
  | gives (locks : pc.locksNext = false) (unlocks : pc.unlocksNext = true)
      (slock : g'.slock = none) (before : pc.holdsLock = true) (after : pc'.holdsLock = false)

structure Moves (t : τ) (g g' : Shared L τ) (pc pc' : Pc L) : Prop where
  nonpointer : nonpointer g'.isa = true
  shape : Shape pc'
  locks : Locks t g g' pc pc'

theorem Fits.moves {t} {a : After L} {pc : Pc L} (h : Fits pc.holdsLock a)
    (hfree : pc.Free) {g k : Shared L τ} (hslock : k.slock = g.slock)
    (hn : nonpointer k.isa) : Moves t g (a.apply k).1 pc (a.apply k).2 := by
  cases a with
  | goto pc' => exact ⟨hn, h.1, .keeps hfree hslock h.2⟩
  | ret r => exact ⟨hn, trivial, .keeps hfree hslock h.symm⟩

variable {g g' : Shared L τ}

theorem exec_moves [DecidableEq τ] {t ok pc pc'}
    (hn : nonpointer g.isa) (hshape : Shape pc) (h : exec t ok g pc = some (g', pc')) :
    Moves t g g' pc pc' := by
  have happly : ∀ {a} {k}, a.apply k = (g', pc') →
      Fits pc.holdsLock a → pc.Free → k.slock = g.slock → nonpointer k.isa →
      Moves t g g' pc pc' := by
    intro a k happ hfits hfree hslock hnk
    have hm := hfits.moves (t := t) hfree hslock hnk
    rwa [happ] at hm
  cases pc with
  | idle => cases h
  | retainLoad tryRetain variant =>
    obtain rfl : tryRetain = false := hshape
    exact happly (Option.some.inj h) (retainLoop_fits hn nofun) ⟨rfl, rfl⟩ rfl hn
  | retainLock oldisa newisa =>
    obtain ⟨hfree, ⟨⟩⟩ := Option.ite_none_right_eq_some.1 h
    exact ⟨hn, ⟨rfl, hshape, fun _ => rfl, fun _ => rfl⟩, .takes rfl rfl hfree rfl rfl rfl⟩
  | retainStore tryRetain variant locked transcribe oldisa newisa =>
    obtain ⟨rfl, hnew, hv, ht⟩ := hshape
    rcases store_cases h with ⟨-, h⟩ | h
    · exact happly h (retainStored_fits hv ht) ⟨rfl, rfl⟩ rfl hnew
    · exact happly h (retainLoop_fits hn hv) ⟨rfl, rfl⟩ rfl hn
  | retainAddExtraRC tryRetain locked =>
    obtain ⟨rfl, rfl⟩ := hshape
    have hfits : Fits (L := L) true (retainEnd false true) := ⟨trivial, rfl⟩
    exact happly (Option.some.inj h) hfits ⟨rfl, rfl⟩ rfl hn
  | retainUnlock r | releaseUnlock r =>
    cases h
    exact ⟨hn, trivial, .gives rfl rfl rfl rfl rfl⟩
  | retainRawLock | retainRaw | retainRawTry | releaseRawLock _ | releaseRaw _ => exact hshape.elim
  | releaseLoad performDealloc variant locked =>
    exact happly (Option.some.inj h) (releaseLoop_fits hn hshape) ⟨rfl, rfl⟩ rfl hn
  | releaseStore performDealloc variant locked oldisa newisa =>
    obtain ⟨hnew, hv⟩ := hshape
    rcases store_cases h with ⟨-, h⟩ | h
    · exact happly h (releaseStored_fits hv newisa) ⟨rfl, rfl⟩ rfl hnew
    · exact happly h (releaseLoop_fits hn hv) ⟨rfl, rfl⟩ rfl hn
  | releaseLock performDealloc =>
    obtain ⟨hfree, ⟨⟩⟩ := Option.ite_none_right_eq_some.1 h
    exact ⟨hn, fun _ => rfl, .takes rfl rfl hfree rfl rfl rfl⟩
  | releaseSubExtraRC performDealloc oldisa =>
    exact happly (Option.some.inj h) (borrowed_fits hshape _ _) ⟨rfl, rfl⟩ rfl hn
  | releaseBorrowStore performDealloc borrow oldisa newisa =>
    rcases store_cases h with ⟨-, h⟩ | h
    · exact happly h (borrowStored_fits _ _ _) ⟨rfl, rfl⟩ rfl hshape
    · exact happly h (borrowRetry_fits hn _ _) ⟨rfl, rfl⟩ rfl hn
  | releaseBorrowRetry performDealloc borrow oldisa newisa =>
    rcases store_cases h with ⟨-, h⟩ | h
    · exact happly h (borrowStored_fits _ _ _) ⟨rfl, rfl⟩ rfl hshape
    · cases h
      exact ⟨hn, trivial, .keeps ⟨rfl, rfl⟩ rfl rfl⟩
  | releasePutBack performDealloc borrow =>
    cases h
    exact ⟨hn, fun _ => rfl, .keeps ⟨rfl, rfl⟩ rfl rfl⟩
  | releaseClearExtraRC performDealloc didTransition =>
    exact happly (Option.some.inj h) (borrowEnd_fits _ _) ⟨rfl, rfl⟩ rfl hn

/-! ### Steps of a call under the lock of its caller -/

/-- The control states of `rootTryRetain`: it neither locks nor unlocks. -/
def TryShape : Pc L → Prop
  | .retainLoad tryRetain _ => tryRetain = true
  | .retainStore tryRetain _ _ _ _ newisa => tryRetain = true ∧ nonpointer newisa = true
  | .retainAddExtraRC tryRetain _ => tryRetain = true
  | _ => False

def TryFits : After L → Prop
  | .goto pc => TryShape pc
  | .ret _ => True

theorem retainLoop_tryFits (hn : nonpointer isa) (hlive : locked → isDeallocating isa = false) :
    TryFits (retainLoop true variant locked isa) := by
  have hnew : nonpointer (addc isa (rcOnes L 1)).1 := (nonpointer_addc isa 1).trans hn
  unfold retainLoop
  simp only [hn, Bool.not_true, Bool.false_eq_true, if_false, Bool.false_and]
  split
  next hdead =>
    cases locked with
    | true => exact absurd (hlive rfl) (by simp [hdead])
    | false => trivial
  · split
    · split
      · rfl
      · refine ⟨rfl, ?_⟩
        rw [nonpointer_setHasSidetableRc, nonpointer_setExtraRc, hnew]
    · exact ⟨rfl, hnew⟩

theorem retainStored_tryFits (variant) (locked transcribe) :
    TryFits (L := L) (retainStored true variant locked transcribe) := by
  unfold retainStored retainEnd
  split
  · cases transcribe with
    | true => rfl
    | false => trivial
  · trivial

theorem exec_tries [DecidableEq τ] {t ok pc pc'} (hn : nonpointer g.isa) (hshape : TryShape pc)
    (hlive : isDeallocating g.isa → ¬ ∃ variant transcribe oldisa newisa,
      pc = .retainStore true variant true transcribe oldisa newisa)
    (h : exec t ok g pc = some (g', pc')) :
    nonpointer g'.isa ∧ g'.slock = g.slock ∧ pc.Free ∧ (TryShape pc' ∨ pc' = .idle) := by
  have happly : ∀ {a} {k}, a.apply k = (g', pc') → TryFits a → pc.Free → k.slock = g.slock →
      nonpointer k.isa →
      nonpointer g'.isa ∧ g'.slock = g.slock ∧ pc.Free ∧ (TryShape pc' ∨ pc' = .idle) := by
    intro a k happ hfits hfree hslock hnk
    cases a with
    | goto pc₁ => cases happ; exact ⟨hnk, hslock, hfree, .inl hfits⟩
    | ret r => cases happ; exact ⟨hnk, hslock, hfree, .inr rfl⟩
  cases pc with
  | retainLoad tryRetain variant =>
    obtain rfl : tryRetain := hshape
    exact happly (Option.some.inj h) (retainLoop_tryFits hn nofun) ⟨rfl, rfl⟩ rfl hn
  | retainStore tryRetain variant locked transcribe oldisa newisa =>
    obtain ⟨rfl, hnew⟩ := hshape
    have hlocked : locked → isDeallocating g.isa = false := by
      rintro rfl
      rw [← Bool.not_eq_true]
      exact fun hdead => hlive hdead ⟨_, _, _, _, rfl⟩
    rcases store_cases h with ⟨-, h⟩ | h
    · exact happly h (retainStored_tryFits variant locked transcribe) ⟨rfl, rfl⟩ rfl hnew
    · exact happly h (retainLoop_tryFits hn hlocked) ⟨rfl, rfl⟩ rfl hn
  | retainAddExtraRC tryRetain locked =>
    obtain rfl : tryRetain := hshape
    have hfits : TryFits (L := L) (retainEnd true locked) := trivial
    exact happly (Option.some.inj h) hfits ⟨rfl, rfl⟩ rfl hn
  | _ => exact hshape.elim

theorem of_not_misses {g : Shared L τ} {l : Local L} {pc} (h : ¬ Misses g l)
    (hc : l.control = .trying pc) (hdead : isDeallocating g.isa) :
    ¬ ∃ variant transcribe oldisa newisa,
      pc = .retainStore true variant true transcribe oldisa newisa := by
  rintro ⟨variant, transcribe, oldisa, newisa, rfl⟩
  exact h ⟨hdead, variant, transcribe, oldisa, newisa, hc⟩

/-! ### The invariant -/

/-- The assertion of thread `t`. -/
def At (t : τ) (g : Shared L τ) (l : Local L) : Prop :=
  match l.control with
  | .calling pc => Shape pc ∧ (pc.holdsLock = true ↔ g.slock = some t) ∧
      l.locks = l.unlocks + pc.holdsLock.toNat
  | .loadLock => g.slock ≠ some t ∧ l.locks = l.unlocks
  | .loadCheck => g.slock = some t ∧ l.locks = l.unlocks
  | .trying pc => TryShape pc ∧ g.slock = some t ∧ l.locks = l.unlocks
  | .loadUnlock _ => g.slock = some t ∧ l.locks = l.unlocks

theorem At.congr {t l} (h : At t g l)
    (hslock : g'.slock = some t ↔ g.slock = some t) : At t g' l := by
  unfold At at *
  cases hc : l.control <;> rw [hc] at h <;> simp only [hslock, ne_eq] at h ⊢ <;> exact h

/-- The only changes of the lock a step makes. -/
def LockMoves (t : τ) (g g' : Shared L τ) : Prop :=
  g'.slock = g.slock ∨ (g.slock = none ∧ g'.slock = some t) ∨
    (g.slock = some t ∧ g'.slock = none)

theorem LockMoves.other {t u} (h : LockMoves t g g') (hu : u ≠ t) :
    g'.slock = some u ↔ g.slock = some u := by
  rcases h with h | ⟨h, h'⟩ | ⟨h, h'⟩
  · rw [h]
  · simp [h, h', hu.symm]
  · simp [h, h', hu.symm]

theorem RegularStep.sound [DecidableEq τ] {t l l'}
    (h : RegularStep t g l g' l') (hn : nonpointer g.isa) (hat : At t g l) :
    nonpointer g'.isa ∧ At t g' l' ∧ LockMoves t g g' := by
  obtain ⟨hstep, hmiss⟩ := h
  unfold At at hat
  cases hstep with
  | call c hc =>
    rw [hc] at hat
    obtain ⟨-, hlock, -⟩ := hat
    refine ⟨hn, ?_, .inl rfl⟩
    cases c with
    | rootRetain variant => exact ⟨rfl, hlock, rfl⟩
    | rootRelease performDealloc variant => exact ⟨nofun, hlock, rfl⟩
  | @exec _ _ pc pc' ok hc hexec =>
    rw [hc] at hat
    obtain ⟨hshape, hlock, hcount⟩ := hat
    have hm := exec_moves hn hshape hexec
    refine ⟨hm.nonpointer, ?_, ?_⟩
    · refine ⟨hm.shape, ?_⟩
      dsimp only [Local.count]
      cases hm.locks with
      | keeps hfree hslock hholds =>
        rw [hslock, hholds, hfree.1, hfree.2]
        exact ⟨hlock, hcount⟩
      | takes hl hu _ hslock hbefore hafter | gives hl hu hslock hbefore hafter =>
        rw [hslock, hafter, hl, hu]
        rw [hbefore] at hcount
        exact ⟨by simp, by simpa using hcount⟩
    · cases hm.locks with
      | keeps _ hslock _ => exact .inl hslock
      | takes _ _ hfree hslock _ _ => exact .inr (.inl ⟨hfree, hslock⟩)
      | gives _ _ hslock hbefore _ => exact .inr (.inr ⟨hlock.1 hbefore, hslock⟩)
  | load hc =>
    rw [hc] at hat
    obtain ⟨-, hlock, hcount⟩ := hat
    refine ⟨hn, ⟨fun hown => ?_, hcount⟩, .inl rfl⟩
    exact absurd (hlock.2 hown) (by simp [Pc.holdsLock])
  | lock hc hfree =>
    rw [hc] at hat
    exact ⟨hn, ⟨rfl, hat.2⟩, .inr (.inl ⟨hfree, rfl⟩)⟩
  | retry hc =>
    rw [hc] at hat
    exact ⟨hn, ⟨by simp, hat.2⟩, .inr (.inr ⟨hat.1, rfl⟩)⟩
  | leave hc | unlock hc =>
    rw [hc] at hat
    exact ⟨hn, ⟨trivial, by simp [Pc.holdsLock], hat.2⟩, .inr (.inr ⟨hat.1, rfl⟩)⟩
  | tryRetain hc =>
    rw [hc] at hat
    exact ⟨hn, ⟨rfl, hat.1, rfl⟩, .inl rfl⟩
  | @execTry _ _ pc pc' ok hc hexec hne =>
    rw [hc] at hat
    obtain ⟨hshape, hown, hcount⟩ := hat
    obtain ⟨hn', hslock, hfree, hshape'⟩ := exec_tries hn hshape (of_not_misses hmiss hc) hexec
    refine ⟨hn', ⟨hshape'.resolve_right hne, hslock.trans hown, ?_⟩, .inl hslock⟩
    dsimp only [Local.count]
    rw [hfree.1, hfree.2, hcount]
  | @tried _ _ pc ok hc hexec =>
    rw [hc] at hat
    obtain ⟨hshape, hown, hcount⟩ := hat
    obtain ⟨hn', hslock, hfree, -⟩ := exec_tries hn hshape (of_not_misses hmiss hc) hexec
    refine ⟨hn', ⟨hslock.trans hown, ?_⟩, .inl hslock⟩
    dsimp only [Local.count]
    rw [hfree.1, hfree.2, hcount]

theorem run_at [DecidableEq τ] (hn : nonpointer isa) {refcnts s}
    (hrun : ReflTransGen (Lib.Interleave RegularStep) (initState τ isa refcnts) s) :
    Lib.Holds (fun g => nonpointer g.isa) At s := by
  have hinit : Lib.Holds (fun g => nonpointer g.isa) At
      (initState τ isa refcnts) := ⟨hn, fun t => ⟨trivial, by simp [Pc.holdsLock, initState], rfl⟩⟩
  refine Lib.run_preserves (fun a b ha hab => ?_) hinit hrun
  refine hab.preserves (fun t g l g' l' hI hA hstep => ?_)
    (fun t u g l g' l' m hu hI hA hU hstep => ?_) ha
  · obtain ⟨hn', hat, -⟩ := hstep.sound hI hA
    exact ⟨hn', hat⟩
  · exact hU.congr ((hstep.sound hI hA).2.2.other hu)

/-- **The side-table lock is balanced.** In every interleaving of retains, releases and
weak loads of an object with a nonpointer isa, with any failures of the stores, in which
no `tryRetain` that has overflowed finds the object deallocating: every call that has
returned has unlocked as often as it locked, and whoever unlocks holds the lock. -/
theorem sidetable_lock_balanced [DecidableEq τ] {isa : L.Word} (hn : nonpointer isa = true)
    {refcnts : Option L.Word} {s : Lib.Threads τ (Shared L τ) (Local L)}
    (hrun : ReflTransGen (Lib.Interleave RegularStep) (initState τ isa refcnts) s) (t : τ) :
    ((s.pcs t).Returned → (s.pcs t).locks = (s.pcs t).unlocks) ∧
    ((s.pcs t).UnlocksNext → s.shared.slock = some t) := by
  have hat := (run_at hn hrun).2 t
  unfold At at hat
  refine ⟨fun hret => ?_, fun hnext => ?_⟩
  · rcases hret with hc | ⟨r, hc⟩
    · rw [hc] at hat
      exact hat.2.2
    · rw [hc] at hat
      exact hat.2
  · rcases hnext with ⟨pc, hc | hc, hu⟩ | hc | ⟨r, hc⟩
    · rw [hc] at hat
      have hholds : pc.holdsLock = true := by cases pc <;> first | rfl | cases hu
      exact hat.2.1.1 hholds
    · rw [hc] at hat
      exact hat.2.1
    · rw [hc] at hat
      exact hat.1
    · rw [hc] at hat
      exact hat.1

/-- A weak load of a fresh object. -/
theorem sidetable_lock_balanced_load :
    ∃ s : Lib.Threads Unit (Shared .x86_64 Unit) (Local .x86_64),
      ReflTransGen (Lib.Interleave RegularStep) (initState Unit freshIsa none) s ∧
      (s.pcs ()).UnlocksNext ∧ s.shared.slock = some () := by
  have hrun : ReflTransGen (Lib.Interleave RegularStep) (initState Unit freshIsa none)
      (initState Unit freshIsa none) := .refl
  have hmiss : ∀ {g : Shared .x86_64 Unit} {l}, isDeallocating g.isa = false → ¬ Misses g l := by
    intro g l hlive hmiss
    cases hlive.symm.trans hmiss.1
  replace hrun := hrun |>.moved () ⟨.load rfl, hmiss (by decide)⟩
    |>.moved () ⟨.lock rfl rfl, hmiss (by decide)⟩
    |>.moved () ⟨.tryRetain rfl, hmiss (by decide)⟩
    |>.moved () ⟨.execTry true rfl rfl (by simp), hmiss (by decide)⟩
    |>.moved () ⟨.tried true rfl rfl, hmiss (by decide)⟩
  have hnext : ∀ {l : Local .x86_64}, l.control = .loadUnlock true → l.UnlocksNext :=
    fun hc => .inr (.inr ⟨true, hc⟩)
  exact ⟨_, hrun, hnext rfl, (sidetable_lock_balanced (by decide) hrun ()).2 (hnext rfl)⟩

/-! ### A weak load that unlocks twice -/

theorem embeds_calling [DecidableEq τ] (t : τ) :
    Embeds (L := L) t Step (fun pc => ⟨.calling pc, 0, 0⟩) Pc.Free := by
  intro a g pc g' pc' hfree hact _
  cases a with
  | call c =>
    simp only [act] at hact
    split at hact
    next hidle =>
      subst hidle
      cases hact
      exact .call c rfl
    · cases hact
  | exec ok =>
    have hstep : Step t g ⟨.calling pc, 0, 0⟩ g' _ := .exec ok rfl hact
    dsimp only [Local.count] at hstep
    rwa [hfree.1, hfree.2] at hstep

/-- `extra_rc` is full, and thread `true` has the lock. -/
def fullLocked : Shared .x86_64 Bool :=
  ⟨0xff00000000000001, none, some true, ⟨254, 0, 0, 0, 0, 0⟩⟩

/-- After 254 retains, a weak load that is overtaken by 255 releases leaves
`rootTryRetain` with one unlock more than locks, and is about to unlock a free lock. -/
theorem weak_load_unlocks_twice :
    ¬ ∀ s : Lib.Threads Bool (Shared .x86_64 Bool) (Local .x86_64),
      ReflTransGen (Lib.Interleave Step) (initState Bool freshIsa none) s → ∀ t,
      ((s.pcs t).Returned → (s.pcs t).locks = (s.pcs t).unlocks) ∧
      ((s.pcs t).UnlocksNext → s.shared.slock = some t) := by
  intro hclaim
  -- the other thread fills `extra_rc`
  have hfill : runActs Pc.Free false (calls 254 (.rootRetain .fast))
      ((initState Bool freshIsa none).shared, .idle) =
      some (fullLocked.unlock, .idle) := by
    decide +kernel
  -- the weak load locks, and its `tryRetain` overflows
  have hslow : exec true true fullLocked (.retainLoad true .fast) =
      some (fullLocked, .retainLoad true .full) := by
    decide
  have hover : exec true true fullLocked (.retainLoad true .full) = some (fullLocked,
        .retainStore true .full true true 0xff00000000000001 0x8080000000000001) := by
    decide
  have hrun : ReflTransGen (Lib.Interleave Step) (initState Bool freshIsa none) _ :=
    (embeds_calling false).run rfl hfill
  replace hrun := hrun |>.moved true (.load rfl) |>.moved true (.lock rfl rfl)
    |>.moved true (.tryRetain rfl)
    |>.moved true (.execTry true rfl hslow (by simp))
    |>.moved true (.execTry true rfl hover (by simp))
  -- the other thread releases everything
  have hdrain : runActs Pc.Free false (calls 255 (.rootRelease false .fast)) (fullLocked, .idle) =
      some (⟨1, none, some true, ⟨254, 255, 0, 0, 1, 0⟩⟩, .idle) := by
    decide +kernel
  -- the weak load gives the lock away on its way out
  replace hrun := (hrun.trans ((embeds_calling false).run rfl hdrain))
    |>.moved true (.execTry false rfl rfl (by simp))
    |>.moved true (.tried true rfl rfl)
  cases (hclaim _ hrun true).2 (.inr (.inr ⟨_, rfl⟩))

end ObjcRuntime.LockBalance
