import ObjcRuntime.RefCount.SideTable

/-!
# ObjcRuntime.WeakVars.Object

One object as the weak-reference machinery sees it: the fields of its isa and its
entry in the side table.

An object with a nonpointer isa keeps `weakly_referenced`, `extra_rc` and
`has_sidetable_rc` in the isa and only borrowed counts in the entry; one with a
raw isa keeps everything in the entry. The functions here are the regions that
run under the side-table lock, and the updates of the isa, each as one step.

What matters to weak references is whether an object `isDeallocating` and whether
it `isWeaklyReferenced`. The lemmas say what each function does to these two
(`rootRetain_spec` and so on). A deallocating object stays so, whatever retains
and releases follow.
-/

namespace ObjcRuntime.WeakVars

open Nat Bool BitVec

variable {L : IsaLayout}

structure Object (L : IsaLayout) where
  nonpointer : Bool
  weaklyReferenced : Bool
  hasAssoc : Bool
  hasCxxDtor : Bool
  hasSidetableRc : Bool
  extraRc : Nat
  /-- `refcnts[this]` -/
  refcnt : Option L.Word
  deriving Repr, DecidableEq

/-- `sidetable_isDeallocating` -/
def sidetableIsDeallocating (entry : Option L.Word) : Bool :=
  match entry with
  | none => false
  | some refcnt => refcnt &&& sideTableDeallocating L ≠ 0

/-- `sidetable_isWeaklyReferenced` -/
def sidetableIsWeaklyReferenced (entry : Option L.Word) : Bool :=
  match entry with
  | none => false
  | some refcnt => refcnt &&& sideTableWeaklyReferenced L ≠ 0

namespace Object

variable (x : Object L)

/-- A new entry in the side table. -/
def setRefcnt (refcnt : Option L.Word) : Object L := { x with refcnt }

/-- A new count in the isa. -/
def setExtraRc (extraRc : Nat) : Object L := { x with extraRc }

/-- `isa.isDeallocating()`, or `sidetable_isDeallocating`: `rootIsDeallocating`. -/
def isDeallocating : Bool :=
  if x.nonpointer then x.extraRc == 0 && !x.hasSidetableRc
  else sidetableIsDeallocating x.refcnt

def isWeaklyReferenced : Bool :=
  if x.nonpointer then x.weaklyReferenced else sidetableIsWeaklyReferenced x.refcnt

/-- `setWeaklyReferenced_nolock` -/
def setWeaklyReferencedNolock : Object L :=
  if x.nonpointer then { x with weaklyReferenced := true }
  else x.setRefcnt (some (x.refcnt.getD 0 ||| sideTableWeaklyReferenced L))

/-- One more reference in the isa, with `RC_HALF` moved out on an overflow. -/
def incExtraRc : Object L :=
  if x.extraRc + 1 < L.rcRange then x.setExtraRc (x.extraRc + 1)
  else
    { x with
      extraRc := L.rcHalf
      hasSidetableRc := true
      refcnt := (sidetableAddExtraRCNolock x.refcnt L.rcHalf).1 }

def rootRetain : Object L :=
  if !x.nonpointer then x.setRefcnt (sidetableRetain x.refcnt)
  else if x.isDeallocating then x
  else x.incExtraRc

/-- `rootTryRetain`, under the lock. -/
def rootTryRetain : Object L × Bool :=
  if !x.nonpointer then
    let result := sidetableTryRetain x.refcnt
    (x.setRefcnt result.1, result.2)
  else if x.isDeallocating then (x, false)
  else (x.incExtraRc, true)

/-- The underflow of `rootRelease`: borrow from the side table. -/
def borrowExtraRc : Object L × Bool :=
  let borrow := sidetableSubExtraRCNolock x.refcnt L.rcHalf
  if borrow.1.borrowed > 0 then
    let emptySideTable := borrow.1.remaining == 0
    ({ x with
      extraRc := borrow.1.borrowed - 1
      hasSidetableRc := !emptySideTable
      refcnt := if emptySideTable then sidetableClearExtraRCNolock borrow.2 else borrow.2 }, false)
  -- side table is empty after all
  else (x.setRefcnt borrow.2, true)

/-- `rootRelease`: the result says that the object is to be deallocated. -/
def rootRelease : Object L × Bool :=
  if !x.nonpointer then
    let result := sidetableRelease x.refcnt
    (x.setRefcnt result.1, result.2)
  else if x.isDeallocating then (x, false)
  else if x.extraRc > 0 then
    (x.setExtraRc (x.extraRc - 1), (x.setExtraRc (x.extraRc - 1)).isDeallocating)
  else x.borrowExtraRc

/-- The test of `rootDealloc` for the fast path. -/
def fastFree : Bool :=
  x.nonpointer && !x.weaklyReferenced && !x.hasAssoc && !x.hasCxxDtor && !x.hasSidetableRc

/-- `clearDeallocating`: does it need the lock? -/
def needsClear : Bool := !x.nonpointer || x.weaklyReferenced || x.hasSidetableRc

/-- The entry after `clearDeallocating_slow` or `sidetable_clearDeallocating`. -/
def clearEntry : Object L :=
  if x.nonpointer then
    if x.hasSidetableRc then x.setRefcnt none else x
  else x.setRefcnt none

end Object

/-! ### The flags of an entry -/

section Flags

theorem four_dvd_two_pow (L : IsaLayout) : 4 ∣ 2 ^ L.wordBits := by
  rw [two_pow_wordBits_eq]
  exact ⟨2 * maxCount L, by omega⟩

theorem flag_toNat {n} (hn : n ≤ 4) : (BitVec.ofNat L.wordBits n).toNat = n := by
  rw [toNat_ofNat, two_pow_wordBits_eq]
  have hpos : 0 < maxCount L := Nat.two_pow_pos _
  exact mod_eq_of_lt (by omega)

theorem and_flag (w : L.Word) {i} (hi : i ≤ 2) :
    w &&& BitVec.ofNat L.wordBits (2 ^ i) ≠ 0 ↔ w.toNat.testBit i := by
  have hbits : (w &&& BitVec.ofNat L.wordBits (2 ^ i)).toNat =
      (w.toNat.testBit i).toNat * 2 ^ i := by
    rw [BitVec.toNat_and, flag_toNat (Nat.pow_le_pow_right (by decide) hi), and_two_pow]
  rw [ne_eq, ← toNat_inj, hbits]
  cases w.toNat.testBit i <;> simp

theorem and_weaklyReferenced (w) : w &&& sideTableWeaklyReferenced L ≠ 0 ↔ w.toNat.testBit 0 :=
  and_flag w (i := 0) (by decide)

theorem and_deallocating (w) : w &&& sideTableDeallocating L ≠ 0 ↔ w.toNat.testBit 1 :=
  and_flag w (i := 1) (by decide)

theorem testBit_eq_of_mod {m n} (h : m % 4 = n % 4) {i} (hi : i < 2) :
    m.testBit i = n.testBit i := by
  have hlow : ∀ k, (k % 2 ^ 2).testBit i = k.testBit i := by
    intro k
    rw [testBit_mod_two_pow, decide_eq_true hi, Bool.true_and]
  rw [← hlow m, ← hlow n]
  exact congrArg (testBit · i) h

theorem add_rcOne_mod (w : L.Word) : (w + sideTableRcOne L).toNat % 4 = w.toNat % 4 := by
  unfold sideTableRcOne
  rw [toNat_add, flag_toNat (by omega), mod_mod_of_dvd _ (four_dvd_two_pow L)]
  omega

theorem sub_rcOne_mod (w) : (w - sideTableRcOne L).toNat % 4 = w.toNat % 4 := by
  obtain ⟨k, hk⟩ := four_dvd_two_pow L
  unfold sideTableRcOne
  rw [toNat_sub, flag_toNat (by omega), mod_mod_of_dvd _ (four_dvd_two_pow L), hk]
  omega

theorem sidetableIsWeaklyReferenced_some (w : L.Word) :
    sidetableIsWeaklyReferenced (some w) = w.toNat.testBit 0 := by
  unfold sidetableIsWeaklyReferenced
  rw [Bool.eq_iff_iff, decide_eq_true_iff]
  exact and_weaklyReferenced w

theorem sidetableIsDeallocating_some (w : L.Word) :
    sidetableIsDeallocating (some w) = w.toNat.testBit 1 := by
  unfold sidetableIsDeallocating
  rw [Bool.eq_iff_iff, decide_eq_true_iff]
  exact and_deallocating w

end Flags

/-! ### What the functions do to an object -/

/-- Two entries with the same flags. -/
def SameFlags (e e' : Option L.Word) : Prop :=
  sidetableIsWeaklyReferenced e' = sidetableIsWeaklyReferenced e ∧
    sidetableIsDeallocating e' = sidetableIsDeallocating e

theorem sameFlags_of_mod {w w' : L.Word} (h : w'.toNat % 4 = w.toNat % 4) :
    SameFlags (some w) (some w') := by
  unfold SameFlags
  rw [sidetableIsWeaklyReferenced_some, sidetableIsWeaklyReferenced_some,
    sidetableIsDeallocating_some, sidetableIsDeallocating_some]
  exact ⟨testBit_eq_of_mod h (by omega), testBit_eq_of_mod h (by omega)⟩

/-- An entry that was not there has no flags. -/
theorem sameFlags_getD (e : Option L.Word) : SameFlags e (some (e.getD 0)) := by
  cases e with
  | none =>
    unfold SameFlags
    simp [sidetableIsWeaklyReferenced, sidetableIsDeallocating]
  | some w => exact ⟨rfl, rfl⟩

theorem SameFlags.trans {e e' e'' : Option L.Word} (h : SameFlags e e') (h' : SameFlags e' e'') :
    SameFlags e e'' := ⟨h'.1.trans h.1, h'.2.trans h.2⟩

theorem sidetableRetain_flags (e : Option L.Word) : SameFlags e (sidetableRetain e) := by
  unfold sidetableRetain
  dsimp only
  split
  · exact sameFlags_getD e
  · exact (sameFlags_getD e).trans (sameFlags_of_mod (add_rcOne_mod _))

theorem sidetableTryRetain_flags (e : Option L.Word) :
    SameFlags e (sidetableTryRetain e).1 ∧
      (sidetableTryRetain e).2 = !sidetableIsDeallocating e := by
  cases e with
  | none =>
    refine ⟨(sameFlags_getD none).trans (sameFlags_of_mod ?_), rfl⟩
    have hadd := add_rcOne_mod (BitVec.ofNat L.wordBits 0)
    rw [BitVec.zero_add] at hadd
    exact hadd
  | some w =>
    unfold sidetableTryRetain
    dsimp only
    split
    next hdead =>
      have hyes : sidetableIsDeallocating (some w) := decide_eq_true hdead
      rw [hyes]
      exact ⟨⟨rfl, rfl⟩, rfl⟩
    next hdead =>
      have hno : sidetableIsDeallocating (some w) = false := decide_eq_false hdead
      rw [hno]
      split
      · exact ⟨⟨rfl, rfl⟩, rfl⟩
      · exact ⟨sameFlags_of_mod (add_rcOne_mod w), rfl⟩

/-- A release of the last reference sets the deallocating flag, every other one
keeps the flags. -/
theorem sidetableRelease_flags (e : Option L.Word) :
    sidetableIsWeaklyReferenced (sidetableRelease e).1 = sidetableIsWeaklyReferenced e ∧
    ((sidetableRelease e).2 → sidetableIsDeallocating e = false ∧
      sidetableIsDeallocating (sidetableRelease e).1) ∧ ((sidetableRelease e).2 = false →
      sidetableIsDeallocating (sidetableRelease e).1 = sidetableIsDeallocating e) := by
  have htwo : (sideTableDeallocating L).toNat = 2 := flag_toNat (by omega)
  cases e with
  | none =>
    refine ⟨?_, fun _ => ⟨rfl, ?_⟩, by simp [sidetableRelease]⟩
    · unfold sidetableRelease
      rw [sidetableIsWeaklyReferenced_some, htwo]
      rfl
    · unfold sidetableRelease
      rw [sidetableIsDeallocating_some, htwo]
      rfl
  | some w =>
    unfold sidetableRelease
    dsimp only
    split
    next hlast =>
      rw [htwo] at hlast
      refine ⟨?_, fun _ => ⟨?_, ?_⟩, by simp⟩
      · rw [sidetableIsWeaklyReferenced_some, sidetableIsWeaklyReferenced_some, BitVec.toNat_or,
          htwo, testBit_or]
        simp
      · rw [sidetableIsDeallocating_some]
        exact testBit_lt_two_pow hlast
      · rw [sidetableIsDeallocating_some, BitVec.toNat_or, htwo, testBit_or,
          show testBit 2 1 from rfl, Bool.or_true]
    · split
      · exact ⟨rfl, by simp, fun _ => rfl⟩
      · have hsame := sameFlags_of_mod (sub_rcOne_mod w)
        exact ⟨hsame.1, by simp, fun _ => hsame.2⟩

/-! ### Counts in the side table -/

/-- An entry that holds a positive multiple of `RC_HALF` and no flags. -/
def HoldsHalves (entry : Option L.Word) : Prop :=
  ∃ w, entry = some w ∧ 0 < w.toNat ∧ 4 * L.rcHalf ∣ w.toNat

theorem four_rcHalf_dvd (L : IsaLayout) : 4 * L.rcHalf ∣ 2 ^ (L.wordBits - 1) := by
  have hbits := L.two_le_rcBits
  have hshift := L.two_le_rcShift
  have hpow : 4 * L.rcHalf = 2 ^ (L.rcBits + 1) := by
    unfold IsaLayout.rcHalf
    rw [show (4 : Nat) = 2 ^ 2 from rfl, ← pow_add]
    congr 1
    omega
  rw [hpow]
  apply pow_dvd_pow
  unfold IsaLayout.wordBits
  omega

theorem two_pow_wordBits_succ (L : IsaLayout) : 2 ^ L.wordBits = 2 * 2 ^ (L.wordBits - 1) := by
  have h := three_le_wordBits L
  rw [← pow_succ']
  congr 1
  omega

theorem sideTableRc_rcHalf (L : IsaLayout) : (sideTableRc L L.rcHalf).toNat = 4 * L.rcHalf := by
  have hle := Nat.le_of_dvd (Nat.two_pow_pos _) (four_rcHalf_dvd L)
  have hpow := two_pow_wordBits_succ L
  have hpos : 0 < 2 ^ (L.wordBits - 1) := Nat.two_pow_pos _
  unfold sideTableRc
  rw [toNat_ofNat, mul_comm]
  exact mod_eq_of_lt (by omega)

theorem sidetableAddExtraRC_halves {e : Option L.Word} (h : e = none ∨ HoldsHalves e) :
    HoldsHalves (sidetableAddExtraRCNolock e L.rcHalf).1 := by
  have hhalf := L.two_le_rcHalf
  have hle := Nat.le_of_dvd (Nat.two_pow_pos _) (four_rcHalf_dvd L)
  have hpow := two_pow_wordBits_succ L
  have hold : 4 * L.rcHalf ∣ (e.getD 0).toNat := by
    rcases h with rfl | ⟨w, rfl, -, hw⟩
    · simp
    · exact hw
  unfold sidetableAddExtraRCNolock
  dsimp only
  split
  next hpin =>
    refine ⟨_, rfl, ?_, hold⟩
    exact Nat.lt_of_lt_of_le (Nat.two_pow_pos _) (of_decide_eq_true hpin)
  next hpin =>
    -- below the pinned bit there is room for the counts
    have hlt : (e.getD 0).toNat < 2 ^ (L.wordBits - 1) :=
      Nat.lt_of_not_le fun hge => hpin (decide_eq_true hge)
    have hsum : (e.getD 0).toNat + (sideTableRc L L.rcHalf).toNat < 2 ^ L.wordBits := by
      rw [sideTableRc_rcHalf]
      omega
    have hcarry : (addc (e.getD 0) (sideTableRc L L.rcHalf)).2 = false :=
      decide_eq_false (not_le.2 hsum)
    rw [hcarry, if_neg Bool.false_ne_true]
    have hnew : ((e.getD 0) + sideTableRc L L.rcHalf).toNat = (e.getD 0).toNat + 4 * L.rcHalf := by
      rw [toNat_add, mod_eq_of_lt hsum, sideTableRc_rcHalf]
    exact ⟨_, rfl, by rw [addc, hnew]; omega,
      by rw [addc, hnew]; exact Nat.dvd_add hold ⟨1, by omega⟩⟩

theorem sidetableSubExtraRC_halves {e : Option L.Word} (h : HoldsHalves e) :
    (sidetableSubExtraRCNolock e L.rcHalf).1.borrowed = L.rcHalf ∧
    ((sidetableSubExtraRCNolock e L.rcHalf).1.remaining ≠ 0 →
      HoldsHalves (sidetableSubExtraRCNolock e L.rcHalf).2) := by
  obtain ⟨w, rfl, hpos, hdvd⟩ := h
  have hle := Nat.le_of_dvd hpos hdvd
  have hne : w ≠ 0 := by
    intro hw
    rw [hw] at hpos
    simp at hpos
  have hsub : (w - sideTableRc L L.rcHalf).toNat = w.toNat - 4 * L.rcHalf := by
    rw [toNat_sub_of_le, sideTableRc_rcHalf]
    rw [le_def, sideTableRc_rcHalf]
    exact hle
  unfold sidetableSubExtraRCNolock
  dsimp only
  rw [if_neg hne]
  refine ⟨rfl, fun hrem => ⟨_, rfl, ?_, ?_⟩⟩
  · dsimp only at hrem
    omega
  · rw [hsub]
    exact dvd_sub hdvd (dvd_refl _)

/-! ### Specifications -/

namespace Object

variable {x : Object L}

/-- A nonpointer isa has an entry in the side table exactly while it says so. -/
structure Ok (x : Object L) : Prop where
  noEntry : x.nonpointer = true → x.hasSidetableRc = false → x.refcnt = none
  entry : x.nonpointer = true → x.hasSidetableRc = true → HoldsHalves x.refcnt

/-- The parts that the functions leave alone. -/
structure Keeps (x x' : Object L) : Prop where
  nonpointer : x'.nonpointer = x.nonpointer
  isWeaklyReferenced : x'.isWeaklyReferenced = x.isWeaklyReferenced

theorem Ok.of_raw (h : x.nonpointer = false) : x.Ok :=
  ⟨fun hnon => absurd hnon (by rw [h]; exact Bool.false_ne_true),
    fun hnon => absurd hnon (by rw [h]; exact Bool.false_ne_true)⟩

theorem isDeallocating_raw (h : x.nonpointer = false) :
    x.isDeallocating = sidetableIsDeallocating x.refcnt := by
  unfold isDeallocating
  rw [h, if_neg Bool.false_ne_true]

theorem isWeaklyReferenced_raw (h : x.nonpointer = false) :
    x.isWeaklyReferenced = sidetableIsWeaklyReferenced x.refcnt := by
  unfold isWeaklyReferenced
  rw [h, if_neg Bool.false_ne_true]

theorem isWeaklyReferenced_nonpointer (h : x.nonpointer) :
    x.isWeaklyReferenced = x.weaklyReferenced := by
  unfold isWeaklyReferenced
  rw [h, if_pos rfl]

theorem isDeallocating_nonpointer (h : x.nonpointer) :
    x.isDeallocating = (x.extraRc == 0 && !x.hasSidetableRc) := by
  unfold isDeallocating
  rw [h, if_pos rfl]

theorem setRefcnt_isDeallocating (h : x.nonpointer = false) (e) :
    (x.setRefcnt e).isDeallocating = sidetableIsDeallocating e :=
  isDeallocating_raw (x := x.setRefcnt e) h

theorem setRefcnt_isWeaklyReferenced (h : x.nonpointer = false) (e) :
    (x.setRefcnt e).isWeaklyReferenced = sidetableIsWeaklyReferenced e :=
  isWeaklyReferenced_raw (x := x.setRefcnt e) h

theorem keeps_raw (h : x.nonpointer = false) {e}
    (hweak : sidetableIsWeaklyReferenced e = sidetableIsWeaklyReferenced x.refcnt) :
    Keeps x (x.setRefcnt e) := by
  refine ⟨rfl, ?_⟩
  rw [isWeaklyReferenced_raw h, setRefcnt_isWeaklyReferenced h]
  exact hweak

theorem keeps_nonpointer {x'} (h : x.nonpointer)
    (hnon : x'.nonpointer = x.nonpointer) (hweak : x'.weaklyReferenced = x.weaklyReferenced) :
    Keeps x x' := by
  refine ⟨hnon, ?_⟩
  rw [isWeaklyReferenced_nonpointer h, isWeaklyReferenced_nonpointer (hnon.trans h)]
  exact hweak

theorem incExtraRc_spec (h : x.Ok) (hnon : x.nonpointer) :
    x.incExtraRc.Ok ∧ Keeps x x.incExtraRc ∧ x.incExtraRc.isDeallocating = false := by
  unfold incExtraRc
  split
  · refine ⟨⟨h.noEntry, h.entry⟩, keeps_nonpointer hnon rfl rfl, ?_⟩
    refine (isDeallocating_nonpointer ?_).trans ?_
    · exact hnon
    · simp [setExtraRc]
  · refine ⟨⟨by simp, fun _ _ => ?_⟩, keeps_nonpointer hnon rfl rfl, ?_⟩
    · apply sidetableAddExtraRC_halves
      by_cases hside : x.hasSidetableRc
      · exact .inr (h.entry hnon hside)
      · exact .inl (h.noEntry hnon (eq_false_iff.2 hside))
    · refine (isDeallocating_nonpointer ?_).trans ?_
      · exact hnon
      · simp

theorem rootRetain_spec (h : x.Ok) :
    x.rootRetain.Ok ∧ Keeps x x.rootRetain ∧ x.rootRetain.isDeallocating = x.isDeallocating := by
  unfold rootRetain
  rcases eq_false_or_eq_true x.nonpointer with hnon | hnon
  · rw [hnon, Bool.not_true, if_neg Bool.false_ne_true]
    split
    · exact ⟨h, ⟨rfl, rfl⟩, rfl⟩
    next hlive =>
      obtain ⟨hok, hkeeps, hdead⟩ := incExtraRc_spec h hnon
      exact ⟨hok, hkeeps, hdead.trans (eq_false_iff.2 hlive).symm⟩
  · rw [hnon, Bool.not_false, if_pos rfl]
    obtain ⟨hweak, hdead⟩ := sidetableRetain_flags x.refcnt
    refine ⟨.of_raw hnon, keeps_raw hnon hweak, ?_⟩
    rw [isDeallocating_raw hnon, setRefcnt_isDeallocating hnon]
    exact hdead

/-- Only an object that is not deallocating can be retained through a weak
variable. -/
theorem rootTryRetain_spec (h : x.Ok) :
    x.rootTryRetain.1.Ok ∧ Keeps x x.rootTryRetain.1 ∧
      x.rootTryRetain.1.isDeallocating = x.isDeallocating ∧
      x.rootTryRetain.2 = !x.isDeallocating := by
  unfold rootTryRetain
  rcases Bool.eq_false_or_eq_true x.nonpointer with hnon | hnon
  · rw [hnon, Bool.not_true, if_neg Bool.false_ne_true]
    split
    next hdead => exact ⟨h, ⟨rfl, rfl⟩, rfl, by rw [hdead]; rfl⟩
    next hlive =>
      have hfalse := Bool.eq_false_iff.2 hlive
      obtain ⟨hok, hkeeps, hdead⟩ := incExtraRc_spec h hnon
      exact ⟨hok, hkeeps, hdead.trans hfalse.symm, by rw [hfalse]; rfl⟩
  · rw [hnon, Bool.not_false, if_pos rfl]
    obtain ⟨⟨hweak, hdead⟩, hresult⟩ := sidetableTryRetain_flags x.refcnt
    refine ⟨.of_raw hnon, keeps_raw hnon hweak, ?_, ?_⟩
    · rw [isDeallocating_raw hnon, setRefcnt_isDeallocating hnon]
      exact hdead
    · rw [isDeallocating_raw hnon]
      exact hresult

theorem borrowExtraRc_spec (h : x.Ok) (hnon : x.nonpointer) (hside : x.hasSidetableRc) :
    x.borrowExtraRc.1.Ok ∧ Keeps x x.borrowExtraRc.1 ∧
      x.borrowExtraRc.1.isDeallocating = false ∧ x.borrowExtraRc.2 = false := by
  have hhalf := L.two_le_rcHalf
  obtain ⟨hborrow, hremaining⟩ := sidetableSubExtraRC_halves (h.entry hnon hside)
  unfold borrowExtraRc
  dsimp only
  rw [hborrow, if_pos (by omega)]
  refine ⟨⟨fun _ hempty => ?_, fun _ hrest => ?_⟩, keeps_nonpointer hnon rfl rfl, ?_, rfl⟩
  · rw [not_eq_false'] at hempty
    rw [hempty, if_pos rfl]
    rfl
  · rw [not_eq_true'] at hrest
    rw [hrest, if_neg Bool.false_ne_true]
    exact hremaining (by simpa using hrest)
  · refine (isDeallocating_nonpointer ?_).trans ?_
    · exact hnon
    · have hne : (L.rcHalf - 1 == 0) = false := by
        rw [beq_eq_false_iff_ne]
        omega
      rw [hne, Bool.false_and]

/-- `rootRelease` returns true when the object becomes deallocating, and then
only. -/
theorem rootRelease_spec (h : x.Ok) :
    x.rootRelease.1.Ok ∧ Keeps x x.rootRelease.1 ∧
      (x.rootRelease.2 →
        x.isDeallocating = false ∧ x.rootRelease.1.isDeallocating) ∧
      (x.rootRelease.2 = false → x.rootRelease.1.isDeallocating = x.isDeallocating) := by
  unfold rootRelease
  rcases Bool.eq_false_or_eq_true x.nonpointer with hnon | hnon
  · rw [hnon, Bool.not_true, if_neg Bool.false_ne_true]
    split
    · exact ⟨h, ⟨rfl, rfl⟩, fun hf => absurd hf Bool.false_ne_true, fun _ => rfl⟩
    next hlive =>
      have hfalse := Bool.eq_false_iff.2 hlive
      rw [hfalse]
      split
      · exact ⟨⟨h.noEntry, h.entry⟩, keeps_nonpointer hnon rfl rfl,
          fun hdead => ⟨rfl, hdead⟩, fun hdead => hdead⟩
      next hzero =>
        have hside : x.hasSidetableRc := by
          rw [isDeallocating_nonpointer hnon] at hfalse
          have hrc : (x.extraRc == 0) := by
            rw [beq_iff_eq]
            omega
          rw [hrc, Bool.true_and] at hfalse
          simpa using hfalse
        obtain ⟨hok, hkeeps, hdead, hresult⟩ := borrowExtraRc_spec h hnon hside
        rw [hresult]
        exact ⟨hok, hkeeps, fun hf => absurd hf Bool.false_ne_true, fun _ => hdead⟩
  · rw [hnon, Bool.not_false, if_pos rfl]
    obtain ⟨hweak, htrue, hfalse⟩ := sidetableRelease_flags x.refcnt
    refine ⟨.of_raw hnon, keeps_raw hnon hweak, fun hresult => ?_, fun hresult => ?_⟩
    · obtain ⟨hbefore, hafter⟩ := htrue hresult
      exact ⟨(isDeallocating_raw hnon).trans hbefore,
        (setRefcnt_isDeallocating hnon _).trans hafter⟩
    · rw [isDeallocating_raw hnon, setRefcnt_isDeallocating hnon]
      exact hfalse hresult

theorem setWeaklyReferencedNolock_spec (h : x.Ok) :
    x.setWeaklyReferencedNolock.Ok ∧
      x.setWeaklyReferencedNolock.nonpointer = x.nonpointer ∧
      x.setWeaklyReferencedNolock.isWeaklyReferenced ∧
      x.setWeaklyReferencedNolock.isDeallocating = x.isDeallocating := by
  unfold setWeaklyReferencedNolock
  rcases eq_false_or_eq_true x.nonpointer with hnon | hnon
  · rw [if_pos hnon]
    refine ⟨⟨h.noEntry, h.entry⟩, rfl, ?_, rfl⟩
    exact isWeaklyReferenced_nonpointer (x := { x with weaklyReferenced := true }) hnon
  · rw [if_neg (by rw [hnon]; exact Bool.false_ne_true)]
    have hone : (sideTableWeaklyReferenced L).toNat = 1 := flag_toNat (by omega)
    refine ⟨.of_raw hnon, rfl, ?_, ?_⟩
    · rw [setRefcnt_isWeaklyReferenced hnon, sidetableIsWeaklyReferenced_some, BitVec.toNat_or,
        hone,
        testBit_or, show testBit 1 0 from rfl, Bool.or_true]
    · rw [setRefcnt_isDeallocating hnon, isDeallocating_raw hnon, ← (sameFlags_getD x.refcnt).2,
        sidetableIsDeallocating_some, sidetableIsDeallocating_some, BitVec.toNat_or, hone,
        testBit_or, show testBit 1 1 = false from rfl, Bool.or_false]

end Object

end ObjcRuntime.WeakVars
