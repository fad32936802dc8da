import ObjcRuntime.WeakVars.Object

/-!
# ObjcRuntime.RefCount.RawCount

The reference count of an object whose isa is a raw class pointer. Nothing of
it is in the isa: the side-table entry holds the count minus one, the
deallocating flag and the weakly-referenced flag, and an object without an entry
has a count of one and no flag.

The map may drop an entry of value 0 whenever it rehashes
(`RefcountMapValuePurgeable`), for instance because of other objects. That is
the operation `purge`, which has no result.

The specification is `Counter`: how many retains and releases have been counted
and whether a release has taken the count from 1 to 0. `Represents` reads an
entry as a counter through the decomposition of its word, and one step lemma
covers every operation.
-/

namespace ObjcRuntime.RawCount

open WeakVars Option Nat

variable {L : IsaLayout}

/-! ### The functions of the source -/

/-- `sidetable_retainCount` -/
def sidetableRetainCount (entry : Option L.Word) : Nat :=
  match entry with
  | none => 1
  | some refcnt => 1 + refcnt.toNat / 4

/-- `sidetable_setWeaklyReferenced_nolock` -/
def sidetableSetWeaklyReferencedNolock (entry : Option L.Word) : Option L.Word :=
  some (entry.getD 0 ||| sideTableWeaklyReferenced L)

/-- `RefcountMapValuePurgeable::isPurgeable` -/
def isPurgeable (refcnt : L.Word) : Bool := refcnt == 0

/-- A rehash of the map drops a purgeable entry. -/
def purge (entry : Option L.Word) : Option L.Word :=
  match entry with
  | none => none
  | some refcnt => if isPurgeable refcnt then none else some refcnt

/-- The calls on one object, and the purges of its entry. Releases are made with
`performDealloc` false. -/
inductive Op
  | retain
  | tryRetain
  | release
  | setWeaklyReferenced
  | retainCount
  | isDeallocating
  | purge
  deriving Repr, DecidableEq

inductive Result
  /-- `sidetable_retain` and `sidetable_setWeaklyReferenced_nolock` always succeed. -/
  | done
  | bool (b : Bool)
  | count (n : Nat)
  deriving Repr, DecidableEq

def step (entry : Option L.Word) : Op → Option L.Word × Option Result
  | .retain => (sidetableRetain entry, some .done)
  | .tryRetain => ((sidetableTryRetain entry).1, some (.bool (sidetableTryRetain entry).2))
  | .release => ((sidetableRelease entry).1, some (.bool (sidetableRelease entry).2))
  | .setWeaklyReferenced => (sidetableSetWeaklyReferencedNolock entry, some .done)
  | .retainCount => (entry, some (.count (sidetableRetainCount entry)))
  | .isDeallocating => (entry, some (.bool (sidetableIsDeallocating entry)))
  | .purge => (purge entry, none)

/-- The entry after a sequence of operations, and their results. -/
def run (entry : Option L.Word) : List Op → Option L.Word × List Result
  | [] => (entry, [])
  | op :: ops =>
    ((run (step entry op).1 ops).1, (step entry op).2.toList ++ (run (step entry op).1 ops).2)

/-! ### The counter -/

structure Counter where
  retains : Nat
  releases : Nat
  /-- A release has taken the count from 1 to 0. -/
  deallocating : Bool
  weaklyReferenced : Bool
  deriving Repr, DecidableEq

namespace Counter

def fresh : Counter := ⟨0, 0, false, false⟩

/-- The references beyond the first one; of a deallocating object, those taken
since. -/
def beyond (c : Counter) : Nat := c.retains + c.deallocating.toNat - c.releases

/-- A purge is invisible, and the release that takes the count from 1 to 0 is the
one that returns true. -/
def step (c : Counter) : Op → Counter × Option Result
  | .retain => ({ c with retains := c.retains + 1 }, some .done)
  | .tryRetain =>
    if c.deallocating then (c, some (.bool false))
    else ({ c with retains := c.retains + 1 }, some (.bool true))
  | .release =>
    if !c.deallocating && c.retains == c.releases then
      ({ c with releases := c.releases + 1, deallocating := true }, some (.bool true))
    else ({ c with releases := c.releases + 1 }, some (.bool false))
  | .setWeaklyReferenced => ({ c with weaklyReferenced := true }, some .done)
  | .retainCount => (c, some (.count (1 + c.beyond)))
  | .isDeallocating => (c, some (.bool c.deallocating))
  | .purge => (c, none)

def run (c : Counter) : List Op → Counter × List Result
  | [] => (c, [])
  | op :: ops =>
    ((run (c.step op).1 ops).1, (c.step op).2.toList ++ (run (c.step op).1 ops).2)

/-- A release needs a reference: one plus the retains minus the releases is not 0. -/
def Allows (c : Counter) : Op → Prop
  | .release => c.releases ≤ c.retains
  | _ => True

/-- No release exceeds the count and every count stays below the pinned bit. -/
def Legal (L : IsaLayout) (c : Counter) : List Op → Prop
  | [] => True
  | op :: ops =>
    c.Allows op ∧ (c.step op).1.beyond < maxCount L ∧ Legal L (c.step op).1 ops

theorem legal_append {c pre post} :
    Legal L c (pre ++ post) ↔ Legal L c pre ∧ Legal L (c.run pre).1 post := by
  induction pre generalizing c with
  | nil => simp [Legal, run]
  | cons op pre ih => simp [Legal, run, ih, and_assoc]

theorem run_append (c : Counter) (pre post) :
    (c.run (pre ++ post)).1 = ((c.run pre).1.run post).1 := by
  induction pre generalizing c with
  | nil => rfl
  | cons op pre ih => exact ih (c.step op).1

theorem step_flags (c : Counter) (op : Op) :
    (c.deallocating → (c.step op).1.deallocating) ∧
      (c.weaklyReferenced → (c.step op).1.weaklyReferenced) := by
  cases op with
  | tryRetain =>
    unfold step
    dsimp only
    split <;> exact ⟨id, id⟩
  | release =>
    unfold step
    dsimp only
    split
    · exact ⟨fun _ => rfl, id⟩
    · exact ⟨id, id⟩
  | setWeaklyReferenced => exact ⟨id, fun _ => rfl⟩
  | retain | retainCount | isDeallocating | purge => exact ⟨id, id⟩

theorem run_flags (c : Counter) (ops) :
    (c.deallocating → (c.run ops).1.deallocating) ∧
      (c.weaklyReferenced → (c.run ops).1.weaklyReferenced) := by
  induction ops generalizing c with
  | nil => exact ⟨id, id⟩
  | cons op ops ih =>
    obtain ⟨hd, hw⟩ := c.step_flags op
    exact ⟨fun h => (ih _).1 (hd h), fun h => (ih _).2 (hw h)⟩

theorem run_filter (c) (ops) :
    c.run (ops.filter (· ≠ .purge)) = c.run ops ∧
      (Legal L c ops → Legal L c (ops.filter (· ≠ .purge))) := by
  induction ops generalizing c with
  | nil => exact ⟨rfl, id⟩
  | cons op ops ih =>
    by_cases hp : op = .purge
    · subst hp
      exact ⟨(ih c).1, fun h => (ih c).2 h.2.2⟩
    · rw [List.filter_cons_of_pos (by simpa using hp)]
      refine ⟨?_, fun h => ⟨h.1, h.2.1, (ih _).2 h.2.2⟩⟩
      unfold run
      rw [(ih _).1]

end Counter

/-! ### The word of an entry -/

/-- A word that holds `n` counts and the two flags. -/
def word (n : Nat) (deallocating weaklyReferenced : Bool) : Nat :=
  4 * n + 2 * deallocating.toNat + weaklyReferenced.toNat

theorem word_div (n : Nat) (d k) : word n d k / 4 = n := by
  unfold word
  cases d <;> cases k <;> simp only [Bool.toNat_true, Bool.toNat_false] <;> omega

theorem word_testBit_zero (n : Nat) (d k) : (word n d k).testBit 0 = k := by
  unfold word
  rw [testBit_zero]
  cases d <;> cases k <;> simp only [Bool.toNat_true, Bool.toNat_false, decide_eq_true_eq,
    decide_eq_false_iff_not] <;> omega

theorem word_testBit_one (n : Nat) (d k) : (word n d k).testBit 1 = d := by
  unfold word
  rw [testBit_succ, testBit_zero]
  cases d <;> cases k <;> simp only [Bool.toNat_true, Bool.toNat_false, decide_eq_true_eq,
    decide_eq_false_iff_not] <;> omega

theorem word_or_one (n : Nat) (d k) : word n d k ||| 1 = word n d true := by
  have hor : ∀ y, 2 ^ 1 * y ||| 1 = 2 ^ 1 * y + 1 := fun y =>
    (two_pow_add_eq_or_of_lt (by decide) y).symm
  have hword : ∀ b, word n d b = 2 ^ 1 * (2 * n + d.toNat) + b.toNat := by
    intro b
    unfold word
    omega
  cases k with
  | false => rw [hword false, hword true, Bool.toNat_false, add_zero, hor, Bool.toNat_true]
  | true => rw [hword true, Bool.toNat_true, ← hor, Nat.or_assoc, Nat.or_self]

/-- An entry read as a count and two flags. -/
def Reads (entry : Option L.Word) (n : Nat) (d k : Bool) : Prop :=
  (entry.getD 0).toNat = word n d k ∧ n < maxCount L

namespace Reads

variable {entry : Option L.Word} {n : Nat} {d k : Bool}

theorem none : Reads (Option.none : Option L.Word) 0 false false :=
  ⟨by simp [word], Nat.two_pow_pos _⟩

theorem of_none (h : Reads (Option.none : Option L.Word) n d k) :
    n = 0 ∧ d = false ∧ k = false := by
  have hzero : 0 = word n d k := by simpa using h.1
  unfold word at hzero
  cases d <;> cases k <;> simp only [Bool.toNat_true, Bool.toNat_false] at hzero <;> simp <;> omega

variable (h : Reads entry n d k)
include h

theorem isPinned : isPinned (entry.getD 0) = false := by
  have hp := two_pow_pinned_eq L
  have hn := h.2
  unfold ObjcRuntime.isPinned
  rw [decide_eq_false_iff_not, h.1, hp]
  unfold word
  cases d <;> cases k <;> simp only [Bool.toNat_true, Bool.toNat_false] <;> omega

theorem isDeallocating : sidetableIsDeallocating entry = d := by
  cases entry with
  | none => exact h.of_none.2.1.symm
  | some w =>
    rw [sidetableIsDeallocating_some, show w.toNat = word n d k from h.1, word_testBit_one]

theorem isWeaklyReferenced : sidetableIsWeaklyReferenced entry = k := by
  cases entry with
  | none => exact h.of_none.2.2.symm
  | some w =>
    rw [sidetableIsWeaklyReferenced_some, show w.toNat = word n d k from h.1, word_testBit_zero]

theorem retainCount : sidetableRetainCount entry = 1 + n := by
  cases entry with
  | none => rw [h.of_none.1]; rfl
  | some w =>
    unfold sidetableRetainCount
    dsimp only
    rw [show w.toNat = word n d k from h.1, word_div]

theorem add (hlt : n + 1 < maxCount L) :
    Reads (some (entry.getD 0 + sideTableRcOne L)) (n + 1) d k := by
  have hw := two_pow_wordBits_eq L
  have hfour : (sideTableRcOne L).toNat = 4 := flag_toNat (by omega)
  have hsum : word n d k + 4 = word (n + 1) d k := by unfold word; omega
  have hbound : word (n + 1) d k < 8 * maxCount L := by
    unfold word
    cases d <;> cases k <;> simp only [Bool.toNat_true, Bool.toNat_false] <;> omega
  refine ⟨?_, hlt⟩
  rw [getD_some, BitVec.toNat_add, h.1, hfour, hsum, mod_eq_of_lt (by omega)]

theorem retain (hlt : n + 1 < maxCount L) : Reads (sidetableRetain entry) (n + 1) d k := by
  unfold sidetableRetain
  simp only [h.isPinned, Bool.false_eq_true, if_false]
  exact h.add hlt

omit h

theorem tryRetain (h : Reads entry n false k) (hlt : n + 1 < maxCount L) :
    Reads (sidetableTryRetain entry).1 (n + 1) false k ∧ (sidetableTryRetain entry).2 := by
  have hadd := h.add hlt
  cases entry with
  | none =>
    rw [getD_none, BitVec.ofNat_eq_ofNat, BitVec.zero_add] at hadd
    exact ⟨hadd, rfl⟩
  | some w =>
    have hlive : ¬ (w &&& sideTableDeallocating L ≠ 0) := by
      rw [and_deallocating, show w.toNat = word n false k from h.1, word_testBit_one]
      simp
    have hpin : ObjcRuntime.isPinned w = false := h.isPinned
    unfold sidetableTryRetain
    simp only [hlive, hpin, if_false, Bool.false_eq_true]
    exact ⟨hadd, trivial⟩

theorem tryRetain_deallocating (h : Reads entry n true k) :
    sidetableTryRetain entry = (entry, false) := by
  cases entry with
  | none => exact absurd h.of_none.2.1 (by simp)
  | some w =>
    have hdead : w &&& sideTableDeallocating L ≠ 0 := by
      rw [and_deallocating, show w.toNat = word n true k from h.1, word_testBit_one]
    exact if_pos hdead

/-- The last reference goes: the flag is set and the weak bit stays. -/
theorem release_last (h : Reads entry 0 false k) :
    Reads (sidetableRelease entry).1 0 true k ∧ (sidetableRelease entry).2 := by
  have htwo : (sideTableDeallocating L).toNat = 2 := flag_toNat (by omega)
  cases entry with
  | none =>
    rw [h.of_none.2.2]
    refine ⟨⟨?_, h.2⟩, rfl⟩
    show (sideTableDeallocating L).toNat = _
    rw [htwo]
    rfl
  | some w =>
    have hw : w.toNat = word 0 false k := h.1
    have hlt : w.toNat < (sideTableDeallocating L).toNat := by
      rw [htwo, hw]
      cases k <;> decide
    unfold sidetableRelease
    simp only [hlt, if_true]
    refine ⟨⟨?_, h.2⟩, trivial⟩
    rw [getD_some, BitVec.toNat_or, hw, htwo]
    cases k <;> decide

theorem release (h : Reads entry (n + 1) d k) :
    Reads (sidetableRelease entry).1 n d k ∧ (sidetableRelease entry).2 = false := by
  have htwo : (sideTableDeallocating L).toNat = 2 := flag_toNat (by omega)
  have hfour : (sideTableRcOne L).toNat = 4 := flag_toNat (by omega)
  have hn := h.2
  cases entry with
  | none => exact absurd h.of_none.1 (by omega)
  | some w =>
    have hw : w.toNat = word (n + 1) d k := h.1
    have hge : ¬ w.toNat < (sideTableDeallocating L).toNat := by
      rw [htwo, hw]
      unfold word
      omega
    have hpin : ObjcRuntime.isPinned w = false := h.isPinned
    unfold sidetableRelease
    simp only [hge, if_false, hpin, Bool.false_eq_true]
    refine ⟨⟨?_, by omega⟩, trivial⟩
    rw [getD_some, BitVec.toNat_sub_of_le, hw, hfour]
    · unfold word
      omega
    · rw [BitVec.le_def, hfour, hw]
      unfold word
      omega

/-- A deallocating object is not deallocated a second time. -/
theorem release_deallocating (h : Reads entry n true k) : (sidetableRelease entry).2 = false := by
  have htwo : (sideTableDeallocating L).toNat = 2 := flag_toNat (by omega)
  cases entry with
  | none => exact absurd h.of_none.2.1 (by simp)
  | some w =>
    have hw : w.toNat = word n true k := h.1
    have hge : ¬ w.toNat < (sideTableDeallocating L).toNat := by
      rw [htwo, hw]
      unfold word
      rw [Bool.toNat_true]
      omega
    have hpin : ObjcRuntime.isPinned w = false := h.isPinned
    unfold sidetableRelease
    simp only [hge, if_false, hpin, Bool.false_eq_true]

theorem setWeaklyReferenced (h : Reads entry n d k) :
    Reads (sidetableSetWeaklyReferencedNolock entry) n d true := by
  have hone : (sideTableWeaklyReferenced L).toNat = 1 := flag_toNat (by omega)
  refine ⟨?_, h.2⟩
  unfold sidetableSetWeaklyReferencedNolock
  rw [getD_some, BitVec.toNat_or, h.1, hone, word_or_one]

theorem purge (h : Reads entry n d k) : Reads (purge entry) n d k := by
  cases entry with
  | none => exact h
  | some w =>
    unfold RawCount.purge isPurgeable
    dsimp only
    split
    next hz =>
      rw [beq_iff_eq] at hz
      subst hz
      exact h
    · exact h

end Reads

/-! ### Refinement -/

/-- The entry holds what the counter says. -/
structure Represents (entry : Option L.Word) (c : Counter) : Prop where
  le : c.releases ≤ c.retains + c.deallocating.toNat
  reads : Reads entry c.beyond c.deallocating c.weaklyReferenced

theorem represents_fresh : Represents (none : Option L.Word) Counter.fresh :=
  ⟨le_refl 0, Reads.none⟩

theorem step_represents {entry : Option L.Word} {c : Counter} (h : Represents entry c)
    {op : Op} (hallow : c.Allows op) (hlt : (c.step op).1.beyond < maxCount L) :
    Represents (step entry op).1 (c.step op).1 ∧ (step entry op).2 = (c.step op).2 := by
  obtain ⟨hle, hr⟩ := h
  obtain ⟨retains, releases, deallocating, weak⟩ := c
  unfold Counter.beyond at hr hlt
  dsimp only at hle hr
  cases op with
  | retain =>
    have hmore : retains + 1 + deallocating.toNat - releases =
        retains + deallocating.toNat - releases + 1 := by omega
    simp only [Counter.step, hmore] at hlt
    refine ⟨⟨by dsimp only [Counter.step]; omega, ?_⟩, rfl⟩
    unfold Counter.beyond
    simp only [Counter.step, hmore]
    exact hr.retain hlt
  | tryRetain =>
    cases deallocating with
    | true =>
      unfold step
      rw [hr.tryRetain_deallocating]
      exact ⟨⟨hle, hr⟩, rfl⟩
    | false =>
      have hmore : retains + 1 + false.toNat - releases =
          retains + false.toNat - releases + 1 := by simp at hle ⊢; omega
      simp only [Counter.step, hmore, Bool.false_eq_true, if_false] at hlt
      obtain ⟨hr', hres⟩ := hr.tryRetain hlt
      simp only [step, Counter.step, Bool.false_eq_true, if_false, hres]
      refine ⟨⟨by dsimp only; omega, ?_⟩, trivial⟩
      unfold Counter.beyond
      rw [hmore]
      exact hr'
  | release =>
    have hallow : releases ≤ retains := hallow
    by_cases hlast : (!deallocating && retains == releases)
    · -- the count goes from 1 to 0
      obtain ⟨hlive, heq⟩ : deallocating = false ∧ retains = releases := by simpa using hlast
      subst hlive heq
      have hzero : retains + false.toNat - retains = 0 := by simp
      rw [hzero] at hr
      obtain ⟨hr', hres⟩ := hr.release_last
      simp only [step, Counter.step, hlast, if_true, hres]
      refine ⟨⟨by simp, ?_⟩, trivial⟩
      unfold Counter.beyond
      simpa using hr'
    · have hmore : retains + deallocating.toNat - releases =
          retains + deallocating.toNat - (releases + 1) + 1 := by
        cases deallocating with
        | true => simp only [Bool.toNat_true]; omega
        | false =>
          have hne : retains ≠ releases := by simpa using hlast
          omega
      rw [hmore] at hr
      obtain ⟨hr', hres⟩ := hr.release
      simp only [step, Counter.step, hlast, hres, Bool.false_eq_true, if_false]
      refine ⟨⟨?_, hr'⟩, trivial⟩
      dsimp only
      omega
  | setWeaklyReferenced => exact ⟨⟨hle, hr.setWeaklyReferenced⟩, rfl⟩
  | retainCount =>
    refine ⟨⟨hle, hr⟩, ?_⟩
    unfold step Counter.step
    rw [hr.retainCount]
    rfl
  | isDeallocating =>
    refine ⟨⟨hle, hr⟩, ?_⟩
    unfold step Counter.step
    rw [hr.isDeallocating]
  | purge => exact ⟨⟨hle, hr.purge⟩, rfl⟩

theorem run_represents {entry : Option L.Word} {c : Counter} (h : Represents entry c)
    {ops : List Op} (hlegal : c.Legal L ops) :
    Represents (run entry ops).1 (c.run ops).1 ∧ (run entry ops).2 = (c.run ops).2 := by
  induction ops generalizing entry c with
  | nil => exact ⟨h, rfl⟩
  | cons op ops ih =>
    obtain ⟨hallow, hlt, hrest⟩ := hlegal
    obtain ⟨hstep, hres⟩ := step_represents h hallow hlt
    obtain ⟨hrun, hress⟩ := ih hstep hrest
    unfold run Counter.run
    rw [hres, hress]
    exact ⟨hrun, rfl⟩

/-- **Raw-isa reference counting refines a counter.** Over every legal sequence of
calls on an object that starts without an entry, with its entry purged at
arbitrary moments:

* every result is the counter's, and stays the same if no purge happens;
* until a release takes the count from 1 to 0, `retainCount` is one plus the
  retains minus the releases, and a release returns true exactly if it takes the
  count from 1 to 0;
* once one has, `isDeallocating` is true and `tryRetain` fails for good;
* the weakly-referenced bit is set from the first call that sets it on. -/
theorem sidetable_refines_counter {ops : List Op} (hlegal : Counter.fresh.Legal L ops) :
    (run (none : Option L.Word) ops).2 = (Counter.fresh.run ops).2 ∧
    (run (none : Option L.Word) ops).2 =
      (run (none : Option L.Word) (ops.filter (· ≠ .purge))).2 ∧ ∀ pre post, ops = pre ++ post →
      ((Counter.fresh.run pre).1.deallocating = false →
        sidetableRetainCount (run (none : Option L.Word) pre).1 =
          1 + (Counter.fresh.run pre).1.retains - (Counter.fresh.run pre).1.releases) ∧
      ((sidetableRelease (run (none : Option L.Word) pre).1).2 = true ↔
        (Counter.fresh.run pre).1.deallocating = false ∧
          (Counter.fresh.run pre).1.retains = (Counter.fresh.run pre).1.releases) ∧
      ((Counter.fresh.run pre).1.deallocating = true →
        sidetableIsDeallocating (run (none : Option L.Word) ops).1 = true ∧
          (sidetableTryRetain (run (none : Option L.Word) ops).1).2 = false) ∧
      ((Counter.fresh.run pre).1.deallocating = false →
        sidetableIsDeallocating (run (none : Option L.Word) pre).1 = false) ∧
      ((Counter.fresh.run pre).1.weaklyReferenced = true →
        sidetableIsWeaklyReferenced (run (none : Option L.Word) ops).1 = true) := by
  obtain ⟨hend, hres⟩ := run_represents (represents_fresh (L := L)) hlegal
  obtain ⟨hfilter, hlegal'⟩ := Counter.run_filter (L := L) Counter.fresh ops
  refine ⟨hres, ?_, fun pre post hsplit => ?_⟩
  · rw [hres, (run_represents represents_fresh (hlegal' hlegal)).2, hfilter]
  · subst hsplit
    have hpre := (run_represents (represents_fresh (L := L)) (Counter.legal_append.1 hlegal).1).1
    have hflags := (Counter.fresh.run pre).1.run_flags post
    rw [← Counter.run_append] at hflags
    refine ⟨fun hlive => ?_, ?_, fun hdead => ?_, fun hlive => ?_, fun hweak => ?_⟩
    · have hle := hpre.le
      rw [hpre.reads.retainCount]
      unfold Counter.beyond
      rw [hlive, Bool.toNat_false] at *
      omega
    · have hle := hpre.le
      have hreads := hpre.reads
      constructor
      · intro htrue
        cases hb : (Counter.fresh.run pre).1.beyond with
        | succ m =>
          rw [hb] at hreads
          rw [hreads.release.2] at htrue
          cases htrue
        | zero =>
          cases hd : (Counter.fresh.run pre).1.deallocating with
          | false =>
            unfold Counter.beyond at hb
            rw [hd, Bool.toNat_false] at hb hle
            exact ⟨rfl, by omega⟩
          | true =>
            rw [hd] at hreads
            rw [hreads.release_deallocating] at htrue
            cases htrue
      · rintro ⟨hlive, heq⟩
        have hzero : (Counter.fresh.run pre).1.beyond = 0 := by
          unfold Counter.beyond
          rw [hlive, heq]
          simp
        rw [hzero, hlive] at hreads
        exact hreads.release_last.2
    · rw [hend.reads.isDeallocating, hflags.1 hdead]
      have hreads := hend.reads
      rw [hflags.1 hdead] at hreads
      rw [hreads.tryRetain_deallocating]
      exact ⟨rfl, rfl⟩
    · rw [hpre.reads.isDeallocating, hlive]
    · rw [hend.reads.isWeaklyReferenced, hflags.2 hweak]

/-- A retain and a release that leave an entry of 0, its purge, the last release,
and a balanced pair while deallocating. -/
def lifetime : List Op :=
  [.retain, .release, .purge, .setWeaklyReferenced, .release, .retain, .tryRetain, .release,
    .isDeallocating]

theorem lifetime_legal : Counter.fresh.Legal IsaLayout.x86_64 lifetime := by
  refine ⟨trivial, by decide, ?_, by decide, trivial, by decide, trivial, by decide, ?_, by decide,
    trivial, by decide, trivial, by decide, ?_, by decide, trivial, by decide, trivial⟩
  all_goals
    unfold Counter.Allows
    decide

theorem sidetable_refines_counter_lifetime :
    (run (none : Option IsaLayout.x86_64.Word) lifetime).2 =
      [.done, .bool false, .done, .bool true, .done, .bool false, .bool false, .bool true] ∧
    sidetableIsWeaklyReferenced (run (none : Option IsaLayout.x86_64.Word) lifetime).1 = true := by
  obtain ⟨hres, -, hsplit⟩ := sidetable_refines_counter lifetime_legal
  exact ⟨hres, (hsplit lifetime [] (List.append_nil _).symm).2.2.2.2 (by decide)⟩

end ObjcRuntime.RawCount
