import ObjcRuntime.RefCount.Machine

/-!
# ObjcRuntime.RefCount.ClassChange

`objc_object::changeIsa`, next to retains and releases of the same object.

The word that will be stored, `newisa`, is a variable outside the retry loop. In
the branch from a nonpointer isa to a nonpointer isa it is assigned as a whole; in
the other branches `setClass` writes its class field and leaves the other bits as
the previous iteration left them. `newisaFrom` is one iteration as a function of
both `oldisa` and the old `newisa`, and a call carries the list of the isa values
its failed attempts have read.

A call therefore stores what its target class and the isa it replaces call for
unless an earlier attempt of the same call went through the first branch and the
isa that is finally replaced is raw.
-/

namespace ObjcRuntime.ClassChange

open Isa Relation List Nat Bool BitVec

variable {L : IsaLayout} {τ : Type}

/-! ### The fields that `changeIsa` writes -/

/-- A bitfield store: the bits of `mask` come from `value`. -/
def setMasked (mask word value : L.Word) : L.Word := (word &&& ~~~mask) ||| (value &&& mask)

/-- The fields of an `ISA_BITFIELD` that are not part of the count. -/
structure IsaFormat (L : IsaLayout) where
  /-- `SUPPORT_INDEXED_ISA` -/
  indexed : Bool
  /-- What `isa_t::setClass` writes: `shiftcls`, or all of an indexed isa. -/
  classMask : L.Word
  /-- `indexcls` of an indexed isa. -/
  indexMask : L.Word
  indexShift : Nat
  /-- `has_cxx_dtor`, where there is one. -/
  cxxDtorMask : L.Word
  hasAssoc : Nat
  weaklyReferenced : Nat
  /-- `ISA_MAGIC_VALUE` or `ISA_INDEX_MAGIC_VALUE` -/
  magicValue : L.Word
  magic_nonpointer : nonpointer magicValue = true
  cxxDtor_nonpointer : nonpointer cxxDtorMask = false
  /-- A packed class field is disjoint from the fields around it. -/
  packed : indexed = false → nonpointer classMask = false ∧ classMask.getLsbD hasAssoc = false ∧
    classMask.getLsbD weaklyReferenced = false ∧ classMask.toNat < sideBit L
  whole : indexed = true → classMask = BitVec.allOnes _

namespace IsaFormat

def arm64e : IsaFormat .arm64e where
  indexed := false
  classMask := 0x007ffffffffffff8
  indexMask := 0
  indexShift := 0
  cxxDtorMask := 0
  hasAssoc := 1
  weaklyReferenced := 2
  magicValue := 1
  magic_nonpointer := by decide
  cxxDtor_nonpointer := by decide
  packed := by decide
  whole := by decide

def arm64 : IsaFormat .arm64 where
  indexed := false
  classMask := 0x0000000ffffffff8
  indexMask := 0
  indexShift := 0
  cxxDtorMask := 4
  hasAssoc := 1
  weaklyReferenced := 42
  magicValue := 0x000001a000000001
  magic_nonpointer := by decide
  cxxDtor_nonpointer := by decide
  packed := by decide
  whole := by decide

def x86_64 : IsaFormat .x86_64 where
  indexed := false
  classMask := 0x00007ffffffffff8
  indexMask := 0
  indexShift := 0
  cxxDtorMask := 4
  hasAssoc := 1
  weaklyReferenced := 53
  magicValue := 0x001d800000000001
  magic_nonpointer := by decide
  cxxDtor_nonpointer := by decide
  packed := by decide
  whole := by decide

def armv7k : IsaFormat .armv7k where
  indexed := true
  classMask := 0xffffffff
  indexMask := 0x0001fffc
  indexShift := 2
  cxxDtorMask := 0x00200000
  hasAssoc := 1
  weaklyReferenced := 22
  magicValue := 0x001c0001
  magic_nonpointer := by decide
  cxxDtor_nonpointer := by decide
  packed := by decide
  whole := by decide

end IsaFormat

/-- What `changeIsa` reads of the class it changes to. -/
structure Target (F : IsaFormat L) where
  /-- The class pointer, signed for the object where pointers are signed. -/
  pointer : L.Word
  isFuture : Bool
  canAllocNonpointer : Bool
  hasCxxDtor : Bool
  classArrayIndex : Nat
  /-- Class pointers are aligned and fit the field that holds them. -/
  aligned : nonpointer pointer = false
  fits : pointer &&& F.classMask = pointer

variable {F : IsaFormat L}

/-- `!newCls->isFuture() && newCls->canAllocNonpointer()` -/
def Target.allowsNonpointer (cls : Target F) : Bool := !cls.isFuture && cls.canAllocNonpointer

/-- `isa_t::setClass` -/
def setClass (isa : L.Word) (cls : Target F) : L.Word := setMasked F.classMask isa cls.pointer

/-- `isa.has_cxx_dtor = newCls->hasCxxDtor()` -/
def setHasCxxDtor (isa : L.Word) (cls : Target F) : L.Word :=
  setMasked F.cxxDtorMask isa (if cls.hasCxxDtor then F.cxxDtorMask else 0)

/-- `isa.indexcls = newCls->classArrayIndex()` -/
def setIndexcls (isa : L.Word) (cls : Target F) : L.Word :=
  setMasked F.indexMask isa (BitVec.ofNat _ (cls.classArrayIndex * 2 ^ F.indexShift))

/-- The condition of the first branch: `0 -> nonpointer`, `nonpointer -> nonpointer`. -/
def toNonpointer (cls : Target F) (oldisa : L.Word) : Bool :=
  (oldisa == 0 || nonpointer oldisa) && cls.allowsNonpointer

/-- The first branch: `newisa` from `oldisa` alone. -/
def nonpointerIsa (cls : Target F) (oldisa : L.Word) : L.Word :=
  let newisa := if oldisa == 0 then setExtraRc F.magicValue 1 else oldisa
  let newisa := setHasCxxDtor newisa cls
  if F.indexed then setIndexcls newisa cls else setClass newisa cls

/-- `newisa` after one iteration of the loop that started with the given `newisa`. -/
def newisaFrom (cls : Target F) (newisa oldisa : L.Word) : L.Word :=
  if toNonpointer cls oldisa then nonpointerIsa cls oldisa else setClass newisa cls

/-! ### The machine -/

/-- Where a thread stands in `changeIsa`. `attempts` is a ghost: the isa values read by
the attempts of this call that failed. -/
inductive ChangePc (F : IsaFormat L)
  /-- `oldisa = LoadExclusive(&isa.bits)` -/
  | load (cls : Target F)
  /-- `sidetable_lock()` before a change to a raw isa. -/
  | lock (cls : Target F) (oldisa newisa : L.Word) (attempts : List L.Word)
  /-- `StoreExclusive` at the end of the loop. -/
  | store (cls : Target F) (sideTableLocked transcribeToSideTable : Bool)
      (oldisa newisa : L.Word) (attempts : List L.Word)
  /-- `sidetable_moveExtraRC_nolock` -/
  | moveExtraRC (oldisa : L.Word)
  /-- `sidetable_unlock()`, then return. -/
  | unlock

/-- A thread retains, releases or changes the class. -/
inductive Control (F : IsaFormat L)
  | counting (pc : Pc L)
  | changing (pc : ChangePc F)

/-- The body of the loop of `changeIsa`, up to the next atomic step. -/
def changeLoop (cls : Target F) (sideTableLocked : Bool) (oldisa newisa : L.Word)
    (attempts : List L.Word) : ChangePc F :=
  if toNonpointer cls oldisa then
    .store cls sideTableLocked false oldisa (newisaFrom cls newisa oldisa) attempts
  else if nonpointer oldisa then
    if !sideTableLocked then .lock cls oldisa (newisaFrom cls newisa oldisa) attempts
    else .store cls true true oldisa (newisaFrom cls newisa oldisa) attempts
  else .store cls sideTableLocked false oldisa (newisaFrom cls newisa oldisa) attempts

/-- After a successful store. -/
def changeStored (sideTableLocked transcribeToSideTable : Bool) (oldisa : L.Word) : Control F :=
  if transcribeToSideTable then .changing (.moveExtraRC oldisa)
  else if sideTableLocked then .changing .unlock
  else .counting .idle

/-- `isa.weakly_referenced` -/
def weaklyReferenced (F : IsaFormat L) (isa : L.Word) : Bool := isa.getLsbD F.weaklyReferenced

/-- `isa.has_assoc` -/
def hasAssoc (F : IsaFormat L) (isa : L.Word) : Bool := isa.getLsbD F.hasAssoc

/-- `sidetable_moveExtraRC_nolock`: the new entry. -/
def sidetableMoveExtraRCNolock (entry : Option L.Word) (extraRc : Nat)
    (isDeallocating weaklyReferenced : Bool) : Option L.Word :=
  let (sum, carry) := addc (entry.getD 0) ((BitVec.ofNat _ extraRc - 1) <<< 2)
  let refcnt := if carry then sideTableRcPinned L else sum
  let refcnt := if isDeallocating then refcnt ||| sideTableDeallocating L else refcnt
  some (if weaklyReferenced then refcnt ||| sideTableWeaklyReferenced L else refcnt)

/-- One atomic step of thread `t`. -/
inductive Step [DecidableEq τ] (t : τ) :
    Shared L τ → Control F → Shared L τ → Control F → Prop
  | count {g g' pc pc'} (a : Act) :
      act t a g pc = some (g', pc') → Step t g (.counting pc) g' (.counting pc')
  | call {g} (cls : Target F) :
      Step t g (.counting .idle) g (.changing (.load cls))
  | load {g cls} :
      Step t g (.changing (.load cls)) g (.changing (changeLoop cls false g.isa 0 []))
  | lock {g cls oldisa newisa attempts} :
      g.slock = none →
      Step t g (.changing (.lock cls oldisa newisa attempts)) (g.lock t)
        (.changing (.store cls true true oldisa newisa attempts))
  | store {g cls locked transcribe newisa attempts} :
      Step t g (.changing (.store cls locked transcribe g.isa newisa attempts))
        (g.storeIsa newisa) (changeStored locked transcribe g.isa)
  /-- The store fails, for a reason or for none, and reloads `oldisa`. -/
  | storeFails {g cls locked transcribe oldisa newisa attempts} :
      Step t g (.changing (.store cls locked transcribe oldisa newisa attempts)) g
        (.changing (changeLoop cls locked g.isa newisa (attempts ++ [oldisa])))
  | moveExtraRC {g oldisa} :
      Step t g (.changing (.moveExtraRC oldisa))
        (g.setRefcnts (sidetableMoveExtraRCNolock g.refcnts (extraRc oldisa)
          (isDeallocating oldisa) (weaklyReferenced F oldisa)))
        (.changing .unlock)
  | unlock {g} : Step t g (.changing .unlock) g.unlock (.counting .idle)

/-- The object with any isa and any side-table entry, and no thread in a call. -/
def initState (F : IsaFormat L) (τ : Type) (isa : L.Word) (refcnts : Option L.Word) :
    Lib.Threads τ (Shared L τ) (Control F) :=
  ⟨⟨isa, refcnts, none, Tally.zero⟩, fun _ => .counting .idle⟩

/-- The states of all interleavings. -/
def Reachable [DecidableEq τ] (s : Lib.Threads τ (Shared L τ) (Control F)) : Prop :=
  ∃ isa refcnts, ReflTransGen (Lib.Interleave Step) (initState F τ isa refcnts) s

/-- The next step of thread `t` is a `StoreExclusive` that succeeds: it replaces
`replaced` by `stored`. -/
def StoresNext (s : Lib.Threads τ (Shared L τ) (Control F)) (t : τ) (cls : Target F)
    (replaced stored : L.Word) (attempts : List L.Word) : Prop :=
  s.shared.isa = replaced ∧ ∃ locked transcribe,
    s.pcs t = .changing (.store cls locked transcribe replaced stored attempts)

/-! ### Bitfield stores -/

theorem getLsbD_setMasked (mask word value : L.Word) (i : Nat) :
    (setMasked mask word value).getLsbD i =
      if mask.getLsbD i then value.getLsbD i else word.getLsbD i := by
  unfold setMasked
  rw [getLsbD_or, getLsbD_and, getLsbD_and, getLsbD_not]
  by_cases hi : i < L.wordBits
  · cases mask.getLsbD i <;> simp [hi]
  · simp [getLsbD_of_ge _ _ (Nat.le_of_not_lt hi)]

theorem nonpointer_eq_getLsbD (isa : L.Word) : nonpointer isa = isa.getLsbD 0 := by
  unfold nonpointer
  rw [getLsbD, testBit_zero]

theorem setClass_setClass (isa : L.Word) (cls : Target F) :
    setClass (setClass isa cls) cls = setClass isa cls := by
  apply eq_of_getLsbD_eq
  intro i _
  unfold setClass
  simp only [getLsbD_setMasked]
  cases F.classMask.getLsbD i <;> rfl

theorem setClass_zero (cls : Target F) : setClass 0 cls = cls.pointer := by
  unfold setClass setMasked
  rw [cls.fits]
  simp

theorem setClass_indexed (h : F.indexed) (isa) (cls : Target F) :
    setClass isa cls = cls.pointer := by
  unfold setClass setMasked
  rw [cls.fits, F.whole h]
  simp

theorem nonpointer_setMasked {mask} (h : nonpointer mask = false)
    (word value : L.Word) : nonpointer (setMasked mask word value) = nonpointer word := by
  rw [nonpointer_eq_getLsbD] at h
  rw [nonpointer_eq_getLsbD, nonpointer_eq_getLsbD, getLsbD_setMasked, h]
  rfl

theorem Target.pointer_fields (cls : Target F) (h : F.indexed = false) :
    extraRc cls.pointer = 0 ∧ hasSidetableRc cls.pointer = false ∧
      hasAssoc F cls.pointer = false ∧ weaklyReferenced F cls.pointer = false := by
  obtain ⟨-, hassoc, hweak, hlt⟩ := F.packed h
  have hbit : ∀ i, F.classMask.getLsbD i = false → cls.pointer.getLsbD i = false := by
    intro i hi
    rw [← cls.fits, getLsbD_and, hi, Bool.and_false]
  have hsmall : cls.pointer.toNat < sideBit L := by
    rw [← cls.fits, toNat_and]
    exact lt_of_le_of_lt and_le_right hlt
  refine ⟨div_eq_of_lt ?_, ?_, hbit _ hassoc, hbit _ hweak⟩
  · rw [rcOne_eq]
    omega
  · unfold hasSidetableRc
    rw [div_eq_of_lt hsmall]
    rfl

/-! ### What a call has accumulated -/

variable {cls : Target F} {attempts : List L.Word}

/-- Attempts that all set the class field of the previous `newisa` leave the raw
pointer. -/
theorem setClass_foldl (h : ∀ a ∈ attempts, toNonpointer cls a = false) {newisa}
    (hnew : setClass newisa cls = cls.pointer) :
    setClass (attempts.foldl (newisaFrom cls) newisa) cls = cls.pointer := by
  induction attempts generalizing newisa with
  | nil => exact hnew
  | cons a attempts ih =>
    apply ih fun b hb => h b (mem_cons_of_mem _ hb)
    unfold newisaFrom
    rw [h a mem_cons_self, if_neg (by simp), setClass_setClass, hnew]

theorem nonpointer_nonpointerIsa (hpacked : F.indexed = false)
    {oldisa} (h : toNonpointer cls oldisa) : nonpointer (nonpointerIsa cls oldisa) := by
  have hone : 1 < L.rcRange := by
    rw [L.rcRange_eq]
    have := L.two_le_rcHalf
    omega
  unfold nonpointerIsa setHasCxxDtor setClass
  simp only [hpacked, false_eq_true, if_false]
  rw [nonpointer_setMasked (F.packed hpacked).1, nonpointer_setMasked F.cxxDtor_nonpointer]
  split
  · rw [setExtraRc_eq _ hone, nonpointer_pack _ _ hone, F.magic_nonpointer]
  next hne =>
    unfold toNonpointer at h
    rw [and_eq_true, or_eq_true] at h
    exact h.1.resolve_left hne

/-- Once an attempt went through the first branch, the nonpointer bit stays. -/
theorem nonpointer_foldl (hpacked : F.indexed = false) (newisa)
    (h : nonpointer newisa ∨ ∃ a ∈ attempts, toNonpointer cls a) :
    nonpointer (attempts.foldl (newisaFrom cls) newisa) := by
  induction attempts generalizing newisa with
  | nil => simpa using h
  | cons a attempts ih =>
    apply ih
    by_cases ha : toNonpointer cls a
    · left
      unfold newisaFrom
      rw [if_pos ha]
      exact nonpointer_nonpointerIsa hpacked ha
    · rcases h with hnew | ⟨b, hb, hto⟩
      · left
        unfold newisaFrom
        rw [if_neg ha]
        exact (nonpointer_setMasked (F.packed hpacked).1 _ _).trans hnew
      · rcases mem_cons.1 hb with rfl | hb
        · exact absurd hto ha
        · exact .inr ⟨b, hb, hto⟩

/-- `newisa` is what the iterations so far make of 0. -/
def ChangePc.Built : ChangePc F → Prop
  | .lock cls oldisa newisa attempts =>
    newisa = newisaFrom cls (attempts.foldl (newisaFrom cls) 0) oldisa
  | .store cls _ _ oldisa newisa attempts =>
    newisa = newisaFrom cls (attempts.foldl (newisaFrom cls) 0) oldisa
  | _ => True

def Control.Built : Control F → Prop
  | .counting _ => True
  | .changing pc => pc.Built

theorem changeLoop_built {locked oldisa newisa} (h : newisa = attempts.foldl (newisaFrom cls) 0) :
    (changeLoop cls locked oldisa newisa attempts).Built := by
  subst h
  unfold changeLoop
  split
  · rfl
  · split
    · split <;> rfl
    · rfl

theorem changeStored_built (locked transcribe) (oldisa) :
    (changeStored (F := F) locked transcribe oldisa).Built := by
  cases transcribe with
  | true => trivial
  | false => cases locked <;> trivial

theorem Step.built [DecidableEq τ] {t : τ} {g g' : Shared L τ} {l l' : Control F}
    (h : Step t g l g' l') (hl : l.Built) : l'.Built := by
  cases h with
  | count _ _ | call _ | moveExtraRC | unlock => trivial
  | load => exact changeLoop_built rfl
  | lock _ => exact hl
  | store => exact changeStored_built _ _ _
  | storeFails =>
    apply changeLoop_built
    rw [foldl_append]
    exact hl

theorem Reachable.built [DecidableEq τ] {s : Lib.Threads τ (Shared L τ) (Control F)}
    (h : Reachable s) (t : τ) : (s.pcs t).Built := by
  obtain ⟨isa, refcnts, hrun⟩ := h
  have hinit : Lib.Holds (fun _ => True) (fun _ _ l => l.Built) (initState F τ isa refcnts) :=
    ⟨trivial, fun _ => trivial⟩
  have hall : Lib.Holds (fun _ => True) (fun _ _ l => l.Built) s := by
    refine Lib.run_preserves (fun a b ha hab => ?_) hinit hrun
    exact hab.preserves (fun _ _ _ _ _ _ hl hstep => ⟨trivial, hstep.built hl⟩)
      (fun _ _ _ _ _ _ _ _ _ _ hm _ => hm) ha
  exact hall.2 t

/-- **What `changeIsa` stores.** In every interleaving of class changes, retains and
releases, a successful `StoreExclusive` of `changeIsa` stores what a first attempt
would make of the isa it replaces, exactly if it replaces a nonpointer isa for
a class that allows one, or no earlier attempt of the call read one. In that case
a raw isa is replaced by the raw pointer of the new class. -/
theorem changeIsa_stores_target [DecidableEq τ] {s : Lib.Threads τ (Shared L τ) (Control F)}
    (hs : Reachable s) {t : τ} {cls : Target F} {replaced stored : L.Word}
    {attempts : List L.Word} (hstore : StoresNext s t cls replaced stored attempts) :
    (stored = newisaFrom cls 0 replaced ↔
      F.indexed = true ∨ toNonpointer cls replaced = true ∨
        ∀ a ∈ attempts, toNonpointer cls a = false) ∧
    ((F.indexed = true ∨ ∀ a ∈ attempts, toNonpointer cls a = false) →
      replaced ≠ 0 → nonpointer replaced = false →
      stored = cls.pointer ∧ nonpointer stored = false ∧
      (F.indexed = false → extraRc stored = 0 ∧ hasSidetableRc stored = false ∧
        hasAssoc F stored = false ∧ weaklyReferenced F stored = false)) := by
  obtain ⟨-, locked, transcribe, hpc⟩ := hstore
  have hbuilt := hs.built t
  rw [hpc] at hbuilt
  have hstored : stored = newisaFrom cls (attempts.foldl (newisaFrom cls) 0) replaced := hbuilt
  have hgood : (F.indexed = true ∨ ∀ a ∈ attempts, toNonpointer cls a = false) →
      setClass (attempts.foldl (newisaFrom cls) 0) cls = cls.pointer := by
    rintro (hindexed | hnone)
    · exact setClass_indexed hindexed _ cls
    · exact setClass_foldl hnone (setClass_zero cls)
  refine ⟨?_, fun hcond hne hraw => ?_⟩
  · by_cases hto : toNonpointer cls replaced = true
    · simp [hstored, newisaFrom, hto]
    · have hfrom : newisaFrom cls 0 replaced = cls.pointer := by
        unfold newisaFrom
        rw [if_neg hto, setClass_zero]
      have hfrom' : stored = setClass (attempts.foldl (newisaFrom cls) 0) cls := by
        rw [hstored]
        exact if_neg hto
      rw [hfrom, hfrom']
      constructor
      · intro heq
        cases hindexed : F.indexed with
        | true => exact .inl rfl
        | false =>
          refine .inr (.inr fun a ha => ?_)
          by_contra hsome
          -- the nonpointer bit of that attempt is still there
          have hbit := nonpointer_foldl hindexed 0
            (.inr ⟨a, ha, Bool.eq_true_of_not_eq_false hsome⟩)
          have hkeep := nonpointer_setMasked (F.packed hindexed).1
            (attempts.foldl (newisaFrom cls) 0) cls.pointer
          rw [hbit] at hkeep
          have haligned := cls.aligned
          rw [← heq] at haligned
          cases hkeep.symm.trans haligned
      · rintro (hindexed | hto' | hnone)
        · exact hgood (.inl hindexed)
        · exact absurd hto' hto
        · exact hgood (.inr hnone)
  · have hto : toNonpointer cls replaced = false := by
      unfold toNonpointer
      rw [hraw, beq_false_of_ne hne]
      rfl
    have hptr : stored = cls.pointer := by
      rw [hstored]
      unfold newisaFrom
      rw [if_neg (by simp [hto])]
      exact hgood hcond
    rw [hptr]
    exact ⟨rfl, cls.aligned, cls.pointer_fields⟩

/-! ### Two racing class changes -/

/-- A class whose instances may have a nonpointer isa. -/
def plainClass : Target .x86_64 where
  pointer := 0x1000
  isFuture := false
  canAllocNonpointer := true
  hasCxxDtor := false
  classArrayIndex := 0
  aligned := by decide
  fits := by decide

/-- A class whose instances require a raw isa. -/
def rawClass : Target .x86_64 where
  pointer := 0x2000
  isFuture := false
  canAllocNonpointer := false
  hasCxxDtor := false
  classArrayIndex := 0
  aligned := by decide
  fits := by decide

/-- The isa of a fresh instance of a third class. -/
def instanceIsa : IsaLayout.x86_64.Word := 0x011d800000003001

theorem changeIsa_stores_target_raw :
    ∃ s : Lib.Threads Unit (Shared .x86_64 Unit) (Control .x86_64),
      Reachable s ∧ StoresNext s () plainClass 0x2000 0x1000 [] ∧
      (0x1000 : IsaLayout.x86_64.Word) = plainClass.pointer := by
  have hrun : ReflTransGen (Lib.Interleave Step) (initState .x86_64 Unit 0x2000 none)
      (initState .x86_64 Unit 0x2000 none) := .refl
  replace hrun := hrun |>.moved () (.call plainClass) |>.moved () .load
  refine ⟨_, ⟨_, _, hrun⟩, ⟨rfl, false, false, rfl⟩, ?_⟩
  have hraw := fun hstore : StoresNext _ () plainClass 0x2000 0x1000 [] =>
    (changeIsa_stores_target ⟨_, _, hrun⟩ hstore).2 (.inr (by simp)) (by decide) (by decide)
  exact (hraw ⟨rfl, false, false, rfl⟩).1

/-- The word that the first attempt to change an instance to `plainClass` builds, with
the class field of the second attempt. -/
def racedIsa : IsaLayout.x86_64.Word := 0x011d800000001001

/-- One thread is about to change a nonpointer isa to a class that allows one when
another thread makes the isa raw. Its second attempt replaces the raw isa by a word with
the nonpointer bit and a reference count. -/
theorem changeIsa_stores_stale :
    ¬ ∀ (s : Lib.Threads Bool (Shared .x86_64 Bool) (Control .x86_64)) (t : Bool)
      (cls : Target .x86_64) (replaced stored : IsaLayout.x86_64.Word) attempts,
      Reachable s → StoresNext s t cls replaced stored attempts →
      stored = newisaFrom cls 0 replaced ∧
        (nonpointer replaced = false → nonpointer stored = false ∧ extraRc stored = 0) := by
  intro hclaim
  have hrun : ReflTransGen (Lib.Interleave Step) (initState .x86_64 Bool instanceIsa none)
      (initState .x86_64 Bool instanceIsa none) := .refl
  replace hrun := hrun |>.moved true (.call plainClass) |>.moved true .load
    |>.moved false (.call rawClass)
    |>.moved false .load
    |>.moved false (.lock rfl)
    |>.moved false .store
    |>.moved true .storeFails
  have hraw := hclaim _ true plainClass 0x2000 racedIsa [instanceIsa] ⟨_, _, hrun⟩
    ⟨rfl, false, false, rfl⟩
  exact absurd (hraw.2 (by decide)) (by decide)

end ObjcRuntime.ClassChange
