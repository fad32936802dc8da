import ObjcRuntime.Classes.State
import ObjcRuntime.MethodList

/-!
# ObjcRuntime.Classes.Duplicate

`objc_duplicateClass` on LP64, where the flags of a class that its instances
depend on share a word with its method cache.

The duplicate gets an empty cache, and with it a flags word of zero. Linking it
under the superclass brings back the flags that the superclass has. What the
original has of its own is lost: C++ structors, a raw isa and the fast instance
size. The method lists are copied and answer as the originals do
(`search_duplicate`).
-/

namespace ObjcRuntime.Classes.Duplicate

open Function Lib Option

/-! ### The flags word -/

inductive Arch
  | arm64 | x86_64
  deriving DecidableEq

section Flags

variable (arch : Arch)

/-- `FAST_CACHE_HAS_CXX_DTOR` -/
def fastCacheHasCxxDtor : BitVec 16 :=
  match arch with
  | .arm64 => 1
  | .x86_64 => 4

/-- `FAST_CACHE_HAS_CXX_CTOR` -/
def fastCacheHasCxxCtor : BitVec 16 := 2

/-- `FAST_CACHE_ALLOC_MASK` -/
def fastCacheAllocMask : BitVec 16 := 0x1ff8

/-- `FAST_CACHE_ALLOC_MASK16` -/
def fastCacheAllocMask16 : BitVec 16 := 0x1ff0

/-- `FAST_CACHE_ALLOC_DELTA16` -/
def fastCacheAllocDelta16 : BitVec 64 := 8

/-- `FAST_CACHE_REQUIRES_RAW_ISA` -/
def fastCacheRequiresRawIsa : BitVec 16 := 0x2000

/-- `RW_REALIZED` -/
def rwRealized : BitVec 32 := 0x80000000

/-- `RW_COPIED_RO` -/
def rwCopiedRo : BitVec 32 := 0x8000000

/-- `RW_REALIZING` -/
def rwRealizing : BitVec 32 := 0x80000

def wordAlign32 (x : BitVec 32) : BitVec 32 := (x + 7) &&& ~~~7

def wordAlign (x : BitVec 64) : BitVec 64 := (x + 7) &&& ~~~7

def align16 (x : BitVec 64) : BitVec 64 := (x + 15) &&& ~~~15

/-! ### Classes -/

/-- A method list of a class: sorted if it says so. -/
abbrev ClassMethodList (Imp : Type) := { mlist : MethodList Imp // mlist.SearchOk }

variable {Imp : Type}

/-- `class_ro_t` -/
structure ClassRo (Imp : Type) where
  name : String
  instanceSize : BitVec 32
  baseMethods : Option (ClassMethodList Imp)
  baseProperties : Option (List Nat)
  baseProtocols : Option (List Nat)

/-- `class_rw_ext_t` -/
structure RwExt (Imp : Type) where
  version : Nat
  methods : ListArray (ClassMethodList Imp)
  properties : ListArray (List Nat)
  protocols : ListArray (List Nat)

/-- `objc_class` and its `class_rw_t`, without the links to subclasses. -/
structure ClassObject (Imp : Type) where
  isa : Cls
  superclass : Option Cls
  /-- `cache._flags` -/
  cacheFlags : BitVec 16
  /-- `FAST_HAS_DEFAULT_RR` of `bits` -/
  hasDefaultRR : Bool
  rwFlags : BitVec 32
  ro : ClassRo Imp
  ext : Option (RwExt Imp)

abbrev Heap (Imp : Type) := Cls → ClassObject Imp

def ClassObject.getBit (c : ClassObject Imp) (flags : BitVec 16) : Bool :=
  c.cacheFlags &&& flags ≠ 0

def ClassObject.setBit (c : ClassObject Imp) (flags : BitVec 16) : ClassObject Imp :=
  { c with cacheFlags := c.cacheFlags ||| flags }

def ClassObject.hasCxxCtor (c : ClassObject Imp) : Bool := c.getBit fastCacheHasCxxCtor

def ClassObject.hasCxxDtor (c : ClassObject Imp) : Bool := c.getBit (fastCacheHasCxxDtor arch)

def ClassObject.instancesRequireRawIsa (c : ClassObject Imp) : Bool :=
  c.getBit fastCacheRequiresRawIsa

/-- `hasFastInstanceSize`; `zero` says that the extra size is the constant 0. -/
def ClassObject.hasFastInstanceSize (c : ClassObject Imp) (zero : Bool) : Bool :=
  if zero then c.getBit fastCacheAllocMask16 else c.getBit fastCacheAllocMask

def ClassObject.fastInstanceSize (c : ClassObject Imp) (zero : Bool) (extra : BitVec 64) :
    BitVec 64 :=
  if zero then (c.cacheFlags &&& fastCacheAllocMask16).setWidth 64
  else
    align16 ((c.cacheFlags &&& fastCacheAllocMask).setWidth 64 + extra - fastCacheAllocDelta16)

def ClassObject.alignedInstanceSize (c : ClassObject Imp) : BitVec 32 :=
  wordAlign32 c.ro.instanceSize

/-- `instanceSize(extra)`; a compiler that knows that `extra` is 0 takes another
path. -/
def ClassObject.instanceSize (c : ClassObject Imp) (constant : Bool) (extra : BitVec 64) :
    BitVec 64 :=
  let zero := constant && extra = 0
  if c.hasFastInstanceSize zero then c.fastInstanceSize zero extra
  else
    let size := c.alignedInstanceSize.setWidth 64 + extra
    -- CF requires all objects be at least 16 bytes.
    if size < 16 then 16 else size

/-- `setFastInstanceSize` -/
def ClassObject.setFastInstanceSize (c : ClassObject Imp) (newSize : BitVec 64) : ClassObject Imp :=
  let newBits := c.cacheFlags &&& ~~~fastCacheAllocMask
  let sizeBits := (wordAlign newSize + fastCacheAllocDelta16).setWidth 16 &&& fastCacheAllocMask
  { c with cacheFlags := if newSize ≤ sizeBits.setWidth 64 then newBits ||| sizeBits else newBits }

/-- `data()->methods()` -/
def ClassObject.methods (c : ClassObject Imp) : ListArray (ClassMethodList Imp) :=
  match c.ext with
  | some rwe => rwe.methods
  | none => .ofBase c.ro.baseMethods

/-! ### Duplication -/

/-- `method_list_t::duplicate`: a copy of a small list is a big one without marks. -/
def duplicateMethodList (mlist : MethodList Imp) : MethodList Imp :=
  if mlist.isSmallList then ⟨false, true, false, mlist.methods⟩ else mlist

theorem duplicateMethodList_searchOk {mlist : MethodList Imp} (h : mlist.SearchOk) :
    (duplicateMethodList mlist).SearchOk := by
  unfold duplicateMethodList
  split
  · exact fun hfixed => absurd hfixed (by simp)
  · exact h

def ClassMethodList.duplicate (mlist : ClassMethodList Imp) : ClassMethodList Imp :=
  ⟨duplicateMethodList mlist.1, duplicateMethodList_searchOk mlist.2⟩

/-- `duplicateInto` -/
def duplicateInto (a : ListArray (ClassMethodList Imp)) : ListArray (ClassMethodList Imp) :=
  match a with
  | .array lists => .array (lists.map ClassMethodList.duplicate)
  | .list l => .list l.duplicate
  | .empty => .empty

/-- `extAlloc` for a class that is not a metaclass. -/
def extAlloc (ro : ClassRo Imp) (deepCopy : Bool) : RwExt Imp where
  version := 0
  methods := .ofBase (ro.baseMethods.map fun l => if deepCopy then l.duplicate else l)
  properties := .ofBase ro.baseProperties
  protocols := .ofBase ro.baseProtocols

/-- The `class_rw_ext_t` of the duplicate. -/
def duplicateExt (ro : ClassRo Imp) (ext : Option (RwExt Imp)) : Option (RwExt Imp) :=
  match ext with
  | some rwe =>
    some
      { extAlloc ro false with
        version := rwe.version
        methods := duplicateInto rwe.methods
        properties := rwe.properties
        protocols := rwe.protocols }
  | none => if ro.baseMethods.isSome then some (extAlloc ro true) else none

/-- What `addSubclass` does to a class without subclasses. -/
def addSubclass (supercls subcls : ClassObject Imp) : ClassObject Imp :=
  let c := if supercls.hasCxxCtor then subcls.setBit fastCacheHasCxxCtor else subcls
  let c := if supercls.hasCxxDtor arch then c.setBit (fastCacheHasCxxDtor arch) else c
  let c := { c with hasDefaultRR := c.hasDefaultRR && supercls.hasDefaultRR }
  -- the flag does not propagate from root class to root metaclass
  if supercls.instancesRequireRawIsa && supercls.superclass.isSome then
    c.setBit fastCacheRequiresRawIsa
  else c

/-- The duplicate before it is linked. -/
def unlinkedDuplicate (original : ClassObject Imp) (name : String) : ClassObject Imp :=
  let ro := { original.ro with name }
  { isa := original.isa
    superclass := original.superclass
    -- initializeToEmpty()
    cacheFlags := 0
    hasDefaultRR := original.hasDefaultRR
    rwFlags := original.rwFlags ||| rwCopiedRo ||| rwRealizing
    ro
    ext := duplicateExt ro original.ext }

/-- The duplicate of a class. -/
def duplicateOf (heap : Heap Imp) (original : Cls) (name : String) : ClassObject Imp :=
  let c := unlinkedDuplicate (heap original) name
  let c :=
    match c.superclass with
    | some supercls => addSubclass arch (heap supercls) c
    | none => c
  { c with rwFlags := c.rwFlags &&& ~~~rwRealizing }

/-- `objc_duplicateClass`, with the address of the new class. -/
def duplicateClass (original duplicate : Cls) (name : String) (heap : Heap Imp) : Heap Imp :=
  update heap duplicate (duplicateOf arch heap original name)

/-! ### The search without caches -/

def getMethodNoSuper (c : ClassObject Imp) (sel : Nat) : Option (MethodEntry Imp) :=
  c.methods.lists.findSome? (·.1.search sel)

/-- The implementation found in a class or its superclasses, within a number of
steps. -/
def methodWalk (heap : Heap Imp) (sel : Nat) : Nat → Option Cls → Option (Option Imp)
  | _, none => some none
  | 0, some _ => none
  | fuel + 1, some cls =>
    match getMethodNoSuper (heap cls) sel with
    | some m => some (some m.imp)
    | none => methodWalk heap sel fuel (heap cls).superclass

/-! ### Agreement -/

/-- The instances of both classes are built and destroyed alike. -/
structure Agrees (heap : Heap Imp) (original duplicate : Cls) : Prop where
  hasCxxCtor : (heap duplicate).hasCxxCtor = (heap original).hasCxxCtor
  hasCxxDtor : (heap duplicate).hasCxxDtor arch = (heap original).hasCxxDtor arch
  instancesRequireRawIsa :
    (heap duplicate).instancesRequireRawIsa = (heap original).instancesRequireRawIsa
  instanceSize : ∀ constant extra,
    (heap duplicate).instanceSize constant extra = (heap original).instanceSize constant extra
  methods : ∀ sel fuel,
    methodWalk heap sel fuel (some duplicate) = methodWalk heap sel fuel (some original)

/-- The flags of a class are those that its superclass passes on, and its instances
are too large for the fast size. -/
structure Inherits (heap : Heap Imp) (c : Cls) : Prop where
  hasCxxCtor : (heap c).hasCxxCtor = (heap c).superclass.any fun p => (heap p).hasCxxCtor
  hasCxxDtor : (heap c).hasCxxDtor arch = (heap c).superclass.any fun p => (heap p).hasCxxDtor arch
  instancesRequireRawIsa : (heap c).instancesRequireRawIsa =
    (heap c).superclass.any fun p => (heap p).instancesRequireRawIsa && (heap p).superclass.isSome
  noFastInstanceSize : (heap c).cacheFlags &&& fastCacheAllocMask = 0

end Flags

variable {Imp : Type} {arch : Arch} {heap : Heap Imp}

/-! ### The duplicate's flags -/

/-- A flags word with these flags. -/
def flagsWord (arch : Arch) (ctor dtor raw : Bool) : BitVec 16 :=
  (if ctor then fastCacheHasCxxCtor else 0) ||| (if dtor then fastCacheHasCxxDtor arch else 0) |||
    if raw then fastCacheRequiresRawIsa else 0

theorem addSubclass_cacheFlags (arch) (supercls subcls : ClassObject Imp) :
    (addSubclass arch supercls subcls).cacheFlags = subcls.cacheFlags |||
      flagsWord arch supercls.hasCxxCtor (supercls.hasCxxDtor arch)
        (supercls.instancesRequireRawIsa && supercls.superclass.isSome) := by
  unfold addSubclass flagsWord ClassObject.setBit
  cases supercls.hasCxxCtor <;> cases supercls.hasCxxDtor arch <;>
    cases supercls.instancesRequireRawIsa && supercls.superclass.isSome <;>
    simp [BitVec.or_assoc]

theorem duplicateOf_cacheFlags (arch) (heap : Heap Imp) (original : Cls) (name) :
    (duplicateOf arch heap original name).cacheFlags =
      flagsWord arch ((heap original).superclass.any fun p => (heap p).hasCxxCtor)
        ((heap original).superclass.any fun p => (heap p).hasCxxDtor arch)
        ((heap original).superclass.any fun p =>
          (heap p).instancesRequireRawIsa && (heap p).superclass.isSome) := by
  have hsuper : (unlinkedDuplicate (heap original) name).superclass = (heap original).superclass :=
    rfl
  have hzero : (unlinkedDuplicate (heap original) name).cacheFlags = 0 := rfl
  unfold duplicateOf
  dsimp only
  rw [hsuper]
  cases (heap original).superclass with
  | none =>
    simp only [any_none, hzero]
    cases arch <;> decide
  | some p =>
    rw [addSubclass_cacheFlags, hzero]
    exact BitVec.zero_or

theorem flagsWord_ctor (arch) (ctor dtor raw) :
    decide (flagsWord arch ctor dtor raw &&& fastCacheHasCxxCtor ≠ 0) = ctor := by
  cases arch <;> cases ctor <;> cases dtor <;> cases raw <;> decide

theorem flagsWord_dtor (arch) (ctor dtor raw) :
    decide (flagsWord arch ctor dtor raw &&& fastCacheHasCxxDtor arch ≠ 0) = dtor := by
  cases arch <;> cases ctor <;> cases dtor <;> cases raw <;> decide

theorem flagsWord_raw (arch) (ctor dtor raw) :
    decide (flagsWord arch ctor dtor raw &&& fastCacheRequiresRawIsa ≠ 0) = raw := by
  cases arch <;> cases ctor <;> cases dtor <;> cases raw <;> decide

theorem flagsWord_alloc (arch) (ctor dtor raw) :
    flagsWord arch ctor dtor raw &&& fastCacheAllocMask = 0 := by
  cases arch <;> cases ctor <;> cases dtor <;> cases raw <;> decide

/-! ### Sizes -/

/-- The size without the fast path. -/
def slowInstanceSize (instanceSize : BitVec 32) (extra : BitVec 64) : BitVec 64 :=
  let size := (wordAlign32 instanceSize).setWidth 64 + extra
  if size < 16 then 16 else size

theorem getBit_eq_false {c : ClassObject Imp} {flags} :
    c.getBit flags = false ↔ c.cacheFlags &&& flags = 0 := by
  unfold ClassObject.getBit
  rw [decide_eq_false_iff_not, not_not]

/-- The mask for the constant 0 is part of the other. -/
theorem alloc16_eq_zero {flags} (h : flags &&& fastCacheAllocMask = 0) :
    flags &&& fastCacheAllocMask16 = 0 := by
  have hpart : fastCacheAllocMask &&& fastCacheAllocMask16 = fastCacheAllocMask16 := by decide
  rw [← hpart, ← BitVec.and_assoc, h]
  exact BitVec.zero_and

theorem instanceSize_of_no_fast {c : ClassObject Imp} (h : c.cacheFlags &&& fastCacheAllocMask = 0)
    (constant) (extra) :
    c.instanceSize constant extra = slowInstanceSize c.ro.instanceSize extra := by
  have hnot : ∀ zero, c.hasFastInstanceSize zero = false := by
    intro zero
    unfold ClassObject.hasFastInstanceSize
    split
    · exact getBit_eq_false.2 (alloc16_eq_zero h)
    · exact getBit_eq_false.2 h
  unfold ClassObject.instanceSize
  dsimp only
  rw [hnot]
  rfl

theorem align16_getLsbD (x) : (align16 x).getLsbD 0 = false := by
  unfold align16
  rw [BitVec.getLsbD_and]
  have hmask : (~~~(15 : BitVec 64)).getLsbD 0 = false := by decide
  rw [hmask, Bool.and_false]

theorem instanceSize_ne_slow {c : ClassObject Imp} (h : c.cacheFlags &&& fastCacheAllocMask ≠ 0) :
    ∃ extra, c.instanceSize false extra ≠ slowInstanceSize c.ro.instanceSize extra := by
  refine ⟨17 - (wordAlign32 c.ro.instanceSize).setWidth 64, fun heq => ?_⟩
  have hfast : c.hasFastInstanceSize false := by
    rw [← Bool.not_eq_false]
    exact fun hno => h (getBit_eq_false.1 hno)
  have hslow : slowInstanceSize c.ro.instanceSize
      (17 - (wordAlign32 c.ro.instanceSize).setWidth 64) = 17 := by
    unfold slowInstanceSize
    rw [BitVec.add_comm, BitVec.sub_add_cancel]
    decide
  rw [hslow] at heq
  unfold ClassObject.instanceSize at heq
  rw [Bool.false_and, if_pos hfast] at heq
  have hbit := align16_getLsbD ((c.cacheFlags &&& fastCacheAllocMask).setWidth 64 +
    (17 - (wordAlign32 c.ro.instanceSize).setWidth 64) - fastCacheAllocDelta16)
  unfold ClassObject.fastInstanceSize at heq
  rw [if_neg (by simp)] at heq
  rw [heq] at hbit
  exact absurd hbit (by decide)

/-! ### Methods -/

theorem search_duplicate (mlist : ClassMethodList Imp) (sel : Nat) :
    mlist.duplicate.1.search sel = mlist.1.search sel := by
  rw [mlist.duplicate.2.search_eq_find?, mlist.2.search_eq_find?]
  change (duplicateMethodList mlist.1).methods.find? _ = _
  unfold duplicateMethodList
  split <;> rfl

theorem findSome?_duplicate (lists : List (ClassMethodList Imp)) (sel : Nat) :
    (lists.map ClassMethodList.duplicate).findSome? (·.1.search sel) =
      lists.findSome? (·.1.search sel) := by
  rw [List.findSome?_map]
  exact congrFun (congrArg _ (funext fun l => search_duplicate l sel)) lists

theorem lists_duplicateInto (a : ListArray (ClassMethodList Imp)) :
    (duplicateInto a).lists = a.lists.map ClassMethodList.duplicate := by
  cases a <;> rfl

theorem duplicateOf_fields (arch) (heap : Heap Imp) (original : Cls) (name) :
    (duplicateOf arch heap original name).superclass = (heap original).superclass ∧
      (duplicateOf arch heap original name).ro = { (heap original).ro with name } ∧
      (duplicateOf arch heap original name).ext =
        duplicateExt { (heap original).ro with name } (heap original).ext := by
  have hlink : ∀ s c : ClassObject Imp, (addSubclass arch s c).superclass = c.superclass ∧
      (addSubclass arch s c).ro = c.ro ∧ (addSubclass arch s c).ext = c.ext := by
    intro s c
    unfold addSubclass ClassObject.setBit
    cases s.hasCxxCtor <;> cases s.hasCxxDtor arch <;>
      cases s.instancesRequireRawIsa && s.superclass.isSome <;> exact ⟨rfl, rfl, rfl⟩
  unfold duplicateOf
  dsimp only
  split
  · exact hlink ..
  · exact ⟨rfl, rfl, rfl⟩

theorem duplicateOf_lists (arch) (heap : Heap Imp) (original : Cls) (name) :
    (duplicateOf arch heap original name).methods.lists =
      (heap original).methods.lists.map ClassMethodList.duplicate := by
  obtain ⟨-, hro, hext⟩ := duplicateOf_fields arch heap original name
  unfold ClassObject.methods
  rw [hext, hro]
  unfold duplicateExt
  cases (heap original).ext with
  | some rwe => exact lists_duplicateInto rwe.methods
  | none =>
    cases hbase : (heap original).ro.baseMethods with
    | none => simp
    | some l => simp [hbase, extAlloc]

theorem getMethodNoSuper_duplicateOf (arch : Arch) (heap : Heap Imp) (original : Cls)
    (name : String) (sel : Nat) :
    getMethodNoSuper (duplicateOf arch heap original name) sel =
      getMethodNoSuper (heap original) sel := by
  unfold getMethodNoSuper
  rw [duplicateOf_lists, findSome?_duplicate]

theorem methodWalk_update {duplicate} (hfresh : ∀ c, (heap c).superclass ≠ some duplicate)
    (dup) (sel fuel : Nat) :
    ∀ {start}, start ≠ some duplicate →
      methodWalk (update heap duplicate dup) sel fuel start =
        methodWalk heap sel fuel start := by
  induction fuel with
  | zero =>
    intro start _
    cases start <;> rfl
  | succ fuel ih =>
    intro start hstart
    cases start with
    | none => rfl
    | some c =>
      have hne : c ≠ duplicate := fun heq => hstart (heq ▸ rfl)
      rw [methodWalk, methodWalk, update_of_ne hne, ih (hfresh c)]

theorem methodWalk_duplicate {original duplicate} (hne : duplicate ≠ original)
    (hfresh : ∀ c, (heap c).superclass ≠ some duplicate) (arch) (name) (sel fuel : Nat) :
    methodWalk (duplicateClass arch original duplicate name heap) sel fuel (some duplicate) =
      methodWalk (duplicateClass arch original duplicate name heap) sel fuel (some original) := by
  unfold duplicateClass
  rw [methodWalk_update hfresh _ sel fuel fun heq => hne (some.inj heq).symm]
  cases fuel with
  | zero => rfl
  | succ fuel =>
    rw [methodWalk, methodWalk, update_self, getMethodNoSuper_duplicateOf,
      (duplicateOf_fields arch heap original name).1,
        methodWalk_update hfresh _ sel fuel (hfresh _)]

/-- The duplicate agrees with the original exactly if the original has no flags and
no fast instance size but those that its superclass passes on. -/
theorem duplicateClass_agrees_iff {original duplicate : Cls} (hne : duplicate ≠ original)
    (hfresh : ∀ c, (heap c).superclass ≠ some duplicate) (arch : Arch) (name : String) :
    Agrees arch (duplicateClass arch original duplicate name heap) original duplicate ↔
      Inherits arch heap original := by
  have horig : duplicateClass arch original duplicate name heap original = heap original :=
    update_of_ne hne.symm ..
  have hdup : duplicateClass arch original duplicate name heap duplicate =
      duplicateOf arch heap original name := update_self ..
  have hflags := duplicateOf_cacheFlags arch heap original name
  have hctor : (duplicateOf arch heap original name).hasCxxCtor =
      (heap original).superclass.any fun p => (heap p).hasCxxCtor := by
    unfold ClassObject.hasCxxCtor ClassObject.getBit
    rw [hflags]
    exact flagsWord_ctor ..
  have hdtor : (duplicateOf arch heap original name).hasCxxDtor arch =
      (heap original).superclass.any fun p => (heap p).hasCxxDtor arch := by
    unfold ClassObject.hasCxxDtor ClassObject.getBit
    rw [hflags]
    exact flagsWord_dtor ..
  have hraw : (duplicateOf arch heap original name).instancesRequireRawIsa =
      (heap original).superclass.any fun p =>
        (heap p).instancesRequireRawIsa && (heap p).superclass.isSome := by
    unfold ClassObject.instancesRequireRawIsa ClassObject.getBit
    rw [hflags]
    exact flagsWord_raw ..
  have hsize : ∀ constant extra, (duplicateOf arch heap original name).instanceSize constant extra =
      slowInstanceSize (heap original).ro.instanceSize extra := by
    intro constant extra
    rw [instanceSize_of_no_fast (by rw [hflags]; exact flagsWord_alloc ..),
      (duplicateOf_fields arch heap original name).2.1]
  constructor
  · intro h
    refine ⟨?_, ?_, ?_, ?_⟩
    · rw [← hctor, ← hdup, h.hasCxxCtor, horig]
    · rw [← hdtor, ← hdup, h.hasCxxDtor, horig]
    · rw [← hraw, ← hdup, h.instancesRequireRawIsa, horig]
    · by_contra hfast
      obtain ⟨extra, hdiffer⟩ := instanceSize_ne_slow hfast
      have hsame := h.instanceSize false extra
      rw [hdup, hsize, horig] at hsame
      exact hdiffer hsame.symm
  · intro h
    constructor
    case hasCxxCtor => rw [hdup, horig, hctor, h.hasCxxCtor]
    case hasCxxDtor => rw [hdup, horig, hdtor, h.hasCxxDtor]
    case instancesRequireRawIsa => rw [hdup, horig, hraw, h.instancesRequireRawIsa]
    case instanceSize =>
      intro constant extra
      rw [hdup, horig, hsize, instanceSize_of_no_fast h.noFastInstanceSize]
    case methods => exact fun sel fuel => methodWalk_duplicate hne hfresh arch name sel fuel

/-! ### An example -/

/-- A class of a given size, realized with these flags. -/
def plainClass (superclass : Option Cls) (flags : BitVec 16) (size : BitVec 32) :
    ClassObject Unit :=
  ClassObject.setFastInstanceSize
    ⟨0, superclass, flags, true, rwRealized, ⟨"A", size, none, none, none⟩, none⟩ (size.setWidth 64)

/-- A root class and a subclass; no other addresses are in use. -/
def twoClasses (flags : BitVec 16) (size : BitVec 32) : Heap Unit := fun c =>
  if c = 1 then plainClass (some 0) flags size else plainClass none 0 8

theorem twoClasses_fresh (flags) (size) (c : Cls) :
    (twoClasses flags size c).superclass ≠ some 2 := by
  unfold twoClasses
  split
  · exact fun h => absurd (some.inj h) (by decide)
  · exact nofun

/-- A subclass with large instances and nothing of its own. -/
theorem duplicateClass_agrees_large :
    Agrees .arm64 (duplicateClass .arm64 1 2 "B" (twoClasses 0 9000)) 1 2 :=
  (duplicateClass_agrees_iff (by decide) (twoClasses_fresh 0 9000) .arm64 "B").2
    ⟨by decide, by decide, by decide, by decide⟩

/-- A subclass with a destructor of its own and instances of 24 bytes: the duplicate
does not call the destructor and has smaller instances. -/
theorem duplicateClass_loses_dtor :
    (twoClasses 1 24 1).hasCxxDtor .arm64 = true ∧
      (duplicateClass .arm64 1 2 "B" (twoClasses 1 24) 2).hasCxxDtor .arm64 = false ∧
      (twoClasses 1 24 1).instanceSize true 0 = 32 ∧
      (duplicateClass .arm64 1 2 "B" (twoClasses 1 24) 2).instanceSize true 0 = 24 ∧
      ¬ Agrees .arm64 (duplicateClass .arm64 1 2 "B" (twoClasses 1 24)) 1 2 :=
  ⟨by decide, by decide, by decide, by decide, fun h => absurd h.hasCxxDtor (by decide)⟩

end ObjcRuntime.Classes.Duplicate
