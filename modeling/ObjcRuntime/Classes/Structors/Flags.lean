import ObjcRuntime.Classes.Structors.Destruct

/-!
# ObjcRuntime.Classes.Structors.Flags

The flags `hasCxxCtor` and `hasCxxDtor` of the classes. The walk over the
destructors stops at the first class without the flag, so a flag has to be set in
all classes below one that has it.

A flag is passed on when a class is linked under its superclass
(`addSubclass`), and to that class only. While a class is being realized its
flags are not known yet; the invariant `Inv pending` says that a class that has
been linked under such a pending class is the metaclass of a root class. What
breaks the property is a class with subclasses that is moved under a class whose
flag it does not have (`Harmless` excludes it), and a root class with C++
structors of its own, since its metaclass is linked under it before its flags are
set.
-/

namespace ObjcRuntime.Classes.Structors

open Function Lib List Nat Set

/-! ### Classes -/

inductive Structor
  | ctor | dtor
  deriving DecidableEq

/-- The classes as compiled. The rank of a class is its distance from the root;
its metaclass has the rank of the class. -/
structure Compiled where
  superclass : Cls → Option Cls
  isa : Cls → Cls
  /-- `RO_HAS_CXX_STRUCTORS` -/
  hasCxxStructors : Cls → Bool
  /-- `RO_HAS_CXX_DTOR_ONLY` -/
  hasCxxDtorOnly : Cls → Bool
  rank : Cls → Nat
  rank_superclass_le : ∀ c p, superclass c = some p → rank p ≤ rank c
  rank_superclass_lt : ∀ c p, superclass c = some p → superclass p ≠ none → rank p < rank c
  rank_isa_le : ∀ c, rank (isa c) ≤ rank c

/-- The classes at run time. -/
structure Graph where
  superclass : Cls → Option Cls
  isa : Cls → Cls
  hasCxxStructors : Cls → Bool
  hasCxxDtorOnly : Cls → Bool
  realized : Cls → Bool
  /-- `RW_CONSTRUCTING` -/
  constructing : Cls → Bool
  /-- `hasCxxCtor()` and `hasCxxDtor()` -/
  hasCxx : Structor → Cls → Bool

def Compiled.graph (compiled : Compiled) : Graph :=
  ⟨compiled.superclass, compiled.isa, compiled.hasCxxStructors, compiled.hasCxxDtorOnly,
    fun _ => false, fun _ => false, fun _ _ => false⟩

/-- The class is compiled with a method of the kind. -/
def Graph.defines (g : Graph) (f : Structor) (c : Cls) : Bool :=
  g.hasCxxStructors c && (decide (f = .dtor) || !g.hasCxxDtorOnly c)

/-- `setHasCxxCtor` and `setHasCxxDtor`, if `b` says so. -/
def Graph.setHasCxx (g : Graph) (f : Structor) (c : Cls) (b : Bool) : Graph :=
  { g with hasCxx := update g.hasCxx f (update (g.hasCxx f) c (g.hasCxx f c || b)) }

/-- The flags of `addSubclass`. -/
def addSubclass (supercls subcls : Cls) (g : Graph) : Graph :=
  let g := g.setHasCxx .ctor subcls (g.hasCxx .ctor supercls)
  g.setHasCxx .dtor subcls (g.hasCxx .dtor supercls)

/-- A new `class_rw_t`, and a cache word without flags. -/
def Graph.allocRw (g : Graph) (cls : Cls) : Graph :=
  { g with
    realized := update g.realized cls true
    hasCxx := fun f => update (g.hasCxx f) cls false }

/-- Copy the flags from ro. -/
def copyRoFlags (cls : Cls) (g : Graph) : Graph :=
  let g := g.setHasCxx .dtor cls (g.hasCxxStructors cls)
  g.setHasCxx .ctor cls (g.hasCxxStructors cls && !g.hasCxxDtorOnly cls)

/-- Connect the class to its superclass. -/
def linkSuperclass (cls : Cls) (g : Graph) : Graph :=
  match g.superclass cls with
  | some supercls => addSubclass supercls cls g
  | none => g

def realizeClassWithoutSwift : Nat → Option Cls → Graph → Option Graph
  | _, none, g => some g
  | 0, some cls, g => if g.realized cls then some g else none
  | fuel + 1, some cls, g =>
    if g.realized cls then some g
    else do
      let g := g.allocRw cls
      let g ← realizeClassWithoutSwift fuel (g.superclass cls) g
      let g ← realizeClassWithoutSwift fuel (some (g.isa cls)) g
      some (linkSuperclass cls (copyRoFlags cls g))

def verifySuperclass (superclass : Option Cls) (g : Graph) : Bool :=
  match superclass with
  | none => true
  | some c => g.realized c && !g.constructing c

/-- The superclass pointers of a class and of its metaclass. -/
def Graph.setSuperclasses (g : Graph) (cls metacls : Cls) (supercls : Option Cls)
    (metaSuper : Cls) : Graph :=
  { g with superclass :=
      update (update g.superclass cls supercls) metacls (some metaSuper) }

/-- A new class and metaclass, with their pointers and without flags. -/
def Graph.newPair (g : Graph) (cls metacls metaIsa : Cls) (superclass : Option Cls)
    (metaSuper : Cls) : Graph :=
  { g.setSuperclasses cls metacls superclass metaSuper with
    isa := update (update g.isa cls metacls) metacls metaIsa
    hasCxxStructors := update (update g.hasCxxStructors cls false) metacls false
    hasCxxDtorOnly := update (update g.hasCxxDtorOnly cls false) metacls false
    realized := update (update g.realized cls true) metacls true
    constructing := update (update g.constructing cls true) metacls true
    hasCxx := fun f => update (update (g.hasCxx f) cls false) metacls false }

/-- `objc_allocateClassPair`, with the addresses of the new class and metaclass. -/
def allocateClassPair (superclass : Option Cls) (cls metacls : Cls) (g : Graph) : Option Graph :=
  if verifySuperclass superclass g then
    match superclass with
    | some supercls =>
      let metaSuper := g.isa supercls
      let g := g.newPair cls metacls (g.isa metaSuper) (some supercls) metaSuper
      some (addSubclass metaSuper metacls (addSubclass supercls cls g))
    | none =>
      let g := g.newPair cls metacls metacls none cls
      some (addSubclass cls metacls g)
  else none

def registerClassPair (cls : Cls) (g : Graph) : Graph :=
  if g.constructing cls && g.constructing (g.isa cls) then
    { g with constructing :=
        update (update g.constructing (g.isa cls) false) cls false }
  else g

def setSuperclass (cls newSuper : Cls) (g : Graph) : Option Graph :=
  match g.superclass cls with
  | none => none
  | some _ =>
    let g := g.setSuperclasses cls (g.isa cls) (some newSuper) (g.isa newSuper)
    some (addSubclass (g.isa newSuper) (g.isa cls) (addSubclass newSuper cls g))

/-- The classes at which `object_cxxDestructFromClass` asks for a destructor. -/
def cxxDestructVisits (g : Graph) : Nat → Option Cls → Option (List Cls)
  | _, none => some []
  | 0, some _ => none
  | fuel + 1, some cls =>
    if g.hasCxx .dtor cls = false then some []
    else (cxxDestructVisits g fuel (g.superclass cls)).map (cls :: ·)

/-! ### Runs -/

inductive FlagAct
  | realize (cls : Cls)
  | allocateClassPair (superclass : Option Cls) (cls metacls : Cls)
  | registerClassPair (cls : Cls)
  | setSuperclass (cls newSuper : Cls)

def FlagAct.step (fuel : Nat) (g : Graph) : FlagAct → Option Graph
  | .realize cls => realizeClassWithoutSwift fuel (some cls) g
  | .allocateClassPair superclass cls metacls =>
    Structors.allocateClassPair superclass cls metacls g
  | .registerClassPair cls => some (Structors.registerClassPair cls g)
  | .setSuperclass cls newSuper => Structors.setSuperclass cls newSuper g

/-- New classes are at new addresses, and a realized class is moved under one
outside its subtree; neither is a metaclass. -/
def FlagAct.Allowed (g : Graph) : FlagAct → Prop
  | .allocateClassPair _ cls metacls =>
    cls ≠ metacls ∧ g.realized cls = false ∧ g.realized metacls = false
  | .setSuperclass cls newSuper => g.realized cls = true ∧ g.realized newSuper = true ∧
      (∀ c, g.isa c ≠ cls ∧ g.isa c ≠ newSuper) ∧ ¬ Ancestor g.superclass cls newSuper
  | _ => True

/-- A flag that `addSubclass` sets in a class is there already, or the class has
no subclasses. -/
def LinksSafely (g : Graph) (supercls subcls : Cls) : Prop :=
  ∀ f, g.hasCxx f supercls = true → g.hasCxx f subcls = true ∨
    ∀ d, g.realized d = true → g.superclass d ≠ some subcls

/-- A move under a class does not leave out a subtree. -/
def FlagAct.Harmless (g : Graph) : FlagAct → Prop
  | .setSuperclass cls newSuper =>
    LinksSafely g newSuper cls ∧ LinksSafely g (g.isa newSuper) (g.isa cls)
  | _ => True

/-- The graphs that sequences of operations lead to, if each is `ok`. -/
inductive FlagReachable (compiled : Compiled) (ok : Graph → FlagAct → Prop) : Graph → Prop
  | init : FlagReachable compiled ok compiled.graph
  | step {g g'} (fuel : Nat) (act : FlagAct) : FlagReachable compiled ok g → act.Allowed g →
      ok g act → act.step fuel g = some g' → FlagReachable compiled ok g'

/-! ### One link -/

theorem setHasCxx_hasCxx (g : Graph) (f f') (c c' : Cls) (b) :
    (g.setHasCxx f c b).hasCxx f' c' =
      (g.hasCxx f' c' || (decide (f' = f) && decide (c' = c) && b)) := by
  unfold Graph.setHasCxx
  by_cases hf : f' = f
  · subst hf
    by_cases hc : c' = c
    · subst hc
      simp
    · simp [hc]
  · simp [hf]

theorem addSubclass_hasCxx (supercls subcls : Cls) (g : Graph) (f) (c : Cls) :
    (addSubclass supercls subcls g).hasCxx f c =
      (g.hasCxx f c || (decide (c = subcls) && g.hasCxx f supercls)) := by
  unfold addSubclass
  rw [setHasCxx_hasCxx, setHasCxx_hasCxx, setHasCxx_hasCxx]
  cases f <;> by_cases hc : c = subcls <;> simp [hc]

theorem copyRoFlags_hasCxx (cls : Cls) (g) (f) (c : Cls) :
    (copyRoFlags cls g).hasCxx f c =
      (g.hasCxx f c || (decide (c = cls) && g.hasCxxStructors cls &&
        (decide (f = .dtor) || !g.hasCxxDtorOnly cls))) := by
  unfold copyRoFlags
  unfold Graph.setHasCxx
  cases f <;> by_cases hc : c = cls <;> simp [hc]

/-- The graphs differ in flags only. -/
structure SameLinks (g g' : Graph) : Prop where
  superclass : g'.superclass = g.superclass
  isa : g'.isa = g.isa
  structors : g'.hasCxxStructors = g.hasCxxStructors
  dtorOnly : g'.hasCxxDtorOnly = g.hasCxxDtorOnly
  realized : g'.realized = g.realized

theorem SameLinks.defines {g g'} (h : SameLinks g g') : g'.defines = g.defines := by
  unfold Graph.defines
  rw [h.structors, h.dtorOnly]

theorem addSubclass_sameLinks (supercls subcls : Cls) (g) :
    SameLinks g (addSubclass supercls subcls g) := ⟨rfl, rfl, rfl, rfl, rfl⟩

theorem linkSuperclass_hasCxx (cls : Cls) (g) (f) (c : Cls) :
    (linkSuperclass cls g).hasCxx f c =
      (g.hasCxx f c || (decide (c = cls) && (g.superclass cls).any (g.hasCxx f))) := by
  unfold linkSuperclass
  split
  next p hp => rw [addSubclass_hasCxx, hp, Option.any_some]
  next hp => rw [hp, Option.any_none, Bool.and_false, Bool.or_false]

theorem linkSuperclass_sameLinks (cls : Cls) (g) : SameLinks g (linkSuperclass cls g) := by
  unfold linkSuperclass
  split
  · exact addSubclass_sameLinks ..
  · exact ⟨rfl, rfl, rfl, rfl, rfl⟩

/-! ### The invariant -/

variable {compiled : Compiled}

/-- The graph while the classes of `pending` are being realized. -/
structure Inv (compiled : Compiled) (pending : Set Cls) (g : Graph) : Prop where
  realized : ∀ c ∈ pending, g.realized c = true
  unset : ∀ c ∈ pending, ∀ f, g.hasCxx f c = false
  /-- What is not realized is as it was compiled. -/
  asCompiled : ∀ c, g.realized c = false ∨ c ∈ pending → g.superclass c = compiled.superclass c ∧
    g.isa c = compiled.isa c ∧ g.hasCxxStructors c = compiled.hasCxxStructors c
  linked : ∀ c p, g.realized c = true → c ∉ pending → g.superclass c = some p →
    g.realized p = true ∧ ∀ f, g.hasCxx f p = true → g.hasCxx f c = true
  /-- Only the metaclass of a root class is linked under a pending class. -/
  underPending : ∀ c p, g.realized c = true → c ∉ pending → g.superclass c = some p →
    p ∈ pending → compiled.superclass p = none
  isaRealized : ∀ c, g.realized c = true → c ∉ pending → g.realized (g.isa c) = true
  defines : ∀ c, g.realized c = true → c ∉ pending → ∀ f, g.defines f c = true →
    g.hasCxx f c = true

/-- No root class has C++ structors of its own. -/
def Compiled.PlainRoots (compiled : Compiled) : Prop :=
  ∀ c, compiled.superclass c = none → compiled.hasCxxStructors c = false

variable {g : Graph}

theorem Inv.of_settled
    (asCompiled : ∀ c, g.realized c = false → g.superclass c = compiled.superclass c ∧
      g.isa c = compiled.isa c ∧ g.hasCxxStructors c = compiled.hasCxxStructors c)
    (linked : ∀ c p, g.realized c → g.superclass c = some p →
      g.realized p ∧ ∀ f, g.hasCxx f p → g.hasCxx f c)
    (isaRealized : ∀ c, g.realized c → g.realized (g.isa c))
    (defines : ∀ c, g.realized c → ∀ f, g.defines f c → g.hasCxx f c) : Inv compiled ∅ g where
  realized _ h := absurd h (notMem_empty _)
  unset _ h := absurd h (notMem_empty _)
  asCompiled c h := asCompiled c (h.resolve_right (notMem_empty _))
  linked c p hc _ := linked c p hc
  underPending _ _ _ _ _ h := absurd h (notMem_empty _)
  isaRealized c hc _ := isaRealized c hc
  defines c hc _ := defines c hc

theorem init_inv (compiled) : Inv compiled ∅ compiled.graph :=
  .of_settled (fun _ _ => ⟨rfl, rfl, rfl⟩) nofun nofun nofun

theorem ne_of_realized {a b} (ha : g.realized a) (hb : g.realized b = false) : a ≠ b := by
  rintro rfl
  cases ha.symm.trans hb

theorem allocRw_realized (g : Graph) (cls c : Cls) :
    (g.allocRw cls).realized c ↔ c = cls ∨ g.realized c := by
  change update g.realized cls true c ↔ _
  rw [update_apply]
  split <;> simp [*]

theorem Inv.allocRw {pending} (h : Inv compiled pending g) {cls}
    (hcls : g.realized cls = false) : Inv compiled (insert cls pending) (g.allocRw cls) := by
  have hreal := allocRw_realized g cls
  have hflag : ∀ f c, (g.allocRw cls).hasCxx f c ↔ c ≠ cls ∧ g.hasCxx f c := by
    intro f c
    change update (g.hasCxx f) cls false c ↔ _
    rw [update_apply]
    split <;> simp [*]
  have hold : ∀ c, (g.allocRw cls).realized c → c ∉ insert cls pending →
      c ≠ cls ∧ g.realized c ∧ c ∉ pending := by
    intro c hc hout
    rw [mem_insert_iff, not_or] at hout
    exact ⟨hout.1, ((hreal c).1 hc).resolve_left hout.1, hout.2⟩
  constructor
  case realized =>
    intro c hc
    rw [hreal]
    exact (mem_insert_iff.1 hc).imp_right (h.realized c)
  case unset =>
    intro c hc f
    rw [← Bool.not_eq_true, hflag]
    rintro ⟨hne, hset⟩
    have := h.unset c ((mem_insert_iff.1 hc).resolve_left hne) f
    cases this.symm.trans hset
  case asCompiled =>
    intro c hc
    refine h.asCompiled c ?_
    rcases hc with hc | hc
    · refine .inl ?_
      rw [← Bool.not_eq_true] at hc ⊢
      exact fun hset => hc ((hreal c).2 (.inr hset))
    · rcases mem_insert_iff.1 hc with rfl | hc
      · exact .inl hcls
      · exact .inr hc
  case linked =>
    intro c p hc hout hp
    obtain ⟨hne, hc', hout'⟩ := hold c hc hout
    obtain ⟨hreal', hflags⟩ := h.linked c p hc' hout' hp
    refine ⟨(hreal p).2 (.inr hreal'), fun f hf => ?_⟩
    exact (hflag f c).2 ⟨hne, hflags f ((hflag f p).1 hf).2⟩
  case underPending =>
    intro c p hc hout hp hin
    obtain ⟨-, hc', hout'⟩ := hold c hc hout
    rcases mem_insert_iff.1 hin with rfl | hin
    · exact absurd rfl (ne_of_realized (h.linked c p hc' hout' hp).1 hcls)
    · exact h.underPending c p hc' hout' hp hin
  case isaRealized =>
    intro c hc hout
    obtain ⟨-, hc', hout'⟩ := hold c hc hout
    exact (hreal _).2 (.inr (h.isaRealized c hc' hout'))
  case defines =>
    intro c hc hout f hdef
    obtain ⟨hne, hc', hout'⟩ := hold c hc hout
    exact (hflag f c).2 ⟨hne, h.defines c hc' hout' f hdef⟩

theorem finish_hasCxx (cls : Cls) (g) (f) (c : Cls) :
    (linkSuperclass cls (copyRoFlags cls g)).hasCxx f c ↔
      g.hasCxx f c ∨ c = cls ∧
        (g.defines f cls ∨ ∃ p, g.superclass cls = some p ∧ (copyRoFlags cls g).hasCxx f p) := by
  rw [linkSuperclass_hasCxx, copyRoFlags_hasCxx, Graph.defines]
  have hsuper : (copyRoFlags cls g).superclass = g.superclass := rfl
  rw [hsuper]
  cases hp : g.superclass cls with
  | none => simp [and_assoc]
  | some p =>
    simp only [Option.any_some, Bool.or_eq_true, Bool.and_eq_true, decide_eq_true_eq,
      Bool.not_eq_true', Option.some.injEq, exists_eq_left']
    tauto

theorem Inv.finish {pending cls} (hroots : compiled.PlainRoots)
    (h : Inv compiled (insert cls pending) g) (hcls : cls ∉ pending)
    (hsuper : ∀ p, g.superclass cls = some p → g.realized p)
    (hisa : g.realized (g.isa cls)) (hrank : ∀ q ∈ pending, compiled.rank cls ≤ compiled.rank q) :
    Inv compiled pending (linkSuperclass cls (copyRoFlags cls g)) := by
  have hlinks := linkSuperclass_sameLinks cls (copyRoFlags cls g)
  have hsup : (linkSuperclass cls (copyRoFlags cls g)).superclass = g.superclass :=
    hlinks.superclass
  have hreal : (linkSuperclass cls (copyRoFlags cls g)).realized = g.realized := hlinks.realized
  have hisas : (linkSuperclass cls (copyRoFlags cls g)).isa = g.isa := hlinks.isa
  have hdefs : (linkSuperclass cls (copyRoFlags cls g)).hasCxxStructors = g.hasCxxStructors :=
    hlinks.structors
  have hdefines : (linkSuperclass cls (copyRoFlags cls g)).defines = g.defines := hlinks.defines
  have hout : ∀ c, c ∉ pending → c ≠ cls → c ∉ insert cls pending := by
    intro c hc hne
    rw [mem_insert_iff, not_or]
    exact ⟨hne, hc⟩
  obtain ⟨hcsup, -, hcdef⟩ := h.asCompiled cls (.inr (mem_insert _ _))
  constructor
  case realized =>
    intro c hc
    rw [hreal]
    exact h.realized c (mem_insert_of_mem _ hc)
  case unset =>
    intro c hc f
    rw [← Bool.not_eq_true, finish_hasCxx]
    rintro (hset | ⟨rfl, -⟩)
    · cases (h.unset c (mem_insert_of_mem _ hc) f).symm.trans hset
    · exact hcls hc
  case asCompiled =>
    intro c hc
    rw [hreal] at hc
    rw [hsup, hisas, hdefs]
    exact h.asCompiled c (hc.imp_right (mem_insert_of_mem _))
  case linked =>
    intro c p hc hnot hp
    rw [hreal] at hc ⊢
    rw [hsup] at hp
    by_cases hne : c = cls
    · subst hne
      refine ⟨hsuper p hp, fun f hf => ?_⟩
      rcases (finish_hasCxx c g f p).1 hf with hset | ⟨rfl, -⟩
      · refine (finish_hasCxx c g f c).2 (.inr ⟨rfl, .inr ⟨p, hp, ?_⟩⟩)
        rw [copyRoFlags_hasCxx, hset, Bool.true_or]
      · exact hf
    · obtain ⟨hrealp, hflags⟩ := h.linked c p hc (hout c hnot hne) hp
      refine ⟨hrealp, fun f hf => (finish_hasCxx cls g f c).2 (.inl ?_)⟩
      rcases (finish_hasCxx cls g f p).1 hf with hset | ⟨rfl, hnew⟩
      · exact hflags f hset
      · -- the class is a root, so it gets no flag
        have hroot := h.underPending c p hc (hout c hnot hne) hp (mem_insert _ _)
        rcases hnew with hdef | ⟨q, hq, -⟩
        · cases (hroots p hroot).symm.trans (hcdef ▸ ((Bool.and_eq_true _ _).mp hdef).1)
        · cases hq.symm.trans (hcsup.trans hroot)
  case underPending =>
    intro c p hc hnot hp hin
    rw [hreal] at hc
    rw [hsup] at hp
    by_cases hne : c = cls
    · subst hne
      by_contra hsome
      have hlt := compiled.rank_superclass_lt c p (hcsup ▸ hp) hsome
      exact absurd (hrank p hin) (by omega)
    · exact h.underPending c p hc (hout c hnot hne) hp (mem_insert_of_mem _ hin)
  case isaRealized =>
    intro c hc hnot
    rw [hreal] at hc ⊢
    rw [hisas]
    by_cases hne : c = cls
    · exact hne ▸ hisa
    · exact h.isaRealized c hc (hout c hnot hne)
  case defines =>
    intro c hc hnot f hdef
    rw [hreal] at hc
    rw [hdefines] at hdef
    rw [finish_hasCxx]
    by_cases hne : c = cls
    · exact .inr ⟨hne, .inl (hne ▸ hdef)⟩
    · exact .inl (h.defines c hc (hout c hnot hne) f hdef)

variable {start : Option Cls}

theorem realize_of_realized (h : ∀ c, start = some c → g.realized c) (fuel : Nat) :
    realizeClassWithoutSwift fuel start g = some g := by
  cases start with
  | none => cases fuel <;> rfl
  | some cls => cases fuel <;> rw [realizeClassWithoutSwift, if_pos (h cls rfl)]

theorem realize_cases {fuel cls g g'} (hcls : g.realized cls = false)
    (h : realizeClassWithoutSwift fuel (some cls) g = some g') :
    ∃ fuel' g₂ g₃, fuel = fuel' + 1 ∧
      realizeClassWithoutSwift fuel' (g.superclass cls) (g.allocRw cls) = some g₂ ∧
      realizeClassWithoutSwift fuel' (some (g₂.isa cls)) g₂ = some g₃ ∧
      g' = linkSuperclass cls (copyRoFlags cls g₃) := by
  have hnot : ¬ g.realized cls := by rw [hcls]; simp
  cases fuel with
  | zero =>
    rw [realizeClassWithoutSwift, if_neg hnot] at h
    cases h
  | succ fuel =>
    rw [realizeClassWithoutSwift, if_neg hnot] at h
    obtain ⟨g₂, hsuper, h⟩ := Option.bind_eq_some_iff.1 h
    obtain ⟨g₃, hisa, h⟩ := Option.bind_eq_some_iff.1 h
    exact ⟨fuel, g₂, g₃, rfl, hsuper, hisa, (Option.some.inj h).symm⟩

theorem Inv.realize (hroots : compiled.PlainRoots) {fuel} :
    ∀ {pending g g'} {start}, Inv compiled pending g →
      (∀ c, start = some c → ∀ q ∈ pending, compiled.rank c ≤ compiled.rank q) →
      realizeClassWithoutSwift fuel start g = some g' →
      Inv compiled pending g' ∧ g'.superclass = g.superclass ∧ g'.isa = g.isa ∧
        (∀ c, g.realized c → g'.realized c) ∧
        ∀ c, start = some c → g'.realized c := by
  induction fuel using Nat.strong_induction_on with
  | _ fuel ih =>
    intro pending g g' start h hrank heq
    by_cases hdone : ∀ c, start = some c → g.realized c
    · obtain rfl := Option.some.inj ((realize_of_realized hdone fuel).symm.trans heq)
      exact ⟨h, rfl, rfl, fun _ h => h, hdone⟩
    push Not at hdone
    obtain ⟨cls, rfl, hreal⟩ := hdone
    replace hreal := Bool.eq_false_of_not_eq_true hreal
    obtain ⟨fuel, g₂, g₃, rfl, hsuper, hisa, rfl⟩ := realize_cases hreal heq
    have hcls : cls ∉ pending := fun hin => ne_of_realized (h.realized cls hin) hreal rfl
    obtain ⟨hcsup, hcisa, -⟩ := h.asCompiled cls (.inl hreal)
    have hle : ∀ c, compiled.rank c ≤ compiled.rank cls →
        ∀ q ∈ insert cls pending, compiled.rank c ≤ compiled.rank q := by
      intro c hc q hq
      rcases mem_insert_iff.1 hq with rfl | hq
      · exact hc
      · exact hc.trans (hrank cls rfl q hq)
    obtain ⟨h₂, hsup₂, hisa₂, hmono₂, hreal₂⟩ := ih fuel (lt_succ_self _) (h.allocRw hreal)
      (fun c hc => hle c (compiled.rank_superclass_le cls c (hcsup ▸ hc))) hsuper
    have hrankIsa : compiled.rank (g₂.isa cls) ≤ compiled.rank cls := by
      have heq : g₂.isa cls = compiled.isa cls := (congrFun hisa₂ cls).trans hcisa
      rw [heq]
      exact compiled.rank_isa_le cls
    obtain ⟨h₃, hsup₃, hisa₃, hmono₃, hreal₃⟩ := ih fuel (lt_succ_self _) h₂
      (fun c hc => hle c (Option.some.inj hc ▸ hrankIsa)) hisa
    have hlinks := linkSuperclass_sameLinks cls (copyRoFlags cls g₃)
    have hmono : ∀ c, c = cls ∨ g.realized c →
        (linkSuperclass cls (copyRoFlags cls g₃)).realized c := by
      intro c hc
      rw [hlinks.realized]
      exact hmono₃ c (hmono₂ c ((allocRw_realized g cls c).2 hc))
    refine ⟨h₃.finish hroots hcls ?_ ?_ (hrank cls rfl), hlinks.superclass.trans
      (hsup₃.trans hsup₂), hlinks.isa.trans (hisa₃.trans hisa₂), fun c hc => hmono c (.inr hc),
      fun c hc => hmono c (.inl (Option.some.inj hc).symm)⟩
    · intro p hp
      rw [hsup₃, hsup₂] at hp
      exact hmono₃ p (hreal₂ p hp)
    · rw [hisa₃]
      exact hreal₃ _ rfl

/-! ### New and moved classes -/

section NewPair

variable {g g' : Graph} {superclass : Option Cls} {cls metacls metaIsa metaSuper : Cls}

theorem update_pair {β : Type} (k : Cls → β) (a b c : Cls) (x y : β) :
    update (update k a x) b y c = if c = b then y else if c = a then x else k c := by
  rw [update_apply, update_apply]

theorem newPair_realized (c : Cls) :
    (g.newPair cls metacls metaIsa superclass metaSuper).realized c ↔
      c = cls ∨ c = metacls ∨ g.realized c := by
  unfold Graph.newPair
  dsimp only
  rw [update_pair]
  by_cases h₁ : c = metacls
  · simp [h₁]
  · by_cases h₂ : c = cls <;> simp [h₁, h₂]

theorem newPair_hasCxx (f) (c : Cls) :
    (g.newPair cls metacls metaIsa superclass metaSuper).hasCxx f c =
      if c = metacls then false else if c = cls then false else g.hasCxx f c := update_pair ..

theorem newPair_isa (c : Cls) : (g.newPair cls metacls metaIsa superclass metaSuper).isa c =
    if c = metacls then metaIsa else if c = cls then metacls else g.isa c := update_pair ..

theorem newPair_hasCxxStructors (c : Cls) :
    (g.newPair cls metacls metaIsa superclass metaSuper).hasCxxStructors c =
      if c = metacls then false else if c = cls then false else g.hasCxxStructors c :=
        update_pair ..

theorem newPair_defines (f) (c : Cls) :
    (g.newPair cls metacls metaIsa superclass metaSuper).defines f c =
      if c = metacls then false else if c = cls then false else g.defines f c := by
  unfold Graph.defines
  rw [newPair_hasCxxStructors]
  by_cases h₁ : c = metacls
  · simp [h₁]
  · by_cases h₂ : c = cls
    · simp [h₂]
    · simp [h₁, h₂, Graph.newPair]

theorem setSuperclasses_superclass (c : Cls) :
    (g.setSuperclasses cls metacls superclass metaSuper).superclass c =
      if c = metacls then some metaSuper else if c = cls then superclass else g.superclass c :=
  update_pair ..

theorem newPair_superclass (c : Cls) :
    (g.newPair cls metacls metaIsa superclass metaSuper).superclass c =
      if c = metacls then some metaSuper else if c = cls then superclass else g.superclass c :=
  setSuperclasses_superclass c

/-- The new class and metaclass of a graph `g'` that differs from the unlinked one
in the flags of these two. -/
theorem Inv.linkNewPair (h : Inv compiled ∅ g) (hne : cls ≠ metacls)
    (hcls : g.realized cls = false) (hmeta : g.realized metacls = false)
    (hlinks : SameLinks (g.newPair cls metacls metaIsa superclass metaSuper) g')
    (hothers : ∀ c, c ≠ cls → c ≠ metacls → ∀ f, g'.hasCxx f c = g.hasCxx f c)
    (hsuper : ∀ p, superclass = some p →
      g.realized p ∧ ∀ f, g'.hasCxx f p → g'.hasCxx f cls)
    (hmetaSuper : (metaSuper = cls ∨ g.realized metaSuper) ∧
      ∀ f, g'.hasCxx f metaSuper → g'.hasCxx f metacls)
    (hmetaIsa : metaIsa = metacls ∨ g.realized metaIsa) : Inv compiled ∅ g' := by
  have hreal : ∀ c, g'.realized c ↔ c = cls ∨ c = metacls ∨ g.realized c := by
    intro c
    rw [hlinks.realized]
    exact newPair_realized c
  have hsup := congrFun hlinks.superclass
  have hisa := congrFun hlinks.isa
  have hdef := congrFun hlinks.structors
  simp only [newPair_superclass, newPair_isa, newPair_hasCxxStructors] at hsup hisa hdef
  -- the new class, the new metaclass, or a class that was there before
  have hkind : ∀ c, g'.realized c →
      c = cls ∨ c = metacls ∨ g.realized c ∧ c ≠ cls ∧ c ≠ metacls := fun c hc =>
    ((hreal c).1 hc).imp_right fun hc => hc.imp_right fun hc =>
      ⟨hc, ne_of_realized hc hcls, ne_of_realized hc hmeta⟩
  refine .of_settled (fun c hc => ?_) (fun c p hc hp => ?_) (fun c hc => ?_)
    fun c hc f hdefines => ?_
  · have hnot := mt (hreal c).2 ((Bool.not_eq_true _).mpr hc)
    push Not at hnot
    rw [hsup, hisa, hdef, if_neg hnot.2.1, if_neg hnot.2.1, if_neg hnot.2.1, if_neg hnot.1,
      if_neg hnot.1, if_neg hnot.1]
    exact h.asCompiled c (.inl ((Bool.not_eq_true _).mp hnot.2.2))
  · rw [hsup] at hp
    rcases hkind c hc with rfl | rfl | ⟨hc, hne₁, hne₂⟩
    · rw [if_neg hne, if_pos rfl] at hp
      exact ⟨(hreal p).2 (.inr (.inr (hsuper p hp).1)), (hsuper p hp).2⟩
    · rw [if_pos rfl] at hp
      cases hp
      exact ⟨(hreal _).2 (hmetaSuper.1.imp_right .inr), hmetaSuper.2⟩
    · rw [if_neg hne₂, if_neg hne₁] at hp
      obtain ⟨hrealp, hclosed⟩ := h.linked c p hc (notMem_empty _) hp
      refine ⟨(hreal p).2 (.inr (.inr hrealp)), fun f hf => ?_⟩
      rw [hothers p (ne_of_realized hrealp hcls) (ne_of_realized hrealp hmeta)] at hf
      rw [hothers c hne₁ hne₂]
      exact hclosed f hf
  · rw [hisa, hreal]
    rcases hkind c hc with rfl | rfl | ⟨hc, hne₁, hne₂⟩
    · rw [if_neg hne, if_pos rfl]
      exact .inr (.inl rfl)
    · rw [if_pos rfl]
      exact .inr hmetaIsa
    · rw [if_neg hne₂, if_neg hne₁]
      exact .inr (.inr (h.isaRealized c hc (notMem_empty _)))
  · rw [hlinks.defines, newPair_defines] at hdefines
    rcases hkind c hc with rfl | rfl | ⟨hc, hne₁, hne₂⟩
    · rw [if_neg hne, if_pos rfl] at hdefines
      cases hdefines
    · rw [if_pos rfl] at hdefines
      cases hdefines
    · rw [if_neg hne₂, if_neg hne₁] at hdefines
      rw [hothers c hne₁ hne₂]
      exact h.defines c hc (notMem_empty _) f hdefines

theorem Inv.allocateClassPair (h : Inv compiled ∅ g) (hne : cls ≠ metacls)
    (hcls : g.realized cls = false) (hmeta : g.realized metacls = false)
    (heq : Structors.allocateClassPair superclass cls metacls g = some g') : Inv compiled ∅ g' := by
  have hold : ∀ c, g.realized c → c ≠ cls ∧ c ≠ metacls := fun c hc =>
    ⟨ne_of_realized hc hcls, ne_of_realized hc hmeta⟩
  unfold Structors.allocateClassPair at heq
  split at heq
  next hverify =>
    cases superclass with
    | none =>
      cases heq
      refine h.linkNewPair hne hcls hmeta (addSubclass_sameLinks ..) ?_ nofun ⟨?_, ?_⟩ ?_
      · intro c h₁ h₂ f
        rw [addSubclass_hasCxx, newPair_hasCxx, if_neg h₂, if_neg h₁, decide_eq_false h₂,
          Bool.false_and, Bool.or_false]
      · exact .inl rfl
      · intro f hf
        rw [addSubclass_hasCxx] at hf ⊢
        simp only [decide_eq_false hne, Bool.false_and, Bool.or_false] at hf
        simp [hf]
      · exact .inl rfl
    | some supercls =>
      cases heq
      have hsuper : g.realized supercls := ((Bool.and_eq_true _ _).mp hverify).1
      have hmetaSuper := h.isaRealized supercls hsuper (notMem_empty _)
      have hmetaIsa := h.isaRealized _ hmetaSuper (notMem_empty _)
      refine h.linkNewPair hne hcls hmeta (SameLinks.mk rfl rfl rfl rfl rfl) ?_ ?_ ⟨?_, ?_⟩ ?_
      · intro c h₁ h₂ f
        rw [addSubclass_hasCxx, addSubclass_hasCxx, newPair_hasCxx, if_neg h₂, if_neg h₁,
          decide_eq_false h₂, decide_eq_false h₁, Bool.false_and, Bool.or_false, Bool.false_and,
          Bool.or_false]
      · rintro p ⟨⟩
        refine ⟨hsuper, fun f hf => ?_⟩
        simp only [addSubclass_hasCxx, decide_eq_false (hold _ hsuper).1,
          decide_eq_false (hold _ hsuper).2, Bool.false_and, Bool.or_false] at hf
        simp [addSubclass_hasCxx, hf]
      · exact .inr hmetaSuper
      · intro f hf
        simp only [addSubclass_hasCxx, decide_eq_false (hold _ hmetaSuper).1,
          decide_eq_false (hold _ hmetaSuper).2, Bool.false_and, Bool.or_false] at hf
        simp [addSubclass_hasCxx, hf]
      · exact .inr hmetaIsa
  · cases heq

end NewPair

variable {cls newSuper : Cls}

/-- The flags after a move: those of the new superclasses are set in the class and
in its metaclass. -/
theorem setSuperclass_cases {g g'} (hmeta : ∀ c, g.isa c ≠ cls)
    (heq : setSuperclass cls newSuper g = some g') :
    SameLinks (g.setSuperclasses cls (g.isa cls) (some newSuper) (g.isa newSuper)) g' ∧
      ∀ f c, g'.hasCxx f c ↔ g.hasCxx f c ∨ c = cls ∧ g.hasCxx f newSuper ∨
        c = g.isa cls ∧ g.hasCxx f (g.isa newSuper) := by
  unfold setSuperclass at heq
  split at heq
  · cases heq
  · cases heq
    refine ⟨SameLinks.mk rfl rfl rfl rfl rfl, fun f c => ?_⟩
    change (addSubclass (g.isa newSuper) (g.isa cls) (addSubclass newSuper cls _)).hasCxx f c ↔ _
    rw [addSubclass_hasCxx, addSubclass_hasCxx, addSubclass_hasCxx,
      decide_eq_false (hmeta newSuper),
      Bool.false_and, Bool.or_false]
    simp only [Bool.or_eq_true, Bool.and_eq_true, decide_eq_true_eq, or_assoc]
    exact Iff.rfl

theorem Inv.setSuperclass {g g'} (h : Inv compiled ∅ g) (hcls : g.realized cls)
    (hnew : g.realized newSuper) (hmeta : ∀ c, g.isa c ≠ cls ∧ g.isa c ≠ newSuper)
    (hlink : LinksSafely g newSuper cls) (hlinkMeta : LinksSafely g (g.isa newSuper) (g.isa cls))
    (heq : Structors.setSuperclass cls newSuper g = some g') : Inv compiled ∅ g' := by
  obtain ⟨hlinks, hflag⟩ := setSuperclass_cases (fun c => (hmeta c).1) heq
  have hreal : g'.realized = g.realized := hlinks.realized
  have hisa : g'.isa = g.isa := hlinks.isa
  have hdef : g'.hasCxxStructors = g.hasCxxStructors := hlinks.structors
  have hdefs : g'.defines = g.defines := hlinks.defines
  have hsup : ∀ c, g'.superclass c = if c = g.isa cls then some (g.isa newSuper)
      else if c = cls then some newSuper else g.superclass c := by
    intro c
    rw [hlinks.superclass]
    exact setSuperclasses_superclass c
  have hmetacls := h.isaRealized cls hcls (notMem_empty _)
  refine .of_settled (fun c hc => ?_) (fun c p hc hp => ?_) (fun c hc => ?_)
    fun c hc f hdefines => ?_
  · rw [hreal] at hc
    rw [hsup, if_neg (ne_of_realized hmetacls hc).symm, if_neg (ne_of_realized hcls hc).symm, hisa,
      hdef]
    exact h.asCompiled c (.inl hc)
  · rw [hreal] at hc ⊢
    rw [hsup] at hp
    split at hp
    · -- the metaclass of the class
      next hc' =>
        cases hp
        refine ⟨h.isaRealized newSuper hnew (notMem_empty _), fun f hf => ?_⟩
        rw [hflag] at hf ⊢
        rcases hf with hf | ⟨heq, -⟩ | ⟨-, hf⟩
        · exact .inr (.inr ⟨hc', hf⟩)
        · exact absurd heq (hmeta newSuper).1
        · exact .inr (.inr ⟨hc', hf⟩)
    · split at hp
      next hc' =>
        cases hp
        refine ⟨hnew, fun f hf => ?_⟩
        rw [hflag] at hf ⊢
        rcases hf with hf | ⟨-, hf⟩ | ⟨heq, -⟩
        · exact .inr (.inl ⟨hc', hf⟩)
        · exact .inr (.inl ⟨hc', hf⟩)
        · exact absurd heq.symm (hmeta cls).2
      · obtain ⟨hrealp, hclosed⟩ := h.linked c p hc (notMem_empty _) hp
        refine ⟨hrealp, fun f hf => (hflag f c).2 (.inl ?_)⟩
        rcases (hflag f p).1 hf with hset | ⟨rfl, hset⟩ | ⟨rfl, hset⟩
        · exact hclosed f hset
        · exact hclosed f ((hlink f hset).resolve_right fun hnone => hnone c hc hp)
        · exact hclosed f ((hlinkMeta f hset).resolve_right fun hnone => hnone c hc hp)
  · rw [hreal] at hc ⊢
    rw [hisa]
    exact h.isaRealized c hc (notMem_empty _)
  · rw [hreal] at hc
    rw [hdefs] at hdefines
    exact (hflag f c).2 (.inl (h.defines c hc (notMem_empty _) f hdefines))

theorem Inv.step {g g' fuel} {act : FlagAct} (hroots : compiled.PlainRoots)
    (h : Inv compiled ∅ g) (hallowed : act.Allowed g) (hok : act.Harmless g)
    (hstep : act.step fuel g = some g') : Inv compiled ∅ g' := by
  cases act with
  | realize cls =>
    exact (h.realize hroots (fun _ _ q hq => absurd hq (notMem_empty q)) hstep).1
  | allocateClassPair superclass cls metacls =>
    exact h.allocateClassPair hallowed.1 hallowed.2.1 hallowed.2.2 hstep
  | registerClassPair cls =>
    cases hstep
    unfold Structors.registerClassPair
    split
    · exact ⟨h.realized, h.unset, h.asCompiled, h.linked, h.underPending, h.isaRealized, h.defines⟩
    · exact h
  | setSuperclass cls newSuper =>
    exact h.setSuperclass hallowed.1 hallowed.2.1 hallowed.2.2.1 hok.1 hok.2 hstep

theorem FlagReachable.inv (hroots : compiled.PlainRoots)
    (h : FlagReachable compiled FlagAct.Harmless g) : Inv compiled ∅ g := by
  induction h with
  | init => exact init_inv compiled
  | step fuel act _ hallowed hok hstep ih => exact ih.step hroots hallowed hok hstep

/-! ### Closure -/

theorem Inv.closed (h : Inv compiled ∅ g) {c d f}
    (hanc : Ancestor g.superclass c d) (hd : g.realized d) (hc : g.hasCxx f c) : g.hasCxx f d := by
  induction hanc with
  | refl => exact hc
  | step hp _ ih =>
    obtain ⟨hreal, hclosed⟩ := h.linked _ _ hd (notMem_empty _) hp
    exact hclosed f (ih hreal)

theorem Inv.flagged (h : Inv compiled ∅ g) (f) {chain} (hchain : Chain g.superclass start chain) :
    (∀ c, start = some c → g.realized c) → Flagged (g.defines f ·) (g.hasCxx f) chain ∧
      ∀ d ∈ chain, ∀ c, start = some c → g.defines f d → g.hasCxx f c := by
  induction hchain with
  | nil => exact fun _ => ⟨trivial, nofun⟩
  | @cons c supers hrest ih =>
    intro hreal
    have hlinked := fun p => h.linked c p (hreal c rfl) (notMem_empty _)
    obtain ⟨hflags, habove⟩ := ih fun p hp => (hlinked p hp).1
    have hself : ∀ d ∈ c :: supers, g.defines f d → g.hasCxx f c := by
      intro d hd hdefines
      rcases mem_cons.1 hd with rfl | hd
      · exact h.defines d (hreal d rfl) (notMem_empty _) f hdefines
      · cases hp : g.superclass c with
        | none =>
          rw [hp] at hrest
          cases hrest
          cases hd
        | some p => exact (hlinked p hp).2 f (habove d hd p hp hdefines)
    refine ⟨⟨fun ⟨d, hd, hdefines⟩ => hself d hd hdefines, hflags⟩, ?_⟩
    rintro d hd _ ⟨⟩ hdefines
    exact hself d hd hdefines

theorem Flagged.cxxDestructVisits {defines : Cls → Prop} {chain}
    (hchain : Chain g.superclass start chain) : Flagged defines (g.hasCxx .dtor) chain →
      ∀ {fuel}, chain.length ≤ fuel →
      ∃ visited, Structors.cxxDestructVisits g fuel start = some visited ∧
        ∀ c ∈ chain, defines c → c ∈ visited := by
  induction hchain with
  | nil =>
    intro _ fuel _
    exact ⟨[], by cases fuel <;> rfl, nofun⟩
  | @cons cls chain hrest ih =>
    intro hflags fuel hfuel
    obtain _ | fuel := fuel
    · cases hfuel
    rw [Structors.cxxDestructVisits]
    split
    next hunset =>
      refine ⟨[], rfl, fun c hc hdefines => ?_⟩
      cases (hflags.1 ⟨c, hc, hdefines⟩).symm.trans hunset
    · obtain ⟨visited, heq, hvisited⟩ := ih hflags.2 (le_of_succ_le_succ hfuel)
      rw [heq, Option.map_some]
      refine ⟨_, rfl, fun c hc hdefines => ?_⟩
      rcases mem_cons.1 hc with rfl | hc
      · exact mem_cons_self
      · exact mem_cons_of_mem _ (hvisited c hc hdefines)

/-- Where no root class has structors of its own and no move leaves out a subtree,
the flags are closed downwards, and the walk over the destructors reaches every
class that defines one. -/
theorem structor_flags_closed {g : Graph} (hroots : compiled.PlainRoots)
    (hreach : FlagReachable compiled FlagAct.Harmless g) :
    (∀ f c d, g.realized c = true → g.realized d = true → Ancestor g.superclass c d →
      g.hasCxx f c = true → g.hasCxx f d = true) ∧
    ∀ cls chain fuel, g.realized cls = true → Chain g.superclass (some cls) chain →
      chain.length ≤ fuel →
      ∃ visited, cxxDestructVisits g fuel (some cls) = some visited ∧
        ∀ c ∈ chain, g.hasCxxStructors c = true → c ∈ visited := by
  have h := hreach.inv hroots
  refine ⟨fun f c d _ hd hanc hc => h.closed hanc hd hc, fun cls chain fuel hcls hchain hfuel => ?_⟩
  obtain ⟨visited, heq, hvisited⟩ := Flagged.cxxDestructVisits hchain
    (h.flagged .dtor hchain fun c hc => Option.some.inj hc ▸ hcls).1 hfuel
  exact ⟨visited, heq, fun c hc hdef => hvisited c hc (by simp [Graph.defines, hdef])⟩

theorem Flagged.mono {defines defines' : Cls → Prop} (hle : ∀ c, defines' c → defines c) {flag} :
    ∀ {chain}, Flagged defines flag chain → Flagged defines' flag chain
  | [], _ => trivial
  | _ :: _, h => ⟨fun ⟨d, hd, hdefines⟩ => h.1 ⟨d, hd, hle d hdefines⟩, h.2.mono hle⟩

/-- So the flags of such a graph are what `object_cxxDestruct` and
`object_cxxConstructFromClass` ask for on the classes of an object, where the
methods are those compiled in. -/
theorem FlagReachable.flagged {κ : Type} {img : Image} {s : State κ} (hroots : compiled.PlainRoots)
    (hreach : FlagReachable compiled FlagAct.Harmless g) {sel f}
    (hdefines : ∀ c, Defines img s sel c → g.defines f c) {cls chain} (hcls : g.realized cls)
    (hsuper : s.superclass = g.superclass) (hchain : Chain s.superclass (some cls) chain) :
    Flagged (Defines img s sel) (g.hasCxx f) chain :=
  (((hreach.inv hroots).flagged f (hsuper ▸ hchain)
    fun _ hc => Option.some.inj hc ▸ hcls).1).mono hdefines

/-! ### An example -/

/-- Class 2 with C++ structors, class 4 and its subclass 6 without; all below the
root class 0. -/
def treeSuperclass (c : Nat) : Option Nat :=
  if c = 6 then some 4 else if c = 7 then some 5 else flatSuperclass c

def treeRank (c : Nat) : Nat := if c ≤ 1 then 0 else if c = 6 ∨ c = 7 then 2 else 1

theorem treeSuperclass_cases {c p} (h : treeSuperclass c = some p) :
    (c = 6 ∨ c = 7) ∧ (p = 4 ∨ p = 5) ∨ c ≠ 0 ∧ p = 0 ∨ 1 < c ∧ c ≠ 6 ∧ c ≠ 7 ∧ p = 1 := by
  unfold treeSuperclass at h
  split at h
  · cases h
    omega
  · split at h
    · cases h
      omega
    · rcases flatSuperclass_cases h with h | h
      · omega
      · omega

def treeClasses : Compiled where
  superclass := treeSuperclass
  isa := flatIsa
  hasCxxStructors c := c = 2
  hasCxxDtorOnly _ := false
  rank := treeRank
  rank_superclass_le c p h := by
    unfold treeRank
    rcases treeSuperclass_cases h with h | h | h <;> split_ifs <;> omega
  rank_superclass_lt c p h hp := by
    unfold treeRank
    rcases treeSuperclass_cases h with h | h | h
    · split_ifs <;> omega
    · exact absurd (h.2 ▸ rfl) hp
    · split_ifs <;> omega
  rank_isa_le c := by
    unfold treeRank flatIsa
    split_ifs <;> omega

theorem treeClasses_plainRoots : treeClasses.PlainRoots := by
  intro c hc
  refine decide_eq_false ?_
  rintro rfl
  exact absurd hc (by decide)

/-- Classes 2 and 6 have been realized. -/
def treeHalf : Graph := ((FlagAct.realize 2).step 8 treeClasses.graph).get (by decide)

def treeRealized : Graph := ((FlagAct.realize 6).step 8 treeHalf).get (by decide)

theorem treeRealized_reachable {ok} (hok : ∀ g c, ok g (.realize c)) :
    FlagReachable treeClasses ok treeRealized :=
  .step 8 (.realize 6) (.step 8 (.realize 2) .init trivial (hok _ _) (Option.some_get _).symm)
    trivial (hok _ _) (Option.some_get _).symm

/-- The classes that may be moved are not metaclasses. -/
theorem treeRealized_isa (c : Cls) : treeRealized.isa c % 2 = 1 := by
  change flatIsa c % 2 = 1
  unfold flatIsa
  split <;> omega

theorem treeRealized_allowed (hcls : treeRealized.realized cls)
    (hnew : treeRealized.realized newSuper) (heven : cls % 2 = 0 ∧ newSuper % 2 = 0)
    (hchain : treeRealized.superclass newSuper = some 0) (hne : cls ≠ newSuper ∧ cls ≠ 0) :
    (FlagAct.setSuperclass cls newSuper).Allowed treeRealized := by
  refine ⟨hcls, hnew, fun c => ?_, ?_⟩
  · have hodd := treeRealized_isa c
    exact ⟨fun heq => absurd ((heq ▸ hodd).symm.trans heven.1) (by decide),
      fun heq => absurd ((heq ▸ hodd).symm.trans heven.2) (by decide)⟩
  · intro hanc
    cases hanc with
    | refl => exact hne.1 rfl
    | step hp hanc =>
      obtain rfl := Option.some.inj (hp.symm.trans hchain)
      cases hanc with
      | refl => exact hne.2 rfl
      | step hp _ =>
        have hroot : treeRealized.superclass 0 = none := by decide
        cases hroot.symm.trans hp

/-- Class 2 moves under class 4, which has no flags. -/
def treeUnder : Graph := ((FlagAct.setSuperclass 2 4).step 8 treeRealized).get (by decide)

theorem structor_flags_closed_under :
    FlagReachable treeClasses FlagAct.Harmless treeUnder ∧
      ∃ visited, cxxDestructVisits treeUnder 3 (some 2) = some visited ∧
        ∀ c ∈ [2, 4, 0], treeUnder.hasCxxStructors c = true → c ∈ visited := by
  have hok : (FlagAct.setSuperclass 2 4).Harmless treeRealized := by
    constructor
    · intro f
      cases f <;> exact fun hf => absurd hf (by decide)
    · intro f
      cases f <;> exact fun hf => absurd hf (by decide)
  have hreach : FlagReachable treeClasses FlagAct.Harmless treeUnder :=
    .step 8 (.setSuperclass 2 4) (treeRealized_reachable fun _ _ => trivial)
      (treeRealized_allowed (by decide) (by decide) (by decide) (by decide) (by decide)) hok
      (Option.some_get _).symm
  exact ⟨hreach, (structor_flags_closed treeClasses_plainRoots hreach).2 2 [2, 4, 0] 3 (by decide)
    (.cons (.cons (.cons .nil))) (by decide)⟩

/-- Class 4 moves under class 2 together with its subclass 6. -/
def treeMoved : Graph := ((FlagAct.setSuperclass 4 2).step 8 treeRealized).get (by decide)

/-- Class 6 is left without the flag, and its instances are not destructed. -/
theorem setSuperclass_leaves_subtree :
    FlagReachable treeClasses (fun _ _ => True) treeMoved ∧
      treeMoved.realized 2 = true ∧ treeMoved.realized 6 = true ∧
      Ancestor treeMoved.superclass 2 6 ∧ treeMoved.hasCxx .dtor 2 = true ∧
      treeMoved.hasCxx .dtor 6 = false ∧ Chain treeMoved.superclass (some 6) [6, 4, 2, 0] ∧
      treeMoved.hasCxxStructors 2 = true ∧ cxxDestructVisits treeMoved 4 (some 6) = some [] :=
  ⟨.step 8 (.setSuperclass 4 2) (treeRealized_reachable fun _ _ => trivial)
      (treeRealized_allowed (by decide) (by decide) (by decide) (by decide) (by decide)) trivial
      (Option.some_get _).symm,
    by decide, by decide, .step (p := 4) (by decide) (.step (p := 2) (by decide) .refl), by decide,
    by decide, .cons (.cons (.cons (.cons .nil))), by decide, by decide⟩

end ObjcRuntime.Classes.Structors
