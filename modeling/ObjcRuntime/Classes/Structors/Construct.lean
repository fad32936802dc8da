import ObjcRuntime.Classes.Structors.Destruct

/-!
# ObjcRuntime.Classes.Structors.Construct

C++ constructors: `object_cxxConstructFromClass` calls the `.cxx_construct` of
every class from the root down to a class, and undoes what was done if one fails.

The frame of the class whose constructor failed cleans up and returns nil, or
what the bad-alloc handler returns. The frames of its subclasses take any result
but nil for success. `RolledBack` is what a failed construction should leave;
it is missed exactly if the failure is in a superclass frame and the handler
returns an object.
-/

namespace ObjcRuntime.Classes.Structors

open Lib List Option

variable {κ : Type} {img : Image} {s s' s₀ : State κ}

/-! ### The code -/

inductive Event
  | construct (imp : Imp)
  | destruct (imp : Imp)
  | free
  | badAlloc (cls : Cls)
  deriving DecidableEq

def Event.isStructor : Event → Bool
  | .construct _ => true
  | .destruct _ => true
  | _ => false

def Event.isBadAlloc : Event → Bool
  | .badAlloc _ => true
  | _ => false

/-- A call: the object, the flags, which constructors succeed, and what the
handler returns. -/
structure Construction where
  obj : Nat
  freeOnFailure : Bool
  callBadAlloc : Bool
  succeeds : Cls → Bool
  badAllocHandler : Cls → Option Nat

/-- What a frame returns, what was done up to then, and the classes after it. -/
structure Outcome (κ : Type) where
  result : Option Nat
  log : List Event
  state : State κ

section Code

variable [MethodCache κ] (img : Image) (hasCxxCtor hasCxxDtor : Cls → Bool) (k : Construction)

/-- The end of a frame whose constructor failed. -/
def cleanUp (fuel : Nat) (cls : Cls) (o : Outcome κ) : Option (Outcome κ) :=
  (cxxDestructFromClass img hasCxxDtor fuel (o.state.superclass cls) o.state).map fun d =>
    let log := o.log ++ d.1.map .destruct ++ if k.freeOnFailure then [.free] else []
    if k.callBadAlloc then ⟨k.badAllocHandler cls, log ++ [.badAlloc cls], d.2⟩
    else ⟨none, log, d.2⟩

/-- A frame after the constructors of the superclasses have succeeded. -/
def constructOwn (fuel : Nat) (cls : Cls) (o : Outcome κ) : Option (Outcome κ) :=
  let ctor := lookupMethodInClassAndLoadCache img cls .cxxConstruct o.state
  if ctor.1 = .msgForwardImpcache then some ⟨some k.obj, o.log, ctor.2⟩
  else
    let log := o.log ++ [.construct ctor.1]
    if k.succeeds cls then some ⟨some k.obj, log, ctor.2⟩
    else cleanUp img hasCxxDtor k fuel cls ⟨none, log, ctor.2⟩

/-- `object_cxxConstructFromClass` -/
def cxxConstructFromClass : Nat → Cls → State κ → Option (Outcome κ)
  | 0, _, _ => none
  | fuel + 1, cls, s =>
    let supers :=
      match s.superclass cls with
      | some supercls =>
        if hasCxxCtor supercls then cxxConstructFromClass fuel supercls s
        else some ⟨some k.obj, [], s⟩
      | none => some ⟨some k.obj, [], s⟩
    supers.bind fun o =>
      -- some superclass's ctor failed - give up
      if o.result = none then some ⟨none, o.log, o.state⟩
      else constructOwn img hasCxxDtor k fuel cls o

/-- The superclasses' constructors, if there are any. -/
def constructSupers (fuel : Nat) (supercls : Option Cls) (s : State κ) : Option (Outcome κ) :=
  match supercls with
  | some supercls =>
    if hasCxxCtor supercls then cxxConstructFromClass img hasCxxCtor hasCxxDtor k fuel supercls s
    else some ⟨some k.obj, [], s⟩
  | none => some ⟨some k.obj, [], s⟩

end Code

/-- A failed construction is undone: the constructors from the root down to the
class that failed have run, then the destructors of its superclasses, and no
others; the object is freed once if at all, the handler is called once at most,
and the object is not returned. -/
structure RolledBack (img : Image) (s₀ : State κ) (k : Construction) (failing : Cls)
    (supers : List Cls) (o : Outcome κ) : Prop where
  structors : ∃ rest, o.log =
    (ownStructors img s₀ .cxxConstruct (failing :: supers).reverse).map .construct ++
      (ownStructors img s₀ .cxxDestruct supers).map .destruct ++ rest ∧
    ∀ e ∈ rest, e.isStructor = false
  free : o.log.count .free = if k.freeOnFailure then 1 else 0
  badAlloc : o.log.countP Event.isBadAlloc ≤ 1
  result : o.result ≠ some k.obj

/-! ### What a failure leaves -/

/-- The events of a cleanup. -/
def cleanUpLog (img : Image) (s₀ : State κ) (k : Construction) (cls : Cls) (supers : List Cls) :
    List Event :=
  (ownStructors img s₀ .cxxDestruct supers).map .destruct ++
    (if k.freeOnFailure then [.free] else []) ++ if k.callBadAlloc then [.badAlloc cls] else []

/-- What has been done when the frame of the failing class returns. -/
def failureLog (img : Image) (s₀ : State κ) (k : Construction) (failing : Cls)
    (supers : List Cls) : List Event :=
  (ownStructors img s₀ .cxxConstruct (failing :: supers).reverse).map .construct ++
    cleanUpLog img s₀ k failing supers

/-- What the frame of the failing class returns. -/
def failureResult (k : Construction) (failing : Cls) : Option Nat :=
  if k.callBadAlloc then k.badAllocHandler failing else none

variable {failing : Cls} {supers : List Cls} {o : Outcome κ}

/-- Frees and calls of the handler are not among the constructors and destructors. -/
theorem countP_structors {p : Event → Bool} (hp : ∀ e, e.isStructor → p e = false)
    {f : Imp → Event} (hf : ∀ imp, (f imp).isStructor) (imps : List Imp) :
    (imps.map f).countP p = 0 := by
  rw [countP_eq_zero]
  intro e hmem
  obtain ⟨imp, -, rfl⟩ := List.mem_map.1 hmem
  rw [hp _ (hf imp)]
  simp

theorem failureResult_eq_none_iff (k : Construction) :
    failureResult k failing = none ↔
      k.callBadAlloc = false ∨ k.badAllocHandler failing = none := by
  unfold failureResult
  cases k.callBadAlloc <;> simp

/-- When the object is not returned, where the frames of the subclasses pass the result on. -/
theorem failureResult_ne_iff {subs : List Cls} (k : Construction)
    (hwhen : subs = [] ∨ failureResult k failing = none) :
    failureResult k failing ≠ some k.obj ↔
      k.callBadAlloc = false ∨ k.badAllocHandler failing = none ∨
        subs = [] ∧ k.badAllocHandler failing ≠ some k.obj := by
  rw [failureResult_eq_none_iff] at hwhen
  unfold failureResult
  cases hcalled : k.callBadAlloc with
  | false => simp
  | true =>
    cases hhandler : k.badAllocHandler failing with
    | none => simp
    | some obj => simpa [hcalled, hhandler] using fun _ => hwhen

theorem rolledBack_of_failureLog (k) (hlog : o.log = failureLog img s₀ k failing supers)
    (hresult : o.result ≠ some k.obj) : RolledBack img s₀ k failing supers o where
  structors := by
    refine ⟨(if k.freeOnFailure then [.free] else []) ++
      (if k.callBadAlloc then [.badAlloc failing] else []), ?_, ?_⟩
    · rw [hlog, failureLog, cleanUpLog]
      simp only [append_assoc]
    · intro e he
      rcases mem_append.1 he with he | he
      · split at he
        · rw [mem_singleton.1 he]; rfl
        · cases he
      · split at he
        · rw [mem_singleton.1 he]; rfl
        · cases he
  free := by
    have hp : ∀ e : Event, e.isStructor → (e == .free) = false := by
      intro e he
      cases e <;> first | rfl | simp [Event.isStructor] at he
    rw [hlog, failureLog, cleanUpLog, List.count, countP_append, countP_append,
      countP_append, countP_structors hp fun _ => rfl, countP_structors hp fun _ => rfl]
    cases k.freeOnFailure <;> cases k.callBadAlloc <;> rfl
  badAlloc := by
    have hp : ∀ e : Event, e.isStructor → e.isBadAlloc = false := by
      intro e he
      cases e <;> first | rfl | simp [Event.isStructor] at he
    rw [hlog, failureLog, cleanUpLog, countP_append, countP_append, countP_append,
      countP_structors hp fun _ => rfl, countP_structors hp fun _ => rfl]
    cases k.freeOnFailure <;> cases k.callBadAlloc <;> simp [Event.isBadAlloc]
  result := hresult

theorem not_rolledBack_of_construct {k more imp}
    (hlog : o.log = failureLog img s₀ k failing supers ++ more) (himp : Event.construct imp ∈ more)
    : ¬ RolledBack img s₀ k failing supers o := by
  intro h
  obtain ⟨rest, heq, hrest⟩ := h.structors
  rw [hlog, failureLog, cleanUpLog] at heq
  simp only [append_assoc] at heq
  have hmem := append_cancel_left (append_cancel_left heq)
  have := hrest (.construct imp) (hmem ▸ mem_append_right _ (mem_append_right _ himp))
  simp [Event.isStructor] at this

/-! ### Frames -/

/-- A chain of the classes, with the flags that construction relies on. -/
structure FlaggedChain (img : Image) (s₀ : State κ) (hasCxxCtor hasCxxDtor : Cls → Bool)
    (classes : List Cls) (start : Option Cls) (chain : List Cls) : Prop where
  links : Chain s₀.superclass start chain
  ctors : Flagged (Defines img s₀ .cxxConstruct) hasCxxCtor chain
  dtors : Flagged (Defines img s₀ .cxxDestruct) hasCxxDtor chain
  sub : chain ⊆ classes

variable {hasCxxCtor hasCxxDtor : Cls → Bool} {classes chain : List Cls} {start : Option Cls}

theorem FlaggedChain.tail {c} (h : FlaggedChain img s₀ hasCxxCtor hasCxxDtor classes (some c)
      (c :: chain)) :
    c ∈ classes ∧ FlaggedChain img s₀ hasCxxCtor hasCxxDtor classes (s₀.superclass c) chain := by
  obtain ⟨hc, hsub⟩ := cons_subset.1 h.sub
  obtain ⟨⟩ | hrest := h.links
  exact ⟨hc, hrest, h.ctors.2, h.dtors.2, hsub⟩

/-- The first class of the chain has the flag if one of them defines a constructor. -/
theorem FlaggedChain.head {c d} (h : FlaggedChain img s₀ hasCxxCtor hasCxxDtor classes (some c)
      chain) (hd : d ∈ chain) (hdefines : Defines img s₀ .cxxConstruct d) : hasCxxCtor c := by
  obtain ⟨hchain, hctors, -, -⟩ := h
  cases hchain
  exact hctors.1 ⟨d, hd, hdefines⟩

theorem constructors_cons (c : Cls) (supers) :
    ownStructors img s₀ .cxxConstruct (c :: supers).reverse =
      ownStructors img s₀ .cxxConstruct supers.reverse ++
        (ownImp img s₀ c .cxxConstruct).toList := by
  unfold ownStructors
  cases hown : ownImp img s₀ c .cxxConstruct <;> simp [hown]

variable [MethodCache κ]

/-- Both selectors have own entries only. -/
structure Settled (img : Image) (classes : List Cls) (s₀ s : State κ) : Prop where
  same : SameMethods s₀ s
  ctors : OwnEntries img .cxxConstruct classes s
  dtors : OwnEntries img .cxxDestruct classes s

theorem Settled.lookupCtor (h : Settled img classes s₀ s) {cls} (hcls : cls ∈ classes) :
    (lookupMethodInClassAndLoadCache img cls .cxxConstruct s).1 =
        ownOrForward img s₀ cls .cxxConstruct ∧
      Settled img classes s₀ (lookupMethodInClassAndLoadCache img cls .cxxConstruct s).2 := by
  obtain ⟨himp, hsame⟩ := lookupMethodInClass_own h.ctors hcls
  exact ⟨himp.trans (h.same.ownOrForward ..), h.same.trans hsame, h.ctors.lookupMethodInClass cls,
    h.dtors.lookupMethodInClass cls⟩

theorem cxxConstructFromClass_succ (img) (hasCxxCtor hasCxxDtor : Cls → Bool)
    (k) (fuel : Nat) (cls : Cls) (s : State κ) :
    cxxConstructFromClass img hasCxxCtor hasCxxDtor k (fuel + 1) cls s =
      (constructSupers img hasCxxCtor hasCxxDtor k fuel (s.superclass cls) s).bind fun o =>
        if o.result = none then some ⟨none, o.log, o.state⟩
        else constructOwn img hasCxxDtor k fuel cls o := rfl

variable (fresh : Fresh img s₀)
include fresh

theorem cleanUp_spec (k) {cls}
    (h : FlaggedChain img s₀ hasCxxCtor hasCxxDtor classes (s₀.superclass cls) supers) {fuel}
    (hfuel : supers.length ≤ fuel) (hstate : Settled img classes s₀ o.state) :
    ∃ s', Settled img classes s₀ s' ∧ cleanUp img hasCxxDtor k fuel cls o =
      some ⟨if k.callBadAlloc then k.badAllocHandler cls else none,
        o.log ++ cleanUpLog img s₀ k cls supers, s'⟩ := by
  obtain ⟨s', hwalk, hsame, hkeeps⟩ :=
    cxxDestructFromClass_own fresh h.links h.dtors h.sub hstate.same hstate.dtors hfuel
  refine ⟨s', ⟨hsame, hkeeps _ hstate.ctors, hkeeps _ hstate.dtors⟩, ?_⟩
  unfold cleanUp cleanUpLog
  rw [hstate.same.superclass, hwalk, map_some]
  dsimp only
  split
  · simp only [append_assoc]
  · simp only [append_assoc, append_nil]

/-- A method that is defined is found, and differs from forwarding. -/
theorem Fresh.ownOrForward_ne {sel} (hsel : sel.isStructor) {c imp}
    (h : ownImp img s₀ c sel = some imp) :
    ownOrForward img s₀ c sel = imp ∧ imp ≠ .msgForwardImpcache :=
  ⟨by rw [ownOrForward, h]; rfl, fresh.code c sel imp hsel h⟩

theorem constructSupers_succeed (k) (hchain : Chain s₀.superclass start chain) :
    FlaggedChain img s₀ hasCxxCtor hasCxxDtor classes start chain →
    (∀ c ∈ chain, Defines img s₀ .cxxConstruct c → k.succeeds c) →
    ∀ {fuel} {s}, chain.length ≤ fuel → Settled img classes s₀ s →
      ∃ s', Settled img classes s₀ s' ∧
        constructSupers img hasCxxCtor hasCxxDtor k fuel start s = some ⟨some k.obj,
          (ownStructors img s₀ .cxxConstruct chain.reverse).map .construct, s'⟩ := by
  induction hchain with
  | nil =>
    intro _ _ fuel s _ hs
    exact ⟨s, hs, rfl⟩
  | @cons c chain hrest ih =>
    intro h hok fuel s hfuel hs
    obtain _ | fuel := fuel
    · cases hfuel
    obtain ⟨hc, htail⟩ := h.tail
    rw [constructSupers]
    split
    · obtain ⟨s₁, hs₁, hsupers⟩ := ih htail (fun d hd => hok d (mem_cons_of_mem c hd))
        (Nat.le_of_succ_le_succ hfuel) hs
      obtain ⟨himp, hs₂⟩ := hs₁.lookupCtor hc
      rw [cxxConstructFromClass_succ, hs.same.superclass, hsupers, bind_some,
        if_neg (by simp), constructors_cons]
      refine ⟨_, hs₂, ?_⟩
      unfold constructOwn
      dsimp only
      rw [himp]
      cases hown : ownImp img s₀ c .cxxConstruct with
      | none =>
        rw [ownOrForward, hown, getD_none, if_pos rfl, toList_none, append_nil]
      | some imp =>
        obtain ⟨heq, hne⟩ := fresh.ownOrForward_ne (.inl rfl) hown
        rw [heq, if_neg hne, if_pos (hok c mem_cons_self (by rw [Defines, hown]; simp)),
          toList_some, map_append, map_singleton]
    next hflag =>
      have hnil := ownStructors_eq_nil (mt h.ctors.1 hflag)
      have hnil' : ownStructors img s₀ .cxxConstruct (c :: chain).reverse = [] :=
        (filterMap_reverse ..).trans (congrArg List.reverse hnil)
      exact ⟨s, hs, by rw [hnil', map_nil]⟩

theorem cxxConstructFromClass_fails (k : Construction)
    (h : FlaggedChain img s₀ hasCxxCtor hasCxxDtor classes (some failing) (failing :: supers))
    (hdefined : Defines img s₀ .cxxConstruct failing) (hfails : k.succeeds failing = false)
    (hfirst : ∀ c ∈ supers, Defines img s₀ .cxxConstruct c → k.succeeds c) {fuel}
    (hfuel : supers.length ≤ fuel) (hs : Settled img classes s₀ s) :
    ∃ s', Settled img classes s₀ s' ∧
      cxxConstructFromClass img hasCxxCtor hasCxxDtor k (fuel + 1) failing s =
        some ⟨failureResult k failing, failureLog img s₀ k failing supers, s'⟩ := by
  obtain ⟨hmem, htail⟩ := h.tail
  obtain ⟨s₁, hs₁, hsupers⟩ := constructSupers_succeed fresh k htail.links htail hfirst hfuel hs
  obtain ⟨imp, himp⟩ := ne_none_iff_exists'.1 hdefined
  obtain ⟨hlook, hs₂⟩ := hs₁.lookupCtor hmem
  obtain ⟨heq, hne⟩ := fresh.ownOrForward_ne (.inl rfl) himp
  rw [cxxConstructFromClass_succ, hs.same.superclass, hsupers, bind_some, if_neg (by simp)]
  unfold constructOwn failureLog
  dsimp only
  rw [hlook, heq, if_neg hne, if_neg (by rw [hfails]; simp), constructors_cons, himp,
    toList_some, map_append, map_singleton]
  exact cleanUp_spec fresh k htail hfuel hs₂

/-- A frame that goes on calls the constructor of its class or returns the object. -/
theorem constructOwn_goes_on (k) {cls}
    (h : FlaggedChain img s₀ hasCxxCtor hasCxxDtor classes (some cls) (cls :: supers)) {fuel}
    (hfuel : supers.length ≤ fuel) (ho : Settled img classes s₀ o.state) :
    ∃ o', Settled img classes s₀ o'.state ∧
      constructOwn img hasCxxDtor k fuel cls o = some o' ∧
      ∃ more, o'.log = o.log ++ more ∧
        (o'.result = some k.obj ∨ ∃ imp, Event.construct imp ∈ more) := by
  obtain ⟨hmem, htail⟩ := h.tail
  obtain ⟨hlook, hs⟩ := ho.lookupCtor hmem
  unfold constructOwn
  dsimp only
  split
  · exact ⟨_, hs, rfl, [], (append_nil _).symm, .inl rfl⟩
  · split
    · exact ⟨_, hs, rfl, _, rfl, .inl rfl⟩
    · obtain ⟨s', hs', heq⟩ := cleanUp_spec fresh k htail hfuel
        (o := ⟨none, o.log ++ [.construct (lookupMethodInClassAndLoadCache img cls .cxxConstruct
          o.state).1], (lookupMethodInClassAndLoadCache img cls .cxxConstruct o.state).2⟩) hs
      exact ⟨_, hs', heq, _, append_assoc .., .inr ⟨_, mem_append_left _ mem_cons_self⟩⟩

/-! ### The whole call -/

/-- The frames of the subclasses pass nil on. Any other result lets them go on, and
then a constructor is called or the object is returned. -/
theorem cxxConstructFromClass_frames (k)
    (hdefined : Defines img s₀ .cxxConstruct failing) (hfails : k.succeeds failing = false)
    (hfirst : ∀ c ∈ supers, Defines img s₀ .cxxConstruct c → k.succeeds c) (subs) :
    ∀ {cls fuel} {s},
      FlaggedChain img s₀ hasCxxCtor hasCxxDtor classes (some cls) (subs ++ failing :: supers) →
      (subs ++ failing :: supers).length ≤ fuel → Settled img classes s₀ s →
      ∃ o, Settled img classes s₀ o.state ∧
        cxxConstructFromClass img hasCxxCtor hasCxxDtor k fuel cls s = some o ∧
        ((subs = [] ∨ failureResult k failing = none) ∧ o.result = failureResult k failing ∧
            o.log = failureLog img s₀ k failing supers ∨
          subs ≠ [] ∧ failureResult k failing ≠ none ∧
            ∃ more, o.log = failureLog img s₀ k failing supers ++ more ∧
              (o.result = some k.obj ∨ ∃ imp, Event.construct imp ∈ more)) := by
  induction subs with
  | nil =>
    intro cls fuel s h hfuel hs
    obtain _ | fuel := fuel
    · cases hfuel
    obtain ⟨⟩ := h.links
    obtain ⟨s', hs', heq⟩ := cxxConstructFromClass_fails fresh k h hdefined hfails hfirst
      (Nat.le_of_succ_le_succ hfuel) hs
    exact ⟨_, hs', heq, .inl ⟨.inl rfl, rfl, rfl⟩⟩
  | cons c subs ih =>
    intro cls fuel s h hfuel hs
    obtain _ | fuel := fuel
    · cases hfuel
    obtain ⟨⟩ := h.links
    obtain ⟨-, htail⟩ := h.tail
    have hfuel' : (subs ++ failing :: supers).length ≤ fuel := Nat.le_of_succ_le_succ hfuel
    obtain ⟨p, hp⟩ : ∃ p, s₀.superclass c = some p := by
      refine ne_none_iff_exists'.1 fun hnone => ?_
      exact absurd (hnone ▸ htail.links) (by cases subs <;> exact nofun)
    rw [hp] at htail
    obtain ⟨o, ho, heq, hcases⟩ := ih htail hfuel' hs
    have hflag := htail.head (mem_append_right subs mem_cons_self) hdefined
    have hframe : cxxConstructFromClass img hasCxxCtor hasCxxDtor k (fuel + 1)
        c s = if o.result = none then some ⟨none, o.log, o.state⟩
          else constructOwn img hasCxxDtor k fuel c o := by
      rw [cxxConstructFromClass_succ, hs.same.superclass, hp, constructSupers, if_pos hflag, heq,
        bind_some]
    obtain ⟨o', ho', heq', more, hlog', hmore⟩ := constructOwn_goes_on fresh k h hfuel' ho
    rw [hframe]
    rcases hcases with ⟨-, hresult, hlog⟩ | ⟨-, hnonnil, more₀, hlog, hgone⟩
    · by_cases hnil : failureResult k failing = none
      · rw [if_pos (hresult.trans hnil)]
        exact ⟨⟨none, o.log, o.state⟩, ho, rfl, .inl ⟨.inr hnil, hnil.symm, hlog⟩⟩
      · rw [if_neg (hresult ▸ hnil)]
        exact ⟨o', ho', heq', .inr ⟨cons_ne_nil _ _, hnil, more, hlog ▸ hlog', hmore⟩⟩
    · split
      next hnone =>
        refine ⟨⟨none, o.log, o.state⟩, ho, rfl,
          .inr ⟨cons_ne_nil _ _, hnonnil, more₀, hlog, .inr ?_⟩⟩
        exact hgone.resolve_left (by rw [hnone]; simp)
      · refine ⟨o', ho', heq', .inr ⟨cons_ne_nil _ _, hnonnil, more₀ ++ more, ?_, ?_⟩⟩
        · rw [hlog', hlog, append_assoc]
        · exact hmore.imp_right fun ⟨imp, himp⟩ => ⟨imp, mem_append_right _ himp⟩

omit fresh

/-- On a chain of classes with the flags that construction relies on, after lookups
none of which caches an inherited constructor or destructor in a class of the
chain: where a constructor of the class `failing` is the first to fail, the
construction is undone exactly if no handler is called, or it returns nil, or the
class is the one to be constructed and the handler returns something else than
the object. -/
theorem cxxConstruct_rolls_back_iff (fresh : Fresh img s₀) (k : Construction) {cls failing : Cls}
    {subs supers : List Cls} (hchain : Chain s₀.superclass (some cls) (subs ++ failing :: supers))
    {hasCxxCtor hasCxxDtor : Cls → Bool}
    (hctors : Flagged (Defines img s₀ .cxxConstruct) hasCxxCtor (subs ++ failing :: supers))
    (hdtors : Flagged (Defines img s₀ .cxxDestruct) hasCxxDtor (subs ++ failing :: supers))
    (hrun : Lookups img [.cxxConstruct, .cxxDestruct] (subs ++ failing :: supers) s₀ s)
    (hdefined : Defines img s₀ .cxxConstruct failing) (hfails : k.succeeds failing = false)
    (hfirst : ∀ c ∈ supers, Defines img s₀ .cxxConstruct c → k.succeeds c = true)
    {fuel : Nat} (hfuel : (subs ++ failing :: supers).length ≤ fuel) :
    ∃ o, cxxConstructFromClass img hasCxxCtor hasCxxDtor k fuel cls s = some o ∧
      (RolledBack img s₀ k failing supers o ↔
        k.callBadAlloc = false ∨ k.badAllocHandler failing = none ∨
          subs = [] ∧ k.badAllocHandler failing ≠ some k.obj) := by
  obtain ⟨hsame, hctorsOwn⟩ := hrun.ownEntries fresh mem_cons_self
  have hs : Settled img (subs ++ failing :: supers) s₀ s :=
    ⟨hsame, hctorsOwn, (hrun.ownEntries fresh (mem_cons_of_mem _ mem_cons_self)).2⟩
  obtain ⟨o, -, heq, hcases⟩ :=
    cxxConstructFromClass_frames fresh k hdefined hfails hfirst subs
      ⟨hchain, hctors, hdtors, Subset.refl _⟩ hfuel hs
  refine ⟨o, heq, ?_⟩
  rcases hcases with ⟨hwhen, hresult, hlog⟩ | ⟨hsubs, hnonnil, more, hlog, hmore⟩
  · rw [← failureResult_ne_iff k hwhen, ← hresult]
    exact ⟨(·.result), rolledBack_of_failureLog k hlog⟩
  · refine iff_of_false ?_ ?_
    · rcases hmore with hobj | ⟨imp, himp⟩
      · exact fun h => h.result hobj
      · exact not_rolledBack_of_construct hlog himp
    · rintro (h | h | h)
      · exact hnonnil ((failureResult_eq_none_iff k).2 (.inl h))
      · exact hnonnil ((failureResult_eq_none_iff k).2 (.inr h))
      · exact hsubs h.1

/-! ### An example -/

/-- The root class 0 has a constructor, its subclass 2 has none. -/
def ctorState : State FullCache :=
  { flatState with method := fun _ _ => ⟨.cxxConstruct, .code 100⟩ }

theorem ctorState_fresh : Fresh flatImage ctorState where
  code c sel imp _ h := by
    obtain ⟨m, -, rfl⟩ := map_eq_some_iff.1 h
    simp [ctorState]
  cache _ _ := rfl

/-- The constructor fails; the object at 1000 is to be freed and the handler to be
called. -/
def failingConstruction (handlerResult : Option Nat) : Construction :=
  ⟨1000, true, true, fun _ => false, fun _ => handlerResult⟩

theorem ctorState_chain : Chain ctorState.superclass (some 2) ([2] ++ 0 :: []) := .cons (.cons .nil)

theorem cxxConstruct_rolls_back_nil :
    ∃ o, cxxConstructFromClass flatImage (fun _ => true) (fun _ => true)
        (failingConstruction none) 2 2 ctorState = some o ∧
      RolledBack flatImage ctorState (failingConstruction none) 0 [] o := by
  have hflags : ∀ sel, Flagged (Defines flatImage ctorState sel) (fun _ => true) ([2] ++ 0 :: []) :=
    fun _ => ⟨fun _ => rfl, fun _ => rfl, trivial⟩
  obtain ⟨o, heq, hiff⟩ := cxxConstruct_rolls_back_iff ctorState_fresh (failingConstruction none)
    ctorState_chain (hflags _) (hflags _) .init (by unfold Defines; decide)
      rfl nofun (Nat.le_refl 2)
  exact ⟨o, heq, hiff.2 (.inr (.inl rfl))⟩

/-- The handler returns another object: the subclass's frame takes this for
success and returns the object that has been freed. -/
theorem cxxConstruct_returns_freed :
    Chain ctorState.superclass (some 2) ([2] ++ 0 :: []) ∧
    ∃ o, cxxConstructFromClass flatImage (fun _ => true) (fun _ => true)
        (failingConstruction (some 2000)) 2 2 ctorState = some o ∧
      o.log = [.construct (.code 100), .free, .badAlloc 0] ∧ o.result = some 1000 ∧
      ¬ RolledBack flatImage ctorState (failingConstruction (some 2000)) 0 [] o :=
  ⟨ctorState_chain, _, rfl, by decide, rfl, fun h => h.result rfl⟩

end ObjcRuntime.Classes.Structors
