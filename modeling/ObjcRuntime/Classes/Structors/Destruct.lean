import ObjcRuntime.Classes.LookUp

/-!
# ObjcRuntime.Classes.Structors.Destruct

C++ destructors: `object_cxxDestruct` calls the `.cxx_destruct` of every class
from the object's class up to the root.

The walk asks each class for its own method with
`lookupMethodInClassAndLoadCache`, which searches no superclass but trusts the
cache of the class. The ordinary lookups fill the same cache with inherited
implementations. So the walk is right as long as no class on its way has cached a
`.cxx_destruct` that it only inherits (`OwnEntries`), and has the flag where a
class above it defines one (`Flagged`). An ordinary lookup that finds the method
in a superclass (`CachesInherited`) makes the superclass's destructor run twice.
-/

namespace ObjcRuntime.Classes.Structors

open Lib Option

variable {κ : Type} {img : Image}

/-! ### Chains of classes -/

/-- The classes from a class up to its root. -/
inductive Chain (superclass : Cls → Option Cls) : Option Cls → List Cls → Prop
  | nil : Chain superclass none []
  | cons {c chain} : Chain superclass (superclass c) chain →
      Chain superclass (some c) (c :: chain)

/-- On a chain the flag is set where the class or one above it defines the method. -/
def Flagged (defines : Cls → Prop) (flag : Cls → Bool) : List Cls → Prop
  | [] => True
  | c :: supers => ((∃ d ∈ c :: supers, defines d) → flag c = true) ∧ Flagged defines flag supers

/-- The class defines the method itself. -/
def Defines (img : Image) (s : State κ) (sel : Sel) (c : Cls) : Prop :=
  ownImp img s c sel ≠ none

/-- What a class's own lists have, or forwarding. -/
def ownOrForward (img : Image) (s : State κ) (c : Cls) (sel : Sel) : Imp :=
  (ownImp img s c sel).getD .msgForwardImpcache

variable {s s' s₀ : State κ} {sel : Sel}

/-- The constructors or destructors that the classes of a list define. -/
def ownStructors (img : Image) (s : State κ) (sel : Sel) (classes : List Cls) : List Imp :=
  classes.filterMap fun c => ownImp img s c sel

theorem ownStructors_eq_nil {chain} (h : ¬ ∃ c ∈ chain, Defines img s sel c) :
    ownStructors img s sel chain = [] := by
  rw [ownStructors, List.filterMap_eq_nil_iff]
  intro c hc
  by_contra hdefines
  exact h ⟨c, hc, hdefines⟩

/-- Nothing that a search without caches looks at has changed. -/
structure SameMethods (s s' : State κ) : Prop where
  superclass : s'.superclass = s.superclass
  ext : s'.ext = s.ext
  method : s'.method = s.method

theorem SameMethods.trans {s''} (h : SameMethods s s') (h' : SameMethods s' s'') :
    SameMethods s s'' :=
  ⟨h'.superclass.trans h.superclass, h'.ext.trans h.ext, h'.method.trans h.method⟩

theorem SameMethods.ownImp (h : SameMethods s s') (c : Cls) (sel : Sel) :
    Classes.ownImp img s' c sel = Classes.ownImp img s c sel :=
  ownImp_congr (congrFun h.ext c) (congrFun h.method c) sel

theorem SameMethods.ownOrForward (h : SameMethods s s') (c : Cls) (sel : Sel) :
    Structors.ownOrForward img s' c sel = Structors.ownOrForward img s c sel := by
  unfold Structors.ownOrForward
  rw [h.ownImp]

variable [MethodCache κ]

/-- No method has been looked up; a constructor or destructor that is defined has
code. -/
structure Fresh (img : Image) (s : State κ) : Prop where
  code : ∀ c sel imp, sel.isStructor → ownImp img s c sel = some imp → imp ≠ .msgForwardImpcache
  cache : ∀ c sel, MethodCache.find (s.cache c) sel = none

/-! ### The walk -/

/-- `object_cxxDestructFromClass`: the destructors it calls. -/
def cxxDestructFromClass (img : Image) (hasCxxDtor : Cls → Bool) :
    Nat → Option Cls → State κ → Option (List Imp × State κ)
  | _, none, s => some ([], s)
  | 0, some _, _ => none
  | fuel + 1, some cls, s =>
    if hasCxxDtor cls = false then some ([], s)
    else
      let r := lookupMethodInClassAndLoadCache img cls .cxxDestruct s
      (cxxDestructFromClass img hasCxxDtor fuel (r.2.superclass cls) r.2).map fun rest =>
        (if r.1 ≠ .msgForwardImpcache then r.1 :: rest.1 else rest.1, rest.2)

/-- `object_cxxDestruct`; nil and tagged pointers have no class here. -/
def objectCxxDestruct (img : Image) (hasCxxDtor : Cls → Bool) (fuel : Nat) (isa : Option Cls)
    (s : State κ) : Option (List Imp × State κ) :=
  match isa with
  | none => some ([], s)
  | some cls => cxxDestructFromClass img hasCxxDtor fuel (some cls) s

/-! ### Lookups before the walk -/

/-- The operations that look methods up; a class may be initialized between them. -/
def LooksUp : Act → Prop
  | .lookUp .. => True
  | .lookUpStructor .. => True
  | .setInitialized _ => True
  | _ => False

/-- An ordinary lookup that finds `sel` in a superclass of a class and caches it
there. -/
def CachesInherited (img : Image) (count : Nat) (s : State κ) (sel : Sel) (classes : List Cls) :
    Act → Prop
  | .lookUp sel' cls behavior => sel' = sel ∧ cls ∈ classes ∧ behavior.nocache = false ∧
      s.isInitialized img cls = true ∧ ¬ Defines img s sel cls ∧
      ∃ imp, searchImp img s sel (count - 1) cls = some (imp, true)
  | _ => False

/-- The states that lookups lead to, none of which caches an inherited method of
`sels` in one of the classes. -/
inductive Lookups (img : Image) (sels : List Sel) (classes : List Cls) (s₀ : State κ) :
    State κ → Prop
  | init : Lookups img sels classes s₀ s₀
  | step {s s' : State κ} (count : Nat) (act : Act) : Lookups img sels classes s₀ s →
      LooksUp act → (∀ sel ∈ sels, ¬ CachesInherited img count s sel classes act) →
      Classes.step img count s act = some s' → Lookups img sels classes s₀ s'

theorem cacheInsert_sameMethods (img : Image) (cls : Cls) (sel : Sel) (imp : Imp) (s : State κ) :
    SameMethods s (cacheInsert img cls sel imp s) := by
  obtain ⟨cache, heq, -⟩ := cacheInsert_frame img cls sel imp s
  rw [heq]
  exact ⟨rfl, rfl, rfl⟩

variable {classes : List Cls}

/-- None of the classes has cached a `sel` of a superclass. -/
def OwnEntries (img : Image) (sel : Sel) (classes : List Cls) (s : State κ) : Prop :=
  ∀ c ∈ classes, ∀ imp, MethodCache.find (s.cache c) sel = some imp →
    imp = ownOrForward img s c sel

theorem OwnEntries.cacheInsert {sel' cls imp} (h : OwnEntries img sel classes s)
    (himp : sel' = sel → cls ∈ classes → imp = ownOrForward img s cls sel) :
    OwnEntries img sel classes (Classes.cacheInsert img cls sel' imp s) := by
  intro c hc imp' hfind
  rw [(cacheInsert_sameMethods img cls sel' imp s).ownOrForward]
  obtain ⟨cache, heq, hentry⟩ := cacheInsert_frame img cls sel' imp s
  rw [heq] at hfind
  rcases hentry c sel imp' hfind with ⟨rfl, rfl, rfl⟩ | hold
  · exact himp rfl hc
  · exact h c hc imp' hold

theorem lookupMethodInClass_own (h : OwnEntries img sel classes s) {cls} (hcls : cls ∈ classes) :
    (lookupMethodInClassAndLoadCache img cls sel s).1 = ownOrForward img s cls sel ∧
    SameMethods s (lookupMethodInClassAndLoadCache img cls sel s).2 := by
  unfold lookupMethodInClassAndLoadCache
  dsimp only
  split
  next hhit => exact ⟨h cls hcls _ (find_of_getImp hhit), rfl, rfl, rfl⟩
  · refine ⟨?_, cacheInsert_sameMethods ..⟩
    unfold ownOrForward ownImp
    cases getMethodNoSuper img s cls sel with
    | none | some => rfl

theorem OwnEntries.lookupMethodInClass {sel'} (h : OwnEntries img sel classes s) (cls : Cls) :
    OwnEntries img sel classes (lookupMethodInClassAndLoadCache img cls sel' s).2 := by
  by_cases hsel : sel' = sel ∧ cls ∈ classes
  · obtain ⟨rfl, hcls⟩ := hsel
    have hresult := (lookupMethodInClass_own h hcls).1
    unfold lookupMethodInClassAndLoadCache at hresult ⊢
    dsimp only at hresult ⊢
    split
    · exact h
    next hmiss =>
      rw [if_neg hmiss] at hresult
      exact h.cacheInsert fun _ _ => hresult
  · obtain heq | ⟨imp, heq⟩ := lookupMethodInClass_cases img cls sel' s
    · rw [heq]
      exact h
    · rw [heq]
      exact h.cacheInsert fun heq hcls => absurd ⟨heq, hcls⟩ hsel

/-- A search ends at the class's own method if there is one; one that ends at no
implementation ends at forwarding. -/
theorem searchImp_own {attempts} :
    ∀ {c imp} {found}, searchImp img s sel attempts c = some (imp, found) →
      (Defines img s sel c → imp = ownOrForward img s c sel) ∧
      (found = false → imp = .msgForwardImpcache) := by
  unfold Defines ownOrForward ownImp
  induction attempts with
  | zero =>
    intro c imp found hsearch
    rw [searchImp] at hsearch
    split at hsearch
    next m hm =>
      cases hsearch
      exact ⟨fun _ => by rw [hm]; rfl, fun hfound => absurd hfound (by decide)⟩
    next hm =>
      split at hsearch
      · cases hsearch
        exact ⟨fun hne => absurd (by rw [hm]; rfl) hne, fun _ => rfl⟩
      · cases hsearch
  | succ n ih =>
    intro c imp found hsearch
    rw [searchImp] at hsearch
    split at hsearch
    next m hm =>
      cases hsearch
      exact ⟨fun _ => by rw [hm]; rfl, fun hfound => absurd hfound (by decide)⟩
    next hm =>
      refine ⟨fun hne => absurd (by rw [hm]; rfl) hne, ?_⟩
      split at hsearch
      · cases hsearch
        exact fun _ => rfl
      · dsimp only at hsearch
        split at hsearch
        next hfwd =>
          cases hsearch
          exact fun _ => hfwd
        · split at hsearch
          · cases hsearch
            exact fun hfound => absurd hfound (by decide)
          · exact (ih hsearch).2

/-- An ordinary lookup changes caches only, and only one that finds the method in a
superclass makes an entry that is not the class's own. -/
theorem OwnEntries.lookUpLocked {count sel' cls behavior r} (h : OwnEntries img sel classes s)
    (hok : ¬ CachesInherited img count s sel classes (.lookUp sel' cls behavior))
    (hlook : Classes.lookUpLocked img count sel' cls behavior s = some r) :
    SameMethods s r.2 ∧ OwnEntries img sel classes r.2 := by
  obtain ⟨⟨imp, found⟩, hsearch, rfl⟩ := map_eq_some_iff.1 hlook
  split
  · exact ⟨⟨rfl, rfl, rfl⟩, h⟩
  · split
    · exact ⟨⟨rfl, rfl, rfl⟩, h⟩
    next hcaches =>
      refine ⟨cacheInsert_sameMethods .., h.cacheInsert ?_⟩
      rintro rfl hcls
      rw [not_or, Bool.not_eq_true, Bool.not_eq_false] at hcaches
      obtain ⟨hown, hforward⟩ := searchImp_own hsearch
      by_cases hdefines : Defines img s sel' cls
      · exact hown hdefines
      · have hfound : found = false := by
          cases found with
          | false => rfl
          | true => exact absurd ⟨rfl, hcls, hcaches.1, hcaches.2, hdefines, imp, hsearch⟩ hok
        rw [hforward hfound, ownOrForward, not_not.1 hdefines]
        rfl

theorem OwnEntries.step {count act} (h : OwnEntries img sel classes s)
    (hlooks : LooksUp act) (hok : ¬ CachesInherited img count s sel classes act)
    (hstep : Classes.step img count s act = some s') :
    SameMethods s s' ∧ OwnEntries img sel classes s' := by
  cases act with
  | lookUp sel' cls behavior =>
    obtain ⟨r, hlook, rfl⟩ := map_eq_some_iff.1 hstep
    exact h.lookUpLocked hok hlook
  | lookUpStructor cls sel' =>
    cases hstep
    refine ⟨?_, h.lookupMethodInClass cls⟩
    obtain ⟨cache, heq⟩ := lookupMethodInClass_frame img cls sel' s
    rw [heq]
    exact ⟨rfl, rfl, rfl⟩
  | setInitialized cls =>
    cases hstep
    obtain ⟨_, ⟨_, _, rfl⟩, heq⟩ := setInitialized_frame img cls s
    rw [heq]
    exact ⟨⟨rfl, rfl, rfl⟩, h⟩
  | _ => exact hlooks.elim

theorem Lookups.ownEntries {sels} (fresh : Fresh img s₀) (h : Lookups img sels classes s₀ s)
    (hsel : sel ∈ sels) : SameMethods s₀ s ∧ OwnEntries img sel classes s := by
  induction h with
  | init =>
    exact ⟨⟨rfl, rfl, rfl⟩, fun c _ imp hfind =>
      absurd ((fresh.cache c sel).symm.trans hfind) (by simp)⟩
  | step count act _ hlooks hok hstep ih =>
    obtain ⟨hsame, hown⟩ := ih
    obtain ⟨hsame', hown'⟩ := hown.step hlooks (hok sel hsel) hstep
    exact ⟨hsame.trans hsame', hown'⟩

/-! ### Destructors -/

/-- A method that is defined differs from forwarding. -/
theorem Fresh.ownStructors_cons (fresh : Fresh img s) (hsel : sel.isStructor) (c : Cls) (chain) :
    ownStructors img s sel (c :: chain) =
      if ownOrForward img s c sel ≠ .msgForwardImpcache then
        ownOrForward img s c sel :: ownStructors img s sel chain
      else ownStructors img s sel chain := by
  unfold ownStructors ownOrForward
  rw [List.filterMap_cons]
  cases hown : ownImp img s c sel with
  | none => rfl
  | some imp => exact (if_pos (fresh.code c sel imp hsel hown)).symm

/-- The walk calls what the classes define, if all cached destructors are own. -/
theorem cxxDestructFromClass_own (fresh : Fresh img s₀) {hasCxxDtor start chain}
    (hchain : Chain s₀.superclass start chain) :
    Flagged (Defines img s₀ .cxxDestruct) hasCxxDtor chain → chain ⊆ classes →
      ∀ {s}, SameMethods s₀ s → OwnEntries img .cxxDestruct classes s →
      ∀ {fuel}, chain.length ≤ fuel →
      ∃ s', cxxDestructFromClass img hasCxxDtor fuel start s =
          some (ownStructors img s₀ .cxxDestruct chain, s') ∧ SameMethods s₀ s' ∧
        ∀ sel, OwnEntries img sel classes s → OwnEntries img sel classes s' := by
  induction hchain with
  | nil =>
    intro _ _ s hsame _ fuel _
    refine ⟨s, ?_, hsame, fun _ h => h⟩
    cases fuel <;> rfl
  | @cons c chain hrest ih =>
    intro hflags hsub s hsame hown fuel hfuel
    obtain _ | fuel := fuel
    · cases hfuel
    obtain ⟨hc, hsub'⟩ := List.cons_subset.1 hsub
    rw [cxxDestructFromClass]
    split
    next hflag =>
      have hnil := ownStructors_eq_nil (mt hflags.1 (by rw [hflag]; simp))
      exact ⟨s, by rw [hnil], hsame, fun _ h => h⟩
    · obtain ⟨himp, hsame'⟩ := lookupMethodInClass_own hown hc
      have hsame₂ := hsame.trans hsame'
      obtain ⟨s', hwalk, hsame₃, hkeeps⟩ := ih hflags.2 hsub' hsame₂ (hown.lookupMethodInClass c)
        (Nat.le_of_succ_le_succ hfuel)
      refine ⟨s', ?_, hsame₃, fun sel h => hkeeps sel (h.lookupMethodInClass c)⟩
      dsimp only
      rw [hsame₂.superclass, hwalk, map_some, himp, hsame.ownOrForward,
        fresh.ownStructors_cons (.inr rfl)]

/-- On a chain of classes with the flags that the walk relies on, and after lookups
none of which caches a `.cxx_destruct` in a class of the chain that only inherits
it, the destructors of an object are those its classes define, from the object's
class up to the root, each called once. -/
theorem cxxDestruct_calls_own (fresh : Fresh img s₀) {isa : Option Cls} {chain : List Cls}
    (hchain : Chain s₀.superclass isa chain) {hasCxxDtor : Cls → Bool}
    (hflags : Flagged (Defines img s₀ .cxxDestruct) hasCxxDtor chain)
    (hrun : Lookups img [.cxxDestruct] chain s₀ s) {fuel : Nat} (hfuel : chain.length ≤ fuel) :
    ∃ s', objectCxxDestruct img hasCxxDtor fuel isa s =
      some (ownStructors img s₀ .cxxDestruct chain, s') := by
  obtain ⟨hsame, hown⟩ := hrun.ownEntries fresh List.mem_cons_self
  cases isa with
  | none =>
    cases hchain
    exact ⟨s, rfl⟩
  | some cls =>
    obtain ⟨s', hwalk, -⟩ :=
      cxxDestructFromClass_own fresh hchain hflags (List.Subset.refl _) hsame hown hfuel
    exact ⟨s', hwalk⟩

/-! ### An example -/

/-- The root class 0 has a destructor, its subclass 2 has none; both are ready to
cache. -/
def cxxState : State FullCache :=
  { flatState with
    initialized := fun _ => true
    method := fun _ _ => ⟨.cxxDestruct, .code 100⟩ }

theorem cxxState_fresh : Fresh flatImage cxxState where
  code c sel imp _ h := by
    obtain ⟨m, -, rfl⟩ := map_eq_some_iff.1 h
    simp [cxxState]
  cache _ _ := rfl

theorem cxxState_chain : Chain cxxState.superclass (some 2) [2, 0] := .cons (.cons .nil)

/-- The root has been asked for its destructor. -/
def cxxLooked : State FullCache :=
  (step flatImage 64 cxxState (.lookUp .cxxDestruct 0 ⟨true, false, false⟩)).get (by decide)

theorem cxxDestruct_calls_own_root :
    Lookups flatImage [.cxxDestruct] [2, 0] cxxState cxxLooked ∧
      ∃ s', objectCxxDestruct flatImage (fun _ => true) 2 (some 2) cxxLooked =
        some (ownStructors flatImage cxxState .cxxDestruct [2, 0], s') := by
  have hrun : Lookups flatImage [.cxxDestruct] [2, 0] cxxState cxxLooked := by
    refine .step 64 (.lookUp .cxxDestruct 0 ⟨true, false, false⟩) .init trivial ?_ (some_get _).symm
    intro sel hsel hinherited
    cases List.mem_singleton.1 hsel
    exact hinherited.2.2.2.2.1 (by unfold Defines; decide)
  exact ⟨hrun, cxxDestruct_calls_own cxxState_fresh cxxState_chain
    ⟨fun _ => rfl, fun _ => rfl, trivial⟩ hrun (by decide)⟩

/-- An ordinary lookup of `.cxx_destruct` on the subclass, as by
`class_getInstanceMethod`. -/
def cxxInherited : State FullCache :=
  (step flatImage 64 cxxState (.lookUp .cxxDestruct 2 ⟨true, false, false⟩)).get (by decide)

/-- After it the one destructor is called twice. -/
theorem cxxDestruct_calls_twice :
    Lookups flatImage [] [2, 0] cxxState cxxInherited ∧
      Chain cxxState.superclass (some 2) [2, 0] ∧
      Flagged (Defines flatImage cxxState .cxxDestruct) (fun _ => true) [2, 0] ∧
      ownStructors flatImage cxxState .cxxDestruct [2, 0] = [.code 100] ∧
      (objectCxxDestruct flatImage (fun _ => true) 2 (some 2) cxxInherited).map (·.1) =
        some [.code 100, .code 100] :=
  ⟨.step 64 (.lookUp .cxxDestruct 2 ⟨true, false, false⟩) .init trivial nofun
    (some_get _).symm, cxxState_chain, ⟨fun _ => rfl, fun _ => rfl, trivial⟩, by decide, by decide⟩

end ObjcRuntime.Classes.Structors
