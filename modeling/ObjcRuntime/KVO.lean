import Mathlib.Data.Multiset.AddSub
import Mathlib.Logic.Function.Basic

/-!
# ObjcRuntime.KVO

The observers of `NSObject+SHKVO.m`.

An object that is observed gets a subclass of its class. The subclass has the setters of
the keys that are observed of any object of the class; who observes an object is kept in
an array. A removal looks for the key alone, and if the array is empty then, the object
gets the superclass of whatever class it has. The setter calls the one of the class for
each registration that it finds under the key that it makes of its own name.

Classes have unique names, and no class of the program is named `SHKVONotifying_…`, so
the subclass is known by the class it was made for. It always has the methods `class`,
`dealloc` and `_isKVOA` that it is made with.
-/

namespace ObjcRuntime.KVO

open Function

/-- `NSString` -/
abbrev Str := List Char

/-- The address of a class. -/
abbrev Class := Nat

/-- The address of an object. -/
abbrev Obj := Nat

/-- `SHKVOInfo`, with the options `NSKeyValueObservingOptionOld` and `…New`. -/
structure Info where
  observer : Obj
  keyPath : Str
  old : Bool
  new : Bool
  deriving DecidableEq

/-- A class of the program, or the subclass that was made for it. -/
inductive Cls
  | program (c : Class)
  | notifying (c : Class)
  deriving DecidableEq

/-- What an object answers to `class`. -/
def Cls.class : Cls → Class
  | .program c | .notifying c => c

/-- An implementation of a setter. -/
inductive Imp
  | program (n : Nat)
  | shKvoSetter
  deriving DecidableEq

/-- A setter of the program ran, or `sh_observeValueForKeyPath:` was sent, with a change
of an old and a new value. -/
inductive Event
  | ran (imp : Nat) (self newValue : Obj)
  | observed (observer : Obj) (keyPath : Str) (object : Obj) (old new : Option Obj)
  deriving DecidableEq

structure Program where
  superclass : Class → Option Class
  superclass_ne : ∀ c, superclass c ≠ some c
  /-- `class_getInstanceMethod` -/
  imp : Class → Str → Option Nat
  uppercaseString : Str → Str
  lowercaseString : Str → Str
  /-- What a key is depends on what has run. -/
  valueForKey : List Event → Obj → Str → Option Obj
  emptyString : Obj

structure Object where
  /-- `none` is `Nil`. -/
  isa : Option Cls
  kvoInfos : Option (List Info)

structure World where
  /-- The selectors that are `sh_kvo_setter` in the subclass. -/
  setters : Class → Str → Bool
  object : Obj → Object
  log : List Event

/-- Nothing is observed. -/
def World.init (cls : Obj → Class) : World :=
  ⟨fun _ _ => false, fun o => ⟨some (.program (cls o)), none⟩, []⟩

section Operations

variable (P : Program) (self : Obj) (sel keyPath : Str) (newValue : Obj) (w : World)

def shSetterForKeyPath : Str → Option Str
  | [] => none
  | first :: leaveString =>
    some ("set".toList ++ P.uppercaseString [first] ++ leaveString ++ ":".toList)

/-- No key has the setter `set:`, for which this is an exception. -/
def shGetterForSetter (setter : Str) : Option Str :=
  if ¬"set".toList <+: setter ∨ ¬":".toList <:+ setter ∨ setter.length ≤ 3 then none
  else
    let getter := (setter.drop 3).take (setter.length - 4)
    some (P.lowercaseString (getter.take 1) ++ getter.drop 1)

def classGetSuperclass : Cls → Option Cls
  | .program c => (P.superclass c).map .program
  | .notifying c => some (.program c)

/-- Does the class itself have `sh_kvo_setter`? -/
def hasKvoSetter : Cls → Bool
  | .program _ => false
  | .notifying c => w.setters c sel

def classGetInstanceMethod (cls : Cls) : Option Imp :=
  if hasKvoSetter sel w cls then some .shKvoSetter else (P.imp cls.class sel).map .program

def shKvoClass : Option Cls := (w.object self).isa.bind (classGetSuperclass P)

/-- The subclass, and the world where it has the setter. -/
def shCreateChildClass (c : Class) : Cls × World :=
  (.notifying c, { w with setters := update w.setters c (update (w.setters c) sel true) })

def shAddObserver (info : Info) : World :=
  match shSetterForKeyPath P info.keyPath, (w.object self).isa with
  | some sel, some cls =>
    match classGetInstanceMethod P sel w cls with
    | none => w
    | some _ =>
      let (subclassKvo, w) := shCreateChildClass sel w cls.class
      let kvoInfos := (w.object self).kvoInfos.getD []
      { w with object := update w.object self ⟨some subclassKvo, some (kvoInfos ++ [info])⟩ }
  | _, _ => w

/-- The observer is not looked at. -/
def shRemoveObserver : World :=
  match (w.object self).kvoInfos with
  | none => w
  | some kvoInfos =>
    let kvoInfos := kvoInfos.eraseP (·.keyPath = keyPath)
    let isa := if kvoInfos.length ≤ 0 then shKvoClass P self w else (w.object self).isa
    { w with object := update w.object self ⟨isa, some kvoInfos⟩ }

/-- The message to an observer. -/
def shChangeForKVOInfo (kvoInfo : Info) : Event :=
  .observed kvoInfo.observer keyPath self
    (if kvoInfo.old then some ((P.valueForKey w.log self keyPath).getD P.emptyString) else none)
    (if kvoInfo.new then some newValue else none)

/-- `none` if there is no such method, or if it is `sh_kvo_setter`, which would call
itself without end. -/
def shObjcMsgSendSuper : Option World :=
  match (shKvoClass P self w).bind (classGetInstanceMethod P sel w) with
  | some (.program imp) => some { w with log := w.log ++ [.ran imp self newValue] }
  | _ => none

/-- The loop of `sh_kvo_setter`. -/
def notifyLoop : List Info → World → Option World
  | [], w => some w
  | kvoInfo :: rest, w =>
    if kvoInfo.keyPath = keyPath then
      let message := shChangeForKVOInfo P self keyPath newValue w kvoInfo
      (shObjcMsgSendSuper P self sel newValue w).bind fun w =>
        notifyLoop rest { w with log := w.log ++ [message] }
    else notifyLoop rest w

/-- No key is equal to `nil`. -/
def shKvoSetter : Option World :=
  match shGetterForSetter P sel with
  | some keyPath =>
    notifyLoop P self sel keyPath newValue ((w.object self).kvoInfos.getD []) w
  | none => some w

/-- The setter is sent to an object. -/
def sendSetter : Option World :=
  match (w.object self).isa.bind (classGetInstanceMethod P sel w) with
  | some (.program imp) => some { w with log := w.log ++ [.ran imp self newValue] }
  | some .shKvoSetter => shKvoSetter P self sel newValue w
  | none => none

end Operations

inductive Op
  | add (self : Obj) (info : Info)
  | remove (self observer : Obj) (keyPath : Str)

def Op.self : Op → Obj
  | .add self _ | .remove self _ _ => self

def Op.run (P : Program) (w : World) : Op → World
  | .add self info => shAddObserver P self w info
  | .remove self _ keyPath => shRemoveObserver P self keyPath w

/-! ### The registry -/

def registrations (infos : List Info) : Multiset (Obj × Str) :=
  infos.map fun info => (info.observer, info.keyPath)

/-- What a call makes of the registrations of its object. -/
def Op.register (m : Multiset (Obj × Str)) : Op → Multiset (Obj × Str)
  | .add _ info => (info.observer, info.keyPath) ::ₘ m
  | .remove _ observer keyPath => m.erase (observer, keyPath)

/-- The array has the registrations, and the class is the subclass if there are any. -/
def InStep (c : Class) (x : Object) (m : Multiset (Obj × Str)) : Prop :=
  registrations (x.kvoInfos.getD []) = m ∧
    x.isa = some (if m = 0 then .program c else .notifying c)

/-- A removal is not one too many, and the first registration of the key is the one
that is meant. -/
def Careful (x : Object) : Op → Prop
  | .add .. => True
  | .remove _ observer keyPath => x.kvoInfos ≠ some [] ∧
      ∀ info, (x.kvoInfos.getD []).find? (·.keyPath = keyPath) = some info →
        info.observer = observer

/-- At each moment of a sequence of calls. -/
def InStepAlong (P : Program) (c : Class) (o : Obj) :
    List Op → World → Multiset (Obj × Str) → Prop
  | [], w, m => InStep c (w.object o) m
  | op :: ops, w, m => InStep c (w.object o) m ∧
      InStepAlong P c o ops (op.run P w) (if op.self = o then op.register m else m)

/-- Each call on the object. -/
def CarefulAlong (P : Program) (o : Obj) : List Op → World → Prop
  | [], _ => True
  | op :: ops, w => (op.self = o → Careful (w.object o) op) ∧ CarefulAlong P o ops (op.run P w)

/-- The class has a method `set<Key>:`. -/
def HasSetter (P : Program) (c : Class) (key : Str) : Prop :=
  ∃ sel imp, shSetterForKeyPath P key = some sel ∧ P.imp c sel = some imp

variable {P : Program} {c : Class} {o : Obj} {w : World} {m : Multiset (Obj × Str)} {key : Str}

theorem object_run_of_ne {op : Op} (h : op.self ≠ o) : (op.run P w).object o = w.object o := by
  have hne : o ≠ op.self := h.symm
  cases op with
  | add self info =>
    unfold Op.run shAddObserver
    dsimp only
    split
    · split
      · rfl
      · exact update_of_ne hne ..
    · rfl
  | remove self observer key =>
    unfold Op.run shRemoveObserver
    dsimp only
    split
    · rfl
    · exact update_of_ne hne ..

theorem InStep.add {info} (h : InStep c (w.object o) m) (hkey : HasSetter P c info.keyPath) :
    InStep c ((shAddObserver P o w info).object o) ((info.observer, info.keyPath) ::ₘ m) := by
  obtain ⟨hinfos, hisa⟩ := h
  obtain ⟨sel, imp, hsel, himp⟩ := hkey
  generalize hcls : (if m = 0 then Cls.program c else .notifying c) = cls at hisa
  have hclass : cls.class = c := by
    rw [← hcls]
    split <;> rfl
  unfold shAddObserver
  rw [hsel, hisa]
  dsimp only
  split
  next hnone =>
    rw [classGetInstanceMethod, hclass, himp] at hnone
    split at hnone <;> cases hnone
  · unfold shCreateChildClass
    dsimp only
    rw [← hinfos, update_self, hclass]
    exact ⟨Multiset.coe_eq_coe.2 (by simp), by simp⟩

theorem registrations_eraseP {infos info} (h : infos.find? (·.keyPath = key) = some info) :
    registrations infos =
      (info.observer, key) ::ₘ registrations (infos.eraseP (·.keyPath = key)) := by
  induction infos with
  | nil => cases h
  | cons i rest ih =>
    by_cases hi : i.keyPath = key
    · obtain rfl : i = info := by simpa [hi] using h
      subst hi
      simp [registrations]
    · rw [List.find?_cons_of_neg (by simpa using hi)] at h
      rw [List.eraseP_cons_of_neg (by simpa using hi)]
      exact (congrArg _ (ih h)).trans (Multiset.cons_swap ..)

theorem inStep_remove_iff {infos} (h : w.object o = ⟨some (.notifying c), some infos⟩) :
    InStep c ((shRemoveObserver P o key w).object o) m ↔
      registrations (infos.eraseP (·.keyPath = key)) = m := by
  unfold shRemoveObserver shKvoClass InStep
  rw [h]
  dsimp only
  rw [update_self]
  refine and_iff_left_of_imp ?_
  rintro rfl
  cases infos.eraseP (·.keyPath = key) with
  | nil | cons => rfl

/-- **One removal.** -/
theorem InStep.remove_iff (h : InStep c (w.object o) m) (observer : Obj) :
    InStep c ((shRemoveObserver P o key w).object o) (m.erase (observer, key)) ↔
      Careful (w.object o) (.remove o observer key) := by
  obtain ⟨rfl, hisa⟩ := h
  cases hobject : w.object o with
  | mk isa kvoInfos =>
  rw [hobject] at hisa
  cases kvoInfos with
  | none => simpa [shRemoveObserver, InStep, registrations, Careful, hobject] using hisa
  | some infos =>
    by_cases hnil : infos = []
    · -- the class is now the superclass of what it should be
      subst hnil
      simp [shRemoveObserver, InStep, registrations, Careful, shKvoClass, classGetSuperclass,
        hobject, hisa, P.superclass_ne]
    · obtain rfl : isa = some (.notifying c) := by simpa [registrations, hnil] using hisa
      rw [inStep_remove_iff hobject]
      cases hfind : infos.find? (·.keyPath = key) with
      | none =>
        have hkeys := List.find?_eq_none.1 hfind
        have hnot : (observer, key) ∉ registrations infos := by
          intro hmem
          obtain ⟨i, hi, heq⟩ := List.mem_map.1 (Multiset.mem_coe.1 hmem)
          exact hkeys i hi (by simpa using congrArg Prod.snd heq)
        rw [List.eraseP_of_forall_not hkeys, Option.getD_some, Multiset.erase_of_notMem hnot]
        simp [Careful, hnil, hfind]
      | some info =>
        rw [Option.getD_some, registrations_eraseP hfind]
        by_cases hobs : info.observer = observer
        · simp [Careful, hobs, hnil, hfind]
        · have hne : (info.observer, key) ≠ (observer, key) := fun h => hobs (congrArg Prod.fst h)
          refine iff_of_false (fun heq => ?_) fun h => hobs (h.2 info hfind)
          have hcount := congrArg (Multiset.count (info.observer, key)) heq
          rw [Multiset.erase_cons_tail _ hne, Multiset.count_cons_self,
            Multiset.count_erase_of_ne hne] at hcount
          omega

/-- **One call.** -/
theorem InStep.run_iff (h : InStep c (w.object o) m) {op}
    (hkey : ∀ info, op = .add o info → HasSetter P c info.keyPath) :
    InStep c ((op.run P w).object o) (if op.self = o then op.register m else m) ↔
      (op.self = o → Careful (w.object o) op) := by
  split
  next hself =>
    rw [forall_prop_of_true hself]
    cases op with
    | add self info =>
      obtain rfl : self = o := hself
      exact iff_of_true (h.add (hkey info rfl)) trivial
    | remove self observer key =>
      obtain rfl : self = o := hself
      exact h.remove_iff observer
  next hself =>
    rw [object_run_of_ne hself]
    exact iff_of_true h fun heq => absurd heq hself

theorem InStepAlong.inStep {ops} (h : InStepAlong P c o ops w m) : InStep c (w.object o) m := by
  cases ops with
  | nil => exact h
  | cons op ops => exact h.1

theorem InStep.along_iff {ops} (h : InStep c (w.object o) m)
    (hkey : ∀ info, .add o info ∈ ops → HasSetter P c info.keyPath) :
    InStepAlong P c o ops w m ↔ CarefulAlong P o ops w := by
  induction ops generalizing w m with
  | nil => exact iff_of_true h trivial
  | cons op ops ih =>
    have hop := h.run_iff fun info heq => hkey info (heq ▸ List.mem_cons_self)
    have hrest : ∀ info, .add o info ∈ ops → HasSetter P c info.keyPath := fun info hmem =>
      hkey info (List.mem_cons_of_mem _ hmem)
    constructor
    · rintro ⟨-, halong⟩
      have hfirst := halong.inStep
      exact ⟨hop.1 hfirst, (ih hfirst hrest).1 halong⟩
    · rintro ⟨hcareful, halong⟩
      exact ⟨h, (ih (hop.2 hcareful) hrest).2 halong⟩

/-- **The registry and the class stay in step** as long as each removal names the first
observer of its key, and none comes when all observers have been removed. -/
theorem registry_in_step_iff (P : Program) (cls : Obj → Class) (o : Obj) (ops : List Op)
    (hkey : ∀ info, .add o info ∈ ops → HasSetter P (cls o) info.keyPath) :
    InStepAlong P (cls o) o ops (.init cls) 0 ↔ CarefulAlong P o ops (.init cls) :=
  InStep.along_iff ⟨rfl, rfl⟩ hkey

/-! ### The setter -/

/-- The setter of the program that ran. -/
def Event.setter : Event → Option (Nat × Obj × Obj)
  | .ran imp self newValue => some (imp, self, newValue)
  | .observed .. => none

/-- Whom the message was sent to, about what. -/
def Event.receiver : Event → Option (Obj × Str × Obj)
  | .ran .. => none
  | .observed observer keyPath object _ _ => some (observer, keyPath, object)

/-- The registrations of an object for a key. -/
def World.observers (w : World) (o : Obj) (key : Str) : List Info :=
  ((w.object o).kvoInfos.getD []).filter (·.keyPath = key)

/-- A call of the setter runs the method `imp` once with the value, and sends a message
for each registration. -/
def WritesOnce (P : Program) (w : World) (o : Obj) (key sel : Str) (imp : Nat) (newValue : Obj) :
    Prop :=
  ∃ new, (sendSetter P o sel newValue w).map World.log = some (w.log ++ new) ∧
    new.filterMap Event.setter = [(imp, o, newValue)] ∧
    new.filterMap Event.receiver = (w.observers o key).map fun info => (info.observer, key, o)

variable {sel : Str} {imp : Nat} {newValue : Obj} {new : List Event}

theorem notifyLoop_spec (himp : P.imp c sel = some imp)
    (hisa : (w.object o).isa = some (.notifying c)) (infos) :
    ∃ new, (notifyLoop P o sel key newValue infos w).map World.log = some (w.log ++ new) ∧
      new.filterMap Event.setter =
        (infos.filter (·.keyPath = key)).map (fun _ => (imp, o, newValue)) ∧
      new.filterMap Event.receiver =
        (infos.filter (·.keyPath = key)).map fun info => (info.observer, key, o) := by
  induction infos generalizing w with
  | nil => exact ⟨[], by simp [notifyLoop], rfl, rfl⟩
  | cons info rest ih =>
    by_cases hkey : info.keyPath = key
    · have hsuper : shObjcMsgSendSuper P o sel newValue w =
          some { w with log := w.log ++ [.ran imp o newValue] } := by
        simp [shObjcMsgSendSuper, shKvoClass, hisa, classGetSuperclass, classGetInstanceMethod,
          hasKvoSetter, Cls.class, himp]
      let message := shChangeForKVOInfo P o key newValue w info
      obtain ⟨new, hloop, hran, hsent⟩ :=
        ih (w := { w with log := w.log ++ [.ran imp o newValue] ++ [message] }) hisa
      rw [notifyLoop, if_pos hkey, hsuper, Option.bind_some, List.filter_cons_of_pos (by simpa)]
      refine ⟨.ran imp o newValue :: message :: new, hloop.trans (by simp), ?_, ?_⟩
      · exact congrArg (_ :: ·) hran
      · exact congrArg (_ :: ·) hsent
    · rw [notifyLoop, if_neg hkey, List.filter_cons_of_neg (by simpa)]
      exact ih hisa

/-- Where the class does not have it, the loop finds no observer, or does not end. -/
theorem notifyLoop_none {infos w'}
    (himp : P.imp c sel = none) (hisa : (w.object o).isa = some (.notifying c))
    (h : notifyLoop P o sel key newValue infos w = some w') : w' = w := by
  induction infos with
  | nil => exact (Option.some.inj h).symm
  | cons info rest ih =>
    unfold notifyLoop at h
    split at h
    · simp [shObjcMsgSendSuper, shKvoClass, hisa, classGetSuperclass, classGetInstanceMethod,
        hasKvoSetter, Cls.class, himp] at h
    · exact ih h

theorem writesOnce_iff (h : (sendSetter P o sel newValue w).map World.log = some (w.log ++ new)) :
    WritesOnce P w o key sel imp newValue ↔ new.filterMap Event.setter = [(imp, o, newValue)] ∧
      new.filterMap Event.receiver =
        (w.observers o key).map fun info => (info.observer, key, o) := by
  constructor
  · rintro ⟨new', h', hboth⟩
    obtain rfl := List.append_cancel_left (Option.some.inj (h.symm.trans h'))
    exact hboth
  · exact fun hboth => ⟨new, h, hboth⟩

theorem writesOnce_notifying_iff (hisa : (w.object o).isa = some (.notifying c))
    (hset : hasKvoSetter sel w (.notifying c)) :
    WritesOnce P w o key sel imp newValue ↔ P.imp c sel = some imp ∧
      shGetterForSetter P sel = some key ∧ (w.observers o key).length = 1 := by
  have hsend : sendSetter P o sel newValue w = shKvoSetter P o sel newValue w := by
    simp [sendSetter, hisa, classGetInstanceMethod, hset]
  unfold shKvoSetter at hsend
  cases hget : shGetterForSetter P sel with
  | none =>
    rw [hget] at hsend
    have hlog : (sendSetter P o sel newValue w).map World.log = some (w.log ++ []) := by
      simp [hsend]
    rw [writesOnce_iff hlog]
    simp
  | some key' =>
    rw [hget] at hsend
    cases himp : P.imp c sel with
    | none =>
      refine iff_of_false ?_ nofun
      rintro ⟨new, h, hran, -⟩
      obtain ⟨w', hw', hlog⟩ := Option.map_eq_some_iff.1 (hsend ▸ h)
      cases notifyLoop_none himp hisa hw'
      obtain rfl : new = [] := by simpa using hlog
      cases hran
    | some imp' =>
      obtain ⟨new, hloop, hran, hsent⟩ := notifyLoop_spec himp hisa _
      rw [writesOnce_iff (by rw [hsend]; exact hloop), hran, hsent]
      constructor
      · rintro ⟨hone, hkeys⟩
        obtain ⟨info, hinfo, himp'⟩ := List.map_eq_singleton_iff.1 hone
        rw [hinfo] at hkeys
        obtain ⟨info', hinfo', hkey⟩ := List.map_eq_singleton_iff.1 hkeys.symm
        cases himp'
        obtain rfl : key = key' := (Prod.mk.inj (Prod.mk.inj hkey).2).1
        exact ⟨rfl, rfl, congrArg List.length hinfo'⟩
      · rintro ⟨himp', hkey, hlen⟩
        cases himp'
        cases hkey
        obtain ⟨info, hinfos⟩ := List.length_eq_one_iff.1 hlen
        exact ⟨congrArg (List.map _) hinfos, rfl⟩

/-- **The setter writes once and notifies each observer once** if the object's class has
the program's setter, and the key, as the setter makes it of its name, has one observer
where the setter is that of the subclass, and none where it is not. -/
theorem setter_writes_once_iff (P : Program) (w : World) (o : Obj) (key sel : Str) (imp : Nat)
    (newValue : Obj) :
    WritesOnce P w o key sel imp newValue ↔
      ∃ cls, (w.object o).isa = some cls ∧ P.imp cls.class sel = some imp ∧
        if hasKvoSetter sel w cls then
          shGetterForSetter P sel = some key ∧ (w.observers o key).length = 1
        else w.observers o key = [] := by
  cases hisa : (w.object o).isa with
  | none => simp [WritesOnce, sendSetter, hisa]
  | some cls =>
    simp only [Option.some.injEq, exists_eq_left']
    split
    next hset =>
      cases cls with
      | program c => cases hset
      | notifying c => exact writesOnce_notifying_iff hisa hset
    next hset =>
      cases himp : P.imp cls.class sel with
      | none => simp [WritesOnce, sendSetter, hisa, classGetInstanceMethod, hset, himp]
      | some imp' =>
        have hlog : (sendSetter P o sel newValue w).map World.log =
            some (w.log ++ [.ran imp' o newValue]) := by
          simp [sendSetter, hisa, classGetInstanceMethod, hset, himp]
        rw [writesOnce_iff hlog]
        change [(imp', o, newValue)] = _ ∧ [] = _ ↔ _
        rw [eq_comm (a := []), List.map_eq_nil_iff]
        simp

/-! ### Examples -/

/-- Class 1 has a property `name`; class 0 is its superclass. -/
def person : Program where
  superclass c := if c = 1 then some 0 else none
  superclass_ne c := by
    split
    next hc => simp [hc]
    · nofun
  imp c sel := if c = 1 ∧ sel = "setName:".toList then some 7 else none
  uppercaseString := List.map Char.toUpper
  lowercaseString := List.map Char.toLower
  valueForKey _ _ _ := none
  emptyString := 0

/-- The name of object 0 is observed. -/
def addName (observer : Obj) : Op := .add 0 ⟨observer, "name".toList, true, true⟩

/-- One observer comes and goes. -/
theorem registry_in_step_one :
    InStepAlong person 1 0 [addName 1, .remove 0 1 "name".toList] (.init fun _ => 1) 0 := by
  refine (registry_in_step_iff person (fun _ => 1) 0 _ fun info h => ?_).2 ?_
  · cases h with
    | head => exact ⟨"setName:".toList, 7, by decide, by decide⟩
    | tail _ h =>
      cases h with
      | tail _ h => cases h
  · refine ⟨fun _ => trivial, fun _ => ⟨by decide, ?_⟩, trivial⟩
    rintro info h
    cases h
    rfl

/-- The first observer is removed for the second one. -/
theorem registry_removes_other : ¬InStepAlong person 1 0
    [addName 1, addName 2, .remove 0 2 "name".toList] (.init fun _ => 1) 0 := by
  rintro ⟨-, -, -, h⟩
  exact absurd h.1 (by decide)

/-- With two observers the value is written twice. -/
theorem setter_writes_twice : ¬WritesOnce person
    ([addName 1, addName 2].foldl (Op.run person) (.init fun _ => 1)) 0 "name".toList
      "setName:".toList 7 5 := by
  rw [writesOnce_notifying_iff (c := 1) (by decide) (by decide)]
  rintro ⟨-, -, h⟩
  exact absurd h (by decide)

end ObjcRuntime.KVO
