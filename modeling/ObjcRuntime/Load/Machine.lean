import ObjcRuntime.Lib.Compact
import ObjcRuntime.Lib.Forest

/-!
# ObjcRuntime.Load.Machine

Loading images and calling `+load`.

`load_images` schedules the classes and categories of an image and then calls what
is pending. It holds the recursive `loadMethodLock` all the while, so there is one
thread, and only the `+load` methods it calls can get it to run again. The control
state names the point the outermost `call_load_methods` has reached; while a
`+load` runs, any number of images may be loaded.

An entry of the loadable lists is a class or category with its method, or `none`
once its first field is nil. The sizes of the allocations are left out, and so is
`log` in the source: it is there to speak about the calls.
-/

namespace ObjcRuntime.Load

open Lib

variable {κ γ ι : Type}

/-! ### Classes, categories and images -/

/-- What is compiled into the images, for classes `κ`, categories `γ` and
implementations `ι`. -/
structure Program (κ γ ι : Type) where
  superclass : κ → Option κ
  /-- The `baseMethods()` of the metaclass. -/
  baseMethods : κ → Option (List (String × ι))
  isSwiftStable : κ → Bool
  /-- `remapClass(cat->cls)`: nil for an ignored weak-linked class. -/
  categoryClass : γ → Option κ
  /-- `cat->classMethods` -/
  classMethods : γ → Option (List (String × ι))
  /-- Superclass chains end. -/
  depth : κ → Nat
  depth_lt : ∀ c p, superclass c = some p → depth p < depth c

/-- The non-lazy classes, remapped, and the non-lazy categories of an image. -/
structure Image (κ γ : Type) where
  classlist : List (Option κ)
  categorylist : List γ

/-- The first method of a list that is named `load`. -/
def findLoad (mlist : Option (List (String × ι))) : Option ι :=
  mlist.bind fun l => (l.find? fun m => m.1 = "load").map (·.2)

/-- `objc_class::getLoadMethod` -/
def getLoadMethod (p : Program κ γ ι) (cls : κ) : Option ι := findLoad (p.baseMethods cls)

/-- `_category_getLoadMethod` -/
def categoryGetLoadMethod (p : Program κ γ ι) (cat : γ) : Option ι := findLoad (p.classMethods cat)

/-- `objc_class::isLoadable` -/
def isLoadable (_cls : κ) : Bool := true

/-! ### The state -/

inductive Receiver (κ γ : Type)
  | cls (c : κ)
  | cat (k : γ)
  deriving Repr, DecidableEq

/-- A call of a `+load` method; for a category the class is the receiver. -/
structure Call (κ γ ι : Type) where
  receiver : Receiver κ γ
  method : ι
  deriving Repr, DecidableEq

inductive Event (κ γ ι : Type)
  | start (call : Call κ γ ι)
  | done (call : Call κ γ ι)
  deriving Repr, DecidableEq

/-- Where the outermost `call_load_methods` is. -/
inductive Control (κ γ ι : Type)
  /-- There is none. -/
  | idle
  /-- In the loop of `call_class_loads` over a detached list, or, with nothing left
  of it, at the test of the loop around. -/
  | classes (rest : List (Option (κ × ι)))
  /-- The `+load` of a class is running. -/
  | classLoad (cls : κ) (method : ι) (rest : List (Option (κ × ι)))
  /-- In the loop of `call_category_loads`, before entry `i`. -/
  | categories (cats : List (Option (γ × ι))) (i : Nat)
  /-- The `+load` of the category in entry `i` is running. -/
  | categoryLoad (cats : List (Option (γ × ι))) (i : Nat) (cat : γ) (method : ι)

structure State (κ γ ι : Type) where
  loadableClasses : List (Option (κ × ι))
  loadableCategories : List (Option (γ × ι))
  /-- `RW_LOADED` -/
  loaded : κ → Bool
  loading : Bool
  control : Control κ γ ι
  log : List (Event κ γ ι)

def State.init : State κ γ ι := ⟨[], [], fun _ => false, false, .idle, []⟩

/-! ### Scheduling -/

section Prepare

variable [DecidableEq κ] (p : Program κ γ ι)

/-- `add_class_to_loadable_list` -/
def addClassToLoadableList (cls : κ) (s : State κ γ ι) : State κ γ ι :=
  match getLoadMethod p cls with
  | none => s
  | some method => { s with loadableClasses := s.loadableClasses ++ [some (cls, method)] }

/-- `add_category_to_loadable_list` -/
def addCategoryToLoadableList (cat : γ) (s : State κ γ ι) : State κ γ ι :=
  match categoryGetLoadMethod p cat with
  | none => s
  | some method => { s with loadableCategories := s.loadableCategories ++ [some (cat, method)] }

/-- `cls->setInfo(RW_LOADED)` -/
def State.setLoaded (s : State κ γ ι) (cls : κ) : State κ γ ι :=
  { s with loaded := Function.update s.loaded cls true }

/-- `schedule_class_load`, with a bound on the depth of the recursion. -/
def scheduleClassLoad : Nat → Option κ → State κ γ ι → Option (State κ γ ι)
  | _, none, s => some s
  | 0, some cls, s => if s.loaded cls then some s else none
  | depth + 1, some cls, s =>
    if s.loaded cls then some s
    else
      -- ensure superclass-first ordering
      (scheduleClassLoad depth (p.superclass cls) s).map fun s =>
        (addClassToLoadableList p cls s).setLoaded cls

/-- A bound that is enough for a class. -/
def Program.bound (cls : Option κ) : Nat := cls.elim 0 fun c => p.depth c + 1

/-- The first loop of `prepare_load_methods`. -/
def prepareClasses : List (Option κ) → State κ γ ι → Option (State κ γ ι)
  | [], s => some s
  | cls :: classlist, s => do
    let s ← scheduleClassLoad p (p.bound cls) cls s
    prepareClasses classlist s

/-- The second loop; a Swift class with a `+load` category is a fatal error. -/
def prepareCategories : List γ → State κ γ ι → Option (State κ γ ι)
  | [], s => some s
  | cat :: categorylist, s =>
    match p.categoryClass cat with
    | none => prepareCategories categorylist s
    | some cls =>
      if p.isSwiftStable cls then none
      else prepareCategories categorylist (addCategoryToLoadableList p cat s)

def prepareLoadMethods (img : Image κ γ) (s : State κ γ ι) : Option (State κ γ ι) := do
  let s ← prepareClasses p img.classlist s
  prepareCategories p img.categorylist s

/-- The entry of `call_load_methods`; re-entrant calls do nothing. -/
def callLoadMethods (s : State κ γ ι) : State κ γ ι :=
  if s.loading then s else { s with loading := true, control := .classes [] }

def hasLoadMethods (img : Image κ γ) : Bool :=
  !img.classlist.isEmpty || !img.categorylist.isEmpty

def loadImages (img : Image κ γ) (s : State κ γ ι) : Option (State κ γ ι) :=
  if hasLoadMethods img then (prepareLoadMethods p img s).map callLoadMethods else some s

end Prepare

/-! ### Calling -/

/-- The end of `call_category_loads` and the test of the outer loop. -/
def endCategoryLoads (cats : List (Option (γ × ι))) (s : State κ γ ι) : State κ γ ι :=
  let newCategoriesAdded := decide (s.loadableCategories.length > 0)
  let s := { s with loadableCategories := compact cats ++ s.loadableCategories }
  if s.loadableClasses.length > 0 ∨ newCategoriesAdded = true then
    { s with control := .classes [] }
  else { s with control := .idle, loading := false }

/-- What `call_load_methods` does next; a `+load` that is running returns. -/
def next (p : Program κ γ ι) (s : State κ γ ι) : Option (State κ γ ι) :=
  match s.control with
  | .idle => none
  | .classes [] =>
    if s.loadableClasses.length > 0 then
      some { s with control := .classes s.loadableClasses, loadableClasses := [] }
    else
      some { s with control := .categories s.loadableCategories 0, loadableCategories := [] }
  | .classes (none :: rest) => some { s with control := .classes rest }
  | .classes (some (cls, method) :: rest) =>
    some { s with
      control := .classLoad cls method rest
      log := s.log ++ [.start ⟨.cls cls, method⟩] }
  | .classLoad cls method rest =>
    some { s with control := .classes rest, log := s.log ++ [.done ⟨.cls cls, method⟩] }
  | .categories cats i =>
    match cats[i]? with
    | none => some (endCategoryLoads cats s)
    | some none => some { s with control := .categories cats (i + 1) }
    | some (some (cat, method)) =>
      if (p.categoryClass cat).any isLoadable then
        some { s with
          control := .categoryLoad cats i cat method
          log := s.log ++ [.start ⟨.cat cat, method⟩] }
      else some { s with control := .categories cats (i + 1) }
  | .categoryLoad cats i cat method =>
    some { s with
      control := .categories (cats.set i none) (i + 1)
      log := s.log ++ [.done ⟨.cat cat, method⟩] }

/-! ### Runs -/

/-- Images are loaded by the program, or by a `+load` that is running. -/
def Control.mayLoad : Control κ γ ι → Bool
  | .idle => true
  | .classLoad .. => true
  | .categoryLoad .. => true
  | .classes _ => false
  | .categories .. => false

/-- A non-lazy class of the images, or a superclass of one. -/
def Scheduled (p : Program κ γ ι) (images : List (Image κ γ)) (c : κ) : Prop :=
  ∃ img ∈ images, ∃ d, some d ∈ img.classlist ∧ Ancestor p.superclass c d

/-- A category comes with the images of its class or after them: if the class has a
`+load` it is scheduled. -/
def ClassesFirst (p : Program κ γ ι) (images : List (Image κ γ)) (img : Image κ γ) : Prop :=
  ∀ cat ∈ img.categorylist, ∀ c method, p.categoryClass cat = some c →
    getLoadMethod p c = some method → Scheduled p (images ++ [img]) c

/-- The states that loading images, one inside the other, leads to. -/
inductive Run [DecidableEq κ] (p : Program κ γ ι) : List (Image κ γ) → State κ γ ι → Prop
  | init : Run p [] .init
  | next {images s s'} : Run p images s → next p s = some s' →
      Run p images s'
  | load {images s s'} (img : Image κ γ) : Run p images s →
      s.control.mayLoad = true → ClassesFirst p images img → loadImages p img s = some s' →
      Run p (images ++ [img]) s'

end ObjcRuntime.Load
