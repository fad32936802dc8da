import Mathlib.Data.List.Find
import ObjcRuntime.Classes.DefaultFlags
import ObjcRuntime.Classes.LookUp

/-!
# ObjcRuntime.Classes.Categories

The order in which categories end up in a class.

A category of a realized class is attached at once, in front of the lists that are
there. Categories of a class that is not realized wait, and are attached together
when the class is: front to back, through buffers of 64 entries that are filled
from their ends. Either way the last category comes first, so it makes no
difference when the class is realized (`categories_ordered`).
-/

namespace ObjcRuntime.Classes

open Function Lib List Option Bool Set State

variable {κ : Type} {img : Image} {count : Nat} {s s' s'' s₀ : State κ}

/-! ### The lists of categories -/

/-- The lists of a class, or what categories add to them. -/
structure Lists where
  methods : List (List MethodId)
  properties : List (List Nat)
  protocols : List (List Nat)
  deriving DecidableEq

def Lists.append (l l' : Lists) : Lists :=
  ⟨l.methods ++ l'.methods, l.properties ++ l'.properties, l.protocols ++ l'.protocols⟩

theorem Lists.append_assoc (l l' l'' : Lists) :
    (l.append l').append l'' = l.append (l'.append l'') := by
  simp [Lists.append]

/-- What a category has for a class, or for a metaclass. -/
def Category.lists (cat : Category) (isMeta : Bool) : Lists :=
  ⟨((cat.methodsForMeta isMeta).map (·.map MethodId.image)).toList,
    (cat.propertiesForMeta isMeta).toList, (cat.protocolsForMeta isMeta).toList⟩

/-- The lists of several categories, those of the last one first. -/
def categoryLists (isMeta : Bool) : List Category → Lists
  | [] => ⟨[], [], []⟩
  | cat :: cats => (categoryLists isMeta cats).append (cat.lists isMeta)

/-- From `beginLists()` to `endLists()`, for each kind. -/
def State.lists (img : Image) (s : State κ) (c : Cls) : Lists :=
  ⟨(s.methods img c).lists, (s.properties img c).lists, (s.protocols img c).lists⟩

variable {cat : Category}

/-- The states differ in the lists of classes, flags and caches at most. -/
structure SameMeta (s s' : State κ) : Prop where
  unattached : s'.unattached = s.unattached
  method : s'.method = s.method

theorem SameMeta.refl (s : State κ) : SameMeta s s := ⟨rfl, rfl⟩

theorem SameMeta.trans (h : SameMeta s s') (h' : SameMeta s' s'') : SameMeta s s'' :=
  ⟨h'.1.trans h.1, h'.2.trans h.2⟩

theorem lists_congr {c} (h : s'.ext c = s.ext c) : s'.lists img c = s.lists img c := by
  unfold lists methods properties protocols
  rw [h]

variable {cls : Cls}

/-- What the class has once the buffers are attached. -/
def Buffers.lists (buf : Buffers) (img : Image) (s : State κ) (cls : Cls) : Lists :=
  (Lists.mk buf.mlists buf.proplists buf.protolists).append (s.lists img cls)

/-- Will the runtime add an `initialize` to the class? -/
def lacksInitialize (img : Image) (s₀ : State κ) (c : Cls) : Bool :=
  img.isRootMetaclass c && (getMethodNoSuper img s₀ c .initialize_).isNone

/-- The lists that a class has without categories; an `initialize` that the runtime
adds is method `n`. -/
def ownLists (img : Image) (s₀ : State κ) (c : Cls) (n : Nat) : Lists :=
  ⟨(if lacksInitialize img s₀ c then [[.added n]] else []) ++ (baseMethods img c).toList,
    (img.ro c).baseProperties.toList, (img.ro c).baseProtocols.toList⟩

/-- A class before it has its lists. -/
structure Waiting (s₀ : State κ) (c : Cls) (isMeta : Bool) (cats : List Category) (s : State κ) :
    Prop where
  unattached : s.unattached c = cats.filter (·.concerns isMeta)
  names : ∀ n, (s.method c (.image n)).name = (s₀.method c (.image n)).name

/-- A class with its lists. -/
structure Settled (img : Image) (s₀ : State κ) (c : Cls) (isMeta : Bool) (cats : List Category)
    (s : State κ) : Prop where
  unattached : s.unattached c = []
  lists : ∃ n, s.lists img c = (categoryLists isMeta cats).append (ownLists img s₀ c n) ∧
    (lacksInitialize img s₀ c = true → (s.method c (.added n)).name = .initialize_)

/-- The states agree on class `c`, implementations apart. -/
structure Keeps (c : Cls) (s s' : State κ) : Prop where
  realized : s'.realized c = s.realized c
  ext : s'.ext c = s.ext c
  unattached : s'.unattached c = s.unattached c
  name : ∀ m, (s'.method c m).name = (s.method c m).name

theorem Keeps.refl (c : Cls) (s : State κ) : Keeps c s s := ⟨rfl, rfl, rfl, fun _ => rfl⟩

theorem Keeps.trans {c} (h : Keeps c s s') (h' : Keeps c s' s'') : Keeps c s s'' :=
  ⟨h'.1.trans h.1, h'.2.trans h.2, h'.3.trans h.3, fun m => (h'.4 m).trans (h.4 m)⟩

theorem ChangesAt.keeps [MethodCache κ] {c d} (h : ChangesAt d s s') (hne : c ≠ d) : Keeps c s s' :=
  ⟨congrFun h.graph.realized c, h.ext c hne, h.unattached c hne, fun m => by rw [h.method c hne]⟩

theorem SameContents.keeps (h : SameContents s s') (c : Cls) : Keeps c s s' :=
  ⟨congrFun h.realized c, congrFun h.ext c, congrFun h.unattached c, fun m => by rw [h.method]⟩

variable {c : Cls} {isMeta : Bool} {cats : List Category}

theorem Waiting.keeps (h : Waiting s₀ c isMeta cats s) (hkeeps : Keeps c s s') :
    Waiting s₀ c isMeta cats s' :=
  ⟨hkeeps.unattached.trans h.unattached, fun n => (hkeeps.name _).trans (h.names n)⟩

theorem Settled.keeps (h : Settled img s₀ c isMeta cats s) (hkeeps : Keeps c s s') :
    Settled img s₀ c isMeta cats s' := by
  obtain ⟨n, hlists, hname⟩ := h.lists
  refine ⟨hkeeps.unattached.trans h.unattached, n, ?_, fun hlacks => ?_⟩
  · rw [lists_congr hkeeps.ext, hlists]
  · rw [hkeeps.name, hname hlacks]

/-- A class is waiting until it is realized. -/
def Ordered (img : Image) (s₀ : State κ) (c : Cls) (cats : List Category) (s : State κ) : Prop :=
  (s.realized c = false ∧ Waiting s₀ c (img.isMeta c) cats s) ∨
    (s.realized c = true ∧ Settled img s₀ c (img.isMeta c) cats s)

theorem Ordered.keeps (h : Ordered img s₀ c cats s) (hkeeps : Keeps c s s') :
    Ordered img s₀ c cats s' := by
  rcases h with ⟨hreal, h⟩ | ⟨hreal, h⟩
  · exact .inl ⟨hkeeps.realized.trans hreal, h.keeps hkeeps⟩
  · exact .inr ⟨hkeeps.realized.trans hreal, h.keeps hkeeps⟩

variable [MethodCache κ]

/-- The class, or its metaclass. -/
def Image.half (img : Image) (cls : Cls) (isMeta : Bool) : Cls :=
  if isMeta then img.isa cls else cls

/-- The operations that led to a state, in order. -/
inductive Run (img : Image) (s₀ : State κ) : List Act → State κ → Prop
  | init : Run img s₀ [] s₀
  | step {acts s s'} (count : Nat) (act : Act) : Run img s₀ acts s →
      act.Allowed img s → step img count s act = some s' → Run img s₀ (acts ++ [act]) s'

end ObjcRuntime.Classes
