import Mathlib.Logic.Function.Basic
import Mathlib.Logic.Relation
import ObjcRuntime.Lib.Align

/-!
# ObjcRuntime.Ivars.Layout

Non-fragile instance variables.

A class is compiled against the size that its superclass had then. When it is
realized, its instance variables are slid out of the way of a superclass that has
grown since. With `DebugNonFragileIvars` they are first moved down to zero, so that
every class slides. Sums of 32 bits are written out; metaclasses have no ivars and are
left out.
-/

namespace ObjcRuntime.Ivars

open Lib

/-! ### Classes -/

/-- `ivar_t`, without the name and type, which are only printed. -/
structure Ivar where
  /-- `*offset`, or `none` for an anonymous bitfield. -/
  offset : Option Nat
  alignmentRaw : Nat
  size : Nat
  deriving Repr, DecidableEq

/-- The fields of `class_ro_t` that sliding looks at. No list of ivars is the empty
one. -/
structure ClassRo where
  name : String
  instanceStart : Nat
  instanceSize : Nat
  ivars : List Ivar
  deriving Repr, DecidableEq

section Source

variable (lp64 : Bool)

/-- `WORD_SHIFT` -/
def wordShift : Nat := if lp64 then 3 else 2

def Ivar.alignment (ivar : Ivar) : Nat :=
  if ivar.alignmentRaw = 2 ^ 32 - 1 then 1 <<< wordShift lp64 else 1 <<< ivar.alignmentRaw

def add32 (a b : Nat) : Nat := (a + b) % 2 ^ 32

def sub32 (a b : Nat) : Nat := (a + 2 ^ 32 - b) % 2 ^ 32

/-- The loops that write the offsets. -/
def ClassRo.mapOffsets (ro : ClassRo) (f : Nat → Nat) : List Ivar :=
  ro.ivars.map fun ivar => { ivar with offset := ivar.offset.map f }

/-! ### Sliding -/

/-- The maximum alignment of the ivars that have an offset. -/
def maxAlignment (ro : ClassRo) : Nat :=
  maxOf 1 ((ro.ivars.filter (·.offset.isSome)).map (Ivar.alignment lp64))

/-- The slide value of `moveIvars`. Without ivars the mask is zero. -/
def slideValue (ro : ClassRo) (superSize : Nat) : Nat :=
  let diff := superSize - ro.instanceStart
  let alignMask := maxAlignment lp64 ro - 1
  add32 diff alignMask &&& (2 ^ 32 - 1 - alignMask)

def moveIvars (ro : ClassRo) (superSize : Nat) : ClassRo :=
  let diff := slideValue lp64 ro superSize
  { ro with
    ivars := ro.mapOffsets (add32 · diff)
    instanceStart := add32 ro.instanceStart diff
    instanceSize := add32 ro.instanceSize diff }

/-- The classes that `DebugNonFragileIvars` forces to slide. -/
def forcesSlide (name : String) : Bool :=
  !(name.toList.tails.any fun rest => "NSCF".toList.isPrefixOf rest) &&
  !("__CF".toList.isPrefixOf name.toList) &&
  name != "NSConstantString" && name != "NSSimpleCString"

/-- Everything is reset to zero and the misalignment. -/
def resetIvars (ro : ClassRo) : ClassRo :=
  let alignment := maxOf (1 <<< wordShift lp64) (ro.ivars.map (Ivar.alignment lp64))
  let misalignment := ro.instanceStart % alignment
  let delta := ro.instanceStart - misalignment
  { ro with
    ivars := ro.mapOffsets (sub32 · delta)
    instanceStart := misalignment
    instanceSize := sub32 ro.instanceSize delta }

variable (debugNonFragileIvars : Bool)

/-- The class before its superclass is looked at. -/
def prepareIvars (ro : ClassRo) : ClassRo :=
  if debugNonFragileIvars && forcesSlide ro.name then resetIvars lp64 ro else ro

def reconcileInstanceVariables (superRo ro : ClassRo) : ClassRo :=
  let ro := prepareIvars lp64 debugNonFragileIvars ro
  if ro.instanceStart ≥ superRo.instanceSize then ro
  else moveIvars lp64 ro superRo.instanceSize

/-- No sum of `moveIvars` overflows. -/
def NoOverflow (superRo ro : ClassRo) : Prop :=
  let ro := prepareIvars lp64 debugNonFragileIvars ro
  ro.instanceStart < superRo.instanceSize →
    superRo.instanceSize - ro.instanceStart + (maxAlignment lp64 ro - 1) < 2 ^ 32 ∧
    ro.instanceSize + slideValue lp64 ro superRo.instanceSize < 2 ^ 32

end Source

/-! ### Realizing classes -/

/-- What the compiler has emitted. -/
structure Program (κ : Type) where
  superclass : κ → Option κ
  ro : κ → ClassRo

/-- The classes that have been realized. -/
abbrev State (κ : Type) := κ → Option ClassRo

section Realize

variable {κ : Type} [DecidableEq κ] (lp64 debugNonFragileIvars : Bool) (program : Program κ)

/-- The part of `realizeClassWithoutSwift` that lays the class out. -/
def layOut (s : State κ) (cls : κ) : ClassRo :=
  match (program.superclass cls).bind s with
  | some superRo => reconcileInstanceVariables lp64 debugNonFragileIvars superRo (program.ro cls)
  | none => program.ro cls

/-- A class is realized once, after its superclass. -/
inductive Step : State κ → State κ → Prop
  | realize {s} (cls : κ) : s cls = none →
      (∀ supercls, program.superclass cls = some supercls → ∃ superRo, s supercls = some superRo ∧
        NoOverflow lp64 debugNonFragileIvars superRo (program.ro cls)) →
      Step s (Function.update s cls (some (layOut lp64 debugNonFragileIvars program s cls)))

/-- Any order that realizes superclasses first. -/
def Reachable (s : State κ) : Prop :=
  Relation.ReflTransGen (Step lp64 debugNonFragileIvars program) (fun _ => none) s

end Realize

end ObjcRuntime.Ivars
