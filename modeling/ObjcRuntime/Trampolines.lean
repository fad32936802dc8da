import Mathlib.Data.Option.NAry
import Mathlib.Logic.Function.Basic
import Mathlib.Tactic.Common

/-!
# ObjcRuntime.Trampolines

`imp_implementationWithBlock`, `imp_getBlock` and `imp_removeBlock`
(`objc-block-trampolines.mm`).

A page group is a page of data in front of pages of trampolines. Each trampoline has a
slot of one word in the data page. The word is the block while the trampoline is in use;
otherwise it is the index of the next free slot, or 0 if the slot was never used. Page
groups are numbered in the order of the `nextPageGroup` list, which only ever grows at its
end; `HeadPageGroup` is number 0.
-/

namespace ObjcRuntime.Trampolines

open Function

/-- The sizes of a platform. `thumb` is what `imp++` adds to a Thumb trampoline. -/
structure Layout where
  pageSize : Nat
  headerSize : Nat
  slotSize : Nat
  argumentModeCount : Nat
  thumb : Nat

namespace Layout

variable (L : Layout)

def startIndex : Nat := L.headerSize / L.slotSize

def endIndex : Nat := L.pageSize / L.slotSize

def validIndex (index : Nat) : Prop := L.startIndex ≤ index ∧ index < L.endIndex
deriving Decidable

def trampolinesForMode (address mode : Nat) : Nat :=
  address + L.pageSize + L.pageSize * (1 + mode)

/-- The address part of `trampoline`; whoever calls it checks the index. -/
def trampoline (address mode index : Nat) : Nat :=
  L.trampolinesForMode address mode + index * L.slotSize + L.thumb

def indexForTrampoline (address tramp : Nat) : Nat :=
  ((List.range L.argumentModeCount).find? fun mode =>
    L.trampolinesForMode address mode + L.startIndex * L.slotSize ≤ tramp ∧
      tramp < L.trampolinesForMode address mode + L.endIndex * L.slotSize).elim 0
    fun mode => (tramp - L.trampolinesForMode address mode) / L.slotSize

end Layout

/-- All page groups. -/
structure World where
  count : Nat
  address : Nat → Nat
  nextAvailablePage : Nat → Option Nat
  nextAvailable : Nat → Nat
  payload : Nat → Nat → Nat

def World.init : World := ⟨0, fun _ => 0, fun _ => none, fun _ => 0, fun _ _ => 0⟩

/-- A word is stored into the payload of a slot. -/
def World.store (w : World) (p index word : Nat) : World :=
  { w with payload := update w.payload p (update (w.payload p) index word) }

variable (L : Layout) (w : World)

/-- `_allocateTrampolinesAndData`, where `vm_allocate` returns the address. -/
def allocateTrampolinesAndData (address : Nat) : World where
  count := w.count + 1
  address := update w.address w.count address
  nextAvailablePage :=
    let constructed := update w.nextAvailablePage w.count none
    if w.count = 0 then constructed else update constructed 0 (some w.count)
  nextAvailable := update w.nextAvailable w.count L.startIndex
  payload := update w.payload w.count fun _ => 0

def getOrAllocatePageGroupWithNextAvailable (address : Nat) : Nat × World :=
  if w.count = 0 then (w.count, allocateTrampolinesAndData L w address)
  else if w.nextAvailable 0 ≠ L.endIndex then (0, w)
  else match w.nextAvailablePage 0 with
    | some p => (p, w)
    | none => (w.count, allocateTrampolinesAndData L w address)

def pageAndIndexContainingIMP (imp : Nat) : Option (Nat × Nat) :=
  (List.range w.count).findSome? fun p =>
    if L.indexForTrampoline (w.address p) imp = 0 then none
    else some (p, L.indexForTrampoline (w.address p) imp)

/-- The page group in front of `p` on the available list, or the last one; `none` if the
loop does not end in so many rounds. -/
def walk (p : Nat) : Nat → Nat → Option Nat
  | 0, _ => none
  | rounds + 1, iterator =>
    match w.nextAvailablePage iterator with
    | none => some iterator
    | some q => if q = p then some iterator else walk p rounds q

/-- The available list after the loop that removes a full page group from it. -/
def unlink (p : Nat) : Option (Nat → Option Nat) :=
  (walk w p w.count 0).map fun iterator =>
    if w.nextAvailablePage iterator = some p then
      update (update w.nextAvailablePage iterator (w.nextAvailablePage p)) p none
    else w.nextAvailablePage

/-- `imp_implementationWithBlock` of a copied block with an argument mode. It is `none` for
an invalid index, which `trampoline` ends with `_objc_fatal`. -/
def impImplementationWithBlock (block mode address : Nat) : Option (Nat × World) :=
  let (p, w) := getOrAllocatePageGroupWithNextAvailable L w address
  let index := w.nextAvailable p
  let next := if w.payload p index = 0 then index + 1 else w.payload p index
  if L.validIndex index then
    (if next = L.endIndex then unlink w p else some w.nextAvailablePage).map fun links =>
      (L.trampoline (w.address p) mode index, { w.store p index block with
        nextAvailablePage := links, nextAvailable := update w.nextAvailable p next })
  else none

def impGetBlock (imp : Nat) : Option Nat :=
  if imp = 0 then none
  else (pageAndIndexContainingIMP L w imp).bind fun (p, index) =>
    if w.payload p index ≤ L.endIndex then none else some (w.payload p index)

/-- The available list after the loop that makes sure that a page group is on it. -/
def link (p : Nat) : Option (Nat → Option Nat) :=
  (walk w p w.count 0).map fun iterator =>
    if w.nextAvailablePage iterator = none then
      update (update w.nextAvailablePage iterator (some p)) p none
    else w.nextAvailablePage

/-- `imp_removeBlock`: the word that is released if the result is `YES`, nothing for `NO`. -/
def impRemoveBlock (imp : Nat) : Option (Option Nat × World) :=
  if imp = 0 then some (none, w)
  else match pageAndIndexContainingIMP L w imp with
    | none => some (none, w)
    | some (p, index) =>
      (link w p).map fun links =>
        (some (w.payload p index), { w.store p index (w.nextAvailable p) with
          nextAvailablePage := links, nextAvailable := update w.nextAvailable p index })

/-! ### IMPs without a block -/

/-- The page groups after calls for blocks, whose addresses are above every index. -/
inductive Reachable : World → Prop
  | init : Reachable .init
  | implementation {w w' block mode address imp} : Reachable w →
      L.endIndex < block → mode < L.argumentModeCount →
      impImplementationWithBlock L w block mode address = some (imp, w') → Reachable w'
  | remove {w w' imp released} : Reachable w →
      impRemoveBlock L w imp = some (released, w') → Reachable w'

/-- The IMP is one of a page group, and its slot is free. -/
def HoldsNoBlock (imp : Nat) : Prop :=
  imp ≠ 0 ∧ ∃ p index, pageAndIndexContainingIMP L w imp = some (p, index) ∧
    w.payload p index ≤ L.endIndex

/-- `imp_removeBlock` returns `NO`, and `imp_getBlock` nil. -/
def Rejected (imp : Nat) : Prop :=
  impRemoveBlock L w imp = some (none, w) ∧ impGetBlock L w imp = none

/-- **An IMP is rejected if and only if it points into no page group**: the slot of one
that does is not looked at. -/
theorem rejected_iff (imp : Nat) :
    Rejected L w imp ↔ imp = 0 ∨ pageAndIndexContainingIMP L w imp = none := by
  unfold Rejected impRemoveBlock impGetBlock
  by_cases himp : imp = 0
  · simp [himp]
  · rw [if_neg himp, if_neg himp]
    cases hlocate : pageAndIndexContainingIMP L w imp with
    | none => simp
    | some found =>
      refine ⟨fun hrejected => ?_, fun hnot => ?_⟩
      · obtain ⟨links, -, hlinks⟩ := Option.map_eq_some_iff.1 hrejected.1
        cases hlinks
      · simp [himp] at hnot

def Layout.x86_64 : Layout := ⟨4096, 32, 8, 2, 0⟩

/-- A block is removed, and its IMP is removed again. -/
theorem removed_twice :
    ∃ w imp, Reachable .x86_64 w ∧ HoldsNoBlock .x86_64 w imp ∧ ¬Rejected .x86_64 w imp := by
  let placed := (impImplementationWithBlock .x86_64 .init 1000 0 8192).get (by decide)
  let removed := (impRemoveBlock .x86_64 placed.2 16416).get (by decide)
  have hplace : impImplementationWithBlock .x86_64 .init 1000 0 8192 = some placed :=
    (Option.some_get _).symm
  have hremove : impRemoveBlock .x86_64 placed.2 16416 = some removed := (Option.some_get _).symm
  have hempty : HoldsNoBlock .x86_64 removed.2 16416 := ⟨by decide, 0, 4, by decide, by decide⟩
  have haccepted : ¬Rejected .x86_64 removed.2 16416 := fun hrejected =>
    absurd (congrArg (Option.map Prod.fst) hrejected.1) (by decide)
  clear_value placed removed
  have hplaced : Reachable .x86_64 placed.2 := .implementation .init (by decide) (by decide) hplace
  exact ⟨removed.2, 16416, .remove hplaced hremove, hempty, haccepted⟩

end ObjcRuntime.Trampolines
