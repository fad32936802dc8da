import ObjcRuntime.WeakVars.Machine

/-!
# ObjcRuntime.WeakVars.Sound

The invariant of the weak variables.

`Inv` ties four things together: the pairs in the map are the live variables with
what they hold, an object with a registered variable carries the
weakly-referenced bit, an object past `clearDeallocating` has no variable left,
and the phase of an object agrees with what its isa or its entry says
(`ObjectOk`). It also keeps the table behind the map.

A region under the locks breaks the invariant in its middle. All of them are made
of three steps that keep it: a variable is taken out of use (`Inv.detach`), a
fresh one comes to hold an object (`Inv.attach`) or something that is none
(`Inv.attachNil`), and one object is updated (`Inv.update`).
-/

namespace ObjcRuntime.WeakVars

open Weak Function World

variable {L : IsaLayout} {isTaggedPointer : Addr → Bool} {memory : Memory}

/-! ### The invariant -/

namespace Phase

/-- `free` has been or can be called without looking at the object again. -/
def gone : Phase → Bool
  | .freed | .freeing | .disposed => true
  | _ => false

/-- Between the last release and the end of `clearDeallocating`. -/
def dying : Phase → Bool
  | .deallocating | .freeing | .disposing | .clearing => true
  | _ => false

end Phase

/-- The phase of an object agrees with what its isa and its entry say. -/
structure ObjectOk (phase : Phase) (released : Bool) (x : Object L) : Prop where
  ok : x.Ok
  running : phase = .running → x.isDeallocating = false ∧ released = false
  dying : phase.dying = true → x.isDeallocating = true
  freeing : phase = .freeing → x.nonpointer = true
  noEntry : phase = .disposed ∨ phase = .freed → x.refcnt = none

/-- The table behind the map. -/
def Backed (isTaggedPointer : Addr → Bool) (memory : Memory) (w : World L) : Prop :=
  ∃ s, WeakState.run isTaggedPointer ⟨WeakTable.zero, memory⟩ w.log = .ok s ∧
    TableWf s.table ∧ s.abs = w.map

structure Inv (isTaggedPointer : Addr → Bool) (memory : Memory) (w : World L) : Prop where
  registered : ∀ l o, l ∈ w.map.locations o ↔
    w.alive l = true ∧ w.map.memory l = o ∧ IsObject isTaggedPointer o
  location : ∀ l, w.alive l = true → IsLocation l
  flagged : ∀ o l, l ∈ w.map.locations o → (w.objects o).isWeaklyReferenced = true
  gone : ∀ o l, (w.phase o).gone = true → l ∉ w.map.locations o
  object : ∀ o, ObjectOk (w.phase o) (w.released o) (w.objects o)
  allocated : ∀ o, w.phase o ≠ .freed → IsObject isTaggedPointer o
  backed : Backed isTaggedPointer memory w

/-! ### Small facts -/

variable {o : Addr}

theorem isTaggedPointerOrNil_false :
    isTaggedPointerOrNil isTaggedPointer o = false ↔ IsObject isTaggedPointer o := by
  unfold isTaggedPointerOrNil IsObject
  rw [Bool.or_eq_false_iff, beq_eq_false_iff_ne, and_comm]

theorem isTaggedPointerOrNil_true :
    isTaggedPointerOrNil isTaggedPointer o ↔ ¬ IsObject isTaggedPointer o := by
  rw [← isTaggedPointerOrNil_false, Bool.not_eq_false]

theorem not_isObject_zero : ¬ IsObject isTaggedPointer 0 := fun h => h.1 rfl

theorem ObjectOk.running_of_live {phase released} {x : Object L}
    (h : ObjectOk phase released x) (hdisposed : phase ≠ .disposed) (hfreed : phase ≠ .freed)
    (hlive : x.isDeallocating = false) : phase = .running := by
  have hdying : phase.dying = false := by
    rw [← Bool.not_eq_true]
    intro hdying
    rw [h.dying hdying] at hlive
    cases hlive
  cases phase with
  | running => rfl
  | freed => exact absurd rfl hfreed
  | disposed => exact absurd rfl hdisposed
  | deallocating | freeing | disposing | clearing => simp [Phase.dying] at hdying

theorem ObjectOk.set {phase released} {x x' : Object L}
    (h : ObjectOk phase released x) (hok : x'.Ok) (hnon : x'.nonpointer = x.nonpointer)
    (hdead : x'.isDeallocating = x.isDeallocating)
    (husable : phase ≠ .disposed ∧ phase ≠ .freed) : ObjectOk phase released x' where
  ok := hok
  running := fun hrun => ⟨hdead.trans (h.running hrun).1, (h.running hrun).2⟩
  dying := fun hdying => hdead.trans (h.dying hdying)
  freeing := fun hfreeing => hnon.trans (h.freeing hfreeing)
  noEntry := fun hgone => by
    rcases hgone with hgone | hgone
    · exact absurd hgone husable.1
    · exact absurd hgone husable.2

theorem noEntry_of_dying {x : Object L} (h : x.Ok) (hdead : x.isDeallocating)
    (hnon : x.nonpointer) : x.hasSidetableRc = false ∧ x.refcnt = none := by
  rw [Object.isDeallocating_nonpointer hnon, Bool.and_eq_true, Bool.not_eq_true'] at hdead
  exact ⟨hdead.2, h.noEntry hnon hdead.2⟩

/-! ### The table behind the map -/

variable {w : World L}

theorem Backed.weakOp (h : Backed isTaggedPointer memory w) (op)
    (hop : w.map.Admits isTaggedPointer op) (hcrash : ¬ op.crashes) :
    Backed isTaggedPointer memory (w.weakOp op) := by
  obtain ⟨s, hrun, hwf, habs⟩ := h
  rw [← habs] at hop
  rcases step_refines hwf hop with ⟨s', hstep, hwf', habs'⟩ | ⟨-, hcrashes⟩
  · refine ⟨s', ?_, hwf', ?_⟩
    · unfold WeakState.run at hrun ⊢
      unfold World.weakOp
      rw [List.foldlM_append, hrun]
      show s.step isTaggedPointer op >>= _ = _
      rw [hstep]
      rfl
    · rw [habs', habs]
      rfl
  · exact absurd hcrashes hcrash

/-! ### Updates of one object -/

theorem Inv.update {w w' : World L} (h : Inv isTaggedPointer memory w)
    (hmap : w'.map = w.map) (hlog : w'.log = w.log) (halive : w'.alive = w.alive)
    (hother : ∀ o', o' ≠ o → w'.objects o' = w.objects o' ∧ w'.phase o' = w.phase o' ∧
      w'.released o' = w.released o') (hok : ObjectOk (w'.phase o) (w'.released o) (w'.objects o))
    (halloc : w'.phase o ≠ .freed → IsObject isTaggedPointer o)
    (hflag : ∀ l, l ∈ w.map.locations o → (w'.objects o).isWeaklyReferenced)
    (hgone : ∀ l, (w'.phase o).gone → l ∉ w.map.locations o) : Inv isTaggedPointer memory w' where
  registered := by
    rw [hmap, halive]
    exact h.registered
  location := by
    rw [halive]
    exact h.location
  flagged := by
    intro o' l hl
    rw [hmap] at hl
    by_cases ho : o' = o
    · subst ho
      exact hflag l hl
    · rw [(hother o' ho).1]
      exact h.flagged o' l hl
  gone := by
    intro o' l hphase
    rw [hmap]
    by_cases ho : o' = o
    · subst ho
      exact hgone l hphase
    · rw [(hother o' ho).2.1] at hphase
      exact h.gone o' l hphase
  object := by
    intro o'
    by_cases ho : o' = o
    · subst ho
      exact hok
    · obtain ⟨hobject, hphase, hreleased⟩ := hother o' ho
      rw [hobject, hphase, hreleased]
      exact h.object o'
  allocated := by
    intro o' hphase
    by_cases ho : o' = o
    · subst ho
      exact halloc hphase
    · rw [(hother o' ho).2.1] at hphase
      exact h.allocated o' hphase
  backed := by
    unfold Backed
    rw [hmap, hlog]
    exact h.backed

theorem Inv.setObject (h : Inv isTaggedPointer memory w) {x}
    (hok : ObjectOk (w.phase o) (w.released o) x)
    (hflag : (w.objects o).isWeaklyReferenced → x.isWeaklyReferenced) :
    Inv isTaggedPointer memory (w.setObject o x) := by
  refine h.update (o := o) rfl rfl rfl (fun o' ho => ⟨update_of_ne ho _ _, rfl, rfl⟩)
    ?_ (h.allocated o) ?_ (fun l => h.gone o l)
  · show ObjectOk (w.phase o) (w.released o) (Function.update w.objects o x o)
    rw [update_self]
    exact hok
  · intro l hl
    show (Function.update w.objects o x o).isWeaklyReferenced
    rw [update_self]
    exact hflag (h.flagged o l hl)

theorem Inv.setPhase (h : Inv isTaggedPointer memory w) {p} (hphase : w.phase o ≠ .freed)
    (hok : ObjectOk p (w.released o) (w.objects o)) (hgone : p.gone → ∀ l, l ∉ w.map.locations o) :
    Inv isTaggedPointer memory (w.setPhase o p) := by
  refine h.update (o := o) rfl rfl rfl (fun o' ho => ⟨rfl, update_of_ne ho _ _, rfl⟩)
    ?_ (fun _ => h.allocated o hphase) (fun l => h.flagged o l) ?_
  · show ObjectOk (Function.update w.phase o p o) (w.released o) (w.objects o)
    rw [update_self]
    exact hok
  · intro l hl
    have hself : (w.setPhase o p).phase o = p := update_self ..
    rw [hself] at hl
    exact hgone hl l

/-! ### Updates of one variable -/

theorem mem_unregister {m : WeakMap} {o l o' l'} :
    l' ∈ (m.step (.unregister o l)).locations o' ↔
      l' ∈ m.locations o' ∧ ¬ (o' = o ∧ l' = l) := by
  show l' ∈ Function.update m.locations o (m.locations o \ {l}) o' ↔ _
  by_cases ho : o' = o
  · subst ho
    rw [update_self, Set.mem_sdiff, Set.mem_singleton_iff]
    tauto
  · rw [update_of_ne ho]
    tauto

variable {options : DeallocatingOptions} {check : ReferentCheck}

theorem step_register {m : WeakMap} {o l} (hacc : WeakOp.accepts options check) :
    m.step (.register o l options check) =
      { m with locations := Function.update m.locations o (Insert.insert l (m.locations o)) } :=
  if_pos hacc

theorem mem_register {m : WeakMap} {o l o' l'} (hacc : WeakOp.accepts options check) :
    l' ∈ (m.step (.register o l options check)).locations o' ↔
      l' ∈ m.locations o' ∨ (o' = o ∧ l' = l) := by
  rw [step_register hacc]
  dsimp only
  by_cases ho : o' = o
  · subst ho
    rw [update_self, Set.mem_insert_iff]
    tauto
  · rw [update_of_ne ho]
    tauto

/-- A variable that is taken out of use. -/
noncomputable def World.detach (isTaggedPointer : Addr → Bool) (w : World L) (l : Addr) : World L :=
  (w.unregister isTaggedPointer (w.map.memory l) l).setAlive l false

theorem Inv.mem_unregister (h : Inv isTaggedPointer memory w) {l o' l'} :
    l' ∈ (w.unregister isTaggedPointer (w.map.memory l) l).map.locations o' ↔
      l' ∈ w.map.locations o' ∧ l' ≠ l := by
  have hheld : l' ∈ w.map.locations o' → l' = l → o' = w.map.memory l := by
    intro hl' hl
    subst hl
    exact ((h.registered l' o').1 hl').2.1.symm
  unfold unregister
  split
  next htagged =>
    refine ⟨fun hl' => ⟨hl', fun hl => ?_⟩, And.left⟩
    have hobject := ((h.registered l' o').1 hl').2.2
    rw [hheld hl' hl] at hobject
    exact isTaggedPointerOrNil_true.1 htagged hobject
  · refine WeakVars.mem_unregister.trans ⟨fun hl' => ⟨hl'.1, fun hl => ?_⟩, fun hl' => ⟨hl'.1, ?_⟩⟩
    · exact hl'.2 ⟨hheld hl'.1 hl, hl⟩
    · exact fun heq => hl'.2 heq.2

theorem unregister_fields (isTaggedPointer : Addr → Bool) (w : World L) (o l) :
    (w.unregister isTaggedPointer o l).map.memory = w.map.memory ∧
    (w.unregister isTaggedPointer o l).alive = w.alive ∧
    (w.unregister isTaggedPointer o l).objects = w.objects ∧
    (w.unregister isTaggedPointer o l).phase = w.phase ∧
    (w.unregister isTaggedPointer o l).released = w.released := by
  unfold unregister
  split <;> exact ⟨rfl, rfl, rfl, rfl, rfl⟩

variable (h : Inv isTaggedPointer memory w)
include h

theorem Inv.detach {l}
    (hl : w.alive l) : Inv isTaggedPointer memory (w.detach isTaggedPointer l) := by
  obtain ⟨hmemory, halive, hobjects, hphase, hreleased⟩ :=
    unregister_fields isTaggedPointer w (w.map.memory l) l
  unfold World.detach
  refine ⟨fun l' o => ?_, fun l' hl' => ?_, fun o l' hl' => ?_, fun o l' hgone hl' => ?_,
    fun o => ?_, fun o ho => ?_, ?_⟩
  · refine h.mem_unregister.trans ?_
    rw [h.registered l' o, setAlive, halive, hmemory]
    dsimp only
    by_cases heq : l' = l
    · rw [heq, update_self]
      simp
    · rw [update_of_ne heq]
      exact and_iff_left heq
  · rw [setAlive, halive] at hl'
    dsimp only at hl'
    by_cases heq : l' = l
    · rw [heq]
      exact h.location l hl
    · rw [update_of_ne heq] at hl'
      exact h.location l' hl'
  · rw [setAlive, hobjects]
    exact h.flagged o l' (h.mem_unregister.1 hl').1
  · rw [setAlive, hphase] at hgone
    exact h.gone o l' hgone (h.mem_unregister.1 hl').1
  · rw [setAlive, hphase, hreleased, hobjects]
    exact h.object o
  · rw [setAlive, hphase] at ho
    exact h.allocated o ho
  · unfold unregister
    split
    · exact h.backed
    next htagged =>
      have hobject := isTaggedPointerOrNil_false.1 (Bool.eq_false_iff.2 htagged)
      exact h.backed.weakOp _ ⟨hobject, h.location l hl⟩ id

theorem Inv.attachNil {l v} (hl : w.Fresh l) (hv : ¬ IsObject isTaggedPointer v) :
    Inv isTaggedPointer memory ((w.weakOp (.store l v)).setAlive l true) where
  registered := by
    intro l' o
    show l' ∈ w.map.locations o ↔ Function.update w.alive l true l' ∧
      Function.update w.map.memory l v l' = o ∧ _
    rw [h.registered l' o]
    by_cases heq : l' = l
    · rw [heq, update_self, update_self, hl.1]
      refine ⟨fun hfalse => absurd hfalse.1 Bool.false_ne_true, fun hv' => absurd hv'.2.2 ?_⟩
      rw [← hv'.2.1]
      exact hv
    · rw [update_of_ne heq, update_of_ne heq]
  location := by
    intro l' hl'
    by_cases heq : l' = l
    · rw [heq]
      exact hl.2
    · exact h.location l' ((update_of_ne heq _ _).symm.trans hl')
  flagged := h.flagged
  gone := h.gone
  object := h.object
  allocated := h.allocated
  backed := h.backed.weakOp (.store l v) trivial id

theorem Inv.attach {l o} (hl : w.Fresh l) (ho : IsObject isTaggedPointer o)
    (hacc : WeakOp.accepts options check) (hflag : (w.objects o).isWeaklyReferenced)
    (hgone : (w.phase o).gone = false) :
    Inv isTaggedPointer memory
      (((w.weakOp (.register o l options check)).weakOp (.store l o)).setAlive l true) := by
  have hmem : ∀ {o' l'}, l' ∈ ((w.map.step (.register o l options check)).step
      (.store l o)).locations o' ↔ l' ∈ w.map.locations o' ∨ (o' = o ∧ l' = l) :=
    mem_register hacc
  have hnew : ∀ o', l ∉ w.map.locations o' := by
    intro o' hin
    have halive := ((h.registered l o').1 hin).1
    rw [hl.1] at halive
    exact absurd halive Bool.false_ne_true
  refine ⟨fun l' o' => ?_, fun l' hl' => ?_, fun o' l' hl' => ?_, fun o' l' hphase hl' => ?_,
    h.object, h.allocated, ?_⟩
  · refine hmem.trans ?_
    show _ ↔ Function.update w.alive l true l' ∧
      Function.update (w.map.step (.register o l options check)).memory l o l' = o' ∧ _
    rw [step_register hacc]
    by_cases heq : l' = l
    · subst heq
      rw [update_self, update_self]
      refine ⟨fun hin => ?_, fun hv => .inr ⟨hv.2.1.symm, rfl⟩⟩
      rcases hin with hin | ⟨rfl, -⟩
      · exact absurd hin (hnew o')
      · exact ⟨rfl, rfl, ho⟩
    · rw [update_of_ne heq, update_of_ne heq, ← h.registered l' o']
      exact or_iff_left fun hv => heq hv.2
  · by_cases heq : l' = l
    · rw [heq]
      exact hl.2
    · exact h.location l' ((update_of_ne heq _ _).symm.trans hl')
  · rcases hmem.1 hl' with hin | ⟨rfl, -⟩
    · exact h.flagged o' l' hin
    · exact hflag
  · rcases hmem.1 hl' with hin | ⟨rfl, -⟩
    · exact h.gone o' l' hphase hin
    · have hphase' : (w.phase o').gone := hphase
      rw [hgone] at hphase'
      exact absurd hphase' Bool.false_ne_true
  · have hbacked : Backed isTaggedPointer memory (w.weakOp (.register o l options check)) := by
      refine h.backed.weakOp _ ⟨ho, hl.2, fun _ => hnew o⟩ ?_
      -- what is accepted does not crash
      rintro ⟨hcrash, hdead⟩
      rcases hacc with hopt | hlive
      · rw [hopt] at hcrash
        cases hcrash
      · rw [hlive] at hdead
        cases hdead
    exact hbacked.weakOp (.store l o) trivial id

omit h

end ObjcRuntime.WeakVars
