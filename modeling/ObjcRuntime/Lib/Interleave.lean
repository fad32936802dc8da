import Mathlib.Logic.Relation
import Mathlib.Logic.Function.Basic

/-!
# ObjcRuntime.Lib.Interleave

Threads that take turns on one shared state.

A program for one thread is a **local step relation** over the shared state and
the thread's own control state. `Interleave` lets any thread take any local
step at any time, so `Relation.ReflTransGen (Interleave lstep)` is the set of
all finite interleavings.

The proof rule is the classical one for shared-variable programs: an invariant
of the shared state together with one assertion per thread. A step has to
re-establish the invariant and the assertion of the thread that moved, and must
not disturb the assertions of the others (`Interleave.preserves`).
-/

namespace ObjcRuntime.Lib

open Function

universe u v w

/-- A shared state and the control state of every thread. -/
structure Threads (τ : Type u) (σ : Type v) (ℓ : Type w) where
  shared : σ
  pcs : τ → ℓ

variable {τ : Type u} {σ : Type v} {ℓ : Type w} [DecidableEq τ]

/-- One thread takes one local step; the other threads keep their control
states. -/
inductive Interleave (lstep : τ → σ → ℓ → σ → ℓ → Prop) :
    Threads τ σ ℓ → Threads τ σ ℓ → Prop
  | step {s t g l} :
      lstep t s.shared (s.pcs t) g l →
      Interleave lstep s ⟨g, update s.pcs t l⟩

/-- The shared invariant `I` and the assertion `A t` of every thread hold. -/
def Holds (I : σ → Prop) (A : τ → σ → ℓ → Prop) (s : Threads τ σ ℓ) : Prop :=
  I s.shared ∧ ∀ t, A t s.shared (s.pcs t)

/-- **Non-interference rule.** If every local step keeps the shared invariant,
establishes the assertion of the thread that moves and leaves the assertions
of the other threads true, then every interleaved step keeps all of them. -/
theorem Interleave.preserves {lstep : τ → σ → ℓ → σ → ℓ → Prop}
    {I : σ → Prop} {A : τ → σ → ℓ → Prop}
    (hown : ∀ t g l g' l', I g → A t g l → lstep t g l g' l' → I g' ∧ A t g' l')
    (hother : ∀ t u g l g' l' m, u ≠ t → I g → A t g l → A u g m →
      lstep t g l g' l' → A u g' m)
    {s s' : Threads τ σ ℓ} (hs : Holds I A s) (h : Interleave lstep s s') : Holds I A s' := by
  obtain ⟨hI, hA⟩ := hs
  cases h with
  | @step t g l hstep =>
    obtain ⟨hI', hA'⟩ := hown t _ _ _ _ hI (hA t) hstep
    refine ⟨hI', fun u => ?_⟩
    by_cases hu : u = t
    · subst hu
      simpa using hA'
    · simpa [update_of_ne hu] using hother t u _ _ _ _ _ hu hI (hA t) (hA u) hstep

theorem Interleave.solo {lstep : Unit → σ → ℓ → σ → ℓ → Prop} {g g' : σ} {l l' : ℓ}
    (h : lstep () g l g' l') : Interleave lstep ⟨g, fun _ => l⟩ ⟨g', fun _ => l'⟩ := by
  have hupdate : update (fun _ => l) () l' = fun _ => l' := by
    funext t
    exact update_self ..
  exact hupdate ▸ .step (s := ⟨g, fun _ => l⟩) (t := ()) h

theorem Interleave.alone {lstep t} (pcs : τ → ℓ) {g g' l l'}
    (h : Relation.ReflTransGen (fun p q : σ × ℓ => lstep t p.1 p.2 q.1 q.2) (g, l) (g', l')) :
    Relation.ReflTransGen (Interleave lstep) ⟨g, update pcs t l⟩
      ⟨g', update pcs t l'⟩ := by
  generalize hp : (g, l) = p at h
  generalize hq : (g', l') = q at h
  induction h generalizing g' l' with
  | refl => cases hp; cases hq; exact .refl
  | @tail b c _ hstep ih =>
    cases hq
    refine (ih rfl).tail ?_
    have hmove : lstep t b.1 (update pcs t b.2 t) g' l' := by
      rw [update_self]
      exact hstep
    have hnext := Interleave.step (s := ⟨b.1, update pcs t b.2⟩) hmove
    rwa [update_idem] at hnext

/-- **Simulation rule.** Two programs on one shared state: if every local step of the
first is matched by a step of the second, or leaves the shared state alone and needs
none, then so is every run. `P` is what is known about the states of the second. -/
theorem Interleave.simulates {ℓ' : Type*} {cstep : τ → σ → ℓ → σ → ℓ → Prop}
    {astep : τ → σ → ℓ' → σ → ℓ' → Prop} {R : ℓ → ℓ' → Prop} {P : Threads τ σ ℓ' → Prop}
    (hP : ∀ a a', P a → Interleave astep a a' → P a')
    (hstep : ∀ t a l g l', P a → R l (a.pcs t) → cstep t a.shared l g l' →
      (g = a.shared ∧ R l' (a.pcs t)) ∨ ∃ m, astep t a.shared (a.pcs t) g m ∧ R l' m)
    {s s' : Threads τ σ ℓ} (hrun : Relation.ReflTransGen (Interleave cstep) s s')
    {a : Threads τ σ ℓ'} (ha : P a) (hshared : a.shared = s.shared)
    (hR : ∀ t, R (s.pcs t) (a.pcs t)) :
    ∃ a', Relation.ReflTransGen (Interleave astep) a a' ∧ P a' ∧ a'.shared = s'.shared ∧
      ∀ t, R (s'.pcs t) (a'.pcs t) := by
  induction hrun with
  | refl => exact ⟨a, .refl, ha, hshared, hR⟩
  | tail _ hlast ih =>
    obtain ⟨b, hb, hPb, hshared', hRb⟩ := ih
    cases hlast with
    | @step t g l hmove =>
      rw [← hshared'] at hmove
      rcases hstep t b _ g l hPb (hRb t) hmove with ⟨rfl, hnew⟩ | ⟨m, hmatch, hnew⟩
      · refine ⟨b, hb, hPb, rfl, fun u => ?_⟩
        by_cases hu : u = t
        · subst hu
          simpa using hnew
        · simpa [update_of_ne hu] using hRb u
      · refine ⟨_, hb.tail (.step hmatch), hP _ _ hPb (.step hmatch), rfl, fun u => ?_⟩
        by_cases hu : u = t
        · subst hu
          simpa using hnew
        · simpa [update_of_ne hu] using hRb u

theorem run_preserves {α : Type u} {step : α → α → Prop} {P : α → Prop}
    (hstep : ∀ a b, P a → step a b → P b) {a b : α}
    (ha : P a) (hrun : Relation.ReflTransGen step a b) : P b := by
  induction hrun with
  | refl => exact ha
  | tail _ hbc ih => exact hstep _ _ ih hbc

end ObjcRuntime.Lib

open ObjcRuntime.Lib in
theorem Relation.ReflTransGen.moved {τ σ ℓ : Type*} [DecidableEq τ] {lstep} {s s' : Threads τ σ ℓ}
    {g l} (hrun : Relation.ReflTransGen (Interleave lstep) s s') (t : τ)
    (h : lstep t s'.shared (s'.pcs t) g l) :
    Relation.ReflTransGen (Interleave lstep) s ⟨g, Function.update s'.pcs t l⟩ :=
  hrun.tail (.step h)
