import Mathlib.Data.Fintype.Card
import ObjcRuntime.Sync.Nested

/-!
# ObjcRuntime.Sync.Sound

Runs on a machine whose counters wrap around.

A thread counts what it is inside of an object and its failed tries to enter it. As
long as it enters the object only if one more can be counted, and threads and objects
are fewer than `2 ^ 31`, no counter wraps around, and what holds at every moment is
what `Sync.Nested` says.
-/

namespace ObjcRuntime.Sync

open Lib Local

variable {τ ω σ : Type} [DecidableEq ω] {w : Widths} {stripe : ω → σ} {direct : Bool}
  {may : Local ω → Op → ω → Prop} {t : τ} {g g' : Shared τ ω σ} {l l' : Local ω}

/-- One more enter of the object that the thread enters can be counted. -/
def Room (l : Local ω) : Prop :=
  ∀ op o look, l.pc = .looking op o look → op ≠ .exit → l.depth o + l.failed o + 1 < 2 ^ 32

theorem Widths.Fits.machine [Fintype τ] [Fintype ω] (hthreads : Fintype.card τ < 2 ^ 31)
    (hobjects : Fintype.card ω < 2 ^ 31) (h : Room l) : Widths.machine.Fits τ l.failed l := by
  refine ⟨fun threads => ?_, fun objects => ?_, fun op o look hpc hop => ?_⟩
  · have hle := threads.card_le_univ
    unfold Widths.machine
    dsimp only
    exact Int.bmod_eq_of_le_mul_two (by omega) (by omega)
  · have hle := objects.card_le_univ
    exact Nat.mod_eq_of_lt (by omega)
  · have hlt := h op o look hpc hop
    exact ⟨Nat.mod_eq_of_lt hlt, Nat.mod_eq_of_lt (hlt.trans (by decide))⟩

variable [DecidableEq τ] [DecidableEq σ]

theorem Step.room (h : Room l) (hstep : Step w stripe direct may t g l g' l')
    (hmay : ∀ op o, may l op o → op ≠ .exit → l.depth o + l.failed o + 1 < 2 ^ 32) : Room l' := by
  intro op o look hpc' hop
  cases hstep with
  | call op' o' hpc hcall =>
    cases hpc'
    have hdepth : (l.begin op o).depth = l.depth := if_neg hop
    rw [hdepth]
    exact hmay op o hcall hop
  | hit hpc | miss hpc | scan hpc | scanHit hpc | scanEnd hpc =>
    cases hpc'
    exact h _ _ _ hpc hop
  | useFast | useItem =>
    unfold Local.found at hpc'
    split at hpc' <;> cases hpc'
  | _ => cases hpc'

/-- **At any point of any run** in which the calls keep to the bounds. -/
theorem Reachable.holds [Fintype τ] [Fintype ω] {J : Local ω → Prop}
    (hthreads : Fintype.card τ < 2 ^ 31) (hobjects : Fintype.card ω < 2 ^ 31) (hinit : J .init)
    (hJ : ∀ {t : τ} {g g' : Shared τ ω σ} {l l'}, J l →
      Step .machine stripe direct may t g l g' l' → J l')
    (hmay : ∀ l op o, J l → may l op o →
      Nested l op o ∧ (op ≠ .exit → l.depth o + l.failed o + 1 < 2 ^ 32))
    {s : Threads τ (Shared τ ω σ) (Local ω)} (h : Reachable .machine stripe direct may s) :
    Holds (·.Ok stripe) (fun t g l => Tracked direct l.failed t g l ∧ Room l ∧ J l) s := by
  obtain ⟨memory, hrun⟩ := h
  refine run_preserves (fun s s' hs hstep => ?_)
    ⟨.init memory, fun t => ⟨.init memory, by rintro _ _ _ ⟨⟩, hinit⟩⟩ hrun
  refine Interleave.preserves ?_ ?_ hs hstep
  · rintro t g l g' l' hok ⟨htracked, hroom, hj⟩ hstep
    obtain ⟨extra, hkeeps, -, hextra⟩ := hstep.tracked (.machine hthreads hobjects hroom)
      (fun op o hcall => (hmay l op o hj hcall).1) hok htracked
    obtain rfl := hextra rfl
    exact ⟨hkeeps.ok, hkeeps.tracked, hstep.room hroom fun op o hcall => (hmay l op o hj hcall).2,
      hJ hj hstep⟩
  · rintro t u g l g' l' m hne hok ⟨htracked, hroom, hj⟩ ⟨hother, hrest⟩ hstep
    obtain ⟨_, hkeeps, -⟩ := hstep.tracked (.machine hthreads hobjects hroom)
      (fun op o hcall => (hmay l op o hj hcall).1) hok htracked
    exact ⟨hother.same hok (hkeeps.same u hne), hrest⟩

/-! ### Without a try -/

/-- The call that a thread is in. -/
def Pc.op : Pc ω → Option Op
  | .looking op _ _ | .saving op _ _ _ | .dropping op _ _ | .done op _ _ => some op
  | _ => none

/-- The thread has not tried to enter anything. -/
def NeverTries (l : Local ω) : Prop := l.pc.op ≠ some .tryEnter ∧ ∀ o, l.failed o = 0

theorem Step.neverTries (h : NeverTries l) (hstep : Step w stripe direct may t g l g' l')
    (hmay : ∀ op o, may l op o → op ≠ .tryEnter) : NeverTries l' := by
  obtain ⟨hop, hfailed⟩ := h
  cases hstep with
  | call op o _ hcall => exact ⟨fun heq => hmay op o hcall (Option.some.inj heq), hfailed⟩
  | hit hpc | miss hpc | scan hpc | scanHit hpc | scanEnd hpc | decrement hpc | region hpc
  | notFound hpc | save hpc =>
    rw [hpc] at hop
    exact ⟨hop, hfailed⟩
  | useFast hpc | useItem hpc =>
    rw [hpc] at hop
    refine ⟨?_, hfailed⟩
    unfold Local.found
    split <;> exact hop
  | tryLockFails hpc | tryLock hpc =>
    rw [hpc] at hop
    exact absurd rfl hop
  | lock hpc | exitNil hpc | unlock hpc | unlockFails hpc =>
    exact ⟨nofun, fun o => (congrFun (failed_append (l := l) rfl (by nofun)) o).trans (hfailed o)⟩
  | _ => exact ⟨nofun, hfailed⟩

end ObjcRuntime.Sync
