import ObjcRuntime.Sync.Sound

/-!
# ObjcRuntime.Sync.Exclusion

`@synchronized` gives mutual exclusion, as long as no lock count wraps around.
-/

namespace ObjcRuntime.Sync

open Lib List Relation

variable {τ ω σ : Type} {stripe : ω → σ} {direct : Bool} {t : τ} {g : Shared τ ω σ} {l : Local ω}
  {o : ω} {d : Nat} {extra : ω → Nat}

/-! ### What threads use -/

/-- A thread inside an object, or waiting to enter it, uses a record: the one in its
caches, or the one whose mutex it is about to lock. -/
def Uses (g : Shared τ ω σ) (l : Local ω) (o : ω) (d : Nat) : Prop :=
  (0 < l.depth o ∧ 0 < l.tls.recorded d ∧ (g.data d).object = o) ∨
  (∃ occupied, l.pc = .saving .enter o occupied (some d)) ∨ l.pc = .done .enter o (some d)

variable [DecidableEq ω]

variable [DecidableEq τ]

theorem Tracked.user_of_uses (h : Tracked direct extra t g l) (huses : Uses g l o d) :
    t ∈ g.users d ∧ (g.data d).object = o := by
  obtain ⟨hcounted, hknows⟩ := h
  rcases huses with ⟨-, hrec, hobject⟩ | ⟨occupied, hpc⟩ | hpc
  · exact ⟨(hcounted.users d).2 (.inl hrec), hobject⟩
  · rw [hpc] at hknows
    cases hknows with
    | saving _ hobject => exact ⟨(hcounted.users d).2 (.inr (by rw [hpc]; rfl)), hobject⟩
  · rw [hpc] at hknows
    cases hknows with
    | entering _ hrec hobject => exact ⟨(hcounted.users d).2 (.inl hrec), hobject⟩

theorem Tracked.holds_of_inside (hok : g.Ok stripe) (h : Tracked direct extra t g l)
    (hdepth : 0 < l.depth o) : ∃ d, Uses g l o d ∧ 0 < (g.data d).mutex.depth t := by
  obtain ⟨d, hrec, hobject⟩ := h.1.covered o (by omega)
  refine ⟨d, .inl ⟨hdepth, hrec, hobject⟩, ?_⟩
  rw [h.1.mutex d (h.1.below hok hrec), if_pos hrec, hobject]
  exact Nat.add_pos_left hdepth _

theorem Tracked.not_fatal (h : Tracked direct extra t g l) :
    (∀ text, l.pc ≠ .fatal text) ∧ l.pc ≠ .overrun := by
  have hknows := h.2
  refine ⟨fun text hpc => ?_, fun hpc => ?_⟩
  all_goals
    rw [hpc] at hknows
    cases hknows

theorem Uses.eq {s : Threads τ (Shared τ ω σ) (Local ω)} (hok : s.shared.Ok stripe)
    (h : ∀ t, Tracked direct (s.pcs t).failed t s.shared (s.pcs t)) {t u d e}
    (hd : Uses s.shared (s.pcs t) o d) (he : Uses s.shared (s.pcs u) o e) : d = e := by
  obtain ⟨hdu, hdo⟩ := (h t).user_of_uses hd
  obtain ⟨heu, heo⟩ := (h u).user_of_uses he
  exact hok.inj d e (hok.below d t hdu) (hok.below e u heu) (hdo.trans heo.symm)

theorem eq_of_inside {s : Threads τ (Shared τ ω σ) (Local ω)} (hok : s.shared.Ok stripe)
    (h : ∀ t, Tracked direct (s.pcs t).failed t s.shared (s.pcs t)) {t u}
    (ht : 0 < (s.pcs t).depth o) (hu : 0 < (s.pcs u).depth o) : t = u := by
  obtain ⟨d, hd, hholds⟩ := (h t).holds_of_inside hok ht
  obtain ⟨e, he, hholds'⟩ := (h u).holds_of_inside hok hu
  obtain rfl := hd.eq hok h he
  exact RecursiveMutex.eq_of_depth_pos hholds hholds'

/-! ### Runs -/

/-- Threads only enter, and only exit objects that they are inside of. -/
def Disciplined (l : Local ω) (op : Op) (o : ω) : Prop :=
  match op with
  | .enter => True
  | .tryEnter => False
  | .exit => 0 < l.depth o

/-- And they are never inside an object `2 ^ 32` times. -/
def Bounded (l : Local ω) (op : Op) (o : ω) : Prop :=
  Disciplined l op o ∧ (op = .enter → l.depth o + 1 < 2 ^ 32)

variable [DecidableEq σ] [Fintype τ] [Fintype ω]

theorem Bounded.holds (hthreads : Fintype.card τ < 2 ^ 31) (hobjects : Fintype.card ω < 2 ^ 31)
    {s : Threads τ (Shared τ ω σ) (Local ω)} (h : Reachable .machine stripe direct Bounded s) :
    Holds (·.Ok stripe)
      (fun t g l => Tracked direct l.failed t g l ∧ Room l ∧ NeverTries l) s := by
  refine h.holds hthreads hobjects ⟨nofun, fun _ => rfl⟩ (fun hl hstep => ?_)
    fun l op o hl hmay => ?_
  · refine hstep.neverTries hl fun op o hmay => ?_
    rintro rfl
    exact hmay.1
  · rw [hl.2 o, Nat.add_zero]
    obtain ⟨hmay, hbound⟩ := hmay
    cases op with
    | enter => exact ⟨nofun, fun _ => hbound rfl⟩
    | tryEnter => exact absurd hmay id
    | exit => exact ⟨fun _ => hmay, fun hop => absurd rfl hop⟩

def twoIdle : Threads Bool (Shared Bool Bool Unit) (Local Bool) :=
  ⟨.init fun _ => ⟨false, 0, .free⟩, fun _ => .init⟩

/-- Threads only exit objects that they are inside of, and what they are inside of an
object and their failed tries to enter it are fewer than `2 ^ 32`. -/
def NestedBounded (l : Local ω) (op : Op) (o : ω) : Prop :=
  Nested l op o ∧ (op ≠ .exit → l.depth o + l.failed o + 1 < 2 ^ 32)

/-- Also with `objc_sync_try_enter`, no two threads are inside an object, every exit
succeeds, and there is no fatal error. -/
theorem tryEnter_excludes (hthreads : Fintype.card τ < 2 ^ 31)
    (hobjects : Fintype.card ω < 2 ^ 31) {s : Threads τ (Shared τ ω σ) (Local ω)}
    (h : Reachable .machine stripe direct NestedBounded s) :
    (∀ o t u, 0 < (s.pcs t).depth o → 0 < (s.pcs u).depth o → t = u) ∧
    (∀ t o r, (.exit, o, r) ∈ (s.pcs t).log → r = .success) ∧
    ∀ t, (∀ text, (s.pcs t).pc ≠ .fatal text) ∧ (s.pcs t).pc ≠ .overrun := by
  obtain ⟨hok, hall⟩ := h.holds (J := fun _ => True) hthreads hobjects trivial
    (fun _ _ => trivial) fun _ _ _ _ hmay => hmay
  have htracked := fun t => (hall t).1
  exact ⟨fun o t u => eq_of_inside hok htracked, fun t => (htracked t).1.log,
    fun t => (htracked t).not_fatal⟩

/-- A thread enters, another one fails to, and enters after the exit of the first. -/
theorem tryEnter_excludes_second :
    ∃ s : Threads Bool (Shared Bool Bool Unit) (Local Bool),
      Reachable .machine (fun _ => ()) true NestedBounded s ∧
      (s.pcs false).log = [(.enter, true, .success), (.exit, true, .success)] ∧
      (s.pcs true).log = [(.tryEnter, true, .no), (.tryEnter, true, .yes)] ∧
      0 < (s.pcs true).depth true ∧ ¬0 < (s.pcs false).depth true := by
  have hrun : ReflTransGen (Interleave (Step .machine (fun _ => ()) true NestedBounded))
      twoIdle twoIdle := .refl
  replace hrun := hrun |>.moved false (.call .enter true rfl ⟨nofun, by decide⟩)
    |>.moved false (.miss rfl nofun)
    |>.moved false (.scanEnd rfl rfl)
    |>.moved false (.region rfl)
    |>.moved false (.save rfl rfl rfl rfl)
    |>.moved false (.lock rfl rfl)
    |>.moved true (.call .tryEnter true rfl ⟨nofun, by decide⟩)
    |>.moved true (.miss rfl nofun)
    |>.moved true (.scanEnd rfl rfl)
    |>.moved true (.region rfl)
    |>.moved true (.save rfl rfl rfl rfl)
    |>.moved true (.tryLockFails rfl rfl)
    |>.moved false (.call .exit true rfl ⟨fun _ => by decide, nofun⟩)
    |>.moved false (.hit rfl rfl rfl)
    |>.moved false (.useFast rfl (by decide) (by decide))
    |>.moved false (.decrement rfl)
    |>.moved false (.unlock rfl rfl)
    -- the record is still in the caches of the second one
    |>.moved true (.call .tryEnter true rfl ⟨nofun, by decide⟩)
    |>.moved true (.hit rfl rfl rfl)
    |>.moved true (.useFast rfl (by decide) (by decide))
    |>.moved true (.tryLock rfl rfl)
  have hreach : Reachable .machine (fun _ => ()) true NestedBounded _ := ⟨_, hrun⟩
  refine ⟨_, hreach, rfl, rfl, by decide, fun hinside => ?_⟩
  exact absurd ((tryEnter_excludes (by decide) (by decide) hreach).1 true true false
    (by decide) hinside) (by decide)

/-! ### A lock count that wraps around -/

section

variable {n : Nat} {g : Shared Unit Bool Unit} {l : Local Bool}

end

end ObjcRuntime.Sync
