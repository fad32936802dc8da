import ObjcRuntime.Sync.Caches
import ObjcRuntime.Sync.Records

/-!
# ObjcRuntime.Sync.Nested

What holds at every moment as long as threads only exit objects that they are inside
of.

A thread is a user of the records in its caches. It has counted every enter there,
and also every `objc_sync_try_enter` that returned NO, which nothing takes back
(`extra`); it holds the mutexes of the records as often as it is inside (`Counted`).
The mutex of a record that was just given to another object may still be held by the
last thread that used it, which unlocks it next.
-/

namespace ObjcRuntime.Sync

open Function Lib List Option Nat Prod Sync.Shared Op Local

variable {τ ω σ : Type}

variable {w : Widths} {stripe : ω → σ} {direct : Bool} {t u : τ} {g g' : Shared τ ω σ}
  {l l' : Local ω}
  {o : ω} {d : Nat} {extra : ω → Nat}

/-! ### Threads -/

/-- The record that a thread counts as a user of although it is not in its caches:
before it is saved there, and before the decrement. -/
def Pc.counts : Pc ω → Option Nat
  | .saving _ _ _ result => result
  | .dropping _ _ d => some d
  | _ => none

/-- The record whose mutex the thread is about to unlock. -/
def Pc.unlocks : Pc ω → Option Nat
  | .dropping .exit _ d => some d
  | .done .exit _ data => data
  | _ => none

/-- The lock count of an object between calls. -/
def Local.count (l : Local ω) (extra : ω → Nat) (o : ω) : Nat := l.depth o + extra o

/-- The counters count the threads, the objects in a list, and one more enter of the
object that the thread enters. -/
structure Widths.Fits (w : Widths) (τ : Type) (extra : ω → Nat) (l : Local ω) : Prop where
  threads : ∀ threads : Finset τ, w.int32 threads.card = threads.card
  objects : ∀ objects : Finset ω, w.unsignedInt (objects.card * 2) = objects.card * 2
  counts : ∀ op o look, l.pc = .looking op o look → op ≠ .exit → w.Counts (l.count extra o)

theorem Widths.Fits.unbounded : Widths.unbounded.Fits τ extra l :=
  ⟨fun _ => rfl, fun _ => rfl, fun _ _ _ _ _ => ⟨rfl, rfl⟩⟩

section

variable {op : Op} {look : Look}

theorem Op.usage_eq_acquire (hop : op ≠ .exit) : op.usage = .acquire := by
  cases op with
  | enter | tryEnter => rfl
  | exit => exact absurd rfl hop

@[simp] theorem Pc.counts_looking : (Pc.looking op o look).counts = none := rfl

@[simp] theorem Pc.unlocks_looking : (Pc.looking op o look).unlocks = none := by
  cases op with
  | enter | tryEnter | exit => rfl

theorem Pc.unlocks_done (hop : op ≠ .exit) (data) : (Pc.done op o data).unlocks = none := by
  cases op with
  | enter | tryEnter => rfl
  | exit => exact absurd rfl hop

end

variable [DecidableEq τ] [DecidableEq ω]

/-- By how much the lock count of an object is ahead of the nesting depth: an enter
counts before it returns, and the depth drops when an exit begins. -/
def Pc.ahead : Pc ω → ω → Nat
  | .looking .exit o _, o' => if o' = o then 1 else 0
  | .done .enter o _, o' => if o' = o then 1 else 0
  | .done .tryEnter o _, o' => if o' = o then 1 else 0
  | _, _ => 0

/-- By how much the mutex is. -/
def Pc.leaving : Pc ω → ω → Nat
  | .looking .exit o _, o' => if o' = o then 1 else 0
  | .dropping .exit o _, o' => if o' = o then 1 else 0
  | .done .exit o _, o' => if o' = o then 1 else 0
  | _, _ => 0

/-- **What a thread has recorded, is inside of and holds.** -/
structure Counted (direct : Bool) (t : τ) (g : Shared τ ω σ) (l : Local ω) (extra : ω → Nat) :
    Prop where
  tls : l.tls.Ok direct
  users : ∀ d, t ∈ g.users d ↔ 0 < l.tls.recorded d ∨ l.pc.counts = some d
  recorded : ∀ d, 0 < l.tls.recorded d → l.tls.recorded d =
    l.depth (g.data d).object + extra (g.data d).object + l.pc.ahead (g.data d).object
  covered : ∀ o, 0 < l.depth o + extra o + l.pc.ahead o →
    ∃ d, 0 < l.tls.recorded d ∧ (g.data d).object = o
  mutex : ∀ d, d < g.next → (g.data d).mutex.depth t =
    if 0 < l.tls.recorded d then l.depth (g.data d).object + l.pc.leaving (g.data d).object
    else if l.pc.unlocks = some d then 1 else 0
  unlocks : ∀ d, l.pc.unlocks = some d → d < g.next
  log : ∀ o r, (.exit, o, r) ∈ l.log → r = .success

/-- What a thread knows at each point, where `count` is the lock count of an object
between calls. Nothing is known after a fatal error: there is none. -/
inductive Knows (direct : Bool) (g : Shared τ ω σ) (tls : Tls) (count : ω → Nat) : Pc ω → Prop
  | idle : Knows direct g tls count .idle
  | start {op o} : Knows direct g tls count (.looking op o .start)
  | fast {op o d} : tls.fast = some d → (g.data d).object = o →
      Knows direct g tls count (.looking op o (.fast d))
  | scan {op o i} : (∀ d, tls.fast = some d → (g.data d).object ≠ o) →
      (∀ j item, j < i → tls.list[j]? = some item → (g.data item.data).object ≠ o) →
      tls.HasRoom →
      Knows direct g tls count (.looking op o (.scan (fastCacheOccupied direct tls) i))
  | item {op o i item} : tls.list[i]? = some item →
      (g.data item.data).object = o → Knows direct g tls count (.looking op o (.item i))
  | locking {op o} : (∀ d, 0 < tls.recorded d → (g.data d).object ≠ o) →
      tls.HasRoom →
      Knows direct g tls count (.looking op o (.locking (fastCacheOccupied direct tls)))
  | saving {op o d} : op ≠ .exit → (g.data d).object = o →
      tls.recorded d = 0 → (∀ d, 0 < tls.recorded d → (g.data d).object ≠ o) → tls.HasRoom →
      Knows direct g tls count (.saving op o (fastCacheOccupied direct tls) (some d))
  | dropping {o : ω} {d : Nat} : tls.recorded d = 0 → count o = 0 →
      Knows direct g tls count (.dropping .exit o d)
  | entering {op o d} : op ≠ .exit → 0 < tls.recorded d →
      (g.data d).object = o → Knows direct g tls count (.done op o (some d))
  | exiting {o : ω} {d : Nat} : (0 < tls.recorded d → (g.data d).object = o) →
      (tls.recorded d = 0 → count o = 0) → Knows direct g tls count (.done .exit o (some d))

variable {op : Op} {look : Look}

@[simp] theorem Pc.ahead_looking (o' : ω) :
    (Pc.looking op o look).ahead o' = if op = .exit ∧ o' = o then 1 else 0 := by
  cases op with
  | enter | tryEnter => rfl
  | exit => simp [Pc.ahead]

theorem Pc.ahead_done (hop : op ≠ .exit) (data) (o' : ω) :
    (Pc.done op o data).ahead o' = if o' = o then 1 else 0 := by
  cases op with
  | enter | tryEnter => rfl
  | exit => exact absurd rfl hop

@[simp] theorem Pc.leaving_looking (o' : ω) :
    (Pc.looking op o look).leaving o' = if op = .exit ∧ o' = o then 1 else 0 := by
  cases op with
  | enter | tryEnter => rfl
  | exit => simp [Pc.leaving]

theorem Pc.leaving_done (hop : op ≠ .exit) (data) (o' : ω) :
    (Pc.done op o data).leaving o' = 0 := by
  cases op with
  | enter | tryEnter => rfl
  | exit => exact absurd rfl hop

theorem Pc.ahead_acquiring (hop : op ≠ .exit) (o' : ω) : (Pc.looking op o look).ahead o' = 0 := by
  rw [Pc.ahead_looking, if_neg fun heq => hop heq.1]

theorem Pc.leaving_acquiring (hop : op ≠ .exit) (o' : ω) :
    (Pc.looking op o look).leaving o' = 0 := by
  rw [Pc.leaving_looking, if_neg fun heq => hop heq.1]

/-! ### Other threads -/

theorem Counted.same (hok : g.Ok stripe) (hsame : Same u g g')
    (h : Counted direct u g l extra) : Counted direct u g' l extra := by
  have hobject : ∀ d, 0 < l.tls.recorded d → (g'.data d).object = (g.data d).object := fun d hd =>
    hsame.object d ((h.users d).2 (.inl hd))
  refine ⟨h.tls, fun d => by rw [hsame.users d, h.users d], fun d hd => ?_, fun o ho => ?_,
    fun d hd => ?_, fun d hd => lt_of_lt_of_le (h.unlocks d hd) hsame.next, h.log⟩
  · rw [hobject d hd]
    exact h.recorded d hd
  · obtain ⟨d, hd, hdo⟩ := h.covered o ho
    exact ⟨d, hd, by rw [hobject d hd, hdo]⟩
  · rw [hsame.mutex d hd]
    split
    next hlt =>
      rw [h.mutex d hlt]
      split
      next hrec => rw [hobject d hrec]
      · rfl
    next hlt =>
      have hrec : ¬0 < l.tls.recorded d := fun hrec =>
        hlt (hok.below d u ((h.users d).2 (.inl hrec)))
      rw [if_neg hrec, if_neg fun hunlocks => hlt (h.unlocks d hunlocks)]

theorem Knows.same {count} (hsame : Same u g g') (hat : Knows direct g l.tls count l.pc)
    (h : Counted direct u g l extra) : Knows direct g' l.tls count l.pc := by
  have hobject : ∀ d, 0 < l.tls.recorded d → (g'.data d).object = (g.data d).object := fun d hd =>
    hsame.object d ((h.users d).2 (.inl hd))
  have hfast : ∀ d, l.tls.fast = some d → (g'.data d).object = (g.data d).object := fun d hd =>
    hobject d (h.tls.recorded_fast hd)
  have hlist : ∀ i (item : SyncCacheItem), l.tls.list[i]? = some item →
      (g'.data item.data).object = (g.data item.data).object := fun i item hitem =>
    hobject _ (h.tls.recorded_list hitem)
  obtain ⟨tls, pc, depth, log⟩ := l
  dsimp only at hat ⊢
  cases hat with
  | idle => exact .idle
  | start => exact .start
  | fast hd hobj => exact .fast hd (by rw [hfast _ hd, hobj])
  | scan hmiss hpassed hroom =>
    exact .scan (fun d hd => by rw [hfast d hd]; exact hmiss d hd)
      (fun j item hj hitem => by rw [hlist j item hitem]; exact hpassed j item hj hitem) hroom
  | item hitem hobj => exact .item hitem (by rw [hlist _ _ hitem, hobj])
  | locking hnone hroom =>
    exact .locking (fun d hd => by rw [hobject d hd]; exact hnone d hd) hroom
  | @saving op o d hop hobj hrec hnone hroom =>
    have hd : (g'.data d).object = (g.data d).object := hsame.object d ((h.users d).2 (.inr rfl))
    exact .saving hop (by rw [hd, hobj]) hrec
      (fun d hd => by rw [hobject d hd]; exact hnone d hd) hroom
  | dropping hrec hcount => exact .dropping hrec hcount
  | entering hop hrec hobj => exact .entering hop hrec (by rw [hobject _ hrec, hobj])
  | exiting hobj hcount =>
    exact .exiting (fun hrec => by rw [hobject _ hrec, hobj hrec]) hcount

/-! ### The thread that steps -/

variable (h : Counted direct t g l extra)
include h

theorem Counted.congr (htls : l'.tls.Ok direct)
    (hrec : l'.tls.recorded = l.tls.recorded) (hcounts : l'.pc.counts = l.pc.counts)
    (hahead : ∀ o, l'.depth o + extra o + l'.pc.ahead o = l.depth o + extra o + l.pc.ahead o)
    (hleaving : ∀ o, l'.depth o + l'.pc.leaving o = l.depth o + l.pc.leaving o)
    (hunlocks : l'.pc.unlocks = l.pc.unlocks) (hlog : l'.log = l.log) :
    Counted direct t g l' extra := by
  refine ⟨htls, fun d => ?_, fun d => ?_, fun o => ?_, fun d => ?_, ?_, ?_⟩
  · rw [hrec, hcounts]
    exact h.users d
  · rw [hrec, hahead]
    exact h.recorded d
  · rw [hrec, hahead]
    exact h.covered o
  · rw [hrec, hleaving, hunlocks]
    exact h.mutex d
  · rw [hunlocks]
    exact h.unlocks
  · rw [hlog]
    exact h.log

variable (hok : g.Ok stripe) (hd : 0 < l.tls.recorded d)
include hok hd

theorem Counted.below : d < g.next :=
  hok.below d t ((h.users d).2 (.inl hd))

theorem Counted.inj {e}
    (he : 0 < l.tls.recorded e) (heq : (g.data d).object = (g.data e).object) : d = e :=
  hok.inj d e (h.below hok hd) (h.below hok he) heq

theorem Counted.threadCount_pos : 0 < (g.data d).threadCount := by
  rw [hok.count d (h.below hok hd)]
  have hcard := Finset.card_pos.2 ⟨t, (h.users d).2 (.inl hd)⟩
  omega

omit hok hd

theorem Counted.goto {look look'} (hpc : l.pc = .looking op o look) :
    Counted direct t g (l.goto (.looking op o look')) extra := by
  refine h.congr h.tls rfl ?_ (fun o' => ?_) (fun o' => ?_) ?_ rfl
  · rw [hpc]
    rfl
  · rw [hpc]
    simp [Local.goto]
  · rw [hpc]
    simp [Local.goto]
  · rw [hpc]
    simp [Local.goto]

omit h

/-- Threads only exit objects that they are inside of. -/
def Nested (l : Local ω) (op : Op) (o : ω) : Prop := op = .exit → 0 < l.depth o

variable (h : Counted direct t g l extra)
include h

theorem Counted.begin (hpc : l.pc = .idle)
    (hmay : Nested l op o) : Counted direct t g (l.begin op o) extra := by
  by_cases hop : op = .exit
  · subst hop
    have hdepth : 0 < l.depth o := hmay rfl
    have hsum : ∀ o', update l.depth o (l.depth o - 1) o' + (if o' = o then 1 else 0) =
        l.depth o' := by
      intro o'
      by_cases ho : o' = o
      · subst ho
        rw [update_self, if_pos rfl]
        omega
      · rw [update_of_ne ho, if_neg ho, Nat.add_zero]
    refine h.congr h.tls rfl ?_ (fun o' => ?_) (fun o' => ?_) ?_ rfl
    · rw [hpc]
      rfl
    · rw [hpc, Nat.add_right_comm]
      exact congrArg (· + extra o') (hsum o')
    · rw [hpc]
      exact hsum o'
    · rw [hpc]
      rfl
  · have hdepth : (l.begin op o).depth = l.depth := if_neg hop
    refine h.congr h.tls rfl ?_ (fun o' => ?_) (fun o' => ?_) ?_ rfl
    · rw [hpc]
      rfl
    · rw [hpc, hdepth]
      exact congrArg (l.depth o' + extra o' + ·) (Pc.ahead_acquiring hop o')
    · rw [hpc, hdepth]
      exact congrArg (l.depth o' + ·) (Pc.leaving_acquiring hop o')
    · rw [hpc]
      exact Pc.unlocks_looking

theorem Counted.acquired {tls'} (hop : op ≠ .exit) (hobject : (g.data d).object = o)
    (hahead : ∀ o, l.pc.ahead o = 0) (hleaving : ∀ o, l.pc.leaving o = 0)
    (hunlocks : l.pc.unlocks = none) (hcounts : ∀ e, l.pc.counts = some e → e = d)
    (hmem : t ∈ g.users d) (hothers : ∀ e, 0 < l.tls.recorded e → (g.data e).object = o → e = d)
    (hcount : l.tls.recorded d = l.depth o + extra o) (htls : tls'.Ok direct)
    (hrec : tls'.recorded = update l.tls.recorded d (l.tls.recorded d + 1)) :
    Counted direct t g { l with tls := tls', pc := .done op o (some d) } extra := by
  have hself : tls'.recorded d = l.tls.recorded d + 1 := by rw [hrec, update_self]
  have hne : ∀ e, e ≠ d → tls'.recorded e = l.tls.recorded e := fun e he => by
    rw [hrec, update_of_ne he]
  have hnew : 0 < tls'.recorded d := hself ▸ succ_pos _
  refine ⟨htls, fun e => ?_, fun e he => ?_, fun o' ho' => ?_, fun e he => ?_, ?_, h.log⟩
  · change _ ↔ 0 < tls'.recorded e ∨ none = some e
    by_cases hed : e = d
    · simp [hed, hmem, hnew]
    · rw [hne e hed, h.users e]
      simp [mt (hcounts e) hed]
  · rw [Pc.ahead_done hop]
    by_cases hed : e = d
    · rw [hed, hself, hcount, hobject, if_pos rfl]
    · rw [hne e hed] at he ⊢
      rw [h.recorded e he, hahead, if_neg (mt (hothers e he) hed)]
  · rw [Pc.ahead_done hop] at ho'
    by_cases ho : o' = o
    · exact ⟨d, hnew, hobject.trans ho.symm⟩
    · rw [if_neg ho] at ho'
      obtain ⟨e, he, heo⟩ := h.covered o' (Nat.add_pos_left ho' _)
      by_cases hed : e = d
      · exact ⟨e, hed ▸ hnew, heo⟩
      · exact ⟨e, (hne e hed).symm ▸ he, heo⟩
  · rw [h.mutex e he, hleaving, hunlocks, Pc.leaving_done hop, Pc.unlocks_done hop]
    by_cases hed : e = d
    · rw [hed, if_pos hnew, hobject]
      split
      · rfl
      · simp
        omega
    · rw [hne e hed]
  · intro e he
    rw [Pc.unlocks_done hop] at he
    cases he

theorem Counted.foundEnter (hok : g.Ok stripe)
    {tls'} (hpc : l.pc = .looking op o look) (hop : op ≠ .exit)
    (hd : 0 < l.tls.recorded d) (hobject : (g.data d).object = o) (htls : tls'.Ok direct)
    (hrec : tls'.recorded = update l.tls.recorded d (l.tls.recorded d + 1)) :
    Counted direct t g { l with tls := tls', pc := .done op o (some d) } extra := by
  have hcount := h.recorded d hd
  rw [hpc, Pc.ahead_acquiring hop, hobject] at hcount
  refine h.acquired hop hobject ?_ ?_ ?_ ?_ ((h.users d).2 (.inl hd)) (fun e he heq => ?_) hcount
    htls hrec
  · exact hpc ▸ Pc.ahead_acquiring hop
  · exact hpc ▸ Pc.leaving_acquiring hop
  · rw [hpc, Pc.unlocks_looking]
  · rw [hpc]
    exact nofun
  · exact h.inj hok he hd (heq.trans hobject.symm)

/-- A release found the record in a cache: the depth has dropped, the count follows. -/
theorem Counted.foundExit (hok : g.Ok stripe) {r} (hpc : l.pc = .looking .exit o look)
    (hd : 0 < l.tls.recorded d) (hobject : (g.data d).object = o) (htls : r.1.Ok direct)
    (hrec : r.1.recorded = update l.tls.recorded d (l.tls.recorded d - 1))
    (hdrop : r.2 ↔ l.tls.recorded d = 1) :
    Counted direct t g (l.found .exit o d r) extra ∧
      Knows direct g (l.found .exit o d r).tls ((l.found .exit o d r).count extra)
        (l.found .exit o d r).pc := by
  obtain ⟨tls, pc, depth, log⟩ := l
  obtain ⟨tls', drop⟩ := r
  obtain rfl : pc = _ := hpc
  have hcount : tls.recorded d = depth o + extra o + 1 := by
    have := h.recorded d hd
    rw [hobject] at this
    simpa using this
  have hself : tls'.recorded d = depth o + extra o := by
    rw [show tls'.recorded = _ from hrec, update_self]
    dsimp only
    omega
  have hne : ∀ e, e ≠ d → tls'.recorded e = tls.recorded e := fun e he => by
    rw [show tls'.recorded = _ from hrec, update_of_ne he]
  have hother : ∀ e, e ≠ d → 0 < tls.recorded e → (g.data e).object ≠ o := fun e he hpos heq =>
    he (h.inj hok hpos hd (heq.trans hobject.symm))
  have hcovered : ∀ o', 0 < depth o' + extra o' →
      ∃ e, 0 < tls'.recorded e ∧ (g.data e).object = o' := by
    intro o' ho'
    obtain ⟨e, he, heo⟩ := h.covered o' (Nat.add_pos_left ho' _)
    refine ⟨e, ?_, heo⟩
    by_cases hed : e = d
    · subst hed
      rw [hself, ← hobject, heo]
      exact ho'
    · rw [hne e hed]
      exact he
  have hrecorded : ∀ e, 0 < tls'.recorded e →
      tls'.recorded e = depth (g.data e).object + extra (g.data e).object := by
    intro e he
    by_cases hed : e = d
    · rw [hed, hself, hobject]
    · rw [hne e hed] at he ⊢
      have hold := h.recorded e he
      rw [Pc.ahead_looking, if_neg (fun heq => hother e hed he heq.2)] at hold
      exact hold
  have hmutex : ∀ e, e < g.next → (g.data e).mutex.depth t =
      if 0 < tls'.recorded e then
        depth (g.data e).object + if (g.data e).object = o then 1 else 0
      else if e = d then 1 else 0 := by
    intro e he
    rw [h.mutex e he]
    by_cases hed : e = d
    · subst hed
      rw [if_pos hd, hobject]
      dsimp only
      rw [Pc.leaving_looking, if_pos ⟨rfl, rfl⟩, if_pos rfl, if_pos rfl, hself]
      split
      · rfl
      · omega
    · rw [hne e hed, if_neg hed]
      simp
  have husers : ∀ e, t ∈ g.users e ↔ 0 < tls'.recorded e ∨ e = d := by
    intro e
    rw [h.users e]
    by_cases hed : e = d
    · subst hed
      exact ⟨fun _ => .inr rfl, fun _ => .inl hd⟩
    · rw [hne e hed]
      simp [hed]
  have hunlocks : ∀ e, some d = some e → e < g.next := by
    rintro e ⟨rfl⟩
    exact h.below hok hd
  have hsame : ∀ e, some d = some e ↔ e = d := fun e => some_inj.trans eq_comm
  cases drop with
  | false =>
    have hkeep : 0 < tls'.recorded d := by
      by_contra hzero
      cases hdrop.2 (by dsimp only; omega)
    refine ⟨⟨htls, fun e => ?_, hrecorded, hcovered, fun e he => ?_, hunlocks, h.log⟩,
      .exiting (fun _ => hobject) fun hzero => ?_⟩
    · refine (husers e).trans ?_
      change _ ↔ 0 < tls'.recorded e ∨ none = some e
      by_cases hed : e = d
      · simp [hed, hkeep]
      · simp [hed]
    · refine (hmutex e he).trans ?_
      simp only [← hsame e]
      rfl
    · exact absurd (show tls'.recorded d = 0 from hzero) hkeep.ne'
  | true =>
    have hlast : tls.recorded d = 1 := hdrop.1 rfl
    refine ⟨⟨htls, fun e => ?_, hrecorded, hcovered, fun e he => ?_, hunlocks, h.log⟩,
      .dropping (hself.trans ?_) ?_⟩
    · refine (husers e).trans ?_
      rw [← hsame e]
      rfl
    · refine (hmutex e he).trans ?_
      simp only [← hsame e]
      rfl
    · omega
    · change depth o + extra o = 0
      omega

theorem Counted.found (hok : g.Ok stripe) {r} (hpc : l.pc = .looking op o look)
    (hd : 0 < l.tls.recorded d) (hobject : (g.data d).object = o) (htls : r.1.Ok direct)
    (hrec : r.1.recorded = update l.tls.recorded d (op.usage.apply (l.tls.recorded d)))
    (hdrop : r.2 ↔ op.usage = .release ∧ l.tls.recorded d = 1) :
    Counted direct t g (l.found op o d r) extra ∧
      Knows direct g (l.found op o d r).tls ((l.found op o d r).count extra)
        (l.found op o d r).pc := by
  by_cases hop : op = .exit
  · subst hop
    exact h.foundExit hok hpc hd hobject htls hrec (hdrop.trans (and_iff_right rfl))
  · have husage : op.usage = .acquire := usage_eq_acquire hop
    have hkeep : r.2 = false := Bool.eq_false_iff.2 fun hdropped => by
      rw [husage] at hdrop
      exact nomatch (hdrop.1 hdropped).1
    have hpc' : (l.found op o d r).pc = .done op o (some d) := by
      unfold Local.found
      rw [hkeep]
      rfl
    rw [husage] at hrec
    have hcounted := h.foundEnter hok hpc hop hd hobject htls hrec
    have hpos : 0 < r.1.recorded d := by
      rw [hrec, update_self]
      exact succ_pos _
    have hlocal : l.found op o d r = { l with tls := r.1, pc := .done op o (some d) } := by
      rw [← hpc']
      rfl
    rw [hlocal]
    exact ⟨hcounted, .entering hop hpos hobject⟩

/-- **A new record is saved**, of an object that the thread was not inside of. -/
theorem Counted.save {occupied tls'} (hpc : l.pc = .saving op o occupied (some d))
    (hop : op ≠ .exit) (hobject : (g.data d).object = o) (hd : l.tls.recorded d = 0)
    (hnone : ∀ d, 0 < l.tls.recorded d → (g.data d).object ≠ o) (htls : tls'.Ok direct)
    (hrec : tls'.recorded = update l.tls.recorded d 1) :
    Counted direct t g { l with tls := tls', pc := .done op o (some d) } extra := by
  have hcount : l.depth o + extra o = 0 := by
    by_contra hpos
    obtain ⟨e, he, heo⟩ := h.covered o (Nat.add_pos_left (Nat.pos_of_ne_zero hpos) _)
    exact hnone e he heo
  refine h.acquired hop hobject ?_ ?_ ?_ ?_ ((h.users d).2 (.inr (by rw [hpc]; rfl)))
    (fun e he heq => absurd heq (hnone e he)) (hd.trans hcount.symm) htls (hd.symm ▸ hrec)
  · exact hpc ▸ fun _ => rfl
  · exact hpc ▸ fun _ => rfl
  · rw [hpc]
    rfl
  · rw [hpc]
    rintro e ⟨⟩
    rfl

theorem Counted.join (hok : g.Ok stripe) {occupied} (hpc : l.pc = .looking op o look)
    (hop : op ≠ .exit) (hjoined : Joined t o d g g') :
    Counted direct t g' (l.goto (.saving op o occupied (some d))) extra := by
  obtain ⟨tls, pc, depth, log⟩ := l
  obtain rfl : pc = _ := hpc
  have husers : ∀ e, t ∈ g.users e ↔ 0 < tls.recorded e := fun e => by
    rw [h.users e]
    simp
  have hobject : ∀ e, 0 < tls.recorded e → (g'.data e).object = (g.data e).object := fun e he =>
    hjoined.kept e t ((husers e).2 he)
  refine ⟨h.tls, fun e => ?_, fun e he => ?_, fun o' ho' => ?_, fun e he => ?_,
    nofun, h.log⟩
  · change _ ↔ 0 < tls.recorded e ∨ some d = some e
    rw [hjoined.users, ← husers e]
    by_cases hed : e = d
    · subst hed
      simp
    · rw [update_of_ne hed]
      simp [Ne.symm hed]
  · have hold := h.recorded e he
    rw [Pc.ahead_acquiring hop] at hold
    rw [hobject e he]
    exact hold
  · obtain ⟨e, he, heo⟩ := h.covered o' (Nat.add_pos_left ho' _)
    exact ⟨e, he, by rw [hobject e he, heo]⟩
  · rw [hjoined.mutex e t he]
    change _ = if 0 < tls.recorded e then depth _ + 0 else if none = some e then 1 else 0
    split
    next hlt =>
      have hold := h.mutex e hlt
      rw [Pc.leaving_acquiring hop, Pc.unlocks_looking] at hold
      rw [hold]
      by_cases hrec : 0 < tls.recorded e
      · rw [if_pos hrec, if_pos hrec, hobject e hrec]
      · rw [if_neg hrec, if_neg hrec]
    next hlt =>
      rw [if_neg fun hrec => hlt (hok.below e t ((husers e).2 hrec))]
      rfl

omit h

/-! ### Mutexes -/

theorem update_add_one (depth : ω → Nat) (o o' : ω) :
    update depth o (depth o + 1) o' = depth o' + if o' = o then 1 else 0 := by
  by_cases ho : o' = o
  · rw [ho, update_self, if_pos rfl]
  · rw [update_of_ne ho, if_neg ho, Nat.add_zero]

variable (h : Counted direct t g l extra)
include h

/-- The thread enters: the lock count was ahead of the depth. -/
theorem Counted.lock (hok : g.Ok stripe) {m r}
    (hpc : l.pc = .done op o (some d)) (hop : op ≠ .exit) (hd : 0 < l.tls.recorded d)
    (hobject : (g.data d).object = o) (hm : m.depth t = (g.data d).mutex.depth t + 1) :
    Counted direct t (g.setMutex d m) (l.entered op o r) extra := by
  obtain ⟨tls, pc, depth, log⟩ := l
  obtain rfl : pc = _ := hpc
  refine ⟨h.tls, h.users, fun e he => ?_, fun o' ho' => ?_, fun e he => ?_,
    nofun, fun o' r' hr => ?_⟩
  · rw [setMutex_object]
    change tls.recorded e = update depth o (depth o + 1) _ + extra _ + 0
    have hold := h.recorded e he
    dsimp only at hold
    rw [Pc.ahead_done hop] at hold
    rw [update_add_one, hold]
    omega
  · change 0 < update depth o (depth o + 1) o' + extra o' + 0 at ho'
    rw [update_add_one] at ho'
    obtain ⟨e, he, heo⟩ := h.covered o' (by
      dsimp only
      rw [Pc.ahead_done hop]
      omega)
    exact ⟨e, he, by rw [setMutex_object, heo]⟩
  · rw [setMutex_mutex, setMutex_object]
    change _ = if 0 < tls.recorded e then update depth o (depth o + 1) _ + 0
      else if none = some e then 1 else 0
    rw [update_add_one]
    have hold := h.mutex e he
    rw [Pc.leaving_done hop, Pc.unlocks_done hop] at hold
    by_cases hed : e = d
    · subst hed
      rw [if_pos hd] at hold ⊢
      rw [if_pos rfl, hm, hold, hobject, if_pos rfl]
    · rw [if_neg hed, hold]
      by_cases hrec : 0 < tls.recorded e
      · have hne : (g.data e).object ≠ o := fun heq =>
          hed (h.inj hok hrec hd (heq.trans hobject.symm))
        rw [if_pos hrec, if_pos hrec, if_neg hne]
      · rw [if_neg hrec, if_neg hrec]
  · rcases mem_append.1 hr with hold | hnew
    · exact h.log o' r' hold
    · exact absurd (congrArg fst (mem_singleton.1 hnew)).symm hop

/-- The try has failed: what it counted stays. -/
theorem Counted.fail (hpc : l.pc = .done .tryEnter o (some d)) :
    Counted direct t g (l.returned .tryEnter o .no) (update extra o (extra o + 1)) := by
  obtain ⟨tls, pc, depth, log⟩ := l
  obtain rfl : pc = _ := hpc
  have hsum : ∀ o', depth o' + update extra o (extra o + 1) o' + 0 =
      depth o' + extra o' + if o' = o then 1 else 0 := fun o' => by
    rw [update_add_one]
    omega
  refine ⟨h.tls, h.users, fun e he => ?_, fun o' ho' => ?_, h.mutex, nofun,
    fun o' r hr => ?_⟩
  · exact (h.recorded e he).trans (hsum _).symm
  · exact h.covered o' ((hsum o').symm ▸ ho')
  · rcases mem_append.1 hr with hold | hnew
    · exact h.log o' r hold
    · exact nomatch congrArg fst (mem_singleton.1 hnew)

/-- The thread has left: it held the mutex once more than it is inside. -/
theorem Counted.unlock (hok : g.Ok stripe) {m}
    (hpc : l.pc = .done .exit o (some d)) (hobject : 0 < l.tls.recorded d → (g.data d).object = o)
    (hcount : l.tls.recorded d = 0 → l.count extra o = 0)
    (hm : (g.data d).mutex.depth t = m.depth t + 1) :
    Counted direct t (g.setMutex d m) (l.returned .exit o .success) extra := by
  obtain ⟨tls, pc, depth, log⟩ := l
  obtain rfl : pc = _ := hpc
  refine ⟨h.tls, h.users, fun e he => ?_, fun o' ho' => ?_, fun e he => ?_,
    nofun, fun o' r' hr => ?_⟩
  · rw [setMutex_object]
    exact h.recorded e he
  · obtain ⟨e, he, heo⟩ := h.covered o' ho'
    exact ⟨e, he, by rw [setMutex_object, heo]⟩
  · rw [setMutex_mutex, setMutex_object]
    change _ = if 0 < tls.recorded e then depth _ + 0 else if none = some e then 1 else 0
    have hold := h.mutex e he
    change _ = if 0 < tls.recorded e then depth _ + (if _ = o then 1 else 0)
      else if some d = some e then 1 else 0 at hold
    by_cases hed : e = d
    · subst hed
      rw [if_pos rfl]
      by_cases hrec : 0 < tls.recorded e
      · rw [if_pos hrec, hm, hobject hrec, if_pos rfl] at hold
        rw [if_pos hrec, hobject hrec]
        omega
      · rw [if_neg hrec, hm, if_pos rfl] at hold
        rw [if_neg hrec]
        simpa using hold
    · rw [if_neg hed, hold]
      by_cases hrec : 0 < tls.recorded e
      · have hne : (g.data e).object ≠ o := by
          intro heq
          have hinside := h.recorded e hrec
          rw [heq] at hinside
          change tls.recorded e = depth o + extra o + 0 at hinside
          rcases Nat.eq_zero_or_pos (tls.recorded d) with hzero | hpos
          · have hzero' : depth o + extra o = 0 := hcount hzero
            omega
          · exact hed (h.inj hok hrec hpos (heq.trans (hobject hpos).symm))
        rw [if_pos hrec, if_pos hrec, if_neg hne]
      · rw [if_neg hrec, if_neg hrec]
        simp [Ne.symm hed]
  · rcases mem_append.1 hr with hold | hnew
    · exact h.log o' r' hold
    · exact (mk.inj (mk.inj (mem_singleton.1 hnew)).2).2

/-- The mutex is held as long as the exit has not ended. -/
theorem Counted.holds (hpc : l.pc = .done .exit o (some d))
    (hobject : 0 < l.tls.recorded d → (g.data d).object = o) : 0 < (g.data d).mutex.depth t := by
  have hmutex := h.mutex d (h.unlocks d (by rw [hpc]; rfl))
  rw [hpc] at hmutex
  rw [hmutex]
  split
  next hrec =>
    rw [hobject hrec]
    simp [Pc.leaving]
  · simp [Pc.unlocks]

omit h

/-! ### The decrement -/

theorem Counted.decrement (h : Counted direct t g l extra) (hpc : l.pc = .dropping .exit o d)
    (hd : l.tls.recorded d = 0) :
    Counted direct t (g.decrement w t d) (l.goto (.done .exit o (some d))) extra := by
  obtain ⟨tls, pc, depth, log⟩ := l
  obtain rfl : pc = _ := hpc
  refine ⟨h.tls, fun e => ?_, fun e he => ?_, fun o' ho' => ?_, fun e he => ?_, h.unlocks, h.log⟩
  · rw [mem_decrement_users, h.users e]
    change (0 < tls.recorded e ∨ some d = some e) ∧ ¬(e = d ∧ t = t) ↔
      0 < tls.recorded e ∨ none = some e
    by_cases hed : e = d
    · simp [hed, show tls.recorded d = 0 from hd]
    · simp [hed, Ne.symm hed]
  · rw [decrement_object]
    exact h.recorded e he
  · obtain ⟨e, he, heo⟩ := h.covered o' ho'
    exact ⟨e, he, by rw [decrement_object, heo]⟩
  · rw [decrement_mutex, decrement_object]
    exact h.mutex e he

/-! ### Steps -/

/-- The invariant of a thread. -/
def Tracked (direct : Bool) (extra : ω → Nat) (t : τ) (g : Shared τ ω σ) (l : Local ω) : Prop :=
  Counted direct t g l extra ∧ Knows direct g l.tls (l.count extra) l.pc

theorem Tracked.same (hok : g.Ok stripe) (hsame : Same u g g') (h : Tracked direct extra u g l) :
    Tracked direct extra u g' l :=
  ⟨h.1.same hok hsame, h.2.same hsame h.1⟩

theorem Tracked.init (memory : Nat → SyncData τ ω) :
    Tracked direct (fun _ => 0) t (Shared.init memory : Shared τ ω σ) Local.init := by
  have hrec : ∀ d, Tls.init.recorded d = 0 := fun d => rfl
  have htls : Tls.init.Ok direct :=
    ⟨nodup_nil, nofun, fun _ => rfl, nofun⟩
  refine ⟨⟨htls, fun d => ?_, fun d hd => ?_, fun o ho => ?_, fun d hd => ?_, fun d hd => ?_,
    fun o r hr => ?_⟩, .idle⟩
  · simp [Shared.init, Local.init, hrec, Pc.counts]
  · exact absurd (hrec d) (ne_of_gt hd)
  · exact absurd ho (lt_irrefl 0)
  · exact absurd hd (not_lt_zero d)
  · cases hd
  · cases hr

/-- How often a thread has tried in vain to enter an object. -/
def Local.failed (l : Local ω) (o : ω) : Nat := l.log.count (.tryEnter, o, .no)

theorem Counted.nodup (h : Counted direct t g l extra) (hok : g.Ok stripe) :
    (l.tls.items.map fun item => (g.data item.data).object).Nodup := by
  have hpos : ∀ d ∈ l.tls.items.map SyncCacheItem.data, 0 < l.tls.recorded d := fun d hd =>
    (h.tls.recorded_pos_iff d).2 (List.mem_map.1 hd)
  have hnodup := h.tls.nodup.map_on fun d hd e he heq => h.inj hok (hpos d hd) (hpos e he) heq
  rwa [List.map_map] at hnodup

theorem Counted.fetch (h : Counted direct t g l extra) (hok : g.Ok stripe)
    (hw : w.Fits τ extra l) : w.unsignedInt (l.tls.list.length * 2) = l.tls.list.length * 2 := by
  have hnodup := (h.nodup hok).sublist ((List.sublist_append_right _ l.tls.list).map _)
  have hfits := hw.objects (l.tls.list.map fun item => (g.data item.data).object).toFinset
  rwa [List.toFinset_card_of_nodup hnodup, length_map] at hfits

theorem Counted.counts (h : Counted direct t g l extra) (hw : w.Fits τ extra l)
    (hpc : l.pc = .looking op o look) (hd : 0 < l.tls.recorded d) (hobject : (g.data d).object = o)
    (hop : op.usage = .acquire) : w.Counts (l.tls.recorded d) := by
  have hexit : op ≠ .exit := by
    rintro rfl
    cases hop
  have hcount := h.recorded d hd
  rw [hpc, Pc.ahead_acquiring hexit, hobject] at hcount
  rw [hcount]
  exact hw.counts op o look hpc hexit

theorem Local.failed_append {r} (hlog : l'.log = l.log ++ [(op, o, r)]) (hr : r ≠ .no) :
    l'.failed = l.failed := by
  funext o'
  simp [Local.failed, hlog, count_eq_zero, hr.symm]

theorem Local.failed_returned :
    (l.returned .tryEnter o .no).failed = update l.failed o (l.failed o + 1) := by
  funext o'
  rw [update_add_one]
  by_cases ho : o' = o
  · simp [Local.failed, Local.returned, ho]
  · simp [Local.failed, Local.returned, ho, Ne.symm ho]

/-- The next step of the thread makes a try fail. -/
def FailsTry (t : τ) (g : Shared τ ω σ) (l : Local ω) : Prop :=
  ∃ o d, l.pc = .done .tryEnter o (some d) ∧ (g.data d).mutex.lock t = none

/-- What a step keeps: the records, the invariant of the thread, what the other threads
know, and the objects of the records in use. -/
structure Keeps (stripe : ω → σ) (direct : Bool) (extra : ω → Nat) (t : τ)
    (g : Shared τ ω σ) (g' : Shared τ ω σ) (l' : Local ω) : Prop where
  ok : g'.Ok stripe
  tracked : Tracked direct extra t g' l'
  same : ∀ u, u ≠ t → Same u g g'
  kept : ∀ d u, u ∈ g.users d → (g'.data d).object = (g.data d).object

variable [DecidableEq σ]

/-- **One step.** -/
theorem Step.tracked {may} (hw : w.Fits τ extra l) (hmay : ∀ op o, may l op o → Nested l op o)
    (hok : g.Ok stripe) (htracked : Tracked direct extra t g l)
    (hstep : Step w stripe direct may t g l g' l') :
    ∃ extra', Keeps stripe direct extra' t g g' l' ∧ (¬FailsTry t g l → extra' = extra) ∧
      (extra = l.failed → extra' = l'.failed) := by
  obtain ⟨h, hat⟩ := htracked
  -- a step in which no try fails
  have hsame : Keeps stripe direct extra t g g' l' → l'.failed = l.failed →
      ∃ extra', Keeps stripe direct extra' t g g' l' ∧ (¬FailsTry t g l → extra' = extra) ∧
        (extra = l.failed → extra' = l'.failed) :=
    fun hkeeps hfailed => ⟨extra, hkeeps, fun _ => rfl, fun heq => heq.trans hfailed.symm⟩
  -- one that only concerns the thread
  have hown (hg : g' = g) (hlog : l'.log = l.log) (htracked : Tracked direct extra t g l') :=
    hsame (by rw [hg]; exact ⟨hok, htracked, fun _ _ => .refl, fun _ _ _ => rfl⟩)
      (by unfold Local.failed; rw [hlog])
  cases hstep with
  | call op o hpc hcall => exact hown rfl rfl ⟨h.begin hpc (hmay op o hcall), .start⟩
  | hit hpc hfast hobject =>
    rw [h.tls.fastData_eq] at hfast
    exact hown rfl rfl ⟨h.goto hpc, .fast hfast hobject⟩
  | @miss op o hpc hfast =>
    rw [h.tls.fastData_eq] at hfast
    obtain ⟨hrec, htls, hroom⟩ := fetchCache_spec h.tls (h.fetch hok hw)
    have hcounted : Counted direct t g
        (l.goto (.looking op o (.scan (fastCacheOccupied direct l.tls) 0))) extra := h.goto hpc
    refine hown rfl rfl ⟨hcounted.congr htls hrec rfl (fun _ => rfl) (fun _ => rfl) rfl rfl, ?_⟩
    exact .scan hfast (fun j item hj => absurd hj (not_lt_zero j)) hroom
  | @fastBuggy op o d hpc hbuggy =>
    rw [hpc] at hat
    cases hat with
    | fast hfast hobject =>
      have hthreads := h.threadCount_pos hok (h.tls.recorded_fast hfast)
      have hcount := h.tls.pos ⟨d, l.tls.count⟩ (by simp [Tls.items, hfast])
      dsimp only at hcount
      omega
  | @useFast op o d hpc _ _ =>
    rw [hpc] at hat
    cases hat with
    | fast hfast hobject =>
      obtain ⟨hd, htls, hrec, hdrop⟩ := useFast_spec h.tls hfast op.usage
        (h.counts hw hpc (h.tls.recorded_fast hfast) hobject)
      exact hown rfl rfl (h.found hok hpc hd hobject htls hrec hdrop)
  | scan hpc hitem hobject =>
    rw [hpc] at hat
    cases hat with
    | scan hmiss hpassed hroom =>
      refine hown rfl rfl ⟨h.goto hpc, .scan hmiss (fun j item' hj hitem' => ?_) hroom⟩
      rcases Nat.lt_succ_iff_lt_or_eq.1 hj with hlt | rfl
      · exact hpassed j item' hlt hitem'
      · obtain rfl := some.inj (hitem.symm.trans hitem')
        exact hobject
  | scanHit hpc hitem hobject => exact hown rfl rfl ⟨h.goto hpc, .item hitem hobject⟩
  | scanEnd hpc hend =>
    rw [hpc] at hat
    cases hat with
    | scan hmiss hpassed hroom =>
      refine hown rfl rfl ⟨h.goto hpc, .locking (fun d hd => ?_) hroom⟩
      rcases h.tls.fast_or_list hd with hfast | ⟨j, item, hitem, rfl⟩
      · exact hmiss d hfast
      · have hj := (List.getElem?_eq_some_iff.1 hitem).1
        exact hpassed j item (lt_of_lt_of_le hj (List.getElem?_eq_none_iff.1 hend)) hitem
  | itemBuggy hpc hitem hbuggy =>
    have hthreads := h.threadCount_pos hok (h.tls.recorded_list hitem)
    have hcount := h.tls.pos _ (mem_append_right _ (mem_of_getElem? hitem))
    omega
  | @useItem op o i cache item hpc hcache hitem _ _ =>
    rw [hpc] at hat
    cases hat with
    | item hitem' hobject =>
      have hpos := h.tls.recorded_list hitem'
      rw [Tls.list, hcache] at hitem'
      obtain rfl := some.inj (hitem.symm.trans hitem')
      obtain ⟨hd, htls, hrec, hdrop⟩ := useItem_spec h.tls hcache hitem op.usage
        (h.counts hw hpc hpos hobject)
      exact hown rfl rfl (h.found hok hpc hd hobject htls hrec hdrop)
  | @decrement op o d hpc =>
    have hat' := hat
    rw [hpc] at hat'
    cases hat' with
    | dropping hrec hcount =>
      have hmem : t ∈ g.users d := (h.users d).2 (.inr (by rw [hpc]; rfl))
      refine hsame ⟨hok.decrement hw.threads hmem, ⟨h.decrement hpc hrec,
        .exiting (fun hpos => ?_) fun _ => hcount⟩, fun u hu => .decrement hu,
        fun e _ _ => decrement_object e⟩ rfl
      exact absurd hrec (ne_of_gt hpos)
  | @region op o occupied hpc =>
    have hat' := hat
    rw [hpc] at hat'
    cases hat' with
    | locking hnone hroom =>
      by_cases hop : op = .exit
      · -- the thread is inside, so the record is in its caches
        subst hop
        obtain ⟨d, hd, hobject⟩ := h.covered o (by rw [hpc]; simp)
        exact absurd hobject (hnone d hd)
      · have hfresh : ∀ d, d < g.next → (g.data d).object = o → t ∉ g.users d := by
          intro d _ hobject hmem
          rcases (h.users d).1 hmem with hrec | hcounts
          · exact hnone d hrec hobject
          · rw [hpc] at hcounts
            cases hcounts
        rw [usage_eq_acquire hop] at hsame ⊢
        obtain ⟨d, hresult, hjoined, hok'⟩ := hok.region hw.threads hfresh
        have hrec : l.tls.recorded d = 0 := Nat.eq_zero_of_not_pos fun hpos =>
          hjoined.fresh ((h.users d).2 (.inl hpos))
        rw [hresult] at hsame ⊢
        refine hsame ⟨hok', ⟨h.join hok hpc hop hjoined,
          .saving hop hjoined.object hrec (fun e he => ?_) hroom⟩,
          fun u hu => hjoined.same hu, hjoined.kept⟩ rfl
        exact fun heq => hnone e he ((hjoined.kept e t ((h.users e).2 (.inl he))).symm.trans heq)
  | notFound hpc hresult =>
    rw [hpc] at hat
    cases hat with
    | saving hop _ _ _ _ => simp [usage_eq_acquire hop] at hresult
  | saveBuggy hpc _ hbuggy =>
    rw [hpc] at hat
    cases hat with
    | saving hop hobject _ _ _ => simp [usage_eq_acquire hop, hobject] at hbuggy
  | save hpc _ _ hsave =>
    have hat' := hat
    rw [hpc] at hat'
    cases hat' with
    | @saving op o d hop hobject hrec hnone hroom =>
      obtain ⟨tls', hsave', htls, hrec'⟩ := saveData_spec (w := w) h.tls hroom hrec
      obtain rfl := some.inj (hsave.symm.trans hsave')
      refine hown rfl rfl ⟨h.save hpc hop hobject hrec hnone htls hrec', .entering hop ?_ hobject⟩
      rw [hrec', update_self]
      exact Nat.one_pos
  | overrun hpc _ _ hsave =>
    rw [hpc] at hat
    cases hat with
    | saving _ _ hrec _ hroom =>
      obtain ⟨tls', hsave', -⟩ := saveData_spec (w := w) h.tls hroom hrec
      rw [hsave] at hsave'
      cases hsave'
  | assertion hpc _ | exitNil hpc =>
    rw [hpc] at hat
    cases hat
  | lock hpc hlock | tryLock hpc hlock =>
    have hat' := hat
    rw [hpc] at hat'
    obtain ⟨hself, hother⟩ := RecursiveMutex.depth_lock hlock
    cases hat' with
    | entering hop hrec hobject =>
      exact hsame ⟨hok.setMutex _, ⟨h.lock hok hpc hop hrec hobject hself, .idle⟩,
        fun u hu => .setMutex (hother u hu), fun _ _ _ => setMutex_object _⟩
        (failed_append rfl (by decide))
  | @tryLockFails o d hpc hlock =>
    exact ⟨_, ⟨hok, ⟨h.fail hpc, .idle⟩, fun _ _ => .refl, fun _ _ _ => rfl⟩,
      fun hnot => absurd ⟨o, d, hpc, hlock⟩ hnot, fun heq => heq ▸ failed_returned.symm⟩
  | unlock hpc hunlock =>
    have hat' := hat
    rw [hpc] at hat'
    obtain ⟨hself, hother⟩ := RecursiveMutex.depth_tryUnlock hunlock
    cases hat' with
    | entering hop => exact absurd rfl hop
    | exiting hobject hcount =>
      exact hsame ⟨hok.setMutex _, ⟨h.unlock hok hpc hobject hcount hself, .idle⟩,
        fun u hu => .setMutex (hother u hu), fun _ _ _ => setMutex_object _⟩
        (failed_append rfl (by decide))
  | @unlockFails o d hpc hunlock =>
    rw [hpc] at hat
    have hpos : 0 < (g.data d).mutex.depth t := by
      cases hat with
      | entering hop => exact absurd rfl hop
      | exiting hobject _ => exact h.holds hpc hobject
    obtain ⟨m, hm⟩ := RecursiveMutex.tryUnlock_of_depth_pos hpos
    rw [hunlock] at hm
    cases hm

end ObjcRuntime.Sync
