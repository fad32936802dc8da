import ObjcRuntime.Sync.TryEnter

/-!
# ObjcRuntime.Sync.Reclaim

The records of `@synchronized` are given back.

A failed `objc_sync_try_enter` leaves the record in the caches of the thread, and an
`objc_sync_exit` of a thread that is not inside an object adds to the thread count of
the object's record, if there is one. Nothing takes either back. Without such steps,
the calls of threads that are not inside an object have no effect: the run is one
without these calls (`Mirrors`), and when no thread is inside any object nothing is in
use (`synchronized_reclaims`).
-/

namespace ObjcRuntime.Sync

open Function Lib List Option Relation

variable {τ ω σ : Type} {stripe : ω → σ} {direct : Bool} {t u : τ} {g g' : Shared τ ω σ}
  {l l' m : Local ω}
  {o : ω} {d : Nat}

/-! ### Runs -/

section

variable [DecidableEq τ] [DecidableEq ω] [DecidableEq σ]

/-- Any thread makes any call. -/
def Anything (_ : Local ω) (_ : Op) (_ : ω) : Prop := True

/-- The next step leaves something behind: a try fails, or the exit of a thread that is
not inside the object finds the record of the object. -/
def Leaks (stripe : ω → σ) (t : τ) (g : Shared τ ω σ) (l : Local ω) : Prop :=
  FailsTry t g l ∨ ∃ o occupied, l.pc = .looking .exit o (.locking occupied) ∧
    ∃ d ∈ g.lists (stripe o), (g.data d).object = o

/-- A step that does not. -/
def CleanStep (stripe : ω → σ) (direct : Bool) (t : τ) (g : Shared τ ω σ) (l : Local ω)
    (g' : Shared τ ω σ) (l' : Local ω) : Prop :=
  Step .unbounded stripe direct Anything t g l g' l' ∧ ¬Leaks stripe t g l

def CleanReachable (stripe : ω → σ) (direct : Bool) (s : Threads τ (Shared τ ω σ) (Local ω)) :
    Prop :=
  ∃ memory, ReflTransGen (Interleave (CleanStep stripe direct))
    ⟨.init memory, fun _ => .init⟩ s

/-- A step of a thread that exits only what it is inside of, and no try fails. -/
def OwnStep (stripe : ω → σ) (direct : Bool) (t : τ) (g : Shared τ ω σ) (l : Local ω)
    (g' : Shared τ ω σ) (l' : Local ω) : Prop :=
  Step .unbounded stripe direct Nested t g l g' l' ∧ ¬FailsTry t g l

/-- The call was one of a thread that was inside, or entered. -/
def own (entry : Op × ω × Result) : Bool := entry.2.2 ≠ .notOwningThreadError

end

/-! ### Caches that have grown -/

/-- The same caches, except for the room in the list. -/
structure SameItems (a b : Tls) : Prop where
  fast : a.fast = b.fast
  count : a.count = b.count
  list : a.cache.map SyncCache.list = b.cache.map SyncCache.list

namespace SameItems

variable {a b : Tls}

variable (h : SameItems a b)
include h

theorem tlsList : a.list = b.list := congrArg (·.getD []) h.list

theorem items : a.items = b.items := by
  unfold Tls.items
  rw [h.fast, h.count, h.tlsList]

theorem recorded : a.recorded = b.recorded := by
  unfold Tls.recorded
  rw [h.items]

theorem fastData : Sync.fastData direct a = Sync.fastData direct b := by
  unfold Sync.fastData
  rw [h.fast]

theorem fastCacheOccupied : Sync.fastCacheOccupied direct a = Sync.fastCacheOccupied direct b := by
  unfold Sync.fastCacheOccupied
  rw [h.fast]

omit h

end SameItems

theorem map_list_fetchCache (cache) :
    (fetchCache .unbounded false cache).map SyncCache.list = cache.map SyncCache.list := by
  cases cache with
  | none => rfl
  | some c =>
    simp only [fetchCache, Bool.false_and, Bool.false_eq_true, if_false, map_some]
    split <;> rfl

theorem SameItems.fetch {a b} (h : SameItems a b) :
    SameItems { a with cache := fetchCache .unbounded false a.cache } b :=
  ⟨h.fast, h.count, (map_list_fetchCache _).trans h.list⟩

theorem SameItems.symm {a b} (h : SameItems a b) : SameItems b a :=
  ⟨h.fast.symm, h.count.symm, h.list.symm⟩

theorem SameItems.useFast {a b} (h : SameItems a b) (why) :
    SameItems (Sync.useFast .unbounded why a).1 (Sync.useFast .unbounded why b).1 ∧
      (Sync.useFast .unbounded why a).2 = (Sync.useFast .unbounded why b).2 := by
  obtain ⟨fast', count', cache'⟩ := b
  obtain ⟨rfl, rfl, hlist⟩ := h
  cases why with
  | acquire | check => exact ⟨⟨rfl, rfl, hlist⟩, rfl⟩
  | release =>
    unfold Sync.useFast
    dsimp only
    split
    · exact ⟨⟨rfl, rfl, hlist⟩, rfl⟩
    · exact ⟨⟨rfl, rfl, hlist⟩, rfl⟩

theorem useItem_list (why) (i : Nat) (item) {c c'} (h : c.list = c'.list) :
    (useItem .unbounded why i item c).1.list = (useItem .unbounded why i item c').1.list ∧
      (useItem .unbounded why i item c).2 = (useItem .unbounded why i item c').2 := by
  obtain ⟨allocated, list⟩ := c
  obtain ⟨allocated', list'⟩ := c'
  obtain rfl : list = list' := h
  cases why with
  | acquire | check => exact ⟨rfl, rfl⟩
  | release =>
    unfold useItem
    dsimp only
    split <;> exact ⟨rfl, rfl⟩

theorem SameItems.cache {a b} (h : SameItems a b) {c} (hc : a.cache = some c) :
    ∃ c', b.cache = some c' ∧ c.list = c'.list := by
  have hlist := h.list
  rw [hc, map_some] at hlist
  obtain ⟨c', hc', heq⟩ := map_eq_some_iff.1 hlist.symm
  exact ⟨c', hc', heq.symm⟩

theorem SameItems.save {a b a' b'} (h : SameItems a b) {occupied}
    (ha : saveData .unbounded occupied d a = some a')
    (hb : saveData .unbounded occupied d b = some b') :
    SameItems a' b' := by
  obtain ⟨fast, count, cache⟩ := a
  obtain ⟨fast', count', cache'⟩ := b
  obtain ⟨rfl, rfl, hlist⟩ := h
  cases occupied with
  | false =>
    cases ha
    cases hb
    exact ⟨rfl, rfl, hlist⟩
  | true =>
    cases cache with
    | none =>
      cases cache' with
      | none =>
        cases ha
        cases hb
        exact ⟨rfl, rfl, rfl⟩
      | some c' => cases hlist
    | some c =>
      cases cache' with
      | none => cases hlist
      | some c' =>
        have hlist' : c.list = c'.list := some.inj hlist
        simp only [saveData, Bool.not_true, Bool.false_eq_true, if_false,
          isNone_some, bind_some] at ha hb
        split at ha
        · split at hb
          · cases ha
            cases hb
            exact ⟨rfl, rfl, by simp [hlist']⟩
          · cases hb
        · cases ha

/-! ### The run without the calls -/

/-- Where a thread that is not inside an object may be as it looks for the record. -/
def Look.foreign : Look → Bool
  | .start | .scan .. | .locking _ => true
  | .fast _ | .item _ => false

/-- Has the cache been fetched in this call? -/
def Pc.fetched : Pc ω → Bool
  | .looking _ _ (.scan ..) | .looking _ _ (.locking _) | .saving .. => true
  | _ => false

/-- The thread is at the same point, or it is in an exit of an object that it is not
inside of, and its image is idle. -/
inductive PcMirrors (depth : ω → Nat) : Pc ω → Pc ω → Prop
  | same {pc} : PcMirrors depth pc pc
  | looking {o : ω} {look : Look} : depth o = 0 → look.foreign = true →
      PcMirrors depth (.looking .exit o look) .idle
  | saving {o : ω} {occupied : Bool} : PcMirrors depth (.saving .exit o occupied none) .idle
  | done {o : ω} : PcMirrors depth (.done .exit o none) .idle

/-- A thread `l` and what it is in the run without those calls, `m`. -/
structure Mirrors (direct : Bool) (l m : Local ω) : Prop where
  tls : SameItems l.tls m.tls
  ok : l.tls.Ok direct
  room : l.pc.fetched = true → l.tls.HasRoom
  depth : l.depth = m.depth
  log : l.log.filter own = m.log
  pc : PcMirrors l.depth l.pc m.pc

variable (h : Mirrors direct l m)
include h

theorem Mirrors.goto {pc} (hroom : pc.fetched → l.tls.HasRoom) :
    Mirrors direct (l.goto pc) (m.goto pc) :=
  ⟨h.tls, h.ok, hroom, h.depth, h.log, .same⟩

theorem Mirrors.stutter {pc}
    (hroom : pc.fetched → l.tls.HasRoom) (hpc : PcMirrors l.depth pc m.pc) :
    Mirrors direct (l.goto pc) m :=
  ⟨h.tls, h.ok, hroom, h.depth, h.log, hpc⟩

theorem Mirrors.found {op r r'}
    (htls : SameItems r.1 r'.1) (hdrop : r.2 = r'.2) (hok : r.1.Ok direct) :
    Mirrors direct (l.found op o d r) (m.found op o d r') := by
  have hpc : (l.found op o d r).pc = (m.found op o d r').pc := by
    unfold Local.found
    rw [hdrop]
  refine ⟨htls, hok, fun hfetched => ?_, h.depth, h.log, hpc ▸ .same⟩
  unfold Local.found at hfetched
  split at hfetched <;> cases hfetched

theorem Mirrors.returned {op r} (hr : r ≠ .notOwningThreadError) :
    Mirrors direct (l.returned op o r) (m.returned op o r) := by
  refine ⟨h.tls, h.ok, nofun, h.depth, ?_, .same⟩
  unfold Local.returned
  rw [← h.log, filter_append]
  congr 1
  exact filter_cons_of_pos (decide_eq_true hr)

omit h

variable [DecidableEq ω]

theorem Mirrors.entered (h : Mirrors direct l m) {op r}
    (hr : r ≠ .notOwningThreadError) :
    Mirrors direct (l.entered op o r) (m.entered op o r) := by
  refine ⟨h.tls, h.ok, nofun, ?_, ?_, .same⟩
  · unfold Local.entered
    rw [h.depth]
  · unfold Local.entered
    rw [← h.log, filter_append]
    congr 1
    exact filter_cons_of_pos (decide_eq_true hr)

variable [DecidableEq τ]

/-- An idle thread has no record of an object that it is not inside of. -/
theorem Tracked.object_ne (h : Tracked direct (fun _ => 0) t g m) (hpc : m.pc = .idle)
    (hdepth : m.depth o = 0) (hd : 0 < m.tls.recorded d) : (g.data d).object ≠ o := by
  intro hobject
  have hcount := h.1.recorded d hd
  rw [hobject, hdepth, hpc] at hcount
  exact absurd (hcount.trans rfl) hd.ne'

theorem Tracked.items_eq_nil (h : Tracked direct (fun _ => 0) t g m) (hpc : m.pc = .idle)
    (hdepth : ∀ o, m.depth o = 0) : m.tls.items = [] := by
  refine eq_nil_iff_forall_not_mem.2 fun item hitem => ?_
  have hrec := (h.1.tls.recorded_pos_iff item.data).2 ⟨item, hitem, rfl⟩
  exact h.object_ne hpc (hdepth _) hrec rfl

theorem threadCount_eq_zero_of_idle {s : Threads τ (Shared τ ω σ) (Local ω)}
    (hs : Holds (·.Ok stripe) (Tracked direct fun _ => 0) s)
    (hidle : ∀ t, (s.pcs t).pc = .idle ∧ ∀ o, (s.pcs t).depth o = 0) (hd : d < s.shared.next) :
    (s.shared.data d).threadCount = 0 := by
  obtain ⟨hok, htracked⟩ := hs
  rw [hok.count d hd, Int.natCast_eq_zero, Finset.card_eq_zero]
  refine Finset.eq_empty_of_forall_notMem fun t ht => ?_
  obtain ⟨hpc, hdepth⟩ := hidle t
  rcases ((htracked t).1.users d).1 ht with hrec | hcounts
  · exact (htracked t).object_ne hpc (hdepth _) hrec rfl
  · rw [hpc] at hcounts
    cases hcounts

variable [DecidableEq σ]

/-- The region finds nothing for an exit if there is no record of the object. -/
theorem Shared.region_release (h : ∀ d ∈ g.lists (stripe o), (g.data d).object ≠ o) :
    g.region .unbounded stripe t .release o = (g, none) := by
  obtain ⟨hfound, -⟩ := walk_spec g.data o (g.lists (stripe o)) none
  unfold Shared.region
  split
  next p unused hwalk =>
    obtain ⟨hmem, hobject⟩ := hfound p unused hwalk
    exact absurd hobject (h p hmem)
  · rfl

theorem CleanStep.image (hok : g.Ok stripe) (htracked : Tracked direct (fun _ => 0) t g m)
    (hm : Mirrors direct l m) (hsame : m.pc = l.pc) (h : CleanStep stripe direct t g l g' l')
    (howns : ∀ o, l'.pc = .looking .exit o .start → 0 < l.depth o) :
    ∃ m', OwnStep stripe direct t g m g' m' ∧ Mirrors direct l' m' := by
  obtain ⟨hstep, hclean⟩ := h
  have hknows := htracked.2
  suffices himage : ∃ m', Step .unbounded stripe direct Nested t g m g' m' ∧ Mirrors direct l' m' by
    obtain ⟨m', hstep', hm'⟩ := himage
    refine ⟨m', ⟨hstep', ?_⟩, hm'⟩
    rintro ⟨o, d, hpc, hlock⟩
    exact hclean (.inl ⟨o, d, hsame ▸ hpc, hlock⟩)
  -- a step that the invariant of the image excludes
  have hnever : ∀ {m'} {P : Prop}, Step .unbounded stripe direct Nested t g m g' m' →
      (∀ extra, Tracked direct extra t g' m' → P) → P := by
    intro m' P hstep hP
    obtain ⟨extra, hkeeps, -⟩ := hstep.tracked .unbounded (fun _ _ => id) hok htracked
    exact hP extra hkeeps.tracked
  cases hstep with
  | call op o hpc _ =>
    refine ⟨_, .call op o (hsame.trans hpc) fun hop => ?_, hm.tls, hm.ok, nofun, ?_, hm.log, .same⟩
    · rw [← hm.depth]
      subst hop
      exact howns o rfl
    · unfold Local.begin
      rw [hm.depth]
  | hit hpc hfast hobject =>
    exact ⟨_, .hit (hsame.trans hpc) (hm.tls.fastData ▸ hfast) hobject, hm.goto nofun⟩
  | miss hpc hfast =>
    obtain ⟨-, hfetched, hroom⟩ := fetchCache_spec (w := .unbounded) hm.ok rfl
    refine ⟨_, .miss (hsame.trans hpc) (hm.tls.fastData ▸ hfast), hm.tls.fetch.symm.fetch.symm,
      hfetched, fun _ => hroom, hm.depth, hm.log, ?_⟩
    rw [hm.tls.fastCacheOccupied]
    exact .same
  | fastBuggy hpc hbuggy =>
    rw [hm.tls.count] at hbuggy
    exact hnever (.fastBuggy (hsame.trans hpc) hbuggy) fun _ htracked => by cases htracked.2
  | @useFast op o d hpc hthreads hcount =>
    rw [hsame, hpc] at hknows
    cases hknows with
    | fast hfast hobject =>
      obtain ⟨htls, hdrop⟩ := hm.tls.useFast op.usage
      obtain ⟨-, hok', -⟩ := useFast_spec (w := .unbounded) hm.ok
        (hm.tls.fast.trans hfast) op.usage fun _ => ⟨rfl, rfl⟩
      exact ⟨_, .useFast (hsame.trans hpc) hthreads (hm.tls.count ▸ hcount),
        hm.found htls hdrop hok'⟩
  | scan hpc hitem hobject =>
    exact ⟨_, .scan (hsame.trans hpc) (hm.tls.tlsList ▸ hitem) hobject,
      hm.goto fun _ => hm.room (by rw [hpc]; rfl)⟩
  | scanHit hpc hitem hobject =>
    exact ⟨_, .scanHit (hsame.trans hpc) (hm.tls.tlsList ▸ hitem) hobject, hm.goto nofun⟩
  | scanEnd hpc hend =>
    exact ⟨_, .scanEnd (hsame.trans hpc) (hm.tls.tlsList ▸ hend),
      hm.goto fun _ => hm.room (by rw [hpc]; rfl)⟩
  | itemBuggy hpc hitem hbuggy =>
    rw [hm.tls.tlsList] at hitem
    exact hnever (.itemBuggy (hsame.trans hpc) hitem hbuggy) fun _ htracked => by
      cases htracked.2
  | @useItem op o i cache item hpc hcache hitem hthreads hcount =>
    obtain ⟨cache', hcache', hlist⟩ := hm.tls.cache hcache
    obtain ⟨hlist', hdrop⟩ := useItem_list op.usage i item hlist
    obtain ⟨-, hok', -⟩ := useItem_spec (w := .unbounded) hm.ok hcache hitem
      op.usage fun _ => ⟨rfl, rfl⟩
    refine ⟨_, .useItem (hsame.trans hpc) hcache' (hlist ▸ hitem) hthreads hcount,
      hm.found ?_ hdrop hok'⟩
    exact ⟨hm.tls.fast, hm.tls.count, congrArg some hlist'⟩
  | decrement hpc => exact ⟨_, .decrement (hsame.trans hpc), hm.goto nofun⟩
  | region hpc =>
    exact ⟨_, .region (hsame.trans hpc), hm.goto fun _ => hm.room (by rw [hpc]; rfl)⟩
  | notFound hpc hresult => exact ⟨_, .notFound (hsame.trans hpc) hresult, hm.goto nofun⟩
  | saveBuggy hpc husage hbuggy =>
    exact hnever (.saveBuggy (hsame.trans hpc) husage hbuggy) fun _ htracked => by
      cases htracked.2
  | save hpc husage hobject hsave =>
    rw [hsame, hpc] at hknows
    cases hknows with
    | saving _ _ hrec _ hroom' =>
      obtain ⟨tls', hsave', -⟩ := saveData_spec (w := .unbounded) htracked.1.tls hroom' hrec
      obtain ⟨tls'', hsave'', hok', -⟩ :=
        saveData_spec (w := .unbounded) hm.ok (hm.room (by rw [hpc]; rfl))
        (hm.tls.recorded ▸ hrec)
      rw [hm.tls.fastCacheOccupied, hsave] at hsave''
      cases hsave''
      exact ⟨_, .save (hsame.trans hpc) husage hobject hsave',
        hm.tls.save hsave hsave', hok', nofun, hm.depth, hm.log, .same⟩
  | overrun hpc husage hobject hsave =>
    rw [hsame, hpc] at hknows
    cases hknows with
    | saving _ _ hrec _ _ =>
      obtain ⟨tls', hsave', -⟩ := saveData_spec (w := .unbounded) hm.ok (hm.room (by rw [hpc]; rfl))
        (hm.tls.recorded ▸ hrec)
      rw [hm.tls.fastCacheOccupied, hsave] at hsave'
      cases hsave'
  | assertion hpc hop =>
    exact hnever (.assertion (hsame.trans hpc) hop) fun _ htracked => by cases htracked.2
  | lock hpc hlock => exact ⟨_, .lock (hsame.trans hpc) hlock, hm.entered nofun⟩
  | tryLock hpc hlock => exact ⟨_, .tryLock (hsame.trans hpc) hlock, hm.entered nofun⟩
  | tryLockFails hpc hlock => exact absurd (.inl ⟨_, _, hpc, hlock⟩) hclean
  | exitNil hpc =>
    rw [hsame, hpc] at hknows
    cases hknows
  | unlock hpc hunlock => exact ⟨_, .unlock (hsame.trans hpc) hunlock, hm.returned nofun⟩
  | unlockFails hpc hunlock =>
    refine hnever (.unlockFails (hsame.trans hpc) hunlock) fun _ htracked => ?_
    cases htracked.1.log _ .notOwningThreadError (mem_append_right _ (mem_singleton_self _))

/-- **One step**: the image takes the same step, or the thread is in a call that the
other run does not have. -/
theorem CleanStep.mirrored (hok : g.Ok stripe) (htracked : Tracked direct (fun _ => 0) t g m)
    (hm : Mirrors direct l m) (h : CleanStep stripe direct t g l g' l') :
    (g' = g ∧ Mirrors direct l' m) ∨
      ∃ m', OwnStep stripe direct t g m g' m' ∧ Mirrors direct l' m' := by
  have hpcs := hm.pc
  generalize hmpc : m.pc = pc at hpcs
  generalize hlpc : l.pc = lpc at hpcs
  cases hpcs with
  | same =>
    by_cases hforeign : ∃ o, l'.pc = .looking .exit o .start ∧ l.depth o = 0
    · obtain ⟨o, hpc', hdepth⟩ := hforeign
      cases h.1 with
      | call op o' hpc _ =>
        cases hpc'
        have hsame : (l.begin .exit o).depth = l.depth := by
          show update l.depth o (l.depth o - 1) = l.depth
          rw [hdepth]
          exact update_eq_self_iff.2 hdepth.symm
        refine .inl ⟨rfl, hm.tls, hm.ok, nofun, hsame.trans hm.depth, hm.log, ?_⟩
        rw [hsame, hmpc, ← hlpc, hpc]
        exact .looking hdepth rfl
      | useFast | useItem =>
        unfold Local.found at hpc'
        split at hpc' <;> cases hpc'
      | _ => cases hpc'
    · refine .inr (h.image hok htracked hm (hmpc.trans hlpc.symm) fun o hpc' => ?_)
      exact Nat.pos_of_ne_zero fun hdepth => hforeign ⟨o, hpc', hdepth⟩
  | @looking o look hdepth hlook =>
    have hne : ∀ {d}, 0 < m.tls.recorded d → (g.data d).object ≠ o :=
      htracked.object_ne hmpc (hm.depth ▸ hdepth)
    have hroom := hm.room
    rw [hlpc] at hroom
    obtain ⟨hstep, hclean⟩ := h
    cases hstep with
    | hit hpc hfast hobject =>
      cases hlpc.symm.trans hpc
      rw [hm.tls.fastData, htracked.1.tls.fastData_eq] at hfast
      exact absurd hobject (hne (htracked.1.tls.recorded_fast hfast))
    | miss hpc hfast =>
      cases hlpc.symm.trans hpc
      obtain ⟨-, hfetched, hroom⟩ := fetchCache_spec (w := .unbounded) hm.ok rfl
      exact .inl ⟨rfl, hm.tls.fetch, hfetched, fun _ => hroom, hm.depth, hm.log,
        hmpc ▸ .looking hdepth rfl⟩
    | scanHit hpc hitem hobject =>
      cases hlpc.symm.trans hpc
      rw [hm.tls.tlsList] at hitem
      exact absurd hobject (hne (htracked.1.tls.recorded_list hitem))
    | scan hpc | scanEnd hpc =>
      cases hlpc.symm.trans hpc
      exact .inl ⟨rfl, hm.stutter hroom (hmpc ▸ .looking hdepth rfl)⟩
    | @region _ _ occupied hpc =>
      cases hlpc.symm.trans hpc
      have hnone : ∀ d ∈ g.lists (stripe o), (g.data d).object ≠ o := fun d hd hobject =>
        hclean (.inr ⟨o, occupied, hpc, d, hd, hobject⟩)
      rw [show Op.exit.usage = .release from rfl, Shared.region_release hnone]
      exact .inl ⟨rfl, hm.stutter hroom (hmpc ▸ .saving)⟩
    | fastBuggy hpc | useFast hpc | itemBuggy hpc | useItem hpc =>
      cases hlpc.symm.trans hpc
      cases hlook
    | call _ _ hpc => cases hlpc.symm.trans hpc
    | _ hpc => cases hlpc.symm.trans hpc
  | saving =>
    cases h.1 with
    | notFound hpc =>
      cases hlpc.symm.trans hpc
      exact .inl ⟨rfl, hm.stutter nofun (hmpc ▸ .done)⟩
    | call _ _ hpc => cases hlpc.symm.trans hpc
    | _ hpc => cases hlpc.symm.trans hpc
  | done =>
    cases h.1 with
    | exitNil hpc =>
      cases hlpc.symm.trans hpc
      refine .inl ⟨rfl, hm.tls, hm.ok, nofun, hm.depth, ?_, hmpc ▸ .same⟩
      unfold Local.returned
      rw [filter_append, hm.log]
      exact append_nil _
    | assertion hpc hop =>
      cases hlpc.symm.trans hpc
      exact absurd rfl hop
    | call _ _ hpc => cases hlpc.symm.trans hpc
    | _ hpc => cases hlpc.symm.trans hpc

/-! ### Whole runs -/

/-- In a run of calls that own what they exit, and where no try fails, the caches of a
thread count what it is inside of. -/
theorem OwnStep.holds {s s' : Threads τ (Shared τ ω σ) (Local ω)}
    (hs : Holds (·.Ok stripe) (Tracked direct fun _ => 0) s)
    (hstep : Interleave (OwnStep stripe direct) s s') :
    Holds (·.Ok stripe) (Tracked direct fun _ => 0) s' := by
  refine Interleave.preserves ?_ ?_ hs hstep
  · intro t g l g' l' hok htracked hstep
    obtain ⟨extra, hkeeps, hsame, -⟩ := hstep.1.tracked .unbounded (fun _ _ => id) hok htracked
    obtain rfl := hsame hstep.2
    exact ⟨hkeeps.ok, hkeeps.tracked⟩
  · intro t u g l g' l' m hne hok htracked hother hstep
    obtain ⟨extra, hkeeps, -⟩ := hstep.1.tracked .unbounded (fun _ _ => id) hok htracked
    exact hother.same hok (hkeeps.same u hne)

/-- **Records are reclaimed**: the calls of threads that are not inside the object change
nothing for the others, and once no thread is inside any object no record is in use and
all caches are empty. -/
theorem synchronized_reclaims {s : Threads τ (Shared τ ω σ) (Local ω)}
    (h : CleanReachable stripe direct s) :
    (∃ memory a, ReflTransGen (Interleave (OwnStep stripe direct))
        ⟨.init memory, fun _ => .init⟩ a ∧ a.shared = s.shared ∧
        ∀ t, (a.pcs t).log = (s.pcs t).log.filter own ∧ (a.pcs t).depth = (s.pcs t).depth ∧
          (a.pcs t).tls.items = (s.pcs t).tls.items) ∧
      ((∀ t, (s.pcs t).pc = .idle ∧ ∀ o, (s.pcs t).depth o = 0) →
        (∀ d, d < s.shared.next → (s.shared.data d).threadCount = 0) ∧
          ∀ t, (s.pcs t).tls.items = []) := by
  obtain ⟨memory, hrun⟩ := h
  have hbegin : Holds (·.Ok stripe) (Tracked direct fun _ => 0)
      (⟨.init memory, fun _ => .init⟩ : Threads τ (Shared τ ω σ) (Local ω)) :=
    ⟨.init memory, fun _ => .init memory⟩
  have hmirrors : ∀ _, Mirrors direct (Local.init : Local ω) Local.init := fun t =>
    ⟨⟨rfl, rfl, rfl⟩, (hbegin.2 t).1.tls, nofun, rfl, rfl, .same⟩
  obtain ⟨a, ha, hholds, hshared, hm⟩ := Interleave.simulates (R := Mirrors direct)
    (fun _ _ => OwnStep.holds) (fun t a l g l' ha hm hstep => hstep.mirrored ha.1 (ha.2 t) hm)
    hrun hbegin rfl hmirrors
  refine ⟨⟨memory, a, ha, hshared, fun t =>
    ⟨(hm t).log.symm, (hm t).depth.symm, (hm t).tls.items.symm⟩⟩, fun hidle => ?_⟩
  have hidle' : ∀ t, (a.pcs t).pc = .idle ∧ ∀ o, (a.pcs t).depth o = 0 := by
    intro t
    obtain ⟨hpc, hdepth⟩ := hidle t
    refine ⟨?_, fun o => (hm t).depth ▸ hdepth o⟩
    have hpcs := (hm t).pc
    rw [hpc] at hpcs
    generalize (a.pcs t).pc = pc at hpcs ⊢
    cases hpcs with
    | same => rfl
  constructor
  · intro d hd
    rw [← hshared] at hd ⊢
    exact threadCount_eq_zero_of_idle hholds hidle' hd
  · intro t
    rw [(hm t).tls.items]
    exact (hholds.2 t).items_eq_nil (hidle' t).1 (hidle' t).2

/-! ### Examples -/

/-- Can the next step leave something behind? -/
def Pc.mayLeak : Pc ω → Bool
  | .looking .exit _ (.locking _) | .done .tryEnter _ (some _) => true
  | _ => false

theorem CleanStep.of_step (h : Step .unbounded stripe direct Anything t g l g' l')
    (hpc : l.pc.mayLeak = false) : CleanStep stripe direct t g l g' l' := by
  refine ⟨h, fun hleaks => ?_⟩
  rcases hleaks with ⟨o, d, hfails, -⟩ | ⟨o, occupied, hlocking, -⟩
  · rw [hfails] at hpc
    cases hpc
  · rw [hlocking] at hpc
    cases hpc

theorem depth_exit (o p : ω) : update (fun _ => 0) o (0 - 1) p = 0 := by
  by_cases hp : p = o
  · rw [hp, update_self]
  · rw [update_of_ne hp]

theorem depth_enter_exit (o p : ω) :
    update (update (fun _ => 0) o (0 + 1)) o (0 + 1 - 1) p = 0 := by
  rw [update_idem]
  exact depth_exit o p

/-- Thread `true` exits what nobody is inside of, and thread `false` enters and exits. -/
theorem synchronized_reclaims_after_exit :
    ∃ s : Threads Bool (Shared Bool Nat Unit) (Local Nat),
      CleanReachable (fun _ => ()) true s ∧
      (s.pcs true).log = [(.exit, 5, .notOwningThreadError)] ∧
      (s.pcs false).log = [(.enter, 5, .success), (.exit, 5, .success)] ∧ s.shared.next = 1 ∧
      (∀ d, d < s.shared.next → (s.shared.data d).threadCount = 0) ∧
      ∀ t, (s.pcs t).tls.items = [] := by
  have hrun : ReflTransGen (Interleave (CleanStep (fun _ => ()) true)) twoThreads
    twoThreads := .refl
  replace hrun := hrun |>.moved true (.of_step (.call .exit 5 rfl trivial) rfl)
    |>.moved true (.of_step (.miss rfl nofun) rfl)
    |>.moved true (.of_step (.scanEnd rfl rfl) rfl)
    |>.moved true ⟨.region rfl, by
      rintro (⟨o, d, hpc, -⟩ | ⟨o, occupied, -, d, hd, -⟩)
      · cases hpc
      · cases hd⟩
    |>.moved true (.of_step (.notFound rfl (.inl rfl)) rfl)
    |>.moved true (.of_step (.exitNil rfl) rfl)
    |>.moved false (.of_step (.call .enter 5 rfl trivial) rfl)
    |>.moved false (.of_step (.miss rfl nofun) rfl)
    |>.moved false (.of_step (.scanEnd rfl rfl) rfl)
    |>.moved false (.of_step (.region rfl) rfl)
    |>.moved false (.of_step (.save rfl rfl rfl rfl) rfl)
    |>.moved false (.of_step (.lock rfl rfl) rfl)
    |>.moved false (.of_step (.call .exit 5 rfl trivial) rfl)
    |>.moved false (.of_step (.hit rfl rfl rfl) rfl)
    |>.moved false (.of_step (.useFast rfl (by decide) (by decide)) rfl)
    |>.moved false (.of_step (.decrement rfl) rfl)
    |>.moved false (.of_step (.unlock rfl rfl) rfl)
  have hreach : CleanReachable (fun _ => ()) true _ := ⟨_, hrun⟩
  refine ⟨_, hreach, rfl, rfl, rfl, (synchronized_reclaims hreach).2 fun t => ?_⟩
  cases t with
  | false => exact ⟨rfl, depth_enter_exit 5⟩
  | true => exact ⟨rfl, depth_exit 5⟩

/-- Thread `true` fails to enter what thread `false` is inside of, or exits it. It keeps
the record, or the count of its users, when both are done. -/
theorem synchronized_leaks :
    (∃ s : Threads Bool (Shared Bool Nat Unit) (Local Nat),
      Reachable .unbounded (fun _ => ()) true Anything s ∧
      (∀ t, (s.pcs t).pc = .idle ∧ ∀ o, (s.pcs t).depth o = 0) ∧
      (s.pcs true).log = [(.tryEnter, 5, .no)] ∧ s.shared.next = 1 ∧
      (s.shared.data 0).threadCount = 1 ∧ (s.pcs true).tls.items = [⟨0, 1⟩]) ∧
    ∃ s : Threads Bool (Shared Bool Nat Unit) (Local Nat),
      Reachable .unbounded (fun _ => ()) true Anything s ∧
      (∀ t, (s.pcs t).pc = .idle ∧ ∀ o, (s.pcs t).depth o = 0) ∧
      (s.pcs true).log = [(.exit, 5, .notOwningThreadError)] ∧ s.shared.next = 1 ∧
      (s.shared.data 0).threadCount = 1 := by
  have hrun : ReflTransGen (Interleave (Step .unbounded (fun _ => ()) true Anything))
      twoThreads
    twoThreads := .refl
  replace hrun := hrun |>.moved false (.call .enter 5 rfl trivial) |>.moved false (.miss rfl nofun)
    |>.moved false (.scanEnd rfl rfl)
    |>.moved false (.region rfl)
    |>.moved false (.save rfl rfl rfl rfl)
    |>.moved false (.lock rfl rfl)
  constructor
  · replace hrun := hrun |>.moved true (.call .tryEnter 5 rfl trivial)
      |>.moved true (.miss rfl nofun)
      |>.moved true (.scanEnd rfl rfl)
      |>.moved true (.region rfl)
      |>.moved true (.save rfl rfl rfl rfl)
      |>.moved true (.tryLockFails rfl rfl)
      |>.moved false (.call .exit 5 rfl trivial)
      |>.moved false (.hit rfl rfl rfl)
      |>.moved false (.useFast rfl (by decide) (by decide))
      |>.moved false (.decrement rfl)
      |>.moved false (.unlock rfl rfl)
    refine ⟨_, ⟨_, hrun⟩, fun t => ?_, rfl, rfl, rfl, rfl⟩
    cases t with
    | false => exact ⟨rfl, depth_enter_exit 5⟩
    | true => exact ⟨rfl, fun o => rfl⟩
  · replace hrun := hrun |>.moved true (.call .exit 5 rfl trivial) |>.moved true (.miss rfl nofun)
      |>.moved true (.scanEnd rfl rfl)
      |>.moved true (.region rfl)
      |>.moved true (.notFound rfl (.inr rfl))
      |>.moved true (.exitNil rfl)
      |>.moved false (.call .exit 5 rfl trivial)
      |>.moved false (.hit rfl rfl rfl)
      |>.moved false (.useFast rfl (by decide) (by decide))
      |>.moved false (.decrement rfl)
      |>.moved false (.unlock rfl rfl)
    refine ⟨_, ⟨_, hrun⟩, fun t => ?_, rfl, rfl, rfl⟩
    cases t with
    | false => exact ⟨rfl, depth_enter_exit 5⟩
    | true => exact ⟨rfl, depth_exit 5⟩

end ObjcRuntime.Sync
