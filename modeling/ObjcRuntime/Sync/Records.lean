import ObjcRuntime.Sync.Machine

/-!
# ObjcRuntime.Sync.Records

The shared records.

The thread count of a record is the number of its users, and no two records have the
same object (`Shared.Ok`). A record is only given to another object when it has no
user, so what a thread knows about the objects of its records is stable (`Same`): no
lock is needed to read them.
-/

namespace ObjcRuntime.Sync

open Function Lib List Finset Sync.Shared

variable {τ ω σ : Type} {w : Widths} {stripe : ω → σ} {t u : τ} {g g' : Shared τ ω σ} {o : ω}
  {d : Nat}

/-! ### The shared state -/

structure Shared.Ok (stripe : ω → σ) (g : Shared τ ω σ) : Prop where
  count : ∀ d, d < g.next → (g.data d).threadCount = (g.users d).card
  below : ∀ d t, t ∈ g.users d → d < g.next
  mem : ∀ s d, d ∈ g.lists s ↔ d < g.next ∧ stripe (g.data d).object = s
  inj : ∀ d e, d < g.next → e < g.next → (g.data d).object = (g.data e).object → d = e

theorem Shared.setMutex_data {m} (e : Nat) : (g.setMutex d m).data e =
    if e = d then { g.data e with mutex := m } else g.data e := by
  unfold setMutex
  by_cases he : e = d
  · subst he
    simp
  · simp [he]

@[simp] theorem Shared.setMutex_object {m} (e : Nat) :
    ((g.setMutex d m).data e).object = (g.data e).object := by
  rw [setMutex_data]
  split <;> rfl

theorem Shared.setMutex_mutex {m} (e : Nat) :
    ((g.setMutex d m).data e).mutex = if e = d then m else (g.data e).mutex := by
  rw [setMutex_data]
  split <;> rfl

theorem Shared.Ok.setMutex (h : g.Ok stripe) (m) : (g.setMutex d m).Ok stripe := by
  refine ⟨fun e he => ?_, h.below, fun s e => ?_, fun e f he hf heq => ?_⟩
  · rw [setMutex_data]
    split <;> exact h.count e he
  · rw [setMutex_object]
    exact h.mem s e
  · rw [setMutex_object, setMutex_object] at heq
    exact h.inj e f he hf heq

theorem walk_spec [DecidableEq ω] (data : Nat → SyncData τ ω) (o : ω) (list) :
    ∀ firstUnused,
      (∀ p unused, walk data o list firstUnused = (some p, unused) →
        p ∈ list ∧ (data p).object = o) ∧
      (∀ unused, walk data o list firstUnused = (none, unused) →
        (∀ p ∈ list, (data p).object ≠ o) ∧
        ∀ p, unused = some p → firstUnused = some p ∨ p ∈ list ∧ (data p).threadCount = 0) := by
  induction list with
  | nil =>
    intro firstUnused
    refine ⟨nofun, fun unused h => ?_⟩
    obtain ⟨-, rfl⟩ := Prod.mk.inj h
    exact ⟨by simp, fun p hp => .inl hp⟩
  | cons q rest ih =>
    intro firstUnused
    unfold walk
    split
    next hq =>
      refine ⟨fun p unused h => ?_, nofun⟩
      obtain ⟨hp, -⟩ := Prod.mk.inj h
      cases hp
      exact ⟨mem_cons_self, hq⟩
    next hq =>
      obtain ⟨hfound, hnone⟩ := ih (if firstUnused.isNone && (data q).threadCount == 0
        then some q else firstUnused)
      refine ⟨fun p unused h => ?_, fun unused h => ⟨?_, fun p hp => ?_⟩⟩
      · exact ⟨mem_cons_of_mem _ (hfound p unused h).1, (hfound p unused h).2⟩
      · exact forall_mem_cons.2 ⟨hq, (hnone unused h).1⟩
      · rcases (hnone unused h).2 p hp with hfirst | ⟨hmem, hzero⟩
        · split at hfirst
          next hunused =>
            cases hfirst
            rw [Bool.and_eq_true, beq_iff_eq] at hunused
            exact .inr ⟨mem_cons_self, hunused.2⟩
          · exact .inl hfirst
        · exact .inr ⟨mem_cons_of_mem _ hmem, hzero⟩

theorem Shared.Ok.init (memory : Nat → SyncData τ ω) :
    (Shared.init memory : Shared τ ω σ).Ok stripe := by
  refine ⟨fun d hd => absurd hd (Nat.not_lt_zero d), fun d t ht => ?_, fun s d => ?_,
    fun d _ hd => absurd hd (Nat.not_lt_zero d)⟩
  · exact absurd ht (Finset.notMem_empty t)
  · simp [Shared.init]

variable [DecidableEq τ]

/-- For a thread that did not take the step: the records that it uses are still
those, with the same objects, and it holds the mutexes that it held. -/
structure Same (u : τ) (g g' : Shared τ ω σ) : Prop where
  next : g.next ≤ g'.next
  users : ∀ d, u ∈ g'.users d ↔ u ∈ g.users d
  object : ∀ d, u ∈ g.users d → (g'.data d).object = (g.data d).object
  mutex : ∀ d, d < g'.next →
    (g'.data d).mutex.depth u = if d < g.next then (g.data d).mutex.depth u else 0

theorem Same.refl : Same u g g :=
  ⟨le_refl _, fun _ => .rfl, fun _ _ => rfl, fun d hd => by rw [if_pos hd]⟩

theorem Same.setMutex {m} (h : m.depth u = (g.data d).mutex.depth u) :
    Same u g (g.setMutex d m) := by
  refine ⟨le_refl _, fun _ => .rfl, fun e _ => by simp, fun e he => ?_⟩
  rw [if_pos (show e < g.next from he), setMutex_mutex]
  split
  next hed => rw [hed, h]
  · rfl

theorem Shared.decrement_object (e : Nat) :
    ((g.decrement w t d).data e).object = (g.data e).object := by
  unfold Shared.decrement
  by_cases he : e = d
  · subst he
    simp
  · simp [he]

theorem Shared.decrement_mutex (e : Nat) :
    ((g.decrement w t d).data e).mutex = (g.data e).mutex := by
  unfold Shared.decrement
  by_cases he : e = d
  · subst he
    simp
  · simp [he]

theorem Shared.mem_decrement_users (e : Nat) :
    u ∈ (g.decrement w t d).users e ↔ u ∈ g.users e ∧ ¬(e = d ∧ u = t) := by
  unfold Shared.decrement
  by_cases he : e = d
  · subst he
    simp [and_comm]
  · simp [he]

theorem Shared.Ok.decrement (hok : g.Ok stripe)
    (hw : ∀ threads : Finset τ, w.int32 threads.card = threads.card) (hmem : t ∈ g.users d) :
    (g.decrement w t d).Ok stripe := by
  refine ⟨fun e he => ?_, fun e u hu => hok.below e u ((mem_decrement_users e).1 hu).1,
    fun s e => ?_, fun e f he hf heq => ?_⟩
  · have hcount := hok.count e he
    have hcard := Finset.card_pos.2 ⟨t, hmem⟩
    unfold Shared.decrement
    by_cases hed : e = d
    · subst hed
      rw [show (g.data e).threadCount - 1 = ((g.users e).erase t).card by
        rw [Finset.card_erase_of_mem hmem]
        omega, hw]
      simp only [update_self]
    · simp only [update_of_ne hed]
      exact hcount
  · rw [decrement_object]
    exact hok.mem s e
  · rw [decrement_object, decrement_object] at heq
    exact hok.inj e f he hf heq

theorem Same.decrement (hu : u ≠ t) : Same u g (g.decrement w t d) := by
  refine ⟨le_refl _, fun e => ?_, fun e _ => decrement_object e, fun e he => ?_⟩
  · rw [mem_decrement_users]
    exact and_iff_left fun heq => hu heq.2
  · rw [if_pos (show e < g.next from he), decrement_mutex]

/-! ### The region under the spinlock -/

/-- A thread has become a user of the record of an object. -/
structure Joined (t : τ) (o : ω) (d : Nat) (g g' : Shared τ ω σ) : Prop where
  next : g.next ≤ g'.next
  below : d < g'.next
  object : (g'.data d).object = o
  users : g'.users = update g.users d (insert t (g.users d))
  fresh : t ∉ g.users d
  kept : ∀ e u, u ∈ g.users e → (g'.data e).object = (g.data e).object
  mutex : ∀ e u, e < g'.next →
    (g'.data e).mutex.depth u = if e < g.next then (g.data e).mutex.depth u else 0

theorem Joined.same (h : Joined t o d g g') (hu : u ≠ t) : Same u g g' := by
  refine ⟨h.next, fun e => ?_, fun e he => h.kept e u he, fun e he => h.mutex e u he⟩
  rw [h.users]
  by_cases he : e = d
  · subst he
    rw [update_self, mem_insert]
    exact ⟨fun hmem => hmem.resolve_left hu, .inr⟩
  · rw [update_of_ne he]

theorem Shared.Ok.use (h : g.Ok stripe) {p r} (hp : p < g.next)
    (hfresh : t ∉ g.users p) (hstripe : stripe (g.data p).object = stripe o)
    (hother : ∀ e, e < g.next → (g.data e).object = o → e = p) (hobject : r.object = o)
    (hcount : r.threadCount = (g.data p).threadCount + 1) (hmutex : r.mutex = (g.data p).mutex)
    (hkept : (g.data p).object = o ∨ g.users p = ∅) :
    Joined t o p g (g.use t p r) ∧ (g.use t p r).Ok stripe := by
  have hself : (g.use t p r).data p = r := update_self ..
  have hne : ∀ e, e ≠ p → (g.use t p r).data e = g.data e := fun e he => update_of_ne he ..
  have husers : (g.use t p r).users p = insert t (g.users p) := update_self ..
  have husers' : ∀ e, e ≠ p → (g.use t p r).users e = g.users e := fun e he =>
    update_of_ne he ..
  have hobj : ∀ e, e < g.next → ((g.use t p r).data e).object = o → e = p := by
    intro e he ho
    by_contra hep
    rw [hne e hep] at ho
    exact hep (hother e he ho)
  refine ⟨⟨le_refl _, hp, by rw [hself, hobject], rfl, hfresh, ?_, ?_⟩, ⟨?_, ?_, ?_, ?_⟩⟩
  · intro e u hu
    by_cases he : e = p
    · subst he
      rcases hkept with hsame | hempty
      · rw [hself, hobject, hsame]
      · rw [hempty] at hu
        exact absurd hu (notMem_empty u)
    · rw [hne e he]
  · intro e u he
    rw [if_pos (show e < g.next from he)]
    by_cases hep : e = p
    · rw [hep, hself, hmutex]
    · rw [hne e hep]
  · intro e he
    by_cases hep : e = p
    · subst hep
      rw [hself, hcount, husers, card_insert_of_notMem hfresh, h.count e he]
      rfl
    · rw [hne e hep, husers' e hep, h.count e he]
  · intro e u hu
    by_cases hep : e = p
    · exact hep ▸ hp
    · rw [husers' e hep] at hu
      exact h.below e u hu
  · intro s e
    refine (h.mem s e).trans ?_
    change _ ↔ e < g.next ∧ _
    by_cases hep : e = p
    · rw [hep, hself, hobject, hstripe]
    · rw [hne e hep]
  · intro e f he hf heq
    by_cases hep : e = p
    · rw [hep, hself, hobject] at heq
      rw [hep, hobj f hf heq.symm]
    · by_cases hfp : f = p
      · rw [hfp, hself, hobject] at heq
        rw [hfp, hobj e he heq]
      · rw [hne e hep, hne f hfp] at heq
        exact h.inj e f he hf heq

variable [DecidableEq σ]

theorem Shared.Ok.allocate (h : g.Ok stripe) (hother : ∀ e, e < g.next → (g.data e).object ≠ o) :
    Joined t o g.next g (g.allocate stripe t o) ∧ (g.allocate stripe t o).Ok stripe := by
  have hunused : ∀ u, u ∉ g.users g.next := fun u hu => lt_irrefl _ (h.below _ u hu)
  have hempty : g.users g.next = ∅ := eq_empty_of_forall_notMem hunused
  have hself : (g.allocate stripe t o).data g.next = ⟨o, 1, .free⟩ := update_self ..
  have hne : ∀ e, e < g.next → (g.allocate stripe t o).data e = g.data e := fun e he =>
    update_of_ne (ne_of_lt he) ..
  have husers : (g.allocate stripe t o).users g.next = insert t (g.users g.next) := update_self ..
  have husers' : ∀ e, e ≠ g.next → (g.allocate stripe t o).users e = g.users e := fun e he =>
    update_of_ne he ..
  have hcases : ∀ e, e < g.next + 1 → e < g.next ∨ e = g.next := fun e he => by omega
  refine ⟨⟨Nat.le_succ _, Nat.lt_succ_self _, by rw [hself], rfl, hunused t, ?_, ?_⟩,
    ⟨?_, ?_, ?_, ?_⟩⟩
  · intro e u hu
    rw [hne e (h.below e u hu)]
  · intro e u he
    rcases hcases e he with he | rfl
    · rw [hne e he, if_pos he]
    · rw [hself, if_neg (lt_irrefl _)]
      rfl
  · intro e he
    rcases hcases e he with he | rfl
    · rw [hne e he, husers' e (ne_of_lt he), h.count e he]
    · rw [hself, husers, hempty]
      rfl
  · intro e u hu
    by_cases he : e = g.next
    · exact he ▸ Nat.lt_succ_self _
    · rw [husers' e he] at hu
      exact Nat.lt_succ_of_lt (h.below e u hu)
  · intro s e
    have hlist : e ∈ (g.allocate stripe t o).lists s ↔
        (e = g.next ∧ s = stripe o) ∨ e ∈ g.lists s := by
      unfold Shared.allocate
      by_cases hs : s = stripe o
      · subst hs
        simp
      · simp [hs]
    rw [hlist, h.mem s e]
    constructor
    · rintro (⟨rfl, rfl⟩ | ⟨he, hs⟩)
      · exact ⟨Nat.lt_succ_self _, by rw [hself]⟩
      · exact ⟨Nat.lt_succ_of_lt he, by rw [hne e he, hs]⟩
    · rintro ⟨he, hs⟩
      rcases hcases e he with he | rfl
      · exact .inr ⟨he, by rwa [hne e he] at hs⟩
      · exact .inl ⟨rfl, by rw [hself] at hs; exact hs.symm⟩
  · intro e f he hf heq
    rcases hcases e he with he | rfl
    · rcases hcases f hf with hf | rfl
      · rw [hne e he, hne f hf] at heq
        exact h.inj e f he hf heq
      · rw [hne e he, hself] at heq
        exact absurd heq (hother e he)
    · rcases hcases f hf with hf | rfl
      · rw [hself, hne f hf] at heq
        exact absurd heq.symm (hother f hf)
      · rfl

variable [DecidableEq ω]

/-- **A thread that acquires a record becomes its user.** The record was that of the
object, or had no user, or is new. -/
theorem Shared.Ok.region (h : g.Ok stripe)
    (hw : ∀ threads : Finset τ, w.int32 threads.card = threads.card)
    (hfresh : ∀ d, d < g.next → (g.data d).object = o → t ∉ g.users d) :
    ∃ d, (g.region w stripe t .acquire o).2 = some d ∧
      Joined t o d g (g.region w stripe t .acquire o).1 ∧
      (g.region w stripe t .acquire o).1.Ok stripe := by
  obtain ⟨hfound, hnone⟩ := walk_spec g.data o (g.lists (stripe o)) none
  unfold Shared.region
  split
  next p unused hwalk =>
    obtain ⟨hmem, hobject⟩ := hfound p unused hwalk
    obtain ⟨hp, hstripe⟩ := (h.mem _ p).1 hmem
    refine ⟨p, rfl, h.use hp (hfresh p hp hobject) hstripe (fun e he ho => ?_) hobject ?_ rfl
      (.inl hobject)⟩
    · exact h.inj e p he hp (ho.trans hobject.symm)
    · have hjoined := hw (insert t (g.users p))
      rw [card_insert_of_notMem (hfresh p hp hobject)] at hjoined
      rw [h.count p hp]
      exact hjoined
  next unused hwalk =>
    obtain ⟨hlist, hunused⟩ := hnone unused hwalk
    have hother : ∀ e, e < g.next → (g.data e).object ≠ o := fun e he ho =>
      hlist e ((h.mem _ e).2 ⟨he, by rw [ho]⟩) ho
    rw [if_neg (by simp)]
    split
    next p =>
      obtain ⟨hmem, hzero⟩ := (hunused p rfl).resolve_left (by simp)
      obtain ⟨hp, hstripe⟩ := (h.mem _ p).1 hmem
      have hempty : g.users p = ∅ := by
        have hcount := h.count p hp
        exact card_eq_zero.1 (by omega)
      refine ⟨p, rfl, h.use hp (by rw [hempty]; exact notMem_empty t) hstripe
        (fun e he ho => absurd ho (hother e he)) rfl (by rw [hzero]; rfl) rfl (.inr hempty)⟩
    · exact ⟨g.next, rfl, h.allocate hother⟩

end ObjcRuntime.Sync
