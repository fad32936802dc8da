import ObjcRuntime.Assoc.Machine
import ObjcRuntime.Lib.Log

/-!
# ObjcRuntime.Assoc.Sound

Where the references are.

The reference of a call is in the hands of one thread, in one place of the table, or
gone, and it is released when it goes (`Refs`). The contents of the table are what
the regions have made of the empty map (`replay`). The two are kept by every step,
whatever the other threads do (`Respects`).
-/

namespace ObjcRuntime.Assoc

open Lib List Option Nat Event

variable {τ ω κ ν : Type}

/-! ### Associations and their references -/

/-- The associations that a thread still has to store or to release. -/
def Pc.carried : Pc ω κ ν → List (Association ν)
  | .setting _ _ _ _ a => [a]
  | .stored _ _ _ a => [a]
  | .finishing _ a => [a]
  | .releasing deallocating refs laterRefs => toRelease deallocating refs ++ laterRefs
  | _ => []

/-- The reference of an association, if it has one, is at `p`. -/
def At (g : Shared τ ω κ ν) (a : Association ν) (p : Place τ ω κ) : Prop :=
  ∀ n, a.carries n = true → g.place n = p

/-- Associations without a common reference. -/
def Apart (a b : Association ν) : Prop := ∀ n, a.carries n = true → ¬ b.carries n = true

section

variable {g : Shared τ ω κ ν} {a b : Association ν} {p q : Place τ ω κ}

theorem carries_iff {n} : a.carries n ↔ ∃ r, a.value = some r ∧ r.call = n := by
  unfold ObjcAssociation.carries
  cases a.value with
  | none | some => simp

theorem At.apart (ha : At g a p) (hb : At g b q) (hne : p ≠ q) : Apart a b :=
  fun n hn hn' => hne ((ha n hn).symm.trans (hb n hn'))

theorem moved_apply (place : Nat → Place τ ω κ) (as : List (Association ν)) (p) (n : Nat) :
    moved place as p n = if ∃ a ∈ as, a.carries n then p else place n := by
  simp only [moved, List.any_eq_true]

end

/-! ### What the log says -/

/-- Events that leave the map alone, gets apart. -/
def Event.neutral : Event ω κ ν → Bool
  | .retain .. | .copy .. | .returned .. | .autorelease .. | .release .. => true
  | _ => false

def Neutral (events : List (Event ω κ ν)) : Prop := ∀ e ∈ events, e.neutral = true

theorem Neutral.noGet {events : List (Event ω κ ν)} (h : Neutral events) (o : ω) (k : κ)
    (found) (retained) : get o k found retained ∉ events :=
  fun hmem => absurd (h _ hmem) (by simp [neutral])

section Map

variable [DecidableEq ω] [DecidableEq κ]

/-- What an event does to the map of associations. -/
def Event.apply (m : ω → κ → Option (Association ν)) :
    Event ω κ ν → ω → κ → Option (Association ν)
  | .store _ o k a _ => fun o' k' => if o' = o ∧ k' = k then some a else m o' k'
  | .clear o k => fun o' k' => if o' = o ∧ k' = k then none else m o' k'
  | .remove o deallocating => fun o' k' =>
    if o' = o then (m o k').filter fun a => !deallocating && a.isSystem else m o' k'
  | _ => m

/-- The map from objects and keys to associations after the events of a log. -/
def replay (log : List (Event ω κ ν)) : ω → κ → Option (Association ν) :=
  log.foldl Event.apply fun _ _ => none

theorem replay_append (log events : List (Event ω κ ν)) :
    replay (log ++ events) = events.foldl apply (replay log) :=
  foldl_append ..

theorem replay_neutral {log events : List (Event ω κ ν)} (h : Neutral events) :
    replay (log ++ events) = replay log := by
  rw [replay_append]
  induction events with
  | nil => rfl
  | cons e events ih =>
    have hsame : e.apply (replay log) = replay log := by
      have he := h e mem_cons_self
      cases e with
      | store | clear | remove => simp [neutral] at he
      | _ => rfl
    rw [foldl_cons, hsame]
    exact ih fun e' he' => h e' (mem_cons_of_mem _ he')

theorem mem_entries_removed {associations associations' : AssociationsHashMap ω κ (Ref ν)}
    {o deallocating refs}
    (hrem : removeAssociations o deallocating associations = (refs, associations')) (k a) :
    ⟨k, a⟩ ∈ refs.entries ↔ contents associations o k = some a := by
  have hrefs := (removeAssociations_spec o deallocating associations).1
  rw [hrem] at hrefs
  dsimp only at hrefs
  rw [← AList.mem_lookup_iff, hrefs, lookup_getD]
  exact mem_def

theorem mem_toRelease {associations associations' : AssociationsHashMap ω κ (Ref ν)}
    {o deallocating refs}
    (hrem : removeAssociations o deallocating associations = (refs, associations')) (a) :
    a ∈ toRelease deallocating (refs.entries.map Sigma.snd) ↔
      ∃ k, contents associations o k = some a ∧ (!deallocating && a.isSystem) = false := by
  unfold toRelease
  rw [mem_filter, List.mem_map]
  have hentry := mem_entries_removed hrem
  constructor
  · rintro ⟨⟨⟨k, b⟩, hb, rfl⟩, hdrop⟩
    exact ⟨k, (hentry k b).1 hb, by grind⟩
  · rintro ⟨k, hk, hdrop⟩
    exact ⟨⟨⟨k, a⟩, (hentry k a).2 hk, rfl⟩, by grind⟩

end Map

section Ownership

variable [DecidableEq ν]

/-- Is a reference acquired? -/
def Event.acquires (r : Ref ν) : Event ω κ ν → Bool
  | .retain n v => n = r.call ∧ v = r.obj
  | .copy n _ copied => n = r.call ∧ copied = some r.obj
  | _ => false

/-- Is a reference released? -/
def Event.releases (r : Ref ν) : Event ω κ ν → Bool
  | .release r' => r' = r
  | _ => false

def acquires (log : List (Event ω κ ν)) (r : Ref ν) : Nat := log.countP (·.acquires r)

def releases (log : List (Event ω κ ν)) (r : Ref ν) : Nat := log.countP (·.releases r)

@[simp] theorem acquires_append (log events : List (Event ω κ ν)) (r : Ref ν) :
    acquires (log ++ events) r = acquires log r + acquires events r :=
  countP_append ..

@[simp] theorem releases_append (log events : List (Event ω κ ν)) (r : Ref ν) :
    releases (log ++ events) r = releases log r + releases events r :=
  countP_append ..

theorem acquireValue_spec {events : List (Event ω κ ν)} {n policy value copied held}
    (hpolicy : policy ∈ documented) (h : acquireValue n policy value copied = (held, events)) :
    (∀ r, held = some r → r.call = n) ∧
    (∀ r, acquires events r = if held = some r ∧ holds policy then 1 else 0) ∧
    (∀ r, releases events r = 0) ∧ Neutral events := by
  have hholds := holds_of_documented hpolicy
  unfold acquireValue at h
  split at h
  · cases h
    exact ⟨by simp, by simp [acquires], by simp [releases], by simp [Neutral]⟩
  next v =>
    split at h
    next hacq =>
      cases h
      rw [hacq] at hholds
      exact ⟨by simp, by simp [acquires, hholds], by simp [releases], by simp [Neutral]⟩
    next hacq =>
      cases h
      rw [hacq] at hholds
      refine ⟨by simp, fun r => ?_, by simp [releases, Event.releases], by simp [Neutral, neutral]⟩
      simp [acquires, Event.acquires, hholds, countP_cons, Ref.ext_iff, and_comm]
    next hacq =>
      cases h
      rw [hacq] at hholds
      refine ⟨?_, fun r => ?_, by simp [releases, Event.releases], by simp [Neutral, neutral]⟩
      · intro r hr
        obtain ⟨v', -, rfl⟩ := map_eq_some_iff.1 hr
        rfl
      · cases copied with
        | none => simp [acquires, Event.acquires]
        | some v' =>
          simp [acquires, Event.acquires, hholds, countP_cons, Ref.ext_iff, and_comm]

variable (ω κ) in
theorem releaseHeldValue_spec (a) :
    (∀ r, acquires (releaseHeldValue a : List (Event ω κ ν)) r = 0) ∧
    (∀ r, releases (releaseHeldValue a : List (Event ω κ ν)) r =
      if a.value = some r ∧ holds a.policy then 1 else 0) ∧
    Neutral (releaseHeldValue a : List (Event ω κ ν)) := by
  unfold releaseHeldValue
  split
  next r hr =>
    split
    next hh =>
      simp [acquires, releases, Event.acquires, Event.releases, hr, hh, Neutral, Event.neutral,
        countP_cons]
    next hh => simp [acquires, releases, hh, Neutral]
  next hr => simp [acquires, releases, hr, Neutral]

/-- The reference was acquired once if the policy holds one, and otherwise not. -/
def Owned (g : Shared τ ω κ ν) (a : Association ν) : Prop :=
  ∀ r, a.value = some r → a.policy ∈ documented ∧ r.call < g.next ∧ ∀ r', r'.call = r.call →
    acquires g.log r' = if r' = r ∧ holds a.policy = true then 1 else 0

/-- What thread `t` carries is in its hands, and nothing else is. -/
structure Carries (t : τ) (g : Shared τ ω κ ν) (pc : Pc ω κ ν) : Prop where
  carried : ∀ a ∈ pc.carried, At g a (.hand t) ∧ Owned g a
  apart : pc.carried.Pairwise Apart
  found : ∀ n, g.place n = .hand t → ∃ a ∈ pc.carried, a.carries n = true
  nil : ∀ n o k a, pc = .setting n o k true a → a.value = none

/-- A step of thread `t` leaves the hands of the other threads alone. -/
structure Respects (t : τ) (g g' : Shared τ ω κ ν) : Prop where
  hand : ∀ n u, u ≠ t → (g'.place n = .hand u ↔ g.place n = .hand u)
  acquires : ∀ r, r.call < g.next → acquires g'.log r = acquires g.log r
  next : g.next ≤ g'.next

variable {t u : τ} {g g' : Shared τ ω κ ν} {a : Association ν} {pc pc' : Pc ω κ ν}

theorem Owned.respects (h : Owned g a) (hrespects : Respects t g g') : Owned g' a := by
  intro r hr
  obtain ⟨hpolicy, hlt, hacq⟩ := h r hr
  refine ⟨hpolicy, lt_of_lt_of_le hlt hrespects.next, fun r' hr' => ?_⟩
  rw [hrespects.acquires r' (hr' ▸ hlt)]
  exact hacq r' hr'

theorem Carries.respects (h : Carries u g pc) (hne : u ≠ t)
    (hrespects : Respects t g g') : Carries u g' pc where
  carried a ha := ⟨fun n hn => (hrespects.hand n u hne).2 ((h.carried a ha).1 n hn),
    (h.carried a ha).2.respects hrespects⟩
  apart := h.apart
  found n hn := h.found n ((hrespects.hand n u hne).1 hn)
  nil := h.nil

theorem Carries.same (h : Carries t g pc) (hplace : g'.place = g.place)
    (hrespects : Respects t g g') (hperm : pc.carried.Perm pc'.carried)
    (hnil : ∀ n o k a, pc' ≠ .setting n o k true a) : Carries t g' pc' where
  carried a ha := by
    obtain ⟨hat, howned⟩ := h.carried a (hperm.mem_iff.2 ha)
    exact ⟨fun n hn => (congrFun hplace n).trans (hat n hn), howned.respects hrespects⟩
  apart := (hperm.pairwise_iff fun hab n hn hn' => hab n hn' hn).1 h.apart
  found n hn := by
    obtain ⟨a, ha, hcarries⟩ := h.found n ((congrFun hplace n).symm.trans hn)
    exact ⟨a, hperm.mem_iff.1 ha, hcarries⟩
  nil n o k a heq := absurd heq (hnil n o k a)

theorem Carries.place_hand_iff (h : Carries t g pc) (n : Nat) :
    g.place n = .hand t ↔ ∃ a ∈ pc.carried, a.carries n :=
  ⟨h.found n, fun ⟨a, ha, hn⟩ => (h.carried a ha).1 n hn⟩

end Ownership

/-! ### The invariant -/

variable [DecidableEq ω] [DecidableEq κ] [DecidableEq ν]

/-- A get finds what is in the map, and that is not released yet. -/
def GetsOk (log : List (Event ω κ ν)) : Prop :=
  ∀ pre o k found retained post, log = pre ++ .get o k found retained :: post →
    found = replay pre o k ∧ retained = found.any retainReturnedValue ∧
      ∀ a r, found = some a → a.value = some r → releases pre r = 0

structure Refs (g : Shared τ ω κ ν) : Prop where
  noEmpty : NoEmpty g.associations
  contents : contents g.associations = replay g.log
  slot : ∀ o k a, replay g.log o k = some a → At g a (.slot o k) ∧ Owned g a
  slotted : ∀ n o k, g.place n = .slot o k → ∃ a, replay g.log o k = some a ∧ a.carries n = true
  fresh_iff : ∀ n, g.place n = .fresh ↔ g.next ≤ n
  unused : ∀ r, g.next ≤ r.call → acquires g.log r = 0
  acquires_le : ∀ r, acquires g.log r ≤ 1
  gone : ∀ r, g.place r.call = .gone → releases g.log r = acquires g.log r
  kept : ∀ r, g.place r.call ≠ .gone → releases g.log r = 0
  gets : GetsOk g.log

theorem GetsOk.append {log events : List (Event ω κ ν)} (h : GetsOk log)
    (hevents : ∀ o k found retained, get o k found retained ∉ events) : GetsOk (log ++ events) := by
  intro pre o k found retained post heq
  obtain ⟨post', hpost⟩ := cut_of_notMem (hevents o k found retained) heq
  exact h pre o k found retained post' hpost

variable {t u : τ} {g g' : Shared τ ω κ ν} {a b : Association ν} {pc pc' : Pc ω κ ν}
variable {events : List (Event ω κ ν)}

/-! ### Steps -/

theorem Refs.beginSet (h : Refs g) (hcarries : Carries t g .idle) {o k value copied policy}
    (hpolicy : policy ∈ documented)
    (hacq : acquireValue g.next policy value copied = (a.value, events)) (heq : a.policy = policy) :
    Refs (g.beginSet t a events) ∧
      Carries t (g.beginSet t a events) (.setting g.next o k value.isNone a) ∧
      Respects t g (g.beginSet t a events) := by
  obtain ⟨hcall, hacquires, hreleases, hneutral⟩ := acquireValue_spec hpolicy hacq
  have hreplay : replay (g.log ++ events) = replay g.log := replay_neutral hneutral
  have hother : ∀ r, r.call ≠ g.next → acquires events r = 0 := by
    intro r hr
    rw [hacquires, if_neg fun h => hr (hcall r h.1)]
  have hnew : g.place g.next = .fresh := (h.fresh_iff _).2 le_rfl
  have hplace : ∀ n, n ≠ g.next → (g.beginSet t a events).place n = g.place n :=
    fun n hn => Function.update_of_ne hn ..
  have hself : (g.beginSet t a events).place g.next =
      if a.value.isSome then .hand t else .gone := Function.update_self ..
  have hused : ∀ n, g.place n ≠ .fresh → n ≠ g.next := fun n hn heq => hn (heq ▸ hnew)
  have hrespects : Respects t g (g.beginSet t a events) := by
    refine ⟨fun n u hu => ?_, fun r hr => ?_, le_succ _⟩
    · by_cases hn : n = g.next
      · rw [hn, hself, hnew]
        split
        · simpa using fun h => hu h.symm
        · simp
      · rw [hplace n hn]
    · change acquires (g.log ++ events) r = _
      rw [acquires_append, hother r (Nat.ne_of_lt hr), Nat.add_zero]
  refine ⟨⟨h.noEmpty, h.contents.trans hreplay.symm, fun o k b hb => ?_, fun n o k hn => ?_,
    fun n => ?_, fun r hr => ?_, fun r => ?_, fun r hr => ?_, fun r hr => ?_, ?_⟩, ?_, hrespects⟩
  · obtain ⟨hat, howned⟩ := h.slot o k b (hreplay ▸ hb)
    refine ⟨fun n hn => ?_, howned.respects hrespects⟩
    rw [hplace n (hused n (by rw [hat n hn]; simp)), hat n hn]
  · have hne : n ≠ g.next := by
      rintro rfl
      rw [hself] at hn
      split at hn <;> cases hn
    rw [hplace n hne] at hn
    change ∃ a, replay (g.log ++ events) o k = some a ∧ _
    rw [hreplay]
    exact h.slotted n o k hn
  · change _ ↔ g.next + 1 ≤ n
    by_cases hn : n = g.next
    · rw [hn, hself]
      split <;> simp
    · rw [hplace n hn, h.fresh_iff]
      omega
  · change g.next + 1 ≤ r.call at hr
    change acquires (g.log ++ events) r = 0
    rw [acquires_append, h.unused r (by omega), hother r (by omega)]
  · change acquires (g.log ++ events) r ≤ 1
    rw [acquires_append]
    by_cases hr : r.call = g.next
    · rw [h.unused r (by omega), hacquires]
      split <;> omega
    · rw [hother r hr]
      exact h.acquires_le r
  · change releases (g.log ++ events) r = acquires (g.log ++ events) r
    rw [releases_append, acquires_append, hreleases]
    by_cases hc : r.call = g.next
    · rw [hc, hself] at hr
      have hnone : a.value = none := by
        cases hv : a.value with
        | none => rfl
        | some r => rw [hv] at hr; cases hr
      rw [h.kept r (by rw [hc, hnew]; simp), h.unused r (by omega), hacquires, hnone]
      simp
    · rw [hplace _ hc] at hr
      rw [hother r hc, h.gone r hr]
  · change releases (g.log ++ events) r = 0
    rw [releases_append, hreleases]
    by_cases hc : r.call = g.next
    · rw [h.kept r (by rw [hc, hnew]; simp)]
    · rw [hplace _ hc] at hr
      rw [h.kept r hr]
  · exact h.gets.append hneutral.noGet
  · refine ⟨fun b hb => ?_, pairwise_singleton .., fun n hn => ?_, fun n o k b hpc => ?_⟩
    · obtain rfl := mem_singleton.1 hb
      refine ⟨fun n hn => ?_, fun r hr => ⟨heq ▸ hpolicy, ?_, fun r' hr' => ?_⟩⟩
      · obtain ⟨r, hr, rfl⟩ := carries_iff.1 hn
        rw [hcall r hr, hself, hr]
        rfl
      · rw [hcall r hr]
        exact lt_succ_self _
      · change acquires (g.log ++ events) r' = _
        rw [acquires_append, h.unused r' (by rw [hr', hcall r hr]), hacquires, hr, heq,
          Nat.zero_add]
        simp only [some.injEq, eq_comm]
    · by_cases hc : n = g.next
      · refine ⟨a, mem_singleton_self a, ?_⟩
        rw [hc, hself] at hn
        cases hv : a.value with
        | none => rw [hv] at hn; cases hn
        | some r => exact carries_iff.2 ⟨r, hv, by rw [hc, hcall r hv]⟩
      · rw [hplace n hc] at hn
        obtain ⟨b, hb, -⟩ := hcarries.found n hn
        simp [Pc.carried] at hb
    · injection hpc with _ _ _ hnil hab
      subst hab
      have hvalue : value = none := isNone_iff_eq_none.1 hnil
      subst hvalue
      exact (Prod.mk.inj hacq).1.symm

/-- Where reference `n` is after a step of thread `t` to `pc'`. -/
structure Placed (t : τ) (g g' : Shared τ ω κ ν) (pc' : Pc ω κ ν) (n : Nat) : Prop where
  slot : ∀ o k, g'.place n = .slot o k ↔ ∃ a, replay g'.log o k = some a ∧ a.carries n
  hand : g'.place n = .hand t ↔ ∃ a ∈ pc'.carried, a.carries n
  fresh : g'.place n = .fresh ↔ g.place n = .fresh
  other : ∀ u, u ≠ t → (g'.place n = .hand u ↔ g.place n = .hand u)

theorem Refs.place_slot_iff (h : Refs g) (n : Nat) (o : ω) (k : κ) :
    g.place n = .slot o k ↔ ∃ a, replay g.log o k = some a ∧ a.carries n :=
  ⟨h.slotted n o k, fun ⟨a, ha, hn⟩ => (h.slot o k a ha).1 n hn⟩

variable (h : Refs g)
include h

/-- **References change places.** -/
theorem Refs.rearranged (hnext : g'.next = g.next)
    (hacq : ∀ r, acquires g'.log r = acquires g.log r) (hnoEmpty : NoEmpty g'.associations)
    (hcontents : Assoc.contents g'.associations = replay g'.log) (hgets : GetsOk g'.log)
    (howned : ∀ a, (∃ o k, replay g'.log o k = some a) ∨ a ∈ pc'.carried → Owned g a)
    (hplace : ∀ n, Placed t g g' pc' n)
    (hgone : ∀ r, g'.place r.call = .gone → releases g'.log r = acquires g.log r)
    (hkept : ∀ r, g'.place r.call ≠ .gone → releases g'.log r = 0)
    (hapart : pc'.carried.Pairwise Apart) (hnil : ∀ n o k b, pc' ≠ .setting n o k true b) :
    Refs g' ∧ Carries t g' pc' ∧ Respects t g g' := by
  have hrespects : Respects t g g' :=
    ⟨fun n => (hplace n).other, fun r _ => hacq r, Nat.le_of_eq hnext.symm⟩
  constructor
  · constructor
    case slot =>
      intro o k a ha
      exact ⟨fun n hn => ((hplace n).slot o k).2 ⟨a, ha, hn⟩,
        (howned a (.inl ⟨o, k, ha⟩)).respects hrespects⟩
    case slotted => exact fun n o k => ((hplace n).slot o k).1
    case fresh_iff =>
      intro n
      rw [(hplace n).fresh, hnext]
      exact h.fresh_iff n
    case unused =>
      intro r hr
      rw [hacq]
      exact h.unused r (hnext ▸ hr)
    case acquires_le => exact fun r => (hacq r).symm ▸ h.acquires_le r
    case gone => exact fun r hr => (hgone r hr).trans (hacq r).symm
    all_goals assumption
  · refine ⟨⟨fun a ha => ⟨fun n hn => (hplace n).hand.2 ⟨a, ha, hn⟩, ?_⟩, hapart,
      fun n => (hplace n).hand.1, fun n o k b heq => absurd heq (hnil n o k b)⟩, hrespects⟩
    exact (howned a (.inr ha)).respects hrespects

theorem Refs.noted (hcarries : Carries t g pc) (hcarried : pc.carried = pc'.carried)
    (hnil : ∀ n o k a, pc' ≠ .setting n o k true a)
    (hreplay : replay (g.log ++ events) = replay g.log) (hacquires : ∀ r, acquires events r = 0)
    (hreleases : ∀ r, releases events r = 0) (hgets : GetsOk (g.log ++ events)) :
    Refs { g with log := g.log ++ events } ∧ Carries t { g with log := g.log ++ events } pc' ∧
      Respects t g { g with log := g.log ++ events } := by
  have hrel : ∀ r, releases (g.log ++ events) r = releases g.log r := by simp [hreleases]
  refine h.rearranged rfl (by simp [hacquires]) h.noEmpty (h.contents.trans hreplay.symm) hgets
    (fun b hb => ?_) (fun n => ⟨fun o k => ?_, ?_, Iff.rfl, fun _ _ => Iff.rfl⟩)
    (fun r hr => (hrel r).trans (h.gone r hr)) (fun r hr => (hrel r).trans (h.kept r hr))
    (hcarried ▸ hcarries.apart) hnil
  · rcases hb with ⟨o, k, hb⟩ | hb
    · exact (h.slot o k b (hreplay ▸ hb)).2
    · exact (hcarries.carried b (hcarried ▸ hb)).2
  · rw [hreplay]
    exact h.place_slot_iff n o k
  · rw [← hcarried]
    exact hcarries.place_hand_iff n

theorem Refs.release (hcarries : Carries t g pc)
    (hcarried : pc.carried = a :: pc'.carried) (hnil : ∀ n o k b, pc' ≠ .setting n o k true b) :
    Refs (g.release a) ∧ Carries t (g.release a) pc' ∧ Respects t g (g.release a) := by
  obtain ⟨hacquires, hreleases, hneutral⟩ := releaseHeldValue_spec ω κ a
  have hreplay : replay (g.log ++ releaseHeldValue a) = replay g.log := replay_neutral hneutral
  have hapart := hcarries.apart
  rw [hcarried, pairwise_cons] at hapart
  obtain ⟨hat, howned⟩ := hcarries.carried a (by rw [hcarried]; exact mem_cons_self)
  have hplace : ∀ n, (g.release a).place n = if a.carries n then .gone else g.place n := by
    intro n
    change moved g.place [a] .gone n = _
    simp [moved_apply]
  refine h.rearranged rfl (fun r => ?_) h.noEmpty (h.contents.trans hreplay.symm)
    (h.gets.append hneutral.noGet) (fun b hb => ?_) (fun n => ?_) (fun r hr => ?_) (fun r hr => ?_)
    hapart.2 hnil
  · exact (acquires_append ..).trans (by rw [hacquires, Nat.add_zero])
  · rcases hb with ⟨o, k, hb⟩ | hb
    · exact (h.slot o k b (hreplay ▸ hb)).2
    · exact (hcarries.carried b (by rw [hcarried]; exact mem_cons_of_mem _ hb)).2
  · have hhand := hcarries.place_hand_iff n
    rw [hcarried] at hhand
    constructor
    · intro o k
      change _ ↔ ∃ a, replay (g.log ++ _) o k = _ ∧ _
      rw [hreplay, hplace, ← h.place_slot_iff]
      grind
    · rw [hplace]
      grind [Apart]
    · rw [hplace]
      grind
    · rw [hplace]
      grind
  · refine (releases_append ..).trans ?_
    rw [hreleases]
    rw [hplace] at hr
    split at hr
    next hc =>
      -- it is released now, once if it was acquired
      obtain ⟨r₀, hr₀, hcall⟩ := carries_iff.1 hc
      rw [h.kept r (by rw [hat _ hc]; simp), (howned r₀ hr₀).2.2 r hcall.symm, hr₀, Nat.zero_add]
      simp only [some.injEq, eq_comm]
    next hc =>
      rw [h.gone r hr, if_neg fun hv => hc (carries_iff.2 ⟨r, hv.1, rfl⟩), Nat.add_zero]
  · refine (releases_append ..).trans ?_
    rw [hplace] at hr
    split at hr
    · exact absurd rfl hr
    next hc =>
      rw [hreleases, h.kept r hr, if_neg fun hv => hc (carries_iff.2 ⟨r, hv.1, rfl⟩)]

/-- The region of a call with a value: its reference goes into the table, and the
one that was there comes into its hands. -/
theorem Refs.store {n o k old isFirst associations}
    (hset : setValue o k a g.associations = (old, isFirst, associations))
    (hcarries : Carries t g (.setting n o k false a))
    (hg' : g' = { g with
      associations
      place := moved (moved g.place [a] (.slot o k)) [old] (.hand t)
      log := g.log ++ [.store n o k a isFirst] }) :
    Refs g' ∧ Carries t g' (.stored n o isFirst old) ∧ Respects t g g' := by
  obtain ⟨hold, -, hcontents⟩ := setValue_spec g.associations o k a
  rw [hset, h.contents] at hold hcontents
  dsimp only at hold
  have hhand : ∀ m, g.place m = .hand t ↔ a.carries m := fun m =>
    (hcarries.place_hand_iff m).trans (by simp [Pc.carried])
  -- the old reference, if any, was in the place that is overwritten
  have hslotOld : ∀ m, g.place m = .slot o k ↔ old.carries m := by
    intro m
    rw [h.place_slot_iff, hold]
    cases replay g.log o k with
    | none => simp [ObjcAssociation.carries, ObjcAssociation.empty]
    | some b => simp
  have hplace : ∀ m, g'.place m =
      if old.carries m then .hand t else if a.carries m then .slot o k else g.place m := by
    intro m
    rw [hg']
    simp only [moved_apply, mem_singleton, exists_eq_left]
  have hreplay : replay g'.log = fun o' k' =>
      if o' = o ∧ k' = k then some a else replay g.log o' k' := by
    rw [hg', replay_append]
    rfl
  have hplaced : ∀ m, Placed t g g' (.stored n o isFirst old) m := by
    intro m
    have hhand := hhand m
    constructor
    · intro o' k'
      have hslot := h.place_slot_iff m o' k'
      rw [hplace, hreplay]
      grind
    · rw [hplace]
      change _ ↔ ∃ b ∈ [old], _
      grind
    · rw [hplace]
      grind
    · rw [hplace]
      grind
  have hgone : ∀ m, g'.place m = .gone ↔ g.place m = .gone := by
    intro m
    have hhand := hhand m
    rw [hplace]
    grind
  have hrel : ∀ r, releases g'.log r = releases g.log r := fun r => by
    rw [hg']
    exact releases_append ..
  refine h.rearranged (by rw [hg']) (fun r => ?_) ?_ ?_ ?_ (fun b hb => ?_) hplaced
    (fun r hr => ?_) (fun r hr => ?_) (pairwise_singleton ..) (by simp)
  · rw [hg']
    exact acquires_append ..
  · have hnoEmpty := h.noEmpty.setValue o k a
    rw [hset] at hnoEmpty
    exact hg' ▸ hnoEmpty
  · rw [hreplay, hg']
    funext o' k'
    exact hcontents o' k'
  · rw [hg']
    exact h.gets.append (by simp)
  · rcases hb with ⟨o', k', hb⟩ | hb
    · rw [hreplay] at hb
      dsimp only at hb
      split at hb
      · cases hb
        exact (hcarries.carried a mem_cons_self).2
      · exact (h.slot o' k' b hb).2
    · obtain rfl := mem_singleton.1 hb
      cases hr : replay g.log o k with
      | none =>
        rw [hold, hr]
        exact fun r hr => absurd hr (by simp [ObjcAssociation.empty])
      | some b =>
        rw [hold, hr]
        exact (h.slot o k b hr).2
  · rw [hrel, h.gone r ((hgone _).1 hr)]
  · rw [hrel, h.kept r fun hg => hr ((hgone _).2 hg)]

/-- A region that takes associations out of the table, with nothing in the hands of
the thread before. -/
theorem Refs.takeOut {out e associations pc}
    (hempty : ∀ n, g.place n ≠ .hand t) (hnoEmpty : NoEmpty associations)
    (hcontents : Assoc.contents associations = replay (g.log ++ [e]))
    (hevent : (∀ r, e.acquires r = false) ∧ (∀ r, e.releases r = false) ∧
      ∀ o k found retained, e ≠ .get o k found retained) (hout : ∀ a ∈ out, a.value = none ∨
      ∃ o k, replay g.log o k = some a ∧ replay (g.log ++ [e]) o k = none)
    (hkept : ∀ o k b, replay (g.log ++ [e]) o k = some b → replay g.log o k = some b)
    (hlost : ∀ o k b, replay g.log o k = some b → replay (g.log ++ [e]) o k = some b ∨ b ∈ out)
    (hapart : out.Pairwise Apart) (hpc : pc.carried = out)
    (hnil : ∀ n o k b, pc ≠ .setting n o k true b) :
    Refs { g with associations, place := moved g.place out (.hand t), log := g.log ++ [e] } ∧
      Carries t
        { g with associations, place := moved g.place out (.hand t), log := g.log ++ [e] } pc ∧
      Respects t g
        { g with associations, place := moved g.place out (.hand t), log := g.log ++ [e] } := by
  obtain ⟨hnoAcq, hnoRel, hnoGet⟩ := hevent
  have hrel : ∀ r, releases (g.log ++ [e]) r = releases g.log r := by simp [releases, hnoRel]
  -- what is taken out was in places that are empty now
  have hfrom : ∀ n, (∃ a ∈ out, a.carries n) →
      ∃ o k, g.place n = .slot o k ∧ replay (g.log ++ [e]) o k = none := by
    rintro n ⟨a, ha, hn⟩
    rcases hout a ha with hvalue | ⟨o, k, hold, hnew⟩
    · obtain ⟨r, hr, -⟩ := carries_iff.1 hn
      cases hvalue.symm.trans hr
    · exact ⟨o, k, (h.slot o k a hold).1 n hn, hnew⟩
  have hgone : ∀ n, moved g.place out (.hand t) n = .gone ↔ g.place n = .gone := by
    intro n
    rw [moved_apply]
    split
    next hc =>
      obtain ⟨o, k, hp, -⟩ := hfrom n hc
      simp [hp]
    · rfl
  refine h.rearranged rfl (fun r => by simp [acquires, hnoAcq]) hnoEmpty hcontents
    (h.gets.append (by simpa [eq_comm] using hnoGet)) (fun b hb => ?_) (fun n => ?_)
    (fun r hr => ?_) (fun r hr => ?_) (hpc ▸ hapart) hnil
  · rcases hb with ⟨o, k, hb⟩ | hb
    · exact (h.slot o k b (hkept o k b hb)).2
    · rcases hout b (hpc ▸ hb) with hvalue | ⟨o, k, hold, -⟩
      · exact fun r hr => absurd (hvalue.symm.trans hr) (by simp)
      · exact (h.slot o k b hold).2
  · have hslot := h.place_slot_iff n
    by_cases hc : ∃ a ∈ out, a.carries n
    · obtain ⟨o, k, hp, hnone⟩ := hfrom n hc
      have hplace : moved g.place out (.hand t) n = .hand t := by rw [moved_apply, if_pos hc]
      constructor
      · grind
      · grind
      · grind
      · grind
    · have hplace : moved g.place out (.hand t) n = g.place n := by rw [moved_apply, if_neg hc]
      constructor
      · grind
      · grind
      · grind
      · grind
  · exact (hrel r).trans (h.gone r ((hgone _).1 hr))
  · exact (hrel r).trans (h.kept r fun hg => hr ((hgone _).2 hg))

theorem Refs.clear {n o k old associations}
    (hset : setNil o k a g.associations = (old, associations))
    (hcarries : Carries t g (.setting n o k true a))
    (hg' : g' = { g with
      associations
      place := moved g.place [old] (.hand t)
      log := g.log ++ [.clear o k] }) :
    Refs g' ∧ Carries t g' (.stored n o false old) ∧ Respects t g g' := by
  obtain ⟨hold, hcontents⟩ := setNil_spec g.associations o k a
  have hnoEmpty := h.noEmpty.setNil o k a
  rw [hset] at hnoEmpty hold hcontents
  dsimp only at hold
  have hvalue := hcarries.nil n o k a rfl
  have hreplay : replay (g.log ++ [.clear o k]) = fun o' k' =>
      if o' = o ∧ k' = k then none else replay g.log o' k' := replay_append ..
  rw [hg']
  refine h.takeOut (fun m hm => ?_) hnoEmpty ?_
    ⟨fun _ => rfl, fun _ => rfl, by simp⟩ (fun b hb => ?_) (fun o' k' b hb => ?_)
    (fun o' k' b hb => ?_) (pairwise_singleton ..) rfl (by simp)
  · obtain ⟨b, hb, hcb⟩ := hcarries.found m hm
    obtain rfl := mem_singleton.1 hb
    obtain ⟨r, hr, -⟩ := carries_iff.1 hcb
    cases hvalue.symm.trans hr
  · rw [hreplay]
    funext o' k'
    rw [← h.contents]
    exact hcontents o' k'
  · obtain rfl := mem_singleton.1 hb
    rw [hold, h.contents, hreplay]
    cases hr : replay g.log o k with
    | none => exact .inl hvalue
    | some b => exact .inr ⟨o, k, hr, if_pos ⟨rfl, rfl⟩⟩
  · rw [hreplay] at hb
    dsimp only at hb
    split at hb
    · cases hb
    · exact hb
  · rw [hreplay, hold, h.contents]
    dsimp only
    split
    next hok =>
      obtain ⟨rfl, rfl⟩ := hok
      rw [hb]
      exact .inr (mem_singleton_self b)
    · exact .inl hb

theorem Refs.remove {o deallocating refs associations}
    (hrem : removeAssociations o deallocating g.associations = (refs, associations))
    (hcarries : Carries t g (.removing o deallocating))
    (hg' : g' = { g with
      associations
      place := moved g.place (toRelease deallocating (refs.entries.map Sigma.snd)) (.hand t)
      log := g.log ++ [.remove o deallocating] }) :
    Refs g' ∧ Carries t g' (.releasing deallocating (refs.entries.map Sigma.snd) []) ∧
      Respects t g g' := by
  obtain ⟨-, hcontents⟩ := removeAssociations_spec o deallocating g.associations
  have hnoEmpty := h.noEmpty.removeAssociations o deallocating
  rw [hrem] at hnoEmpty hcontents
  have hreplay : replay (g.log ++ [.remove o deallocating]) = fun o' k' =>
      if o' = o then (replay g.log o k').filter fun a => !deallocating && a.isSystem
      else replay g.log o' k' := replay_append ..
  have hentry := mem_entries_removed hrem
  have hmem := mem_toRelease hrem
  rw [h.contents] at hentry hmem
  rw [hg']
  refine h.takeOut (fun m hm => ?_) hnoEmpty ?_
    ⟨fun _ => rfl, fun _ => rfl, by simp⟩ (fun b hb => ?_) (fun o' k' b hb => ?_)
    (fun o' k' b hb => ?_) ?_ (append_nil _) (by simp)
  · obtain ⟨b, hb, -⟩ := hcarries.found m hm
    simp [Pc.carried] at hb
  · rw [hreplay]
    funext o' k'
    rw [← h.contents]
    exact hcontents o' k'
  · obtain ⟨k, hk, hdrop⟩ := (hmem b).1 hb
    refine .inr ⟨o, k, hk, ?_⟩
    rw [hreplay]
    dsimp only
    rw [if_pos rfl, hk]
    exact filter_some_neg hdrop
  · rw [hreplay] at hb
    dsimp only at hb
    split at hb
    next ho =>
      rw [ho]
      exact (filter_eq_some_iff.1 hb).1
    · exact hb
  · rw [hreplay]
    dsimp only
    split
    next ho =>
      subst ho
      rcases Bool.eq_false_or_eq_true (!deallocating && b.isSystem) with hkeep | hdrop
      · rw [hb]
        exact .inl (filter_some_pos hkeep)
      · exact .inr ((hmem b).2 ⟨k', hb, hdrop⟩)
    · exact .inl hb
  · -- different keys, so different references
    refine List.Pairwise.filter _ (pairwise_map.2 ?_)
    refine (nodupKeys_iff_pairwise.1 (AList.nodupKeys _)).imp_of_mem ?_
    rintro ⟨k, a⟩ ⟨k', b⟩ ha hb hne
    have hata := (h.slot o k a ((hentry k a).1 ha)).1
    have hatb := (h.slot o k' b ((hentry k' b).1 hb)).1
    exact hata.apart hatb fun heq => hne (Place.slot.inj heq).2

/-- A get looks at the table and, if the policy says so, retains inside the region. -/
theorem Refs.getsOk_get (o : ω) (k : κ) {found retained}
    (hfound : found = Assoc.contents g.associations o k)
    (hretained : retained = found.any retainReturnedValue) :
    GetsOk (g.log ++ [.get o k found retained]) := by
  intro pre o' k' found' retained' post heq
  rcases cut_concat heq with ⟨post', hpost⟩ | ⟨rfl, hevent⟩
  · exact h.gets pre o' k' found' retained' post' hpost
  · injection hevent with ho hk hf hr
    subst ho hk hf hr
    rw [h.contents] at hfound
    refine ⟨hfound, hretained, fun a r ha hr => h.kept r ?_⟩
    rw [(h.slot o k a (hfound.symm.trans ha)).1 r.call (carries_iff.2 ⟨r, hr, rfl⟩)]
    simp

/-- **What one step of a thread does to references.** -/
theorem Step.refs {env} (hcarries : Carries t g pc)
    (hstep : Step env t g pc g' pc') : Refs g' ∧ Carries t g' pc' ∧ Respects t g g' := by
  have hrefl : Respects t g g := ⟨fun _ _ _ => Iff.rfl, fun _ _ => rfl, le_refl _⟩
  cases hstep with
  | set o k value policy copied hpolicy hforbids hacq heq =>
    exact h.beginSet hcarries hpolicy hacq heq
  | store hset => exact h.store hset hcarries rfl
  | clear hset => exact h.clear hset hcarries rfl
  | @mark n o isFirst a =>
    have hsame : ∃ hasAssoc,
        (if isFirst then setHasAssociatedObjects env g o else g) = { g with hasAssoc } := by
      unfold setHasAssociatedObjects
      split
      · split
        · exact ⟨g.hasAssoc, rfl⟩
        · split
          · exact ⟨g.hasAssoc, rfl⟩
          · exact ⟨_, rfl⟩
      · exact ⟨g.hasAssoc, rfl⟩
    obtain ⟨hasAssoc, hsame⟩ := hsame
    rw [hsame]
    have hrespects : Respects t g { g with hasAssoc } := ⟨hrefl.1, hrefl.2, hrefl.3⟩
    exact ⟨{ h with }, hcarries.same rfl hrespects (List.Perm.refl _) (by simp), hrespects⟩
  | @finish n a =>
    have hreleased : Refs (g.release a) ∧ Carries t (g.release a) .idle ∧
      Respects t g (g.release a) := h.release hcarries rfl (by simp)
    obtain ⟨h₁, hcarries₁, hrespects₁⟩ := hreleased
    have hreturned : Neutral [(.returned n : Event ω κ ν)] := by simp [Neutral, neutral]
    obtain ⟨h₂, hcarries₂, hrespects₂⟩ := h₁.noted hcarries₁ rfl (by simp)
      (replay_neutral hreturned) (fun _ => rfl) (fun _ => rfl) (h₁.gets.append hreturned.noGet)
    refine ⟨h₂, hcarries₂, hrespects₁.hand, fun r hr => ?_, hrespects₁.next⟩
    exact (hrespects₂.acquires r hr).trans (hrespects₁.acquires r hr)
  | get o k =>
    exact h.noted hcarries rfl (by simp) (replay_append ..) (fun _ => rfl) (fun _ => rfl)
      (h.getsOk_get o k rfl rfl)
  | @endGet a =>
    have hevents : Neutral (autoreleaseReturnedValue a : List (Event ω κ ν)) ∧
        (∀ r, acquires (autoreleaseReturnedValue a : List (Event ω κ ν)) r = 0) ∧
        ∀ r, releases (autoreleaseReturnedValue a : List (Event ω κ ν)) r = 0 := by
      unfold autoreleaseReturnedValue
      split
      · split
        · exact ⟨by simp [Neutral, neutral], fun _ => rfl, fun _ => rfl⟩
        · exact ⟨by simp [Neutral], fun _ => rfl, fun _ => rfl⟩
      · exact ⟨by simp [Neutral], fun _ => rfl, fun _ => rfl⟩
    obtain ⟨hneutral, hacq, hrel⟩ := hevents
    exact h.noted hcarries rfl (by simp) (replay_neutral hneutral) hacq hrel
      (h.gets.append hneutral.noGet)
  | test o deallocating htest =>
    exact ⟨h, hcarries.same rfl hrefl (List.Perm.refl _) (by simp), hrefl⟩
  | skip o htest => exact ⟨h, hcarries, hrefl⟩
  | remove hrem => exact h.remove hrem hcarries rfl
  | keep hsystem =>
    refine ⟨h, hcarries.same rfl hrefl ?_ (by simp), hrefl⟩
    simp [Pc.carried, toRelease, hsystem]
  | later hsystem =>
    refine ⟨h, hcarries.same rfl hrefl ?_ (by simp), hrefl⟩
    simp only [Pc.carried, toRelease, Bool.true_or, filter_true]
    rw [cons_append, ← append_assoc]
    exact (perm_append_singleton ..).symm
  | release hsystem =>
    exact h.release hcarries (by simp [Pc.carried, toRelease, hsystem]) (by simp)
  | releaseLater => exact h.release hcarries rfl (by simp)
  | done => exact ⟨h, hcarries.same rfl hrefl (List.Perm.refl _) (by simp), hrefl⟩

omit h

end ObjcRuntime.Assoc
