import ObjcRuntime.Assoc.Sound

/-!
# ObjcRuntime.Assoc.Refinement

Associated objects are a map with balanced ownership (`associations_refine_map`).

What is left after `Assoc.Sound` is the bit of the isa. The call that makes the
first association of an object sets it before it returns (`Marks`), so a removal
that finds it clear has nothing to remove, or overlaps that call.
-/

namespace ObjcRuntime.Assoc

open Function Lib List Option Shared

variable {τ ω κ ν : Type}
variable {env : Objects ω} {t u : τ} {g g' : Shared τ ω κ ν}

/-! ### The bit of the isa -/

/-- Call `n` made the first association of an object. -/
def Created (log : List (Event ω κ ν)) (n : Nat) (o : ω) : Prop :=
  ∃ k a, .store n o k a true ∈ log

/-- An object with a bit for associations. -/
def Objects.hasBit (env : Objects ω) (o : ω) : Prop :=
  env.isTaggedPointer o = false ∧ env.nonpointer o = true

/-- What holds inside a call of thread `t`. -/
def InCall (env : Objects ω) (t : τ) (g : Shared τ ω κ ν) : Pc ω κ ν → Prop
  | .setting n _ _ _ _ => g.caller n = some t ∧ .returned n ∉ g.log ∧ ∀ o, ¬ Created g.log n o
  | .stored n o isFirst _ => g.caller n = some t ∧ .returned n ∉ g.log ∧
      ∀ o', Created g.log n o' → o' = o ∧ isFirst = true
  | .finishing n _ => g.caller n = some t ∧ .returned n ∉ g.log ∧
      ∀ o, Created g.log n o → env.hasBit o → g.hasAssoc o = true
  | _ => True

/-- A step of thread `t` leaves the calls of other threads alone. -/
structure LeavesCalls (t : τ) (g g' : Shared τ ω κ ν) : Prop where
  caller : ∀ n u, u ≠ t → g.caller n = some u → g'.caller n = some u
  returned : ∀ n u, u ≠ t → g.caller n = some u → (.returned n ∈ g'.log ↔ .returned n ∈ g.log)
  created : ∀ n u, u ≠ t → g.caller n = some u → ∀ o, Created g'.log n o ↔ Created g.log n o
  hasAssoc : ∀ o, g.hasAssoc o = true → g'.hasAssoc o = true

theorem InCall.leaves {pc} (h : InCall env u g pc) (hne : u ≠ t)
    (hleaves : LeavesCalls t g g') : InCall env u g' pc := by
  cases pc with
  | setting n o k isNil a | stored n o isFirst a =>
    obtain ⟨hcaller, hret, hcre⟩ := h
    exact ⟨hleaves.caller n u hne hcaller,
      fun hin => hret ((hleaves.returned n u hne hcaller).1 hin),
      fun o' hc => hcre o' ((hleaves.created n u hne hcaller o').1 hc)⟩
  | finishing n a =>
    obtain ⟨hcaller, hret, hcre⟩ := h
    exact ⟨hleaves.caller n u hne hcaller,
      fun hin => hret ((hleaves.returned n u hne hcaller).1 hin),
      fun o' hc hbit =>
        hleaves.hasAssoc o' (hcre o' ((hleaves.created n u hne hcaller o').1 hc) hbit)⟩
  | _ => trivial

theorem acquireValue_events {n policy : Nat} {value copied : Option ν} {held : Option (Ref ν)}
    {events : List (Event ω κ ν)} (h : acquireValue n policy value copied = (held, events)) :
    ∀ e ∈ events, (∀ n, e ≠ .returned n) ∧ ∀ n o k a, e ≠ .store n o k a true := by
  unfold acquireValue at h
  split at h
  · obtain ⟨-, rfl⟩ := Prod.mk.inj h
    simp
  · split at h <;> obtain ⟨-, rfl⟩ := Prod.mk.inj h <;> simp

section

variable [DecidableEq ω]

structure Marks (env : Objects ω) (g : Shared τ ω κ ν) : Prop where
  entry : ∀ o, (g.associations.lookup o).isSome → ∃ n, Created g.log n o
  marked : ∀ n o, Created g.log n o → .returned n ∈ g.log → env.hasBit o → g.hasAssoc o = true
  unused : ∀ n, g.next ≤ n → g.caller n = none ∧ .returned n ∉ g.log ∧ ∀ o, ¬ Created g.log n o

theorem setHasAssociatedObjects_spec (env : Objects ω) (g : Shared τ ω κ ν) (o : ω) :
    ∃ hasAssoc, setHasAssociatedObjects env g o = { g with hasAssoc } ∧
      (∀ o', g.hasAssoc o' → hasAssoc o') ∧ (env.hasBit o → hasAssoc o) := by
  unfold setHasAssociatedObjects
  split
  next htagged =>
    exact ⟨g.hasAssoc, rfl, fun _ h => h, fun hbit => absurd (htagged.symm.trans hbit.1) (by simp)⟩
  · split
    next hcond =>
      refine ⟨g.hasAssoc, rfl, fun _ h => h, fun hbit => ?_⟩
      simpa [hbit.2] using hcond
    · refine ⟨_, rfl, fun o' h => ?_, fun _ => update_self ..⟩
      rw [update_apply]
      split
      · rfl
      · exact h

theorem Marks.frame (h : Marks env g) (t : τ) (g') (events) (hlog : g'.log = g.log ++ events)
    (hevents : ∀ e ∈ events, (∀ n, e ≠ .returned n) ∧ ∀ n o k a, e ≠ .store n o k a true)
    (hcaller : g'.caller = g.caller) (hnext : g'.next = g.next)
    (hassoc : ∀ o, g.hasAssoc o → g'.hasAssoc o)
    (hentry : ∀ o, (g'.associations.lookup o).isSome → (g.associations.lookup o).isSome) :
    Marks env g' ∧ LeavesCalls t g g' ∧
      (∀ n, .returned n ∈ g'.log ↔ .returned n ∈ g.log) ∧
      ∀ n o, Created g'.log n o ↔ Created g.log n o := by
  have hret : ∀ n, .returned n ∈ g'.log ↔ .returned n ∈ g.log := by
    intro n
    rw [hlog, mem_append]
    exact ⟨fun h => h.resolve_right fun he => (hevents _ he).1 n rfl, .inl⟩
  have hcre : ∀ n o, Created g'.log n o ↔ Created g.log n o := by
    intro n o
    unfold Created
    simp only [hlog, mem_append]
    constructor
    · rintro ⟨k, a, hin⟩
      exact ⟨k, a, hin.resolve_right fun he => (hevents _ he).2 n o k a rfl⟩
    · rintro ⟨k, a, hin⟩
      exact ⟨k, a, .inl hin⟩
  refine ⟨⟨fun o ho => ?_, fun n o hc hr hbit => ?_, fun n hn => ?_⟩,
    ⟨fun n u _ hc => hcaller.symm ▸ hc, fun n u _ _ => hret n, fun n u _ _ => hcre n, hassoc⟩,
    hret, hcre⟩
  · obtain ⟨n, hn⟩ := h.entry o (hentry o ho)
    exact ⟨n, (hcre n o).2 hn⟩
  · exact hassoc o (h.marked n o ((hcre n o).1 hc) ((hret n).1 hr) hbit)
  · rw [hnext] at hn
    obtain ⟨hc, hr, hcreated⟩ := h.unused n hn
    exact ⟨hcaller.symm ▸ hc, fun hin => hr ((hret n).1 hin),
      fun o hin => hcreated o ((hcre n o).1 hin)⟩

theorem Marks.beginSet {o k isNil a events} (h : Marks env g)
    (hevents : ∀ e ∈ events, (∀ n, e ≠ .returned n) ∧ ∀ n o k a, e ≠ .store n o k a true) :
    Marks env (g.beginSet t a events) ∧
      InCall env t (g.beginSet t a events) (.setting g.next o k isNil a) ∧
      LeavesCalls t g (g.beginSet t a events) := by
  -- apart from the new call, nothing has changed
  obtain ⟨h₁, hleaves, hret, hcre⟩ := h.frame t { g with log := g.log ++ events } events rfl
    hevents rfl rfl (fun _ ho => ho) (fun _ ho => ho)
  obtain ⟨hnone, hreturned, hcreated⟩ := h₁.unused g.next le_rfl
  have hcaller : ∀ n u, g.caller n = some u → (g.beginSet t a events).caller n = some u := by
    intro n u hn
    have hne : n ≠ g.next := by
      rintro rfl
      cases hnone.symm.trans hn
    exact (update_of_ne hne ..).trans hn
  refine ⟨⟨h₁.entry, h₁.marked, fun n hn => ?_⟩, ⟨update_self .., hreturned, hcreated⟩,
    ⟨fun n u _ hn => hcaller n u hn, hleaves.returned, hleaves.created, hleaves.hasAssoc⟩⟩
  obtain ⟨hc, hr, hcr⟩ := h₁.unused n (Nat.le_of_succ_le hn)
  exact ⟨(update_of_ne (ne_of_gt hn) ..).trans hc, hr, hcr⟩

theorem Marks.finish {n a} (h : Marks env g) (hin : InCall env t g (.finishing n a)) :
    Marks env { g.release a with log := (g.release a).log ++ [.returned n] } ∧
      LeavesCalls t g { g.release a with log := (g.release a).log ++ [.returned n] } := by
  obtain ⟨hcaller, hnotRet, hmark⟩ := hin
  obtain ⟨h₁, hleaves, hret, hcre⟩ := h.frame t (g.release a) (releaseHeldValue a) rfl (by
      unfold releaseHeldValue
      split
      · split <;> simp
      · simp) rfl rfl (fun _ ho => ho) (fun _ ho => ho)
  have hret' : ∀ m, .returned m ∈ (g.release a).log ++ [.returned n] ↔
      .returned m ∈ g.log ∨ m = n := by
    intro m
    simp [hret]
  have hcre' : ∀ m o, Created ((g.release a).log ++ [.returned n]) m o ↔ Created g.log m o := by
    intro m o
    rw [← hcre]
    simp [Created]
  refine ⟨⟨fun o ho => ?_, fun m o hc hr hbit => ?_, fun m hm => ?_⟩,
    ⟨fun _ _ _ hm => hm, fun m u hu hm => ?_, fun m u _ _ o => hcre' m o, fun _ ho => ho⟩⟩
  · obtain ⟨m, hm⟩ := h.entry o ho
    exact ⟨m, (hcre' m o).2 hm⟩
  · rcases (hret' m).1 hr with hr | rfl
    · exact h.marked m o ((hcre' m o).1 hc) hr hbit
    · exact hmark o ((hcre' m o).1 hc) hbit
  · obtain ⟨hc, hr, hcr⟩ := h.unused m hm
    refine ⟨hc, fun hin => ?_, fun o hin => hcr o ((hcre' m o).1 hin)⟩
    rcases (hret' m).1 hin with hin | rfl
    · exact hr hin
    · cases hc.symm.trans hcaller
  · refine (hret' m).trans ⟨fun hin => hin.resolve_right ?_, .inl⟩
    rintro rfl
    exact hu (some.inj (hm.symm.trans hcaller))

end

section

variable [DecidableEq ω] [DecidableEq κ]

/-- What the region of a call makes of the map. A removal keeps the associations of
the system unless the object is deallocated. -/
def Pc.region (m : ω → κ → Option (Association ν)) :
    Pc ω κ ν → ω → κ → Option (Association ν)
  | .setting n o k false a => (Event.store n o k a false).apply m
  | .setting _ o k true _ => (Event.clear o k).apply m
  | .removing o deallocating => (Event.remove o deallocating).apply m
  | _ => m

theorem Step.region {pc pc'} (hstep : Step env t g pc g' pc') :
    contents g'.associations = pc.region (contents g.associations) := by
  cases hstep with
  | @store n o k a old isFirst associations hset =>
    have hcontents := (setValue_spec g.associations o k a).2.2
    rw [hset] at hcontents
    exact funext fun o' => funext (hcontents o')
  | @clear n o k a old associations hset =>
    have hcontents := (setNil_spec g.associations o k a).2
    rw [hset] at hcontents
    exact funext fun o' => funext (hcontents o')
  | @remove o deallocating refs associations hrem =>
    have hcontents := (removeAssociations_spec o deallocating g.associations).2
    rw [hrem] at hcontents
    exact funext fun o' => funext (hcontents o')
  | @mark n o isFirst a =>
    cases isFirst with
    | true =>
      obtain ⟨hasAssoc, heq, -⟩ := setHasAssociatedObjects_spec env g o
      rw [if_pos rfl, heq]
      rfl
    | false => rfl
  | _ => rfl

/-- A removal has in hand what it took out of the table and did not put back. -/
theorem Step.removed {o deallocating pc'} (hstep : Step env t g (.removing o deallocating) g' pc')
    (a) : a ∈ pc'.carried ↔
      ∃ k, contents g.associations o k = some a ∧ (!deallocating && a.isSystem) = false := by
  cases hstep with
  | remove hrem =>
    rw [← mem_toRelease hrem]
    simp [Pc.carried]

end

theorem Owned.acquires_ne [DecidableEq ν] {a} (h : Owned g a) {r r'} (hr : a.value = some r)
    (hcall : r'.call = r.call) (hne : r' ≠ r) : acquires g.log r' = 0 := by
  rw [(h r hr).2.2 r' hcall, if_neg fun heq => hne heq.1]

variable [DecidableEq ω] [DecidableEq κ] [DecidableEq ν]

theorem entry_of_replay (h : Refs g) (h' : Refs g') {o}
    (hsub : ∀ k, (replay g'.log o k).isSome → (replay g.log o k).isSome)
    (ho : (g'.associations.lookup o).isSome) : (g.associations.lookup o).isSome := by
  rw [h'.noEmpty.entry_iff, h'.contents] at ho
  obtain ⟨k, hk⟩ := ho
  rw [h.noEmpty.entry_iff, h.contents]
  exact ⟨k, hsub k hk⟩

theorem Marks.store {n o k a isFirst old associations place} (h : Marks env g) (hrefs : Refs g)
    (hrefs' : Refs g') (hin : InCall env t g (.setting n o k false a))
    (hfirst : isFirst = (g.associations.lookup o).isNone)
    (hg' : g' = { g with associations, place, log := g.log ++ [.store n o k a isFirst] }) :
    Marks env g' ∧ InCall env t g' (.stored n o isFirst old) ∧ LeavesCalls t g g' := by
  obtain ⟨hcaller, hnotRet, hnotCre⟩ := hin
  have hlog : g'.log = g.log ++ [.store n o k a isFirst] := by rw [hg']
  have hret : ∀ m, .returned m ∈ g'.log ↔ .returned m ∈ g.log := by
    intro m
    simp [hlog]
  have hcre : ∀ m o', Created g'.log m o' ↔
      Created g.log m o' ∨ m = n ∧ o' = o ∧ isFirst := by
    intro m o'
    simp only [Created, hlog, mem_append, mem_singleton, Event.store.injEq]
    constructor
    · rintro ⟨k', a', hin | ⟨rfl, rfl, -, -, hf⟩⟩
      · exact .inl ⟨k', a', hin⟩
      · exact .inr ⟨rfl, rfl, hf.symm⟩
    · rintro (⟨k', a', hin⟩ | ⟨rfl, rfl, hf⟩)
      · exact ⟨k', a', .inl hin⟩
      · exact ⟨k, a, .inr ⟨rfl, rfl, rfl, rfl, hf.symm⟩⟩
  subst hg'
  refine ⟨⟨fun o' ho => ?_, fun m o' hc hr hbit => ?_, fun m hm => ?_⟩, ?_, ?_⟩
  · by_cases hold : (g.associations.lookup o').isSome
    · obtain ⟨m, hm⟩ := h.entry o' hold
      exact ⟨m, (hcre m o').2 (.inl hm)⟩
    · -- a new entry is the one this call has made
      have heq : o' = o := by
        by_contra hne
        refine hold (entry_of_replay hrefs hrefs' (fun k' hk' => ?_) ho)
        rw [hlog, replay_append] at hk'
        change (if o' = o ∧ k' = k then some a else replay g.log o' k').isSome at hk'
        rw [if_neg fun hok => hne hok.1] at hk'
        exact hk'
      subst heq
      exact ⟨n, (hcre n o').2 (.inr ⟨rfl, rfl, hfirst.trans (by simpa using hold)⟩)⟩
  · rcases (hcre m o').1 hc with hc | ⟨rfl, -, -⟩
    · exact h.marked m o' hc ((hret m).1 hr) hbit
    · exact absurd ((hret m).1 hr) hnotRet
  · obtain ⟨hc, hr, hcr⟩ := h.unused m hm
    refine ⟨hc, fun hin => hr ((hret m).1 hin), fun o' hin => ?_⟩
    rcases (hcre m o').1 hin with hin | ⟨rfl, -, -⟩
    · exact hcr o' hin
    · cases hc.symm.trans hcaller
  · refine ⟨hcaller, fun hin => hnotRet ((hret n).1 hin), fun o' hin => ?_⟩
    rcases (hcre n o').1 hin with hin | ⟨-, ho, hf⟩
    · exact absurd hin (hnotCre o')
    · exact ⟨ho, hf⟩
  · refine ⟨fun m u _ hm => hm, fun m u _ _ => hret m, fun m u hu hm o' => ?_, fun _ ho => ho⟩
    rw [hcre]
    refine ⟨fun hc => hc.resolve_right ?_, .inl⟩
    rintro ⟨rfl, -, -⟩
    exact hu (some.inj (hm.symm.trans hcaller))

/-- **What one step of a thread does to calls and bits.** -/
theorem Step.marks {pc pc'} (hrefs : Refs g) (hrefs' : Refs g') (h : Marks env g)
    (hin : InCall env t g pc) (hstep : Step env t g pc g' pc') :
    Marks env g' ∧ InCall env t g' pc' ∧ LeavesCalls t g g' := by
  have hsame (events : List (Event ω κ ν)) (hlog : g'.log = g.log ++ events)
      (hevents : ∀ e ∈ events, (∀ n, e ≠ .returned n) ∧ ∀ n o k a, e ≠ .store n o k a true)
      (hcaller : g'.caller = g.caller) (hnext : g'.next = g.next)
      (hassoc : g'.hasAssoc = g.hasAssoc)
      (hentry : ∀ o, (g'.associations.lookup o).isSome → (g.associations.lookup o).isSome)
      (hpc : InCall env t g' pc') : Marks env g' ∧ InCall env t g' pc' ∧ LeavesCalls t g g' := by
    have hframe := h.frame t g' events hlog hevents hcaller hnext (fun o ho => hassoc ▸ ho) hentry
    exact ⟨hframe.1, hpc, hframe.2.1⟩
  have hrefl (heq : g' = g) (hpc : InCall env t g' pc') :
      Marks env g' ∧ InCall env t g' pc' ∧ LeavesCalls t g g' :=
    hsame [] (by rw [heq, append_nil]) (by simp) (by rw [heq]) (by rw [heq])
      (by rw [heq]) (by rw [heq]; exact fun _ ho => ho) hpc
  have hrelease : ∀ a, ∀ e ∈ (releaseHeldValue a : List (Event ω κ ν)),
      (∀ n, e ≠ .returned n) ∧ ∀ n o k a, e ≠ .store n o k a true := by
    intro a
    unfold releaseHeldValue
    split
    · split <;> simp
    · simp
  cases hstep with
  | set o k value policy copied hpolicy hforbids hacq heq =>
    exact h.beginSet (acquireValue_events hacq)
  | @store n o k a old isFirst associations hset =>
    have hfirst := (setValue_spec g.associations o k a).2.1
    rw [hset] at hfirst
    exact h.store hrefs hrefs' hin hfirst rfl
  | @clear n o k a old associations hset =>
    obtain ⟨hcaller, hret, hcre⟩ := hin
    refine hsame [.clear o k] rfl (by simp) rfl rfl rfl (fun o' ho => ?_) ?_
    · refine entry_of_replay hrefs hrefs' (fun k' hk' => ?_) ho
      change (replay (g.log ++ [.clear o k]) o' k').isSome at hk'
      rw [replay_append] at hk'
      change (if o' = o ∧ k' = k then none else replay g.log o' k').isSome at hk'
      split at hk'
      · cases hk'
      · exact hk'
    · refine ⟨hcaller, fun hmem => hret ?_, fun o' hc => absurd ?_ (hcre o')⟩
      · simpa using hmem
      · simpa [Created] using hc
  | @mark n o isFirst a =>
    obtain ⟨hcaller, hret, hcre⟩ := hin
    obtain ⟨hasAssoc, heq, hmono, hset⟩ := setHasAssociatedObjects_spec env g o
    cases isFirst with
    | true =>
      rw [if_pos rfl, heq]
      have hframe := h.frame t { g with hasAssoc } [] (append_nil _).symm (by simp)
        rfl rfl hmono (fun _ ho => ho)
      refine ⟨hframe.1, ⟨hcaller, hret, fun o' hc hbit => ?_⟩, hframe.2.1⟩
      obtain ⟨rfl, -⟩ := hcre o' hc
      exact hset hbit
    | false =>
      refine hrefl rfl ⟨hcaller, hret, fun o' hc => ?_⟩
      exact absurd (hcre o' hc).2 (by simp)
  | finish =>
    obtain ⟨h', hleaves⟩ := h.finish hin
    exact ⟨h', trivial, hleaves⟩
  | get o k => exact hsame _ rfl (by simp) rfl rfl rfl (fun _ ho => ho) trivial
  | @endGet a =>
    refine hsame (autoreleaseReturnedValue a) rfl ?_ rfl rfl rfl (fun _ ho => ho) trivial
    unfold autoreleaseReturnedValue
    split
    · split <;> simp
    · simp
  | test o deallocating htest | skip o htest | keep hsystem | later hsystem | done =>
    exact hrefl rfl trivial
  | @remove o deallocating refs associations hrem =>
    refine hsame [.remove o deallocating] rfl (by simp) rfl rfl rfl (fun o' ho => ?_) trivial
    refine entry_of_replay hrefs hrefs' (fun k' hk' => ?_) ho
    change (replay (g.log ++ [.remove o deallocating]) o' k').isSome at hk'
    rw [replay_append] at hk'
    change (if o' = o then Option.filter _ (replay g.log o k') else replay g.log o' k').isSome =
      true at hk'
    split at hk'
    next ho' =>
      rw [ho']
      exact isSome_of_isSome_filter _ _ hk'
    · exact hk'
  | release hsystem | releaseLater =>
    exact hsame _ rfl (hrelease _) rfl rfl rfl (fun _ ho => ho) trivial

/-! ### Runs -/

variable [DecidableEq τ]

theorem Reachable.holds {s : Threads τ (Shared τ ω κ ν) (Pc ω κ ν)} (h : Reachable env s) :
    Holds (fun g => Refs g ∧ Marks env g) (fun t g pc => Carries t g pc ∧ InCall env t g pc) s := by
  refine run_preserves (fun s s' hs hstep => ?_) ?_ h
  · refine Interleave.preserves ?_ ?_ hs hstep
    · intro t g pc g' pc' hI hA hstep
      obtain ⟨hrefs, hcarries, -⟩ := hstep.refs hI.1 hA.1
      obtain ⟨hmarks, hin, -⟩ := hstep.marks hI.1 hrefs hI.2 hA.2
      exact ⟨⟨hrefs, hmarks⟩, hcarries, hin⟩
    · intro t u g pc g' pc' m hne hI hA hU hstep
      obtain ⟨hrefs, -, hrespects⟩ := hstep.refs hI.1 hA.1
      obtain ⟨-, -, hleaves⟩ := hstep.marks hI.1 hrefs hI.2 hA.2
      exact ⟨hU.1.respects hne hrespects, hU.2.leaves hne hleaves⟩
  · refine ⟨⟨⟨?_, ?_, ?_, ?_, ?_, fun _ _ => rfl, fun _ => Nat.zero_le _, ?_, fun _ _ => rfl, ?_⟩,
      ⟨?_, ?_, ?_⟩⟩, fun t => ⟨⟨?_, ?_, ?_, ?_⟩, trivial⟩⟩
    · intro o refs hlookup
      simp [init] at hlookup
    · funext o k
      simp [contents, init, replay]
    all_goals simp [init, replay, Pc.carried, Created, GetsOk]

/-- **Associated objects are a map with balanced ownership.** At any point of any
interleaving:

* the table holds what the regions so far make of the empty map, and an object has
  an entry if and only if it has an association;
* the next step of a thread changes the map as the call it is in says, and a removal
  then has in hand, to be released, just what it has not kept;
* the value of a stored association was retained or copied once, or not at all if
  the policy is to assign, it has not been released, and it is stored nowhere else;
* no reference is released twice, and one that is neither stored nor in the hands of
  a call has been released exactly as often as it was acquired;
* a get found what was in the map, and retained it there under an atomic policy,
  when it had not been released;
* once the call that made the first association of an object has returned, the
  object's bit is set; a removal that finds it clear finds no entry, or overlaps
  that call. -/
theorem associations_refine_map {s : Threads τ (Shared τ ω κ ν) (Pc ω κ ν)} (h : Reachable env s) :
    (∀ o k, contents s.shared.associations o k = replay s.shared.log o k) ∧
    (∀ o, (s.shared.associations.lookup o).isSome ↔ ∃ k, (replay s.shared.log o k).isSome) ∧
    (∀ t g' pc', Step env t s.shared (s.pcs t) g' pc' →
      contents g'.associations = (s.pcs t).region (contents s.shared.associations) ∧
      ∀ o deallocating, s.pcs t = .removing o deallocating → ∀ a, a ∈ pc'.carried ↔
        ∃ k, contents s.shared.associations o k = some a ∧
          (!deallocating && a.isSystem) = false) ∧
    (∀ o k a r, replay s.shared.log o k = some a → a.value = some r →
      acquires s.shared.log r = (if acquisition a.policy = .assign then 0 else 1) ∧
      releases s.shared.log r = 0 ∧
      ∀ o' k' a', replay s.shared.log o' k' = some a' → a'.value = some r → o' = o ∧ k' = k) ∧
    (∀ r, acquires s.shared.log r ≤ 1 ∧ releases s.shared.log r ≤ acquires s.shared.log r) ∧
    (∀ r, (∀ o k a, replay s.shared.log o k = some a → a.value ≠ some r) →
      (∀ t, ∀ a ∈ (s.pcs t).carried, a.value ≠ some r) →
      releases s.shared.log r = acquires s.shared.log r) ∧
    (∀ pre o k found retained post, s.shared.log = pre ++ .get o k found retained :: post →
      found = replay pre o k ∧ ∀ a r, found = some a → a.value = some r →
        releases pre r = 0 ∧ (a.policy ∈ atomic → retained = true)) ∧
    (∀ n o, Created s.shared.log n o → .returned n ∈ s.shared.log → env.hasBit o →
      s.shared.hasAssoc o = true) ∧
    ∀ o, hasAssociatedObjects env s.shared o = false → (s.shared.associations.lookup o).isSome →
      ∃ n, Created s.shared.log n o ∧ .returned n ∉ s.shared.log := by
  obtain ⟨⟨hrefs, hmarks⟩, hthreads⟩ := h.holds
  refine ⟨fun o k => by rw [hrefs.contents], fun o => ?_,
    fun t g' pc' hstep => ⟨hstep.region, fun o deallocating hpc => (hpc ▸ hstep).removed⟩,
    fun o k a r ha hr => ⟨?_, ?_, ?_⟩, fun r => ⟨hrefs.acquires_le r, ?_⟩,
    fun r hstored hcarried => ?_,
    fun pre o k found retained post hlog => ?_, hmarks.marked, fun o hclear hentry => ?_⟩
  · rw [hrefs.noEmpty.entry_iff, hrefs.contents]
  · obtain ⟨hpolicy, -, hacq⟩ := (hrefs.slot o k a ha).2 r hr
    rw [hacq r rfl, holds_of_documented hpolicy]
    by_cases hassign : acquisition a.policy = .assign
    · simp [hassign]
    · simp [hassign]
  · refine hrefs.kept r ?_
    rw [(hrefs.slot o k a ha).1 r.call (carries_iff.2 ⟨r, hr, rfl⟩)]
    simp
  · intro o' k' a' ha' hr'
    have hplace := (hrefs.slot o k a ha).1 r.call (carries_iff.2 ⟨r, hr, rfl⟩)
    have hplace' := (hrefs.slot o' k' a' ha').1 r.call (carries_iff.2 ⟨r, hr', rfl⟩)
    obtain ⟨rfl, rfl⟩ := Place.slot.inj (hplace'.symm.trans hplace)
    exact ⟨rfl, rfl⟩
  · by_cases hgone : s.shared.place r.call = .gone
    · rw [hrefs.gone r hgone]
    · rw [hrefs.kept r hgone]
      exact Nat.zero_le _
  · cases hplace : s.shared.place r.call with
    | fresh =>
      rw [hrefs.kept r (by rw [hplace]; simp), hrefs.unused r ((hrefs.fresh_iff _).1 hplace)]
    | hand t =>
      obtain ⟨a, ha, hcarries⟩ := (hthreads t).1.found _ hplace
      obtain ⟨r', hr', hcall⟩ := carries_iff.1 hcarries
      have hne : r ≠ r' := by
        rintro rfl
        exact hcarried t a ha hr'
      rw [hrefs.kept r (by rw [hplace]; simp),
        ((hthreads t).1.carried a ha).2.acquires_ne hr' hcall.symm hne]
    | slot o k =>
      obtain ⟨a, ha, hcarries⟩ := hrefs.slotted _ o k hplace
      obtain ⟨r', hr', hcall⟩ := carries_iff.1 hcarries
      have hne : r ≠ r' := by
        rintro rfl
        exact hstored o k a ha hr'
      rw [hrefs.kept r (by rw [hplace]; simp),
        (hrefs.slot o k a ha).2.acquires_ne hr' hcall.symm hne]
    | gone => exact hrefs.gone r hplace
  · obtain ⟨hfound, hretained, hreleased⟩ := hrefs.gets pre o k found retained post hlog
    refine ⟨hfound, fun a r ha hr => ⟨hreleased a r ha hr, fun hatomic => ?_⟩⟩
    rw [hretained, ha]
    simp [retainReturnedValue, hr, retainsReturned_of_atomic hatomic]
  · obtain ⟨n, hn⟩ := hmarks.entry o hentry
    refine ⟨n, hn, fun hret => ?_⟩
    unfold hasAssociatedObjects at hclear
    split at hclear
    · cases hclear
    next htagged =>
      split at hclear
      next hnonpointer =>
        have hbit : env.hasBit o := ⟨by simpa using htagged, hnonpointer⟩
        cases hclear.symm.trans (hmarks.marked n o hn hret hbit)
      · cases hclear

/-- Objects with a nonpointer isa. -/
def plainObjects : Objects Nat := ⟨fun _ => false, fun _ => true, fun _ => false⟩

/-- Value 7 is stored with a retain and overwritten by 8, value 9 is stored for the
system under another key, and a removal then releases 8 and keeps 9. -/
theorem associations_refine_map_remove :
    ∃ s : Threads Unit (Shared Unit Nat Nat Nat) (Pc Nat Nat Nat), Reachable plainObjects s ∧
      s.pcs () = .idle ∧
      contents s.shared.associations 0 0 = none ∧
      contents s.shared.associations 0 1 = some ⟨0o1401 ||| systemObject, some ⟨9, 2⟩⟩ ∧
      acquires s.shared.log ⟨7, 0⟩ = 1 ∧ releases s.shared.log ⟨7, 0⟩ = 1 ∧
      acquires s.shared.log ⟨8, 1⟩ = 1 ∧ releases s.shared.log ⟨8, 1⟩ = 1 ∧
      acquires s.shared.log ⟨9, 2⟩ = 1 ∧ releases s.shared.log ⟨9, 2⟩ = 0 ∧
      s.shared.hasAssoc 0 = true := by
  have hrun : Reachable plainObjects
      (⟨.init, fun _ => .idle⟩ : Threads Unit (Shared Unit Nat Nat Nat) (Pc Nat Nat Nat)) := .refl
  replace hrun := hrun |>.tail (.solo (@Step.set Unit Nat Nat Nat _ _ plainObjects () _ 0 0 (some 7)
      0o1401 none ⟨0o1401, some ⟨7, 0⟩⟩ [.retain 0 7] (by decide) rfl rfl rfl))
    |>.tail (.solo (.store rfl))
    |>.tail (.solo .mark)
    |>.tail (.solo .finish)
    |>.tail (.solo (@Step.set Unit Nat Nat Nat _ _ plainObjects () _ 0 0 (some 8)
      0o1401 none ⟨0o1401, some ⟨8, 1⟩⟩ [.retain 1 8] (by decide) rfl rfl rfl))
    |>.tail (.solo (.store rfl))
    |>.tail (.solo .mark)
    |>.tail (.solo .finish)
    |>.tail (.solo (@Step.set Unit Nat Nat Nat _ _ plainObjects () _ 0 1 (some 9)
      (0o1401 ||| systemObject) none ⟨0o1401 ||| systemObject, some ⟨9, 2⟩⟩ [.retain 2 9]
      (by decide) rfl rfl rfl))
    |>.tail (.solo (.store rfl))
    |>.tail (.solo .mark)
    |>.tail (.solo .finish)
    |>.tail (.solo (.test 0 false rfl))
  obtain ⟨-, -, hnext, -⟩ := associations_refine_map hrun
  have hregion := (hnext () _ _ (.remove rfl)).1
  replace hrun := hrun |>.tail (.solo (.remove rfl))
    |>.tail (.solo (.keep rfl))
    |>.tail (.solo (.release rfl))
    |>.tail (.solo .done)
  obtain ⟨-, -, -, hstored, -⟩ := associations_refine_map hrun
  obtain ⟨hacquired, hheld, -⟩ := hstored 0 1 _ ⟨9, 2⟩ rfl rfl
  exact ⟨_, hrun, rfl, congrFun₂ hregion 0 0, congrFun₂ hregion 0 1, rfl, rfl, rfl, rfl,
    hacquired, hheld, rfl⟩

end ObjcRuntime.Assoc
