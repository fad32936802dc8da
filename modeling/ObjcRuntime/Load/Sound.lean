import ObjcRuntime.Lib.Log
import ObjcRuntime.Load.Machine

/-!
# ObjcRuntime.Load.Sound

The loadable lists are queues.

Classes are called in the order in which they were scheduled, whatever lists they
were on, and so are categories. What has been called and what is on the lists is
together what was scheduled (`Ok.order`, `Ok.categories`). Superclasses are
scheduled first, and a list of categories is detached only when no class is
pending, which gives the order between the calls.
-/

namespace ObjcRuntime.Load

open Function Lib List Nat Control

variable {κ γ ι : Type} {p : Program κ γ ι} {images : List (Image κ γ)} {s s' : State κ γ ι}

/-! ### Calls and queues -/

def Control.running : Control κ γ ι → Option (Call κ γ ι)
  | .classLoad cls method _ => some ⟨.cls cls, method⟩
  | .categoryLoad _ _ cat method => some ⟨.cat cat, method⟩
  | _ => none

/-- What is left of a detached list of classes. -/
def Control.detachedClasses : Control κ γ ι → List (Option (κ × ι))
  | .classes rest => rest
  | .classLoad _ _ rest => rest
  | _ => []

/-- What is left of a detached list of categories. -/
def Control.detachedCategories : Control κ γ ι → List (Option (γ × ι))
  | .categories cats i => cats.drop i
  | .categoryLoad cats i _ _ => cats.drop (i + 1)
  | _ => []

/-- The entries of a detached list of categories that were tried. -/
def Control.tried : Control κ γ ι → List (Option (γ × ι))
  | .categories cats i => cats.take i
  | .categoryLoad cats i _ _ => cats.take i
  | _ => []

/-- Calls that do not overlap. -/
def pairs (calls : List (Call κ γ ι)) : List (Event κ γ ι) :=
  calls.flatMap fun call => [.start call, .done call]

def Call.cls? : Call κ γ ι → Option (κ × ι)
  | ⟨.cls c, method⟩ => some (c, method)
  | ⟨.cat _, _⟩ => none

def Call.cat? : Call κ γ ι → Option (γ × ι)
  | ⟨.cls _, _⟩ => none
  | ⟨.cat k, method⟩ => some (k, method)

/-- The categories of an image that are put on the list. -/
def Image.scheduled (p : Program κ γ ι) (img : Image κ γ) : List (γ × ι) :=
  img.categorylist.filterMap fun cat =>
    (p.categoryClass cat).bind fun _ => (categoryGetLoadMethod p cat).map (cat, ·)

def scheduledCategories (p : Program κ γ ι) (images : List (Image κ γ)) : List (γ × ι) :=
  images.flatMap (Image.scheduled p)

/-! ### The order of the classes -/

/-- The classes with a `+load` among those marked, each once and after its
superclasses. -/
structure Order (p : Program κ γ ι) (loaded : κ → Bool) (order : List (κ × ι)) : Prop where
  nodup : (order.map Prod.fst).Nodup
  mem_iff : ∀ c method, (c, method) ∈ order ↔ loaded c = true ∧ getLoadMethod p c = some method
  closed : ∀ c q, loaded c = true → p.superclass c = some q → loaded q = true
  first : ∀ pre c method post, order = pre ++ (c, method) :: post → ∀ q d method',
    p.superclass c = some q → Ancestor p.superclass d q → getLoadMethod p d = some method' →
    (d, method') ∈ pre

theorem Order.init : Order p (fun _ => false) [] :=
  ⟨nodup_nil, by simp, by simp, by simp⟩

variable {order : List (κ × ι)}

theorem Order.above {loaded} (h : Order p loaded order) {c d}
    (hanc : Ancestor p.superclass d c) (hc : loaded c) : loaded d := by
  induction hanc with
  | refl => exact hc
  | step hq _ ih => exact ih (h.closed _ _ hc hq)

theorem depth_le_of_ancestor {c d} (h : Ancestor p.superclass c d) : p.depth c ≤ p.depth d := by
  induction h with
  | refl => exact Nat.le_refl _
  | step hq _ ih => exact Nat.le_trans ih (Nat.le_of_lt (p.depth_lt _ _ hq))

variable [DecidableEq κ]

theorem Order.mark {loaded} (h : Order p loaded order) {c}
    (hc : loaded c = false) (hsuper : ∀ q, p.superclass c = some q → loaded q) :
    Order p (update loaded c true)
      (order ++ ((getLoadMethod p c).map (c, ·)).toList) := by
  have hnew : ∀ d, update loaded c true d ↔ d = c ∨ loaded d := by
    intro d
    rw [update_apply]
    split
    next hd => simp [hd]
    next hd => simp [hd]
  have hclosed : ∀ d q, update loaded c true d → p.superclass d = some q →
      update loaded c true q := by
    intro d q hd hq
    refine (hnew q).2 (.inr ?_)
    rcases (hnew d).1 hd with rfl | hd
    · exact hsuper q hq
    · exact h.closed d q hd hq
  cases hload : getLoadMethod p c with
  | none =>
    refine ⟨by simpa using h.nodup, fun d method => ?_, hclosed, by simpa using h.first⟩
    rw [hnew, Option.map_none, Option.toList_none, append_nil, h.mem_iff]
    constructor
    · exact fun ⟨hd, hm⟩ => ⟨.inr hd, hm⟩
    · rintro ⟨rfl | hd, hm⟩
      · cases hload.symm.trans hm
      · exact ⟨hd, hm⟩
  | some m =>
    rw [Option.map_some, Option.toList_some]
    have hnot : ∀ method, (c, method) ∉ order := by
      intro method hmem
      cases hc.symm.trans ((h.mem_iff c method).1 hmem).1
    refine ⟨?_, fun d method => ?_, hclosed, fun pre d method post heq q a method' hq ha hm' => ?_⟩
    · rw [map_append, nodup_append]
      refine ⟨h.nodup, by simp, fun d hd d' hd' heq => ?_⟩
      obtain ⟨⟨x, y⟩, hxy, rfl⟩ := mem_map.1 hd
      obtain rfl : d' = c := by simpa using hd'
      subst heq
      exact hnot y hxy
    · rw [mem_append, h.mem_iff, hnew, mem_singleton, Prod.mk.injEq]
      constructor
      · rintro (⟨hd, hm⟩ | ⟨rfl, rfl⟩)
        · exact ⟨.inr hd, hm⟩
        · exact ⟨.inl rfl, hload⟩
      · rintro ⟨rfl | hd, hm⟩
        · exact .inr ⟨rfl, Option.some.inj (hm.symm.trans hload)⟩
        · exact .inl ⟨hd, hm⟩
    · rcases cut_concat heq with ⟨post', hpost⟩ | ⟨rfl, heq'⟩
      · exact h.first pre d method post' hpost q a method' hq ha hm'
      · cases heq'
        exact (h.mem_iff a method').2 ⟨h.above ha (hsuper q hq), hm'⟩

/-! ### Scheduling -/

omit [DecidableEq κ] in
theorem addClassToLoadableList_eq (c : κ) (s) :
    addClassToLoadableList p c s =
      { s with
        loadableClasses := s.loadableClasses ++
          (((getLoadMethod p c).map (c, ·)).toList).map some } := by
  unfold addClassToLoadableList
  split
  next hload => simp [hload]
  next method hload => simp [hload]

/-- Scheduling appends to the order of the classes and to their list, and marks the
class and everything above it. -/
theorem scheduleClassLoad_spec {depth} :
    ∀ {cls s s'} {order}, Order p s.loaded order →
      scheduleClassLoad p depth cls s = some s' →
      ∃ new loaded, s' = { s with loadableClasses := s.loadableClasses ++ new.map some, loaded } ∧
        Order p loaded (order ++ new) ∧ ∀ c, loaded c ↔
          s.loaded c ∨ ∃ d, cls = some d ∧ Ancestor p.superclass c d := by
  have hstay : ∀ {c} {s : State κ γ ι} {order}, Order p s.loaded order → s.loaded c → ∃ new loaded,
        s = { s with loadableClasses := s.loadableClasses ++ new.map some, loaded } ∧
        Order p loaded (order ++ new) ∧ ∀ a, loaded a ↔
          s.loaded a ∨ ∃ d, some c = some d ∧ Ancestor p.superclass a d := by
    intro c s order h hc
    refine ⟨[], s.loaded, by simp, by simpa using h, fun a => ⟨.inl, ?_⟩⟩
    rintro (ha | ⟨d, hd, hanc⟩)
    · exact ha
    · cases hd
      exact h.above hanc hc
  induction depth with
  | zero =>
    intro cls s s' order h hsched
    cases cls with
    | none =>
      cases hsched
      exact ⟨[], s.loaded, by simp, by simpa using h, by simp⟩
    | some c =>
      rw [scheduleClassLoad] at hsched
      split at hsched
      next hc =>
        cases hsched
        exact hstay h hc
      · cases hsched
  | succ depth ih =>
    intro cls s s' order h hsched
    cases cls with
    | none =>
      cases hsched
      exact ⟨[], s.loaded, by simp, by simpa using h, by simp⟩
    | some c =>
      rw [scheduleClassLoad] at hsched
      split at hsched
      next hc =>
        cases hsched
        exact hstay h hc
      next hc =>
        obtain ⟨s₁, h₁, rfl⟩ := Option.map_eq_some_iff.1 hsched
        obtain ⟨new, loaded, rfl, horder, hloaded⟩ := ih h h₁
        -- the chain of superclasses does not come back to the class
        have hc₁ : loaded c = false := by
          rw [Bool.eq_false_iff, ne_eq, hloaded]
          rintro (hc' | ⟨q, hq, hanc⟩)
          · exact hc hc'
          · exact absurd (depth_le_of_ancestor hanc) (Nat.not_le.2 (p.depth_lt c q hq))
        have hsuper : ∀ q, p.superclass c = some q → loaded q :=
          fun q hq => (hloaded q).2 (.inr ⟨q, hq, .refl⟩)
        refine ⟨new ++ ((getLoadMethod p c).map (c, ·)).toList, _, ?_,
          append_assoc .. ▸ horder.mark hc₁ hsuper, fun a => ?_⟩
        · rw [addClassToLoadableList_eq, State.setLoaded, map_append, append_assoc]
        · rw [update_apply]
          split
          next ha =>
            subst ha
            simp only [true_iff]
            exact .inr ⟨a, rfl, .refl⟩
          next ha =>
            rw [hloaded]
            refine or_congr_right ⟨?_, ?_⟩
            · rintro ⟨q, hq, hanc⟩
              exact ⟨c, rfl, .step hq hanc⟩
            · rintro ⟨d, hd, hanc⟩
              cases hd
              cases hanc with
              | refl => exact absurd rfl ha
              | step hq hanc => exact ⟨_, hq, hanc⟩

theorem prepareClasses_spec {classlist} :
    ∀ {s s'} {order}, Order p s.loaded order →
      prepareClasses p classlist s = some s' →
      ∃ new loaded, s' = { s with loadableClasses := s.loadableClasses ++ new.map some, loaded } ∧
        Order p loaded (order ++ new) ∧ ∀ c, loaded c ↔
          s.loaded c ∨ ∃ d, some d ∈ classlist ∧ Ancestor p.superclass c d := by
  induction classlist with
  | nil =>
    intro s s' order h hprep
    cases hprep
    exact ⟨[], s.loaded, by simp, by simpa using h, by simp⟩
  | cons cls classlist ih =>
    intro s s' order h hprep
    obtain ⟨s₁, h₁, hprep⟩ := Option.bind_eq_some_iff.1 hprep
    obtain ⟨new, loaded, rfl, horder, hloaded⟩ := scheduleClassLoad_spec h h₁
    obtain ⟨new', loaded', rfl, horder', hloaded'⟩ := ih horder hprep
    refine ⟨new ++ new', loaded', ?_, append_assoc .. ▸ horder', fun c => ?_⟩
    · rw [map_append, append_assoc]
    · rw [hloaded', hloaded, or_assoc]
      refine or_congr_right ⟨?_, ?_⟩
      · rintro (⟨d, rfl, hanc⟩ | ⟨d, hd, hanc⟩)
        · exact ⟨d, mem_cons_self, hanc⟩
        · exact ⟨d, mem_cons_of_mem _ hd, hanc⟩
      · rintro ⟨d, hd, hanc⟩
        rcases mem_cons.1 hd with rfl | hd
        · exact .inl ⟨d, rfl, hanc⟩
        · exact .inr ⟨d, hd, hanc⟩

omit [DecidableEq κ] in
theorem prepareCategories_spec {categorylist} :
    ∀ {s s'}, prepareCategories p categorylist s = some s' →
      s' = { s with
        loadableCategories := s.loadableCategories ++
          (Image.scheduled p ⟨[], categorylist⟩).map some } := by
  induction categorylist with
  | nil =>
    intro s s' h
    cases h
    simp [Image.scheduled]
  | cons cat categorylist ih =>
    intro s s' h
    rw [prepareCategories] at h
    split at h
    next hcls =>
      rw [ih h]
      simp [Image.scheduled, hcls]
    next cls hcls =>
      split at h
      · cases h
      · rw [ih h]
        unfold addCategoryToLoadableList
        split
        next hload => simp [Image.scheduled, hcls, hload]
        next method hload => simp [Image.scheduled, hcls, hload]

variable {img : Image κ γ}

theorem prepareLoadMethods_spec
    (h : Order p s.loaded order) (hprep : prepareLoadMethods p img s = some s') :
    ∃ new loaded, s' =
        { s with
          loadableClasses := s.loadableClasses ++ new.map some
          loadableCategories := s.loadableCategories ++ (img.scheduled p).map some
          loaded } ∧
      Order p loaded (order ++ new) ∧ ∀ c, loaded c ↔
        s.loaded c ∨ ∃ d, some d ∈ img.classlist ∧ Ancestor p.superclass c d := by
  obtain ⟨s₁, h₁, h₂⟩ := Option.bind_eq_some_iff.1 hprep
  obtain ⟨new, loaded, rfl, horder, hloaded⟩ := prepareClasses_spec h h₁
  exact ⟨new, loaded, prepareCategories_spec h₂, horder, hloaded⟩

/-- The bound on the recursion is enough. -/
theorem scheduleClassLoad_isSome {depth} :
    ∀ {cls} {s}, p.bound cls ≤ depth →
      ∃ s', scheduleClassLoad p depth cls s = some s' := by
  induction depth with
  | zero =>
    intro cls s h
    cases cls with
    | none => exact ⟨s, rfl⟩
    | some c => exact absurd h (not_succ_le_zero _)
  | succ depth ih =>
    intro cls s h
    cases cls with
    | none => exact ⟨s, rfl⟩
    | some c =>
      have hbound : p.bound (p.superclass c) ≤ depth := by
        cases hq : p.superclass c with
        | none => exact zero_le _
        | some q => exact Nat.lt_of_lt_of_le (p.depth_lt c q hq) (Nat.le_of_succ_le_succ h)
      obtain ⟨s₁, h₁⟩ := ih (s := s) hbound
      rw [scheduleClassLoad, h₁]
      split
      · exact ⟨s, rfl⟩
      · exact ⟨_, rfl⟩

/-- A Swift class with a `+load` category is the only fatal error. -/
theorem loadImages_isSome (hswift : ∀ cat ∈ img.categorylist, ∀ c, p.categoryClass cat = some c →
      p.isSwiftStable c = false) (s) : ∃ s', loadImages p img s = some s' := by
  have hclasses : ∀ classlist s, ∃ s', prepareClasses p classlist s = some s' := by
    intro classlist
    induction classlist with
    | nil => exact fun s => ⟨s, rfl⟩
    | cons cls classlist ih =>
      intro s
      obtain ⟨s₁, h₁⟩ := scheduleClassLoad_isSome (s := s) (Nat.le_refl (p.bound cls))
      obtain ⟨s₂, h₂⟩ := ih s₁
      exact ⟨s₂, Option.bind_eq_some_iff.2 ⟨s₁, h₁, h₂⟩⟩
  have hcategories : ∀ cats, (∀ cat ∈ cats, cat ∈ img.categorylist) →
      ∀ s, ∃ s', prepareCategories p cats s = some s' := by
    intro cats
    induction cats with
    | nil => exact fun _ s => ⟨s, rfl⟩
    | cons cat cats ih =>
      intro hsub s
      have hrest := ih fun k hk => hsub k (mem_cons_of_mem _ hk)
      rw [prepareCategories]
      split
      · exact hrest s
      next c hc =>
        rw [hswift cat (hsub cat mem_cons_self) c hc]
        exact hrest _
  unfold loadImages
  split
  · obtain ⟨s₁, h₁⟩ := hclasses img.classlist s
    obtain ⟨s₂, h₂⟩ := hcategories img.categorylist (fun _ h => h) s₁
    refine ⟨callLoadMethods s₂, Option.map_eq_some_iff.2 ⟨s₂, ?_, rfl⟩⟩
    exact Option.bind_eq_some_iff.2 ⟨s₁, h₁, h₂⟩
  · exact ⟨s, rfl⟩

/-! ### The invariant -/

/-- If the class of a category has a `+load`, it is among the calls. -/
def ClassCalled (p : Program κ γ ι) (calls : List (Call κ γ ι)) (k : γ) : Prop :=
  ∀ c method, p.categoryClass k = some c → getLoadMethod p c = some method →
    ⟨.cls c, method⟩ ∈ calls

/-- What has been called, `finished` and the one that is running, and what is on the
lists. -/
structure Ok (p : Program κ γ ι) (images : List (Image κ γ)) (s : State κ γ ι)
    (finished : List (Call κ γ ι)) (classes : List (κ × ι)) (cats : List (γ × ι)) : Prop where
  order : Order p s.loaded
    ((finished ++ s.control.running.toList).filterMap Call.cls? ++ classes)
  categories : (finished ++ s.control.running.toList).filterMap Call.cat? ++ cats =
    scheduledCategories p images
  scheduled : ∀ c, s.loaded c = true ↔ Scheduled p images c
  known : ∀ k method, (k, method) ∈ scheduledCategories p images →
    ∃ c, p.categoryClass k = some c ∧ ∀ m, getLoadMethod p c = some m → Scheduled p images c
  classQueue : s.control.detachedClasses ++ s.loadableClasses = classes.map some
  categoryQueue : s.control.detachedCategories ++ s.loadableCategories = cats.map some
  tried : ∀ e ∈ s.control.tried, e = none
  log : s.log = pairs finished ++ s.control.running.toList.map .start
  later : ∀ pre k method post,
    finished ++ s.control.running.toList = pre ++ ⟨.cat k, method⟩ :: post → ClassCalled p pre k
  ready : ∀ k method, some (k, method) ∈ s.control.detachedCategories → ClassCalled p finished k
  idle : s.control = .idle → s.loadableClasses = [] ∧ s.loadableCategories = []
  loading : s.loading = false ↔ s.control = .idle

section Steps

omit [DecidableEq κ]

variable {finished : List (Call κ γ ι)} {classes : List (κ × ι)} {cats : List (γ × ι)}

theorem pairs_concat (finished) (call : Call κ γ ι) :
    pairs (finished ++ [call]) = pairs finished ++ [.start call, .done call] := by
  simp [pairs]

variable (h : Ok p images s finished classes cats)
include h

theorem Ok.detachClasses (hcontrol : s.control = .classes []) :
    Ok p images { s with control := .classes s.loadableClasses, loadableClasses := [] }
      finished classes cats := by
  obtain ⟨L, K, loaded, loading, control, log⟩ := s
  subst hcontrol
  exact { h with
    classQueue := by simpa [detachedClasses] using h.classQueue
    idle := by simp
    loading := by simpa using h.loading }

/-- When `call_category_loads` detaches its list no class is pending, so the classes
of these categories have been called. -/
theorem Ok.detachCategories (hcontrol : s.control = .classes []) (hnone : s.loadableClasses = []) :
    Ok p images { s with control := .categories s.loadableCategories 0, loadableCategories := [] }
      finished classes cats := by
  obtain ⟨L, K, loaded, loading, control, log⟩ := s
  subst hcontrol hnone
  obtain rfl : classes = [] := map_eq_nil_iff.1 h.classQueue.symm
  have hqueue : K = cats.map some := h.categoryQueue
  refine { h with
    categoryQueue := by simpa [detachedCategories] using hqueue
    tried := by simp [Control.tried]
    ready := fun k method hk c m hc hm => ?_
    idle := by simp
    loading := by simpa using h.loading }
  have hsched : (k, method) ∈ scheduledCategories p images := by
    rw [← h.categories, mem_append]
    refine .inr ?_
    change some (k, method) ∈ K at hk
    rw [hqueue] at hk
    simpa using hk
  obtain ⟨c', hc', hload⟩ := h.known k method hsched
  obtain rfl := Option.some.inj (hc'.symm.trans hc)
  have hin := (h.order.mem_iff c' m).2 ⟨(h.scheduled c').2 (hload m hm), hm⟩
  rw [append_nil, mem_filterMap] at hin
  obtain ⟨⟨receiver, m'⟩, hcall, heq⟩ := hin
  cases receiver with
  | cls c =>
    cases heq
    simpa [running] using hcall
  | cat k => simp [Call.cls?] at heq

variable {method : ι}

theorem Ok.startClass {cls rest} (hcontrol : s.control = .classes (some (cls, method) :: rest)) :
    ∃ classes', Ok p images
      { s with
        control := .classLoad cls method rest
        log := s.log ++ [.start ⟨.cls cls, method⟩] } finished classes' cats := by
  obtain ⟨L, K, loaded, loading, control, log⟩ := s
  subst hcontrol
  cases classes with
  | nil => exact absurd h.classQueue (by simp [detachedClasses])
  | cons first classes =>
    have hqueue := h.classQueue
    simp only [detachedClasses, cons_append, map_cons, cons.injEq, Option.some.injEq] at hqueue
    obtain ⟨rfl, hqueue⟩ := hqueue
    refine ⟨classes, { h with
      order := ?_
      categories := ?_
      classQueue := hqueue
      log := ?_
      later := fun pre k method' post heq => ?_
      idle := by simp
      loading := by simpa using h.loading }⟩
    · simpa [running, Call.cls?] using h.order
    · simpa [running, Call.cat?, filterMap_cons] using h.categories
    · simpa [running] using h.log
    · rcases cut_concat heq with ⟨post', hpost⟩ | ⟨-, heq'⟩
      · exact h.later pre k method' post' (by simpa [running] using hpost)
      · cases heq'

theorem Ok.endClass {cls rest} (hcontrol : s.control = .classLoad cls method rest) :
    Ok p images { s with control := .classes rest, log := s.log ++ [.done ⟨.cls cls, method⟩] }
      (finished ++ [⟨.cls cls, method⟩]) classes cats := by
  obtain ⟨L, K, loaded, loading, control, log⟩ := s
  subst hcontrol
  have hlog := h.log
  simp only [running] at hlog
  exact { h with
    order := by simpa [running] using h.order
    categories := by simpa [running] using h.categories
    log := by simp [running, pairs_concat, hlog]
    later := by simpa [running] using h.later
    ready := by simp [detachedCategories]
    idle := by simp
    loading := by simpa using h.loading }

variable {slots : List (Option (γ × ι))} {i : Nat}

/-- No entry is nil before its turn, and each is of a category that has a class. -/
theorem Ok.slot {e} (hcontrol : s.control = .categories slots i) (hslot : slots[i]? = some e) :
    ∃ cat method c, e = some (cat, method) ∧ p.categoryClass cat = some c := by
  obtain ⟨hlt, hget⟩ := List.getElem?_eq_some_iff.1 hslot
  have hmem : e ∈ cats.map some := by
    rw [← h.categoryQueue, hcontrol, mem_append]
    refine .inl ?_
    change e ∈ slots.drop i
    rw [drop_eq_getElem_cons hlt, hget]
    exact mem_cons_self
  obtain ⟨⟨cat, method⟩, hcat, rfl⟩ := mem_map.1 hmem
  obtain ⟨c, hc, -⟩ := h.known cat method (h.categories ▸ mem_append_right _ hcat)
  exact ⟨cat, method, c, rfl, hc⟩

theorem Ok.startCategory {cat}
    (hcontrol : s.control = .categories slots i) (hslot : slots[i]? = some (some (cat, method))) :
    ∃ cats', Ok p images
      { s with
        control := .categoryLoad slots i cat method
        log := s.log ++ [.start ⟨.cat cat, method⟩] } finished classes cats' := by
  obtain ⟨L, K, loaded, loading, control, log⟩ := s
  subst hcontrol
  obtain ⟨hlt, hget⟩ := List.getElem?_eq_some_iff.1 hslot
  have hdrop : slots.drop i = some (cat, method) :: slots.drop (i + 1) := by
    rw [drop_eq_getElem_cons hlt, hget]
  have hready : ClassCalled p finished cat := by
    refine h.ready cat method ?_
    change _ ∈ slots.drop i
    rw [hdrop]
    exact mem_cons_self
  have hqueue := h.categoryQueue
  simp only [detachedCategories, hdrop] at hqueue
  cases cats with
  | nil => cases hqueue
  | cons first cats =>
    simp only [cons_append, map_cons, List.cons.injEq, Option.some.injEq] at hqueue
    obtain ⟨rfl, hqueue⟩ := hqueue
    refine ⟨cats, { h with
      order := ?_
      categories := ?_
      categoryQueue := hqueue
      log := ?_
      later := fun pre k method' post heq => ?_
      ready := fun k method' hk => h.ready k method' ?_
      idle := by simp
      loading := by simpa using h.loading }⟩
    · simpa [running, Call.cls?, filterMap_cons] using h.order
    · simpa [running, Call.cat?, filterMap_cons] using h.categories
    · simpa [running] using h.log
    · rcases cut_concat heq with ⟨post', hpost⟩ | ⟨rfl, heq'⟩
      · exact h.later pre k method' post' (by simpa [running] using hpost)
      · obtain ⟨rfl, rfl⟩ : cat = k ∧ method = method' := by simpa using heq'
        exact hready
    · change _ ∈ slots.drop i
      rw [hdrop]
      exact mem_cons_of_mem _ hk

omit h

/-- The entry of a category is nil after its call. -/
theorem eq_none_of_mem_take_set
    (h : ∀ e ∈ slots.take i, e = none) : ∀ e ∈ (slots.set i none).take (i + 1), e = none := by
  intro e he
  rw [take_add_one, take_set_of_le (Nat.le_refl i), mem_append] at he
  rcases he with he | he
  · exact h e he
  · rw [Option.mem_toList, getElem?_set_self'] at he
    cases hslot : slots[i]? with
    | none => simp [hslot] at he
    | some e' => simpa [hslot] using he.symm

theorem Ok.endCategory (h : Ok p images s finished classes cats)
    {cat} (hcontrol : s.control = .categoryLoad slots i cat method) :
    Ok p images
      { s with
        control := .categories (slots.set i none) (i + 1)
        log := s.log ++ [.done ⟨.cat cat, method⟩] }
      (finished ++ [⟨.cat cat, method⟩]) classes cats := by
  obtain ⟨L, K, loaded, loading, control, log⟩ := s
  subst hcontrol
  have hlog := h.log
  simp only [running] at hlog
  have hdrop : (slots.set i none).drop (i + 1) = slots.drop (i + 1) :=
    drop_set_of_lt (lt_succ_self i)
  refine { h with
    order := by simpa [running] using h.order
    categories := by simpa [running] using h.categories
    categoryQueue := ?_
    tried := fun e he => ?_
    log := by simp [running, pairs_concat, hlog]
    later := by simpa [running] using h.later
    ready := fun k method' hk c m hc hm => ?_
    idle := by simp
    loading := by simpa using h.loading }
  · change (slots.set i none).drop (i + 1) ++ K = _
    rw [hdrop]
    exact h.categoryQueue
  · exact eq_none_of_mem_take_set h.tried e he
  · change some (k, method') ∈ (slots.set i none).drop (i + 1) at hk
    rw [hdrop] at hk
    exact mem_append_left _ (h.ready k method' hk c m hc hm)

theorem compact_eq_nil
    (h : ∀ e ∈ slots.take i, e = none) (hend : slots[i]? = none) : compact slots = [] := by
  have hle : slots.length ≤ i := getElem?_eq_none_iff.1 hend
  rw [compact_eq, filter_eq_nil_iff]
  intro e he
  rw [h e (by rwa [take_of_length_le hle])]
  simp

/-- At the end of `call_category_loads` all entries of the detached list are nil, so
only new categories are left. -/
theorem Ok.endCategoryLoads (h : Ok p images s finished classes cats)
    (hcontrol : s.control = .categories slots i)
    (hend : slots[i]? = none) : Ok p images (endCategoryLoads slots s) finished classes cats := by
  obtain ⟨L, K, loaded, loading, control, log⟩ := s
  subst hcontrol
  have hle : slots.length ≤ i := getElem?_eq_none_iff.1 hend
  have hqueue : K = cats.map some := by
    have := h.categoryQueue
    simpa [Control.detachedCategories, drop_eq_nil_of_le hle] using this
  have hempty : compact slots = [] := compact_eq_nil h.tried hend
  unfold Load.endCategoryLoads
  dsimp only
  rw [hempty, nil_append]
  split
  · exact { h with
      categoryQueue := hqueue
      tried := by simp [Control.tried]
      ready := by simp [Control.detachedCategories]
      idle := by simp
      loading := by simpa using h.loading }
  next hcond =>
    rw [not_or, decide_eq_true_eq, Nat.not_lt, Nat.not_lt, Nat.le_zero, Nat.le_zero,
      length_eq_zero_iff, length_eq_zero_iff] at hcond
    exact { h with
      categoryQueue := hqueue
      tried := by simp [Control.tried]
      ready := by simp [Control.detachedCategories]
      idle := fun _ => hcond
      loading := by simp }

end Steps

omit [DecidableEq κ] in
/-- **What `call_load_methods` does keeps the invariant.** -/
theorem Ok.next {finished classes cats}
    (h : Ok p images s finished classes cats) (hnext : next p s = some s') :
    ∃ finished' classes' cats', Ok p images s' finished' classes' cats' := by
  unfold Load.next at hnext
  split at hnext
  · cases hnext
  next hcontrol =>
    split at hnext
    · cases hnext
      exact ⟨_, _, _, h.detachClasses hcontrol⟩
    next hlen =>
      cases hnext
      exact ⟨_, _, _, h.detachCategories hcontrol (by simpa using hlen)⟩
  next rest hcontrol =>
    -- no entry is nil before its turn
    have hqueue := h.classQueue
    rw [hcontrol] at hqueue
    cases classes with
    | nil | cons first classes => simp [detachedClasses] at hqueue
  next hcontrol =>
    cases hnext
    obtain ⟨classes', h⟩ := h.startClass hcontrol
    exact ⟨_, _, _, h⟩
  next hcontrol =>
    cases hnext
    exact ⟨_, _, _, h.endClass hcontrol⟩
  next slots i hcontrol =>
    split at hnext
    next hend =>
      cases hnext
      exact ⟨_, _, _, h.endCategoryLoads hcontrol hend⟩
    next hslot =>
      obtain ⟨cat, method, c, heq, -⟩ := h.slot hcontrol hslot
      cases heq
    next cat method hslot =>
      obtain ⟨cat', method', c, heq, hc⟩ := h.slot hcontrol hslot
      cases heq
      rw [hc, if_pos (by simp [isLoadable])] at hnext
      cases hnext
      obtain ⟨cats', h⟩ := h.startCategory hcontrol hslot
      exact ⟨_, _, _, h⟩
  next hcontrol =>
    cases hnext
    exact ⟨_, _, _, h.endCategory hcontrol⟩

omit [DecidableEq κ] in
theorem scheduled_concat {c} :
    Scheduled p (images ++ [img]) c ↔
      Scheduled p images c ∨ ∃ d, some d ∈ img.classlist ∧ Ancestor p.superclass c d := by
  simp [Scheduled, or_and_right, exists_or]

/-- **Loading an image keeps the invariant.** -/
theorem Ok.load {finished classes cats} (h : Ok p images s finished classes cats)
    (hfirst : ClassesFirst p images img) (hload : loadImages p img s = some s') :
    ∃ classes' cats', Ok p (images ++ [img]) s' finished classes' cats' := by
  have hgrow : ∀ c, Scheduled p images c → Scheduled p (images ++ [img]) c :=
    fun c hc => scheduled_concat.2 (.inl hc)
  have hcategories : scheduledCategories p (images ++ [img]) =
      scheduledCategories p images ++ img.scheduled p := by simp [scheduledCategories]
  have hknown : ∀ k method, (k, method) ∈ scheduledCategories p (images ++ [img]) →
      ∃ c, p.categoryClass k = some c ∧
        ∀ m, getLoadMethod p c = some m → Scheduled p (images ++ [img]) c := by
    intro k method hk
    rw [hcategories, mem_append] at hk
    rcases hk with hk | hk
    · obtain ⟨c, hc, hsched⟩ := h.known k method hk
      exact ⟨c, hc, fun m hm => hgrow c (hsched m hm)⟩
    · obtain ⟨cat, hcat, heq⟩ := mem_filterMap.1 hk
      obtain ⟨c, hc, heq⟩ := Option.bind_eq_some_iff.1 heq
      obtain ⟨m', -, heq⟩ := Option.map_eq_some_iff.1 heq
      obtain ⟨rfl, rfl⟩ := Prod.mk.inj heq
      exact ⟨c, hc, fun m hm => hfirst cat hcat c m hc hm⟩
  unfold loadImages at hload
  split at hload
  · obtain ⟨s₁, h₁, rfl⟩ := Option.map_eq_some_iff.1 hload
    obtain ⟨new, loaded, rfl, horder, hloaded⟩ := prepareLoadMethods_spec h.order h₁
    have hsched : ∀ c, loaded c ↔ Scheduled p (images ++ [img]) c := by
      intro c
      rw [hloaded, scheduled_concat, h.scheduled]
    have hcats : (finished ++ s.control.running.toList).filterMap Call.cat? ++
        (cats ++ img.scheduled p) = scheduledCategories p (images ++ [img]) := by
      rw [hcategories, ← append_assoc, h.categories]
    have hqueue : s.control.detachedClasses ++ (s.loadableClasses ++ new.map some) =
        (classes ++ new).map some := by
      rw [← append_assoc, h.classQueue, map_append]
    have hqueue' : s.control.detachedCategories ++
        (s.loadableCategories ++ (img.scheduled p).map some) =
        (cats ++ img.scheduled p).map some := by
      rw [← append_assoc, h.categoryQueue, map_append]
    refine ⟨classes ++ new, cats ++ img.scheduled p, ?_⟩
    obtain ⟨L, K, marks, loading, control, log⟩ := s
    unfold callLoadMethods
    split
    next hload =>
      have hbusy : control ≠ .idle := by
        intro hidle
        cases hload.symm.trans (h.loading.2 hidle)
      exact { h with
        order := append_assoc .. ▸ horder
        categories := hcats
        scheduled := hsched
        known := hknown
        classQueue := hqueue
        categoryQueue := hqueue'
        idle := fun hidle => absurd hidle hbusy }
    next hload =>
      -- the outermost call starts
      obtain rfl : control = .idle := h.loading.1 (by simpa using hload)
      exact { h with
        order := append_assoc .. ▸ horder
        categories := hcats
        scheduled := hsched
        known := hknown
        classQueue := hqueue
        categoryQueue := hqueue'
        idle := by simp
        loading := by simp }
  next hnone =>
    cases hload
    obtain ⟨hclasses, hcats⟩ : img.classlist = [] ∧ img.categorylist = [] := by
      simpa [hasLoadMethods] using hnone
    have hsame : img.scheduled p = [] := by simp [Image.scheduled, hcats]
    exact ⟨classes, cats, { h with
      categories := by rw [hcategories, hsame, append_nil, h.categories]
      scheduled := fun c => by rw [h.scheduled, scheduled_concat]; simp [hclasses]
      known := hknown }⟩

theorem Run.ok (h : Run p images s) :
    ∃ finished classes cats, Ok p images s finished classes cats := by
  induction h with
  | init =>
    refine ⟨[], [], [], ⟨Order.init, rfl, ?_, ?_, rfl, rfl, ?_, rfl, ?_, ?_, ?_, ?_⟩⟩
    · simp [State.init, Scheduled]
    · simp [scheduledCategories]
    · simp [State.init, Control.tried]
    · simp [State.init, running]
    · simp [State.init, detachedCategories]
    · simp [State.init]
    · simp [State.init]
  | next _ hnext ih =>
    obtain ⟨finished, classes, cats, h⟩ := ih
    exact h.next hnext
  | load img _ hmay hfirst hload ih =>
    obtain ⟨finished, classes, cats, h⟩ := ih
    exact ⟨finished, h.load hfirst hload⟩

end ObjcRuntime.Load
