import Mathlib.Logic.Relation
import ObjcRuntime.Load.Sound

/-!
# ObjcRuntime.Load.Ordering

The order of the `+load` calls (`load_ordering`).

Calls never overlap, so the log is a sequence of pairs of events, and a cut of the
log before a call is a cut of the sequence of calls. That the outermost
`call_load_methods` returns once no more images are loaded follows from `work`,
which every step makes smaller.
-/

namespace ObjcRuntime.Load

open Lib List State

variable {κ γ ι : Type} {p : Program κ γ ι} {images : List (Image κ γ)} {s s' : State κ γ ι}
variable {finished : List (Call κ γ ι)} {classes : List (κ × ι)} {cats : List (γ × ι)}

/-! ### The log -/

/-- The methods that were called for a class or a category. -/
def loads [DecidableEq κ] [DecidableEq γ] (receiver : Receiver κ γ) (log : List (Event κ γ ι)) :
    List ι :=
  log.filterMap fun
    | .start call => if call.receiver = receiver then some call.method else none
    | .done _ => none

variable {pre post : List (Event κ γ ι)} {call : Call κ γ ι}

theorem pairs_cut {running : Option (Call κ γ ι)} :
    pairs finished ++ running.toList.map .start = pre ++ .start call :: post →
      ∃ before after, finished ++ running.toList = before ++ call :: after ∧
        pre = pairs before := by
  induction finished generalizing pre with
  | nil =>
    intro h
    cases running with
    | none => simp [pairs] at h
    | some call' =>
      cases pre with
      | nil =>
        simp only [pairs, flatMap_nil, Option.toList_some, map_cons, map_nil,
          nil_append, cons.injEq, Event.start.injEq] at h
        exact ⟨[], [], by simp [h.1], rfl⟩
      | cons e pre => simp [pairs] at h
  | cons first finished ih =>
    intro h
    cases pre with
    | nil =>
      obtain rfl : first = call := by simpa using (cons.inj h).1
      exact ⟨[], finished ++ running.toList, rfl, rfl⟩
    | cons e pre =>
      obtain ⟨rfl, htail⟩ := cons.inj h
      cases pre with
      | nil =>
        have hevent : Event.done first = .start call := (cons.inj htail).1
        cases hevent
      | cons e pre =>
        obtain ⟨rfl, hrest⟩ := cons.inj htail
        obtain ⟨before, after, heq, rfl⟩ := ih hrest
        exact ⟨first :: before, after, by simp [heq], rfl⟩

theorem done_mem_pairs {calls} (h : call ∈ calls) : .done call ∈ pairs calls :=
  mem_flatMap.2 ⟨call, h, by simp⟩

variable (h : Ok p images s finished classes cats)
include h

theorem Ok.before (hlog : s.log = pre ++ .start call :: post) :
    ∃ before after, finished ++ s.control.running.toList = before ++ call :: after ∧
      pre = pairs before :=
  pairs_cut (h.log ▸ hlog)

theorem Ok.superclassesFirst {c method} (hlog : s.log = pre ++ .start ⟨.cls c, method⟩ :: post) :
    Scheduled p images c ∧ getLoadMethod p c = some method ∧
      ∀ q d method', p.superclass c = some q → Ancestor p.superclass d q →
        getLoadMethod p d = some method' → .done ⟨.cls d, method'⟩ ∈ pre := by
  obtain ⟨before, after, heq, rfl⟩ := h.before hlog
  have hcut : (finished ++ s.control.running.toList).filterMap Call.cls? ++ classes =
      before.filterMap Call.cls? ++ (c, method) :: (after.filterMap Call.cls? ++ classes) := by
    rw [heq]
    simp [Call.cls?]
  obtain ⟨hloaded, hmethod⟩ := (h.order.mem_iff c method).1 (by rw [hcut]; simp)
  refine ⟨(h.scheduled c).1 hloaded, hmethod, fun q d method' hq hanc hd => done_mem_pairs ?_⟩
  obtain ⟨⟨receiver, m⟩, hcall, hcls⟩ :=
    mem_filterMap.1 (h.order.first _ c method _ hcut q d method' hq hanc hd)
  cases receiver with
  | cls c' =>
    cases hcls
    exact hcall
  | cat k => simp [Call.cls?] at hcls

theorem Ok.classFirst
    {k method} (hlog : s.log = pre ++ .start ⟨.cat k, method⟩ :: post)
    {c method'} (hc : p.categoryClass k = some c) (hload : getLoadMethod p c = some method') :
    .done ⟨.cls c, method'⟩ ∈ pre := by
  obtain ⟨before, after, heq, rfl⟩ := h.before hlog
  exact done_mem_pairs (h.later before k method after heq c method' hc hload)

omit h

/-! ### How often -/

section Count

variable [DecidableEq κ] [DecidableEq γ]

theorem loads_log (running : Option (Call κ γ ι)) (receiver) :
    loads receiver (pairs finished ++ running.toList.map .start) =
      ((finished ++ running.toList).filter (·.receiver = receiver)).map (·.method) := by
  induction finished with
  | nil =>
    cases running with
    | none => rfl
    | some call =>
      by_cases hcall : call.receiver = receiver
      · simp [loads, pairs, hcall]
      · simp [loads, pairs, hcall]
  | cons call finished ih =>
    have hstep : loads receiver (pairs (call :: finished) ++ running.toList.map .start) =
        (if call.receiver = receiver then [call.method] else []) ++
          loads receiver (pairs finished ++ running.toList.map .start) := by
      by_cases hcall : call.receiver = receiver
      · simp [loads, pairs, hcall]
      · simp [loads, pairs, hcall]
    rw [hstep, ih, cons_append, filter_cons]
    by_cases hcall : call.receiver = receiver
    · simp [hcall]
    · simp [hcall]

theorem filter_cls (calls : List (Call κ γ ι)) (c : κ) :
    (calls.filter (·.receiver = .cls c)).map (·.method) =
      ((calls.filterMap Call.cls?).filter (·.1 = c)).map (·.2) := by
  induction calls with
  | nil => rfl
  | cons call calls ih =>
    obtain ⟨receiver, method⟩ := call
    cases receiver with
    | cls d =>
      by_cases hd : d = c
      · simpa [filterMap_cons, Call.cls?, hd] using ih
      · simpa [filterMap_cons, Call.cls?, hd] using ih
    | cat k => simpa [filterMap_cons, Call.cls?] using ih

theorem filter_cat (calls : List (Call κ γ ι)) (k : γ) :
    (calls.filter (·.receiver = .cat k)).map (·.method) =
      ((calls.filterMap Call.cat?).filter (·.1 = k)).map (·.2) := by
  induction calls with
  | nil => rfl
  | cons call calls ih =>
    obtain ⟨receiver, method⟩ := call
    cases receiver with
    | cls d => simpa [filterMap_cons, Call.cat?] using ih
    | cat d =>
      by_cases hd : d = k
      · simpa [filterMap_cons, Call.cat?, hd] using ih
      · simpa [filterMap_cons, Call.cat?, hd] using ih

theorem filter_key {order : List (κ × ι)} (h : (order.map Prod.fst).Nodup) (c : κ) :
    (order.filter (·.1 = c)).length ≤ 1 ∧
      ∀ method, (c, method) ∈ order → order.filter (·.1 = c) = [(c, method)] := by
  induction order with
  | nil => simp
  | cons first order ih =>
    rw [map_cons, nodup_cons] at h
    obtain ⟨hlen, hmem⟩ := ih h.2
    rw [filter_cons]
    by_cases hc : first.1 = c
    · subst hc
      have hnone : order.filter (·.1 = first.1) = [] := by
        rw [filter_eq_nil_iff]
        intro e he heq
        exact h.1 (mem_map.2 ⟨e, he, by simpa using heq⟩)
      rw [if_pos (by simp), hnone]
      refine ⟨by simp, fun method hm => ?_⟩
      rcases mem_cons.1 hm with heq | hm
      · rw [heq]
      · exact absurd (mem_map.2 ⟨_, hm, rfl⟩) h.1
    · rw [if_neg (by simpa using hc)]
      refine ⟨hlen, fun method hm => hmem method ?_⟩
      rcases mem_cons.1 hm with heq | hm
      · exact absurd (congrArg Prod.fst heq).symm hc
      · exact hm

variable (h : Ok p images s finished classes cats)
include h

theorem Ok.loads_cls (c : κ) :
    loads (.cls c) s.log =
      (((finished ++ s.control.running.toList).filterMap Call.cls?).filter (·.1 = c)).map
        (·.2) := by
  rw [h.log, loads_log, filter_cls]

theorem Ok.once (c : κ) : (loads (.cls c) s.log).length ≤ 1 := by
  have hkey := (filter_key h.order.nodup c).1
  rw [filter_append, length_append] at hkey
  rw [h.loads_cls, length_map]
  exact Nat.le_trans (Nat.le_add_right ..) hkey

theorem Ok.loads_cat (k : γ) :
    loads (.cat k) s.log =
      (((finished ++ s.control.running.toList).filterMap Call.cat?).filter (·.1 = k)).map
        (·.2) := by
  rw [h.log, loads_log, filter_cat]

theorem Ok.loads_prefix (k : γ) :
    loads (.cat k) s.log <+: ((scheduledCategories p images).filter (·.1 = k)).map (·.2) := by
  rw [h.loads_cat, ← h.categories, filter_append, map_append]
  exact prefix_append ..

theorem Ok.settled (hidle : s.control = .idle) :
    (∀ c method, Scheduled p images c → getLoadMethod p c = some method →
      loads (.cls c) s.log = [method]) ∧
    ∀ k, loads (.cat k) s.log = ((scheduledCategories p images).filter (·.1 = k)).map (·.2) := by
  obtain ⟨hclasses, hcats⟩ := h.idle hidle
  have hqueue := h.classQueue
  have hqueue' := h.categoryQueue
  rw [hidle, hclasses] at hqueue
  rw [hidle, hcats] at hqueue'
  obtain rfl : classes = [] := map_eq_nil_iff.1 hqueue.symm
  obtain rfl : cats = [] := map_eq_nil_iff.1 hqueue'.symm
  refine ⟨fun c method hc hm => ?_, fun k => ?_⟩
  · have hmem := (h.order.mem_iff c method).2 ⟨(h.scheduled c).2 hc, hm⟩
    have hfilter := (filter_key h.order.nodup c).2 method hmem
    rw [append_nil] at hfilter
    rw [h.loads_cls, hfilter]
    rfl
  · rw [h.loads_cat, ← h.categories, append_nil]

omit h

end Count

/-! ### Termination -/

/-- A bound on the steps until the outermost call returns, if no image is loaded. -/
def State.work (s : State κ γ ι) : Nat :=
  4 * s.loadableClasses.length + 2 * s.loadableCategories.length +
  -- another round over the categories
  let again := if s.loadableClasses.length > 0 ∨ s.loadableCategories.length > 0 then 2 else 0
  match s.control with
  | .idle => 0
  | .classes rest => 2 * rest.length + 3
  | .classLoad _ _ rest => 2 * rest.length + 4
  | .categories cats i => 2 * (cats.length - i) + 2 + again
  | .categoryLoad cats i _ _ => 2 * (cats.length - (i + 1)) + 3 + again

theorem Ok.work_lt (h : Ok p images s finished classes cats) (hnext : Load.next p s = some s') :
    s'.work < s.work := by
  unfold Load.next at hnext
  split at hnext
  · cases hnext
  next hcontrol =>
    split at hnext
    · cases hnext
      simp only [work, hcontrol, length_nil]
      omega
    next hlen =>
      cases hnext
      simp only [work, hcontrol, length_nil]
      split <;> omega
  next rest hcontrol =>
    cases hnext
    simp only [work, hcontrol, length_cons]
    omega
  next hcontrol =>
    cases hnext
    simp only [work, hcontrol, length_cons]
    omega
  next hcontrol =>
    cases hnext
    simp only [work, hcontrol]
    omega
  next slots i hcontrol =>
    split at hnext
    next hend =>
      cases hnext
      unfold Load.endCategoryLoads
      dsimp only
      rw [compact_eq_nil (fun e he => h.tried e (hcontrol ▸ he)) hend, nil_append]
      split
      next hmore =>
        rw [decide_eq_true_eq] at hmore
        simp only [work, hcontrol, if_pos hmore, length_nil]
        omega
      · simp only [work, hcontrol]
        omega
    next hslot =>
      obtain ⟨hlt, -⟩ := List.getElem?_eq_some_iff.1 hslot
      cases hnext
      simp only [work, hcontrol]
      omega
    next cat method hslot =>
      obtain ⟨hlt, -⟩ := List.getElem?_eq_some_iff.1 hslot
      split at hnext
      · cases hnext
        simp only [work, hcontrol]
        omega
      · cases hnext
        simp only [work, hcontrol]
        omega
  next hcontrol =>
    cases hnext
    simp only [work, hcontrol, length_set]
    omega

theorem next_eq_none (h : next p s = none) : s.control = .idle := by
  unfold Load.next at h
  split at h
  next hcontrol => exact hcontrol
  · split at h <;> cases h
  · cases h
  · cases h
  · cases h
  · split at h
    · cases h
    · cases h
    · split at h <;> cases h
  · cases h

/-- If no more images are loaded, the outermost call returns. -/
theorem Run.returns [DecidableEq κ] (h : Run p images s) :
    ∃ s', Relation.ReflTransGen (fun a b => Load.next p a = some b) s s' ∧ s'.control = .idle := by
  induction hn : s.work using Nat.strongRecOn generalizing s with
  | ind n ih =>
    cases hnext : Load.next p s with
    | none => exact ⟨s, .refl, next_eq_none hnext⟩
    | some s₁ =>
      obtain ⟨finished, classes, cats, hok⟩ := h.ok
      obtain ⟨s', hsteps, hidle⟩ := ih s₁.work (hn ▸ hok.work_lt hnext) (h.next hnext) rfl
      exact ⟨s', .head hnext hsteps, hidle⟩

/-- **The order of `+load`.** At any point of a run in which images are loaded one
inside the other and categories come no earlier than their classes:

* a class has got `+load` at most once and a category at most as often as it was
  scheduled;
* only scheduled classes have got it, and before that the `+load` calls of all their
  superclasses that have one had returned;
* when a category got `+load`, the `+load` of its class had returned;
* if the outermost `call_load_methods` has returned, nothing is pending, every
  scheduled class that has a `+load` has got it exactly once, and every category
  once for each time it was scheduled;
* if no more images are loaded, the outermost `call_load_methods` will return; and
  loading an image only fails for a category of a Swift class. -/
theorem load_ordering [DecidableEq κ] [DecidableEq γ] (hrun : Run p images s) :
    (∀ c, (loads (.cls c) s.log).length ≤ 1) ∧
    (∀ k, loads (.cat k) s.log <+: ((scheduledCategories p images).filter (·.1 = k)).map (·.2)) ∧
    (∀ pre c method post, s.log = pre ++ .start ⟨.cls c, method⟩ :: post →
      Scheduled p images c ∧ getLoadMethod p c = some method ∧
      ∀ q d method', p.superclass c = some q → Ancestor p.superclass d q →
        getLoadMethod p d = some method' → .done ⟨.cls d, method'⟩ ∈ pre) ∧
    (∀ pre k method post, s.log = pre ++ .start ⟨.cat k, method⟩ :: post →
      ∀ c method', p.categoryClass k = some c → getLoadMethod p c = some method' →
        .done ⟨.cls c, method'⟩ ∈ pre) ∧ (s.control = .idle →
      s.loadableClasses = [] ∧ s.loadableCategories = [] ∧
      (∀ c method, Scheduled p images c → getLoadMethod p c = some method →
        loads (.cls c) s.log = [method]) ∧
      ∀ k, loads (.cat k) s.log = ((scheduledCategories p images).filter (·.1 = k)).map (·.2)) ∧
    (∃ s', Relation.ReflTransGen (fun a b => next p a = some b) s s' ∧ s'.control = .idle) ∧
    ∀ img : Image κ γ, (∀ cat ∈ img.categorylist, ∀ c, p.categoryClass cat = some c →
      p.isSwiftStable c = false) → ∃ s', loadImages p img s = some s' := by
  obtain ⟨finished, classes, cats, h⟩ := hrun.ok
  refine ⟨h.once, h.loads_prefix, fun pre c method post hlog => h.superclassesFirst hlog,
    fun pre k method post hlog c method' hc hm => h.classFirst hlog hc hm, fun hidle => ?_,
    hrun.returns, fun img hswift => loadImages_isSome hswift s⟩
  obtain ⟨hclasses, hcats⟩ := h.idle hidle
  obtain ⟨honce, hcategories⟩ := h.settled hidle
  exact ⟨hclasses, hcats, honce, hcategories⟩

/-- Classes 0, 1 and 2, each the superclass of the next and with a `+load`, and one
category of class 1. -/
def chainProgram : Program Nat Nat Nat where
  superclass c := if c = 0 then none else some (c - 1)
  baseMethods c := some [("load", c)]
  isSwiftStable _ := false
  categoryClass _ := some 1
  classMethods k := some [("load", k)]
  depth c := c
  depth_lt c p h := by
    split at h
    · cases h
    next hc =>
      cases h
      omega

/-- The image with class 1 and the category is loaded; the `+load` of class 0 loads
the one with class 2. -/
theorem load_ordering_chain :
    ∃ s, Run chainProgram [⟨[some 1], [7]⟩, ⟨[some 2], []⟩] s ∧ s.control = .idle ∧
      s.loadableClasses = [] ∧ loads (.cls 0) s.log = [0] ∧ loads (.cls 2) s.log = [2] ∧
      loads (.cat 7) s.log = [7] := by
  have hfirst : ClassesFirst chainProgram [] ⟨[some 1], [7]⟩ := by
    intro cat _ c method hc _
    obtain rfl : 1 = c := Option.some.inj hc
    exact ⟨⟨[some 1], [7]⟩, by simp, 1, by simp, .refl⟩
  have hnested : ClassesFirst chainProgram [⟨[some 1], [7]⟩] ⟨[some 2], []⟩ := by
    intro cat hcat
    cases hcat
  have hrun : Run chainProgram _ _ := .load ⟨[some 1], [7]⟩ .init rfl hfirst rfl
  -- up to the `+load` of class 0
  replace hrun := (hrun.next rfl).next rfl
  replace hrun := hrun |>.load ⟨[some 2], []⟩ rfl hnested rfl
  -- the `+load` methods of classes 0 and 1, then class 2, then the category
  replace hrun := ((hrun.next rfl).next rfl).next rfl
  replace hrun := ((hrun.next rfl).next rfl).next rfl
  replace hrun := (((hrun.next rfl).next rfl).next rfl).next rfl
  obtain ⟨-, -, -, -, hidle, -⟩ := load_ordering hrun
  obtain ⟨hclasses, -, honce, hcats⟩ := hidle rfl
  refine ⟨_, hrun, rfl, hclasses, honce 0 0 ?_ rfl, honce 2 2 ?_ rfl, hcats 7⟩
  · exact ⟨_, mem_cons_self, 1, by simp, .step rfl .refl⟩
  · exact ⟨_, mem_cons_of_mem _ mem_cons_self, 2, by simp, .refl⟩

end ObjcRuntime.Load
