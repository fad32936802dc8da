import Mathlib.Data.Finset.Card
import Mathlib.Data.List.Nodup

/-!
# ObjcRuntime.ClassHook

`look_up_class` and the hook that it calls for classes that are not there.

The hook is foreign code that may look up classes itself. What an invocation does is a
tree (`Code`): it returns, or it looks up a name and goes on in a way that depends on
what it gets and on the state. All paths of such a tree end, whatever the lookups
return. Which hook `GetClassHook.get()` finds is part of the state.

The names that a thread is looking up are a list; the capacity of its array is kept
with it.
-/

namespace ObjcRuntime.ClassHook

open List

/-- What the hook does, with the state that it leaves at each point. -/
inductive Code (ν κ σ : Type)
  | ret (state : σ) (swiftcls : Option κ)
  | lookUp (state : σ) (name : ν) (next : Option κ → σ → Code ν κ σ)

/-- All lookups are of names in the set. -/
def Code.LooksUpIn {ν κ σ : Type} (names : Finset ν) : Code ν κ σ → Prop
  | .ret _ _ => True
  | .lookUp _ name next => name ∈ names ∧ ∀ result s, (next result s).LooksUpIn names

/-- The state of the program, and what the thread keeps of its lookups. `seen` are the
lists that `classNameLookups` has been. -/
structure World (ν σ : Type) where
  state : σ
  classNameLookups : List ν
  allocated : Nat
  seen : List (List ν)

structure Runtime (ν κ σ : Type) where
  /-- `getClassExceptSomeSwift`, and the class is realized. -/
  getClass : ν → σ → Option κ × σ
  getClassHook : ν → σ → Code ν κ σ

variable {ν κ σ : Type}

def World.setLookups (names : List ν) (w : World ν σ) : World ν σ :=
  { w with classNameLookups := names, seen := w.seen ++ [names] }

/-- Save this lookup in tls. -/
def World.save (name : ν) (w : World ν σ) : World ν σ :=
  let allocated :=
    if w.classNameLookups.length = w.allocated then
      if w.allocated * 2 ≠ 0 then w.allocated * 2 else 1
    else w.allocated
  { w.setLookups (w.classNameLookups ++ [name]) with allocated }

/-- Erase the name from tls. -/
def World.erase (w : World ν σ) : World ν σ := w.setLookups w.classNameLookups.dropLast

/-- The hook runs; `look` is `look_up_class`. -/
def Code.run (look : ν → World ν σ → Option (Option κ × World ν σ)) :
    Code ν κ σ → World ν σ → Option (Option κ × World ν σ)
  | .ret state swiftcls, w => some (swiftcls, { w with state })
  | .lookUp state name next, w =>
    (look name { w with state }).bind fun (result, w) => (next result w.state).run look w

/-- `look_up_class`, with the depth to which it may be nested; `none` if it is nested
deeper. -/
def lookUpClass [DecidableEq ν] (R : Runtime ν κ σ) :
    Nat → ν → World ν σ → Option (Option κ × World ν σ)
  | 0, _, _ => none
  | depth + 1, name, w =>
    match R.getClass name w.state with
    | (some result, state) => some (some result, { w with state })
    | (none, state) =>
      -- stop if this thread is already looking up this name
      if name ∈ w.classNameLookups then some (none, { w with state })
      else
        ((R.getClassHook name state).run (lookUpClass R depth) ({ w with state }.save name)).map
          fun (result, w) => (result, w.erase)

/-- The call has returned: the list is what it was, and no list on the way had a name
twice. -/
structure Returned (w w' : World ν σ) : Prop where
  lookups : w'.classNameLookups = w.classNameLookups
  seen : ∃ new, w'.seen = w.seen ++ new ∧ ∀ names ∈ new, names.Nodup

theorem Returned.trans {w w' w'' : World ν σ} (h : Returned w w') (h' : Returned w' w'') :
    Returned w w'' := by
  obtain ⟨new, hseen, hnodup⟩ := h.seen
  obtain ⟨new', hseen', hnodup'⟩ := h'.seen
  refine ⟨h'.lookups.trans h.lookups, new ++ new', ?_, forall_mem_append.2 ⟨hnodup, hnodup'⟩⟩
  rw [hseen', hseen, append_assoc]

theorem returned_state (w : World ν σ) (state : σ) : Returned w { w with state } :=
  ⟨rfl, [], by simp, by simp⟩

/-- **The hook returns** if the lookups that it makes do. -/
theorem Code.run_returns {look names lookups}
    (hlook : ∀ name ∈ names, ∀ w, w.classNameLookups = lookups →
      ∃ result w', look name w = some (result, w') ∧ Returned w w')
    {code : Code ν κ σ} (hcode : code.LooksUpIn names) {w : World ν σ}
    (hw : w.classNameLookups = lookups) :
    ∃ result w', code.run look w = some (result, w') ∧ Returned w w' := by
  induction code generalizing w with
  | ret state swiftcls => exact ⟨swiftcls, _, rfl, returned_state w state⟩
  | lookUp state name next ih =>
    obtain ⟨hname, hnext⟩ := hcode
    obtain ⟨result, w₁, hfirst, hret⟩ := hlook name hname { w with state } hw
    obtain ⟨result', w', hrest, hret'⟩ :=
      ih result w₁.state (hnext result w₁.state) (hret.lookups.trans hw)
    refine ⟨result', w', ?_, ((returned_state w state).trans hret).trans hret'⟩
    rw [Code.run, hfirst]
    exact hrest

theorem returned_save_erase {name} {w w' : World ν σ} (hnodup : w.classNameLookups.Nodup)
    (hname : name ∉ w.classNameLookups) (h : Returned (w.save name) w') : Returned w w'.erase := by
  obtain ⟨new, hseen, hnew⟩ := h.seen
  have hlist : w'.classNameLookups = w.classNameLookups ++ [name] := h.lookups
  have hsaved : (w.classNameLookups ++ [name]).Nodup := by
    rw [nodup_append_comm]
    exact nodup_cons.2 ⟨hname, hnodup⟩
  have herase : w'.classNameLookups.dropLast = w.classNameLookups := by
    rw [hlist, dropLast_concat]
  refine ⟨herase, [w.classNameLookups ++ [name]] ++ new ++ [w.classNameLookups], ?_, ?_⟩
  · unfold World.erase World.setLookups
    rw [herase, hseen]
    simp [World.save, World.setLookups]
  · simp only [forall_mem_append, forall_mem_singleton]
    exact ⟨⟨hsaved, hnew⟩, hnodup⟩

theorem Code.LooksUpIn.mono {names names'} (hsub : names ⊆ names') {code : Code ν κ σ}
    (h : code.LooksUpIn names) : code.LooksUpIn names' := by
  induction code with
  | ret state swiftcls => trivial
  | lookUp state name next ih => exact ⟨hsub h.1, fun result s => ih result s (h.2 result s)⟩

variable [DecidableEq ν]

/-- A lookup returns if it may be nested as deep as there are names left. -/
theorem lookUpClass_returns {R : Runtime ν κ σ} {names}
    (hhook : ∀ name state, (R.getClassHook name state).LooksUpIn names) {depth name}
    (hname : name ∈ names) {w : World ν σ} (hnodup : w.classNameLookups.Nodup)
    (hdepth : (names \ w.classNameLookups.toFinset).card < depth) :
    ∃ result w', lookUpClass R depth name w = some (result, w') ∧ Returned w w' := by
  induction depth generalizing name w with
  | zero => cases hdepth
  | succ depth ih =>
    rw [lookUpClass]
    split
    next result state _ => exact ⟨_, _, rfl, returned_state w state⟩
    next state _ =>
      split
      next hmem => exact ⟨_, _, rfl, returned_state w state⟩
      next hmem =>
        -- the name is not left for the lookups that the hook makes
        have hlook : ∀ n ∈ names, ∀ w', w'.classNameLookups = w.classNameLookups ++ [name] →
            ∃ result w'', lookUpClass R depth n w' = some (result, w'') ∧ Returned w' w'' := by
          intro n hn w' hw'
          have hsaved : w'.classNameLookups.Nodup := by
            rw [hw', nodup_append_comm]
            exact nodup_cons.2 ⟨hmem, hnodup⟩
          refine ih hn hsaved (lt_of_lt_of_le (Finset.card_lt_card ?_) (Nat.le_of_lt_succ hdepth))
          rw [hw']
          refine Finset.ssubset_iff_of_subset (fun a => ?_) |>.2 ⟨name, ?_, ?_⟩
          · simp +contextual
          · simp [hname, hmem]
          · simp
        obtain ⟨result, w', hrun, hret⟩ := Code.run_returns hlook (hhook name state)
          (w := { w with state }.save name) rfl
        refine ⟨result, w'.erase, by rw [hrun]; rfl, ?_⟩
        exact (returned_state w state).trans (returned_save_erase hnodup hmem hret)

/-- **Lookups terminate**, however the hook looks up names of a finite set; the list of
names never has one twice, and is left as it was. -/
theorem lookUpClass_terminates (R : Runtime ν κ σ) (names : Finset ν)
    (hhook : ∀ name state, (R.getClassHook name state).LooksUpIn names) (name : ν) (w : World ν σ)
    (hnodup : w.classNameLookups.Nodup) :
    ∀ depth, (insert name names \ w.classNameLookups.toFinset).card < depth →
      ∃ result w', lookUpClass R depth name w = some (result, w') ∧
        w'.classNameLookups = w.classNameLookups ∧
        ∃ new, w'.seen = w.seen ++ new ∧ ∀ lookups ∈ new, lookups.Nodup := by
  intro depth hdepth
  obtain ⟨result, w', hrun, hret⟩ := lookUpClass_returns
    (fun n s => (hhook n s).mono (Finset.subset_insert name names))
    (Finset.mem_insert_self name names) hnodup hdepth
  exact ⟨result, w', hrun, hret.lookups, hret.seen⟩

/-- The hook looks up two classes, which are not there either. -/
def twoMissing : Runtime Nat Nat Nat where
  getClass _ state := (none, state)
  getClassHook _ state := .lookUp state 1 fun _ s => .lookUp s 2 fun _ s => .ret (s + 1) none

theorem lookUpClass_terminates_twoMissing : ∃ result w',
    lookUpClass twoMissing 4 0 ⟨0, [], 0, []⟩ = some (result, w') ∧ w'.classNameLookups = [] := by
  obtain ⟨result, w', hrun, hlookups, -⟩ := lookUpClass_terminates twoMissing {1, 2}
    (fun _ _ => ⟨by decide, fun _ _ => ⟨by decide, fun _ _ => trivial⟩⟩) 0 ⟨0, [], 0, []⟩
    nodup_nil 4 (by decide)
  exact ⟨result, w', hrun, hlookups⟩

end ObjcRuntime.ClassHook
