import ObjcRuntime.Weak.Refinement

/-!
# ObjcRuntime.Weak.Reclaim

When an entry of the weak table goes away.

`weak_unregister_no_lock` removes the entry of an object when the last of its
variables is unregistered, if the test for emptiness says so. The test first looks
at `num_refs` of an out-of-line entry, but only to conclude that the entry is not
empty; if `num_refs` is 0 it goes on to the four inline words, which in an
out-of-line entry are its header. The first of them is the pointer to the referrer
table, so an entry that has once gone out of line is never found empty.
-/

namespace ObjcRuntime.Weak

open Lib List WeakEntry

/-- An entry with its referrers in the inline array. -/
def WeakEntry.isInline (entry : WeakEntry) : Prop :=
  ∃ referrers, entry.referrers = .inline referrers

theorem EntryWf.empty_of_inline {entry} (h : EntryWf entry) (hin : entry.isInline)
    (hnone : entry.locs = ∅) : entry.empty := by
  obtain ⟨referrers, hr⟩ := hin
  simp only [empty, outOfLine_inline h hr, Bool.false_and, Bool.false_eq_true, if_false]
  rw [List.all_eq_true]
  intro j _
  unfold inlineReferrer
  rw [hr]
  dsimp only
  cases hj : slot referrers j with
  | none => rfl
  | some l =>
    have hl : l ∈ entry.locs := by
      unfold WeakEntry.locs
      rw [hr]
      exact some_mem_iff_slot.2 ⟨j, hj⟩
    rw [hnone] at hl
    exact absurd hl (Set.notMem_empty l)

/-- An out-of-line entry never is: its first word is a pointer. -/
theorem not_empty_of_outOfLine {entry : WeakEntry} {table}
    (hr : entry.referrers = .outOfLine table) : entry.empty = false := by
  have hword : ((List.range weakInlineCount).all fun j => !entry.inlineReferrer j) = false := by
    rw [List.all_eq_false]
    refine ⟨0, by decide, ?_⟩
    unfold inlineReferrer
    rw [hr]
    simp
  simp only [empty, hword, ite_self]

theorem removeReferrer_form {entry entry' l known}
    (h : removeReferrer entry l = .ok (entry', known)) : entry'.isInline ↔ entry.isInline := by
  unfold removeReferrer at h
  unfold isInline
  split at h
  next referrers hr _ =>
    split at h
    · cases h
      simp [hr]
    · cases h
      exact Iff.rfl
  next table hr _ =>
    split at h
    · cases h
      simp [hr]
    · cases h
      exact Iff.rfl
    · cases h
  · cases h

theorem run_ok {isTaggedPointer memory ops}
    (hops : (WeakMap.init memory).AdmitsAll isTaggedPointer ops) {s}
    (hrun : WeakState.run isTaggedPointer ⟨WeakTable.zero, memory⟩ ops = .ok s) :
    TableWf s.table ∧ locations s.table = ((WeakMap.init memory).run ops).locations := by
  rw [← zero_abs memory] at hops ⊢
  rcases run_refines (s := ⟨WeakTable.zero, memory⟩) zero_wf hops with
    ⟨s', hrun', h', habs⟩ | ⟨hcrash, -⟩
  · rw [hrun] at hrun'
    cases hrun'
    exact ⟨h', congrArg WeakMap.locations habs⟩
  · rw [hrun] at hcrash
    cases hcrash

/-- **Reclaiming an entry.** In every table reached from a zero-initialised one,
unregistering the last variable of an object removes the object's entry, so that there is
one entry less and none for the object, exactly if the entry is inline. -/
theorem unregister_last_reclaims (isTaggedPointer : Addr → Bool) (memory : Memory)
    {ops : List WeakOp} (hops : (WeakMap.init memory).AdmitsAll isTaggedPointer ops)
    {s : WeakState} (hrun : WeakState.run isTaggedPointer ⟨WeakTable.zero, memory⟩ ops = .ok s)
    {referent referrer : Addr} (ho : referent ≠ 0)
    (hlast : locations s.table referent = {referrer}) :
    ∃ table', weakUnregisterNoLock s.table referent referrer = .ok table' ∧
      (table'.count + 1 = s.table.count ∧ weakEntryForReferent table' referent = .ok none ↔
        ∃ entry, s.table.Mem entry ∧ entry.referent = referent ∧ entry.isInline) := by
  have h := (run_ok hops hrun).1
  unfold weakUnregisterNoLock
  rw [if_neg ho]
  rcases weakEntryForReferent_spec h referent with ⟨i, entry, hfind, hget, rfl⟩ | ⟨hfind, hno⟩
  · obtain ⟨entry', known, hrem, he', hr, hlocs⟩ := (h.entries entry ⟨i, hget⟩).remove referrer
    obtain ⟨htable, hget', -⟩ := h.setAt hget he' hr
    have hnone : entry'.locs = ∅ := by
      rw [hlocs, ← h.locations_eq hget, hlast, Set.sdiff_self]
    have hform := removeReferrer_form hrem
    have hunique : (∃ e, s.table.Mem e ∧ e.referent = entry.referent ∧ e.isInline) ↔
        entry.isInline := by
      constructor
      · rintro ⟨e, he, hre, hin⟩
        rwa [(h.alloc hget).wf.mem_unique he ⟨i, hget⟩ hre] at hin
      · exact fun hin => ⟨entry, ⟨i, hget⟩, rfl, hin⟩
    simp only [hfind, hget, hrem, bind, Except.bind]
    rw [hunique, ← hform]
    cases hr' : entry'.referrers with
    | inline referrers =>
      have hin : entry'.isInline := ⟨referrers, hr'⟩
      rw [if_pos (he'.empty_of_inline hin hnone)]
      obtain ⟨table', hremove, htable', -, hcount, hgone⟩ := weakEntryRemove_spec htable hget'
      refine ⟨table', hremove, fun _ => hin, fun _ => ⟨hcount, ?_⟩⟩
      rcases weakEntryForReferent_spec htable' entry.referent with
        ⟨j, e, -, hj, hre⟩ | ⟨hfind', -⟩
      · exact absurd (hre.trans hr.symm) (hgone e ⟨j, hj⟩)
      · exact hfind'
    | outOfLine table =>
      rw [if_neg (by simp [not_empty_of_outOfLine hr'])]
      refine ⟨s.table.setAt i entry', rfl, ?_, ?_⟩
      · -- nothing was removed
        rintro ⟨hcount, -⟩
        exact absurd (show s.table.count + 1 = s.table.count from hcount) (by omega)
      · rintro ⟨referrers, hin⟩
        rw [hr'] at hin
        cases hin
  · rw [locations_eq_empty hno] at hlast
    exact absurd hlast.symm (Set.singleton_ne_empty _)

/-- The table after the first variable of an object was registered. -/
def oneEntry : WeakTable :=
  ⟨(List.replicate 64 none).set 17 (some (WeakEntry.new 0x10 0x1008)), 1, 63, 0⟩

theorem unregister_last_reclaims_inline :
    ∃ table', weakUnregisterNoLock oneEntry 0x10 0x1008 = .ok table' ∧ table'.count = 0 ∧
      weakEntryForReferent table' 0x10 = .ok none := by
  have hadmits : (WeakMap.init fun _ => 0).AdmitsAll (fun _ => false)
      [.register 0x10 0x1008 .crashIfDeallocating .live] := by
    simp [WeakMap.AdmitsAll, WeakMap.Admits, WeakMap.init, IsObject, IsLocation]
  have hrun : WeakState.run (fun _ => false) ⟨WeakTable.zero, fun _ => 0⟩
      [.register 0x10 0x1008 .crashIfDeallocating .live] = .ok ⟨oneEntry, fun _ => 0⟩ := rfl
  have hlast : locations oneEntry 0x10 = {0x1008} := by
    rw [show oneEntry = (⟨oneEntry, fun _ => 0⟩ : WeakState).table from rfl,
      (run_ok hadmits hrun).2]
    simp [WeakMap.run, WeakMap.step, WeakMap.init, WeakOp.accepts]
  obtain ⟨table', hunreg, hiff⟩ := unregister_last_reclaims (fun _ => false) (fun _ => 0) hadmits
    hrun (by decide) hlast
  obtain ⟨hcount, hnone⟩ := hiff.2 ⟨WeakEntry.new 0x10 0x1008, ⟨17, rfl⟩, rfl, _, rfl⟩
  exact ⟨table', hunreg, Nat.succ.inj hcount, hnone⟩

/-- Five variables of one object, so that its entry goes out of line; four of them are
unregistered again. -/
def fiveThenOne : List WeakOp :=
  [.register 0x10 0x1008 .crashIfDeallocating .live,
    .register 0x10 0x1010 .crashIfDeallocating .live,
    .register 0x10 0x1018 .crashIfDeallocating .live,
    .register 0x10 0x1020 .crashIfDeallocating .live,
    .register 0x10 0x1028 .crashIfDeallocating .live,
    .unregister 0x10 0x1008, .unregister 0x10 0x1010, .unregister 0x10 0x1018,
    .unregister 0x10 0x1020]

/-- The number of entries after a sequence of operations. -/
def entriesAfter (ops : List WeakOp) : Option Nat :=
  match WeakState.run (fun _ => false) ⟨WeakTable.zero, fun _ => 0⟩ ops with
  | .ok s => some s.table.count
  | .error _ => none

/-- Unregistering the fifth variable as well leaves an entry without referrers. -/
theorem unregister_last_leaves_entry :
    ¬ ∀ (ops : List WeakOp) (s : WeakState) (referent referrer : Addr),
      (WeakMap.init fun _ => 0).AdmitsAll (fun _ => false) ops →
      WeakState.run (fun _ => false) ⟨WeakTable.zero, fun _ => 0⟩ ops = .ok s → referent ≠ 0 →
      locations s.table referent = {referrer} →
      ∃ table', weakUnregisterNoLock s.table referent referrer = .ok table' ∧
        table'.count + 1 = s.table.count := by
  intro hclaim
  have hadmits : (WeakMap.init fun _ => 0).AdmitsAll (fun _ => false) fiveThenOne := by
    simp [fiveThenOne, WeakMap.AdmitsAll, WeakMap.Admits, WeakMap.step, WeakMap.init,
      WeakOp.accepts, IsObject, IsLocation]
  have hcounts : entriesAfter fiveThenOne = some 1 ∧
      entriesAfter (fiveThenOne ++ [.unregister 0x10 0x1028]) = some 1 := by decide +kernel
  unfold entriesAfter at hcounts
  rw [WeakState.run, WeakState.run, foldlM_append] at hcounts
  cases hrun : fiveThenOne.foldlM (WeakState.step fun _ => false)
      (⟨WeakTable.zero, fun _ => 0⟩ : WeakState) with
  | error e =>
    rw [hrun] at hcounts
    cases hcounts.1
  | ok s =>
    have hlast : locations s.table 0x10 = {0x1028} := by
      rw [(run_ok hadmits hrun).2]
      ext l
      simp only [fiveThenOne, WeakMap.run, WeakMap.step, WeakMap.init, WeakOp.accepts, or_true,
        if_true, foldl_cons, foldl_nil, Function.update_self, Function.update_idem,
        Set.mem_sdiff, Set.mem_insert_iff, Set.mem_singleton_iff, Set.mem_empty_iff_false, or_false]
      constructor
      · tauto
      · rintro rfl
        decide
    obtain ⟨table', hunreg, hcount⟩ := hclaim fiveThenOne s 0x10 0x1028 hadmits hrun (by decide)
      hlast
    rw [hrun] at hcounts
    obtain ⟨hbefore, hafter⟩ := hcounts
    simp only [bind, Except.bind, foldlM_cons, foldlM_nil, WeakState.step, hunreg, pure,
      Except.pure, Option.some.injEq] at hbefore hafter
    omega

end ObjcRuntime.Weak
