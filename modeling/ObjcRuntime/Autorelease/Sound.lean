import Mathlib.Algebra.BigOperators.Group.List.Basic
import Mathlib.Data.List.Nodup
import Mathlib.Tactic.Ring
import ObjcRuntime.Autorelease.Pool

/-!
# ObjcRuntime.Autorelease.Sound

The pages hold a stack of pools.

Read from the last entry down, the pages hold the objects of the innermost pool,
its boundary, the objects of the next pool, and so on (`Fits`). Every page before
the hot one is full and every page after it is empty (`ChainWf`), so the slot a
token points to is a fixed position in that sequence and never moves: adding
coalesces above the last boundary only, and pages are killed only behind the last
entry. What a pool still holds, what its `pop` has sent and what the running
release loop still owes always add up to what was autoreleased into it.
-/

namespace ObjcRuntime.Autorelease

open List Nat Chain

/-! ### Entries -/

/-- How many releases of `x` the entries stand for. -/
def copies (entries : List Entry) (x : Obj) : Nat :=
  (entries.map fun e => if e.ptr = x then e.count + 1 else 0).sum

@[simp] theorem copies_nil (x : Obj) : copies [] x = 0 := rfl

@[simp] theorem copies_cons (e) (entries) (x : Obj) :
    copies (e :: entries) x = (if e.ptr = x then e.count + 1 else 0) + copies entries x := rfl

@[simp] theorem copies_append (l₁ l₂) (x : Obj) :
    copies (l₁ ++ l₂) x = copies l₁ x + copies l₂ x := by
  simp [copies]

theorem update_succ_apply (count : Obj → Nat) (obj x : Obj) :
    Function.update count obj (count obj + 1) x = count x + if obj = x then 1 else 0 := by
  rw [Function.update_apply]
  by_cases hx : x = obj
  · rw [if_pos hx, if_pos hx.symm, hx]
  · rw [if_neg hx, if_neg (Ne.symm hx)]
    rfl

def NoBoundary (entries : List Entry) : Prop := ∀ e ∈ entries, e.ptr ≠ 0

theorem NoBoundary.cons {e entries} (he : e.ptr ≠ 0)
    (h : NoBoundary entries) : NoBoundary (e :: entries) := by
  intro f hf
  rcases mem_cons.1 hf with rfl | hf
  · exact he
  · exact h f hf

theorem noBoundary_append {l₁ l₂} : NoBoundary (l₁ ++ l₂) ↔ NoBoundary l₁ ∧ NoBoundary l₂ := by
  constructor
  · exact fun h => ⟨fun e he => h e (mem_append_left _ he), fun e he => h e (mem_append_right _ he)⟩
  · rintro ⟨h₁, h₂⟩ e he
    rcases mem_append.1 he with he | he
    · exact h₁ e he
    · exact h₂ e he

/-- Entries whose only entry without an object is the boundary. -/
def WordsOk (entries : List Entry) : Prop := ∀ e ∈ entries, e.ptr = 0 → e = poolBoundary

/-- The LRU search finds an entry above the last boundary. -/
theorem lruSearch_inv {obj n} :
    ∀ {entries found} {others}, WordsOk entries →
      lruSearch obj n entries = some (found, others) →
      found.ptr = obj ∧ ∃ pre post, entries = pre ++ found :: post ∧ others = pre ++ post ∧
        NoBoundary pre := by
  induction n with
  | zero =>
    intro entries found others _ h
    cases h
  | succ n ih =>
    intro entries found others hok h
    match entries with
    | [] | [_] => simp [lruSearch] at h
    | entry :: below :: rest =>
      unfold lruSearch at h
      split at h
      · cases h
      next hne =>
        split at h
        next hhit =>
          cases h
          exact ⟨hhit.1, [], below :: rest, rfl, rfl, fun e he => absurd he (by simp)⟩
        · obtain ⟨⟨found', others'⟩, hrec, heq⟩ := Option.map_eq_some_iff.1 h
          cases heq
          obtain ⟨hptr, pre, post, hentries, hothers, hpre⟩ :=
            ih (fun e he => hok e (mem_cons_of_mem entry he)) hrec
          refine ⟨hptr, entry :: pre, post, by rw [hentries]; rfl, by rw [hothers]; rfl, ?_⟩
          exact NoBoundary.cons (fun h0 => hne (hok entry mem_cons_self h0)) hpre

/-- `add` changes entries above the last boundary only, and there it adds one
release of the object. -/
theorem addEntry_spec {o entries} (hok : WordsOk entries) {obj} (hobj : obj ≠ 0) :
    ∃ pre post pre', entries = pre ++ post ∧ addEntry o entries obj = pre' ++ post ∧
      NoBoundary pre ∧ NoBoundary pre' ∧
      (∀ x, copies pre' x = copies pre x + if obj = x then 1 else 0) ∧
      pre'.length ≤ pre.length + 1 := by
  have happend : ∃ pre post pre', entries = pre ++ post ∧ (⟨obj, 0⟩ :: entries) = pre' ++ post ∧
      NoBoundary pre ∧ NoBoundary pre' ∧
      (∀ x, copies pre' x = copies pre x + if obj = x then 1 else 0) ∧
      pre'.length ≤ pre.length + 1 := by
    refine ⟨[], entries, [⟨obj, 0⟩], rfl, rfl, fun e he => absurd he (by simp), ?_, ?_, le_refl _⟩
    · exact NoBoundary.cons hobj fun e he => absurd he (by simp)
    · intro x
      simp
  unfold addEntry
  rw [if_neg hobj]
  split
  · split
    next found others hsearch =>
      obtain ⟨rfl, pre, post, rfl, rfl, hpre⟩ := lruSearch_inv hok hsearch
      refine ⟨pre ++ [found], post, { found with count := found.count + 1 } :: pre, by simp, rfl,
        noBoundary_append.2 ⟨hpre, NoBoundary.cons hobj fun e he => absurd he (by simp)⟩,
        NoBoundary.cons hobj hpre, ?_, by simp⟩
      intro x
      simp only [copies_cons, copies_append, copies_nil]
      split <;> omega
    · exact happend
  · split
    · match entries, happend with
      | [], happend => exact happend
      | prev :: rest, happend =>
        dsimp only
        split
        next hhit =>
          obtain ⟨rfl, -⟩ := hhit
          refine ⟨[prev], rest, [{ prev with count := prev.count + 1 }], rfl, rfl,
            NoBoundary.cons hobj fun e he => absurd he (by simp),
            NoBoundary.cons hobj fun e he => absurd he (by simp), ?_, by simp⟩
          intro x
          simp only [copies_cons, copies_nil]
          split <;> omega
        · exact happend
    · exact happend

/-! ### Chains -/

/-- The addresses of the pages, from the coldest one on. -/
def Chain.addresses (chain : Chain) : List Address :=
  (chain.parents.reverse ++ chain.hot :: chain.children).map Page.address

/-- Full pages, the hot page, empty pages. -/
structure ChainWf (o : Options) (fresh : Address) (chain : Chain) : Prop where
  parents_full : ∀ page ∈ chain.parents, page.entries.length = o.capacity
  hot_le : chain.hot.entries.length ≤ o.capacity
  children_empty : ∀ page ∈ chain.children, page.entries = []
  nodup : chain.addresses.Nodup
  fresh_gt : ∀ a ∈ chain.addresses, a < fresh

theorem flatMap_entries_of_empty {pages : List Page} (h : ∀ page ∈ pages, page.entries = []) :
    pages.flatMap Page.entries = [] := flatMap_eq_nil_iff.2 h

theorem length_flatMap_full {o : Options} {pages : List Page}
    (h : ∀ page ∈ pages, page.entries.length = o.capacity) :
    (pages.flatMap Page.entries).length = pages.length * o.capacity := by
  induction pages with
  | nil => simp
  | cons page pages ih =>
    rw [flatMap_cons, length_append, h page mem_cons_self,
      ih fun q hq => h q (mem_cons_of_mem page hq), length_cons, add_one_mul]
    omega

section Chain

variable {o : Options} {fresh : Address} {chain : Chain}

theorem ChainWf.entries_eq (h : ChainWf o fresh chain) :
    chain.entries = chain.hot.entries ++ chain.parents.flatMap Page.entries := by
  unfold entries
  rw [flatMap_append, flatMap_entries_of_empty
    (fun page hp => h.children_empty page (mem_reverse.1 hp)), flatMap_cons]
  rfl

theorem ChainWf.length_entries (h : ChainWf o fresh chain) :
    chain.entries.length = chain.parents.length * o.capacity + chain.hot.entries.length := by
  rw [h.entries_eq, length_append, length_flatMap_full h.parents_full, add_comm]

/-- Slot `index` of the page at `page` is the `n`-th one from the bottom. -/
def SlotAt (o : Options) (addresses : List Address) (page : Address) (index n : Nat) : Prop :=
  ∃ m, addresses[m]? = some page ∧ m * o.capacity + index = n ∧ index < o.capacity

theorem Chain.addresses_hot (chain : Chain) :
    chain.addresses[chain.parents.length]? = some chain.hot.address := by
  unfold addresses
  simp

theorem ChainWf.find_eq (h : ChainWf o fresh chain) {page}
    (hp : page ∈ chain.hot :: chain.parents) : chain.find page.address = some page := by
  have hmem : ∀ q, q ∈ chain.hot :: chain.parents ++ chain.children →
      q ∈ chain.parents.reverse ++ chain.hot :: chain.children := by
    intro q hq
    simp only [mem_append, mem_cons, mem_reverse] at hq ⊢
    tauto
  have hin : page ∈ chain.hot :: chain.parents ++ chain.children := mem_append_left _ hp
  unfold find
  cases hfind : (chain.hot :: chain.parents ++ chain.children).find?
      (·.address == page.address) with
  | none => exact absurd (find?_eq_none.1 hfind page hin) (by simp)
  | some q =>
    have haddr : q.address = page.address := by simpa using find?_some hfind
    rw [inj_on_of_nodup_map h.nodup (hmem q (mem_of_find?_eq_some hfind)) (hmem page hin) haddr]

theorem ChainWf.page_at (h : ChainWf o fresh chain) {m a}
    (hm : chain.addresses[m]? = some a) (hle : m ≤ chain.parents.length) :
    ∃ page upper lower, chain.find a = some page ∧ page.address = a ∧
      (m < chain.parents.length → page.entries.length = o.capacity) ∧
      (m = chain.parents.length → page = chain.hot) ∧
      chain.entries = upper ++ page.entries ++ lower ∧ lower.length = m * o.capacity := by
  rcases lt_or_eq_of_le hle with hlt | rfl
  · -- a parent: split the list of parents there
    have hi : chain.parents.length - 1 - m < chain.parents.length := by omega
    obtain ⟨A, page, B, hsplit, hlen⟩ : ∃ A page B, chain.parents = A ++ page :: B ∧
        B.length = m := by
      refine ⟨chain.parents.take (chain.parents.length - 1 - m),
        chain.parents[chain.parents.length - 1 - m],
        chain.parents.drop (chain.parents.length - 1 - m + 1), ?_, ?_⟩
      · rw [← drop_eq_getElem_cons hi, take_append_drop]
      · rw [length_drop]
        omega
    have haddr : page.address = a := by
      unfold addresses at hm
      rw [hsplit, map_append, getElem?_append_left (by simp [← hlen])] at hm
      simpa [← hlen] using hm
    have hin : page ∈ chain.parents := by rw [hsplit]; simp
    refine ⟨page, chain.hot.entries ++ A.flatMap Page.entries, B.flatMap Page.entries,
      ?_, haddr, fun _ => h.parents_full page hin, fun heq => by omega, ?_, ?_⟩
    · rw [← haddr]
      exact h.find_eq (mem_cons_of_mem _ hin)
    · rw [h.entries_eq, hsplit, flatMap_append, flatMap_cons]
      simp only [append_assoc]
    · rw [length_flatMap_full, hlen]
      intro q hq
      apply h.parents_full
      rw [hsplit]
      exact mem_append_right A (mem_cons_of_mem page hq)
  · rw [addresses_hot] at hm
    cases hm
    refine ⟨chain.hot, [], chain.parents.flatMap Page.entries, h.find_eq mem_cons_self, rfl,
      fun hlt => absurd hlt (lt_irrefl _), fun _ => rfl, h.entries_eq,
      length_flatMap_full h.parents_full⟩

theorem ChainWf.depth_le (h : ChainWf o fresh chain) {m n} (hm : m * o.capacity ≤ n)
    (hn : n < chain.entries.length) : m ≤ chain.parents.length := by
  by_contra hlt
  have hmul : (chain.parents.length + 1) * o.capacity ≤ m * o.capacity :=
    mul_le_mul_right _ (by omega)
  have hhot := h.hot_le
  rw [h.length_entries] at hn
  rw [add_one_mul] at hmul
  omega

@[simp] theorem Chain.addresses_setEntries (chain : Chain) (entries) :
    (chain.setEntries entries).addresses = chain.addresses := by
  simp [addresses, setEntries]

variable (h : ChainWf o fresh chain)
include h

theorem ChainWf.setEntries {entries} (hle : entries.length ≤ o.capacity) :
    ChainWf o fresh (chain.setEntries entries) ∧
      (chain.setEntries entries).entries = entries ++ chain.parents.flatMap Page.entries := by
  have hwf : ChainWf o fresh (chain.setEntries entries) := by
    refine ⟨h.parents_full, hle, h.children_empty, ?_, ?_⟩
    · rw [addresses_setEntries]
      exact h.nodup
    · rw [addresses_setEntries]
      exact h.fresh_gt
  exact ⟨hwf, hwf.entries_eq⟩

theorem ChainWf.add_boundary (hroom : chain.hot.full o = false) :
    ∃ chain', chain.add o 0 = .ok chain' ∧ ChainWf o fresh chain' ∧
      chain'.addresses = chain.addresses ∧ chain'.entries = poolBoundary :: chain.entries ∧
      ∃ page index, chain'.top = .slot page index ∧
        SlotAt o chain'.addresses page index chain.entries.length := by
  have hlt : chain.hot.entries.length < o.capacity :=
    lt_of_le_of_ne h.hot_le (by simpa [Page.full] using hroom)
  have hle : (poolBoundary :: chain.hot.entries).length ≤ o.capacity := hlt
  obtain ⟨hwf, hentries⟩ := h.setEntries hle
  refine ⟨_, ?_, hwf, chain.addresses_setEntries _, ?_, chain.hot.address,
    chain.hot.entries.length, rfl, chain.parents.length, ?_, h.length_entries.symm, hlt⟩
  · unfold add
    rw [hroom]
    rfl
  · rw [hentries, h.entries_eq]
    rfl
  · rw [addresses_setEntries]
    exact chain.addresses_hot

theorem ChainWf.add_obj (hroom : chain.hot.full o = false)
    (hok : WordsOk chain.entries) {obj} (hobj : obj ≠ 0) :
    ∃ chain' pre post pre', chain.add o obj = .ok chain' ∧ ChainWf o fresh chain' ∧
      chain'.addresses = chain.addresses ∧ chain.entries = pre ++ post ∧
      chain'.entries = pre' ++ post ∧ NoBoundary pre ∧ NoBoundary pre' ∧
      ∀ x, copies pre' x = copies pre x + if obj = x then 1 else 0 := by
  have hlt : chain.hot.entries.length < o.capacity :=
    lt_of_le_of_ne h.hot_le (by simpa [Page.full] using hroom)
  have hokHot : WordsOk chain.hot.entries := by
    intro e he
    apply hok e
    rw [h.entries_eq]
    exact mem_append_left _ he
  obtain ⟨pre, post, pre', heq, hadd, hpre, hpre', hcopies, hlen⟩ := addEntry_spec hokHot hobj
  have hle : (addEntry o chain.hot.entries obj).length ≤ o.capacity := by
    rw [heq, length_append] at hlt
    rw [hadd, length_append]
    omega
  obtain ⟨hwf, hentries⟩ := h.setEntries hle
  refine ⟨_, pre, post ++ chain.parents.flatMap Page.entries, pre', ?_, hwf,
    chain.addresses_setEntries _, ?_, ?_, hpre, hpre', hcopies⟩
  · unfold add
    rw [hroom]
    rfl
  · rw [h.entries_eq, heq, append_assoc]
  · rw [hentries, hadd, append_assoc]

theorem ChainWf.nextPage (hfull : chain.hot.full o) :
    ∃ chain', nextPage o fresh chain.hot chain.parents chain.children = chain' ∧
      ChainWf o (fresh + 1) chain' ∧ chain'.hot.full o = false ∧
      chain'.entries = chain.entries ∧ chain.addresses <+: chain'.addresses := by
  have hcap := o.two_le_capacity
  have hlen : chain.hot.entries.length = o.capacity := by simpa [Page.full] using hfull
  have hparents : ∀ page ∈ chain.hot :: chain.parents, page.entries.length = o.capacity := by
    intro page hp
    rcases mem_cons.1 hp with rfl | hp
    · exact hlen
    · exact h.parents_full page hp
  have hnotfull : ∀ page : Page, page.entries = [] → page.full o = false := by
    intro page hp
    simp only [Page.full, hp, length_nil, beq_eq_false_iff_ne]
    omega
  cases hchildren : chain.children with
  | nil =>
    have haddr : chain.addresses = (chain.hot :: chain.parents).reverse.map Page.address := by
      unfold addresses
      rw [hchildren, reverse_cons]
    have haddr' : (⟨⟨fresh, []⟩, chain.hot :: chain.parents, []⟩ : Chain).addresses =
        chain.addresses ++ [fresh] := by
      rw [haddr]
      simp [addresses]
    have hwf : ChainWf o (fresh + 1) ⟨⟨fresh, []⟩, chain.hot :: chain.parents, []⟩ := by
      refine ⟨hparents, zero_le _, by simp, ?_, ?_⟩
      · rw [haddr']
        refine List.Nodup.append h.nodup (nodup_singleton fresh) ?_
        intro a ha hf
        rw [mem_singleton] at hf
        exact absurd (h.fresh_gt a ha) (by rw [hf]; exact lt_irrefl _)
      · intro a ha
        rw [haddr'] at ha
        rcases mem_append.1 ha with ha | ha
        · exact lt_succ_of_lt (h.fresh_gt a ha)
        · rw [mem_singleton.1 ha]
          exact lt_succ_self fresh
    refine ⟨⟨⟨fresh, []⟩, chain.hot :: chain.parents, []⟩, rfl, hwf, hnotfull _ rfl, ?_, ?_⟩
    · rw [hwf.entries_eq, h.entries_eq]
      rfl
    · rw [haddr']
      exact prefix_append _ _
  | cons child children =>
    have hempty := h.children_empty child (by rw [hchildren]; exact mem_cons_self)
    have haddr : (⟨child, chain.hot :: chain.parents, children⟩ : Chain).addresses =
        chain.addresses := by
      simp [addresses, hchildren]
    have hwf : ChainWf o (fresh + 1) ⟨child, chain.hot :: chain.parents, children⟩ := by
      refine ⟨hparents, by rw [hempty]; exact zero_le _, ?_, by rw [haddr]; exact h.nodup, ?_⟩
      · intro page hp
        exact h.children_empty page (by rw [hchildren]; exact mem_cons_of_mem child hp)
      · intro a ha
        rw [haddr] at ha
        exact lt_succ_of_lt (h.fresh_gt a ha)
    refine ⟨⟨child, chain.hot :: chain.parents, children⟩, ?_, hwf, hnotfull child hempty, ?_, ?_⟩
    · unfold Autorelease.nextPage
      rw [hnotfull child hempty]
      rfl
    · rw [hwf.entries_eq, h.entries_eq, hempty]
      rfl
    · exact haddr.symm ▸ prefix_rfl

omit h

variable (h : ChainWf o fresh chain)
include h

theorem ChainWf.parent_not_empty {parent} (hp : parent ∈ chain.parents) : parent.empty = false := by
  have hfull := h.parents_full parent hp
  have hcap := o.two_le_capacity
  unfold Page.empty
  rw [hfull, beq_eq_false_iff_ne]
  omega

/-- The inner loop of `releaseUntil`, with an `if` in place of its `while`. -/
def Chain.ifEmpty (chain : Chain) : Except Fault Chain :=
  if chain.hot.empty then
    match chain.parents with
    | [] => .error .nilPage
    | parent :: parents => .ok ⟨parent, parents, chain.hot :: chain.children⟩
  else .ok chain

/-- At most one page has to be skipped, since the pages before the hot one are full. -/
theorem ChainWf.lastNonEmpty_eq :
    lastNonEmpty chain.hot chain.children chain.parents = chain.ifEmpty := by
  unfold Chain.ifEmpty
  cases hparents : chain.parents with
  | nil =>
    rw [lastNonEmpty]
    simp [← hparents]
  | cons parent parents =>
    have hnot := h.parent_not_empty (hparents ▸ mem_cons_self)
    rw [lastNonEmpty]
    split
    · cases parents <;> simp [lastNonEmpty, hnot]
    · rw [← hparents]

theorem ChainWf.takeEntry {entry entries} (he : chain.entries = entry :: entries) :
    ∃ chain', chain.takeEntry = .ok (chain', entry) ∧ ChainWf o fresh chain' ∧
      chain'.addresses = chain.addresses ∧ chain'.entries = entries ∧
      chain'.hot.entries.length < o.capacity := by
  -- a chain whose hot page has the entry on top
  have hpop : ∀ c, ChainWf o fresh c → c.addresses = chain.addresses →
      c.entries = entry :: entries → c.hot.empty = false → chain.ifEmpty = .ok c →
      ∃ chain', chain.takeEntry = .ok (chain', entry) ∧ ChainWf o fresh chain' ∧
        chain'.addresses = chain.addresses ∧ chain'.entries = entries ∧
        chain'.hot.entries.length < o.capacity := by
    intro c hc haddr hce hne hlast
    cases hhot : c.hot.entries with
    | nil => simp [Page.empty, hhot] at hne
    | cons e es =>
      rw [hc.entries_eq, hhot, cons_append] at hce
      obtain ⟨rfl, hes⟩ := cons.inj hce
      have hlt : es.length < o.capacity := by
        have := hc.hot_le
        rw [hhot, length_cons] at this
        omega
      obtain ⟨hwf, hentries⟩ := hc.setEntries hlt.le
      refine ⟨_, ?_, hwf, (c.addresses_setEntries es).trans haddr, hentries.trans hes, hlt⟩
      unfold Chain.takeEntry
      rw [h.lastNonEmpty_eq, hlast]
      simp only [bind, Except.bind, hhot]
  cases hempty : chain.hot.empty with
  | false => exact hpop chain h rfl he hempty (by simp [Chain.ifEmpty, hempty])
  | true =>
    have hhot : chain.hot.entries = [] := by simpa [Page.empty] using hempty
    cases hparents : chain.parents with
    | nil =>
      rw [h.entries_eq, hhot, hparents] at he
      cases he
    | cons parent parents =>
      have hp : parent ∈ chain.parents := hparents ▸ mem_cons_self
      have haddr : (⟨parent, parents, chain.hot :: chain.children⟩ : Chain).addresses =
          chain.addresses := by
        simp [addresses, hparents]
      have hwf : ChainWf o fresh ⟨parent, parents, chain.hot :: chain.children⟩ := by
        refine ⟨?_, (h.parents_full parent hp).le, ?_, by rw [haddr]; exact h.nodup,
          by rw [haddr]; exact h.fresh_gt⟩
        · intro page hp
          exact h.parents_full page (by rw [hparents]; exact mem_cons_of_mem parent hp)
        · intro page hp
          rcases mem_cons.1 hp with rfl | hp
          · exact hhot
          · exact h.children_empty page hp
      refine hpop ⟨parent, parents, chain.hot :: chain.children⟩ hwf haddr ?_
        (h.parent_not_empty hp) (by simp [Chain.ifEmpty, hempty, hparents])
      rw [hwf.entries_eq, ← he, h.entries_eq, hhot, hparents]
      rfl

theorem ChainWf.killChildren :
    ChainWf o fresh (chain.killChildren o) ∧ (chain.killChildren o).entries = chain.entries ∧
      ∀ m ≤ chain.parents.length, (chain.killChildren o).addresses[m]? = chain.addresses[m]? := by
  have hsub : (chain.killChildren o).children <+: chain.children := by
    unfold Chain.killChildren
    split
    · exact nil_prefix
    · exact take_prefix 1 chain.children
  have haddr : (chain.killChildren o).addresses <+: chain.addresses := by
    apply List.IsPrefix.map
    exact (prefix_append_right_inj _).2 ((prefix_cons_inj _).2 hsub)
  have hwf : ChainWf o fresh (chain.killChildren o) :=
    ⟨h.parents_full, h.hot_le, fun page hp => h.children_empty page (hsub.subset hp),
      h.nodup.sublist haddr.sublist, fun a ha => h.fresh_gt a (haddr.subset ha)⟩
  refine ⟨hwf, by rw [hwf.entries_eq, h.entries_eq]; rfl, fun m hm => ?_⟩
  have hlt : m < (chain.killChildren o).addresses.length := by
    unfold addresses
    simp only [length_map, length_append, length_reverse, length_cons]
    show m < chain.parents.length + _
    omega
  obtain ⟨killed, hkilled⟩ := haddr
  rw [← hkilled, getElem?_append_left hlt]

omit h

end Chain

/-! ### The stack of pools -/

/-- Where a token points. -/
def TokenAt (o : Options) (addresses : List Address) (token : Token) (below : List Entry) : Prop :=
  match token with
  | .placeholder => below = []
  | .slot page index => SlotAt o addresses page index below.length

/-- The entries are what the open pools say. For a pool that is being popped,
what was sent, is owed and is still there make up what was autoreleased. -/
def Fits (o : Options) (addresses : List Address) : List Item → List Entry → Prop
  | [], entries => NoBoundary entries
  | .pool p :: rest, entries =>
    (∃ own, entries = own ++ poolBoundary :: p.below ∧ NoBoundary own ∧
      ∀ x, copies own x = p.made x) ∧
    TokenAt o addresses p.token p.below ∧ clientRuns rest = true ∧ Fits o addresses rest p.below
  | .call c :: .pool p :: rest, entries =>
    (∃ own, entries = own ++ poolBoundary :: p.below ∧ NoBoundary own ∧
      ∀ x, c.sent x + (if c.obj = x then c.left else 0) + copies own x = p.made x) ∧
    SlotAt o addresses c.page c.stop p.below.length ∧ clientRuns rest = true ∧
    Fits o addresses rest p.below
  | .call _ :: _, _ => False

/-- A `releaseUntil` that has just taken off the boundary of its pool. -/
structure Closing (o : Options) (chain : Chain) (c : Call) (p : Pool) (rest : List Item) :
    Prop where
  entries : chain.entries = p.below
  left : c.left = 0
  running : c.running = false
  sent : c.sent = p.made
  stop : SlotAt o chain.addresses c.page c.stop p.below.length
  room : chain.hot.entries.length < o.capacity
  client : clientRuns rest = true
  fits : Fits o chain.addresses rest p.below

/-- The invariant of the machine. -/
def Inv (o : Options) (s : State) : Prop :=
  match s.thread.tls with
  | .null => s.stack = []
  | .placeholder => ∃ p, s.stack = [.pool p] ∧ p.token = .placeholder ∧ p.below = [] ∧
      p.made = fun _ => 0
  | .page chain => ChainWf o s.thread.fresh chain ∧
      (Fits o chain.addresses s.stack chain.entries ∨
        ∃ c p rest, s.stack = .call c :: .pool p :: rest ∧ Closing o chain c p rest)

section Fits

variable {o : Options} {addresses : List Address}

theorem Fits.wordsOk {stack entries} (h : Fits o addresses stack entries) : WordsOk entries := by
  have hown : ∀ {own below}, NoBoundary own → WordsOk below →
      WordsOk (own ++ poolBoundary :: below) := by
    intro own below h1 h2 e he h0
    rcases mem_append.1 he with he | he
    · exact absurd h0 (h1 e he)
    · rcases mem_cons.1 he with rfl | he
      · rfl
      · exact h2 e he h0
  induction stack, entries using Fits.induct with
  | case1 entries => exact fun e he h0 => absurd h0 (h e he)
  | case2 p rest entries ih | case3 c p rest entries ih =>
    obtain ⟨⟨own, rfl, hno, -⟩, -, -, hrest⟩ := h
    exact hown hno (ih hrest)
  | case4 c rest entries => simp [Fits] at h

theorem SlotAt.mono {addresses' page index n N} (h : SlotAt o addresses page index n) (hn : n < N)
    (hkeep : ∀ m a, addresses[m]? = some a → m * o.capacity < N → addresses'[m]? = some a) :
    SlotAt o addresses' page index n := by
  obtain ⟨m, hm, heq, hlt⟩ := h
  exact ⟨m, hkeep m page hm (by omega), heq, hlt⟩

theorem Fits.mono {addresses' stack entries} (h : Fits o addresses stack entries)
    (hkeep : ∀ m a, addresses[m]? = some a → m * o.capacity < entries.length →
      addresses'[m]? = some a) : Fits o addresses' stack entries := by
  induction stack, entries using Fits.induct with
  | case1 entries => exact h
  | case2 p rest entries ih =>
    obtain ⟨⟨own, rfl, hno, hcopies⟩, htok, hclient, hrest⟩ := h
    have hlt : p.below.length < (own ++ poolBoundary :: p.below).length := by
      rw [length_append, length_cons]
      omega
    refine ⟨⟨own, rfl, hno, hcopies⟩, ?_, hclient,
      ih hrest fun m a hm hlt' => hkeep m a hm (hlt'.trans hlt)⟩
    unfold TokenAt at htok ⊢
    split
    next heq =>
      rw [heq] at htok
      exact htok
    next heq =>
      rw [heq] at htok
      exact SlotAt.mono htok hlt hkeep
  | case3 c p rest entries ih =>
    obtain ⟨⟨own, rfl, hno, hcopies⟩, hslot, hclient, hrest⟩ := h
    have hlt : p.below.length < (own ++ poolBoundary :: p.below).length := by
      rw [length_append, length_cons]
      omega
    exact ⟨⟨own, rfl, hno, hcopies⟩, SlotAt.mono hslot hlt hkeep, hclient,
      ih hrest fun m a hm hlt' => hkeep m a hm (hlt'.trans hlt)⟩
  | case4 c rest entries => simp [Fits] at h

/-- A prefix without a boundary lies above the first boundary. -/
theorem noBoundary_prefix {pre post own below} (hpre : NoBoundary pre)
    (h : pre ++ post = own ++ poolBoundary :: below) :
    ∃ own', own = pre ++ own' ∧ post = own' ++ poolBoundary :: below := by
  rcases append_eq_append_iff.1 h with ⟨own', hown, hpost⟩ | ⟨tail, hown, hpost⟩
  · exact ⟨own', hown, hpost⟩
  · cases tail with
    | nil => exact ⟨[], by simpa using hown.symm, hpost.symm⟩
    | cons e tail =>
      -- the boundary would lie inside `pre`
      obtain ⟨rfl, -⟩ := cons.inj hpost
      exact absurd rfl (hpre poolBoundary (by rw [hown]; simp))

theorem Fits.credit {stack pre post pre' obj}
    (h : Fits o addresses stack (pre ++ post)) (hpre : NoBoundary pre) (hpre' : NoBoundary pre')
    (hcopies : ∀ x, copies pre' x = copies pre x + if obj = x then 1 else 0) :
    Fits o addresses (credit obj stack) (pre' ++ post) := by
  match stack with
  | [] => exact noBoundary_append.2 ⟨hpre', (noBoundary_append.1 h).2⟩
  | .pool p :: rest | .call c :: .pool p :: rest =>
    obtain ⟨⟨own, heq, hno, hown⟩, hslot, hclient, hrest⟩ := h
    obtain ⟨own', rfl, rfl⟩ := noBoundary_prefix hpre heq
    refine ⟨⟨pre' ++ own', (append_assoc _ _ _).symm,
      noBoundary_append.2 ⟨hpre', (noBoundary_append.1 hno).2⟩, fun x => ?_⟩, hslot, hclient, hrest⟩
    dsimp only
    rw [update_succ_apply, ← hown x, copies_append, copies_append, hcopies x]
    omega
  | [.call _] | .call _ :: .call _ :: _ => simp [Fits] at h

end Fits

end ObjcRuntime.Autorelease
