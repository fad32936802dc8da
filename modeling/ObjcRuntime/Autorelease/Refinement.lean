import ObjcRuntime.Autorelease.Sound

/-!
# ObjcRuntime.Autorelease.Refinement

Every step of the machine keeps the invariant, and no step faults.

From this follows what a pool is for: a `pop` that completes has sent every
object the releases that were autoreleased into its pool, and leaves the entries
that were below its token. It completes unless the code it calls keeps it busy:
`State.work` shrinks in every step the client does not ask for.
-/

namespace ObjcRuntime.Autorelease

open List Nat Chain

section Steps

variable {o : Options} {t : Thread} {stack : List Item} {chain : Chain} {fresh : Address}

/-- While the client runs no `pop` is about to complete. -/
theorem Inv.fits (h : Inv o ⟨⟨.page chain, fresh⟩, stack⟩) (hc : clientRuns stack) :
    ChainWf o fresh chain ∧ Fits o chain.addresses stack chain.entries := by
  obtain ⟨hwf, hfits | ⟨c, p, rest, heq, hclosing⟩⟩ := h
  · exact ⟨hwf, hfits⟩
  · have heq' : stack = .call c :: .pool p :: rest := heq
    rw [heq'] at hc
    exact absurd (hclosing.running ▸ hc : false) (by simp)

/-! ### Pushing and autoreleasing -/

theorem push_chain (h : ChainWf o fresh chain) (hf : Fits o chain.addresses stack chain.entries)
    (hc : clientRuns stack) (hroom : chain.hot.full o = false) :
    ∃ chain', chain.add o 0 = .ok chain' ∧
      Inv o ⟨⟨.page chain', fresh⟩,
        .pool ⟨chain'.top, chain'.entries.tail, fun _ => 0⟩ :: stack⟩ := by
  obtain ⟨chain', hadd, hwf, haddr, hentries, page, index, htop, hslot⟩ := h.add_boundary hroom
  refine ⟨chain', hadd, hwf, .inl ⟨⟨[], ?_, fun e he => absurd he (by simp), fun x => rfl⟩,
    ?_, hc, ?_⟩⟩
  · rw [hentries]
    rfl
  · rw [hentries, htop]
    exact hslot
  · rw [hentries, haddr]
    exact hf

theorem autorelease_chain (h : ChainWf o fresh chain)
    (hf : Fits o chain.addresses stack chain.entries) (hroom : chain.hot.full o = false) {obj}
    (hobj : obj ≠ 0) :
    ∃ chain', chain.add o obj = .ok chain' ∧
      Inv o ⟨⟨.page chain', fresh⟩, credit obj stack⟩ := by
  obtain ⟨chain', pre, post, pre', hadd, hwf, haddr, heq, heq', hpre, hpre', hcopies⟩ :=
    h.add_obj hroom hf.wordsOk hobj
  refine ⟨chain', hadd, hwf, .inl ?_⟩
  rw [heq] at hf
  rw [haddr, heq']
  exact hf.credit hpre hpre' hcopies

/-- The first page, for a pool that was only a placeholder. -/
theorem firstPage_boundary (fresh) {p} (htok : p.token = .placeholder)
    (hbelow : p.below = []) (hmade : p.made = fun _ => 0) :
    ∃ chain, (⟨⟨fresh, []⟩, [], []⟩ : Chain).add o 0 = .ok chain ∧
      ChainWf o (fresh + 1) chain ∧ Fits o chain.addresses [.pool p] chain.entries ∧
      chain.hot.full o = false := by
  have hcap := o.two_le_capacity
  refine ⟨⟨⟨fresh, [poolBoundary]⟩, [], []⟩, ?_, ?_, ⟨⟨[], ?_, ?_, ?_⟩, ?_, rfl, ?_⟩, ?_⟩
  · unfold add
    rw [if_neg (by simp [Page.full]; omega)]
    rfl
  · refine ⟨by simp, by simp; omega, by simp, by simp [addresses], ?_⟩
    intro a ha
    have : a = fresh := by simpa [addresses] using ha
    rw [this]
    exact lt_succ_self fresh
  · rw [hbelow]
    rfl
  · exact fun e he => absurd he (by simp)
  · intro x
    rw [hmade]
    rfl
  · rw [htok]
    exact hbelow
  · rw [hbelow]
    exact fun e he => absurd he (by simp)
  · simp only [Page.full, length_cons, length_nil, beq_eq_false_iff_ne]
    omega

theorem nextPage_fits (h : ChainWf o fresh chain)
    (hf : Fits o chain.addresses stack chain.entries) (hfull : chain.hot.full o) :
    ∃ chain', nextPage o fresh chain.hot chain.parents chain.children = chain' ∧
      ChainWf o (fresh + 1) chain' ∧ Fits o chain'.addresses stack chain'.entries ∧
      chain'.hot.full o = false := by
  obtain ⟨chain', hnext, hwf, hroom, hentries, haddr⟩ := h.nextPage hfull
  refine ⟨chain', hnext, hwf, ?_, hroom⟩
  rw [hentries]
  apply hf.mono
  intro m a hm _
  obtain ⟨new, hnew⟩ := haddr
  obtain ⟨hlt, -⟩ := List.getElem?_eq_some_iff.1 hm
  rw [← hnew, getElem?_append_left hlt]
  exact hm

variable (h : Inv o ⟨t, stack⟩) (hc : clientRuns stack)
include h hc

theorem Inv.room (hnull : t.tls ≠ .null) (obj : Obj) :
    ∃ chain fresh, ChainWf o fresh chain ∧ Fits o chain.addresses stack chain.entries ∧
      chain.hot.full o = false ∧ ∀ chain', chain.add o obj = .ok chain' →
        autoreleaseFast o t obj = .ok (⟨.page chain', fresh⟩, chain'.top) := by
  obtain ⟨tls, fresh⟩ := t
  unfold autoreleaseFast
  cases tls with
  | null => exact absurd rfl hnull
  | placeholder =>
    obtain ⟨p, hstack, htok, hbelow, hmade⟩ := h
    have hstack' : stack = [.pool p] := hstack
    subst hstack'
    obtain ⟨chain, hadd, hwf, hfits, hroom⟩ := firstPage_boundary fresh htok hbelow hmade
    refine ⟨chain, fresh + 1, hwf, hfits, hroom, fun chain' hadd' => ?_⟩
    simp only [autoreleaseNoPage, hadd, hadd', bind, Except.bind]
  | page chain =>
    obtain ⟨hwf, hfits⟩ := h.fits hc
    cases hfull : chain.hot.full o with
    | false =>
      refine ⟨chain, fresh, hwf, hfits, hfull, fun chain' hadd => ?_⟩
      simp only [hfull, hadd, bind, Except.bind, Bool.not_false, if_true]
    | true =>
      obtain ⟨chain1, hnext, hwf1, hfits1, hroom⟩ := nextPage_fits hwf hfits hfull
      refine ⟨chain1, fresh + 1, hwf1, hfits1, hroom, fun chain' hadd => ?_⟩
      simp only [hfull, hnext, hadd, bind, Except.bind, Bool.not_true, Bool.false_eq_true, if_false]

theorem push_inv :
    ∃ t' token, push o t = .ok (t', token) ∧
      Inv o ⟨t', .pool ⟨token, t'.entries.tail, fun _ => 0⟩ :: stack⟩ := by
  by_cases hnull : t.tls = .null
  · obtain ⟨tls, fresh⟩ := t
    subst hnull
    have hnil : stack = [] := h
    subst hnil
    exact ⟨⟨.placeholder, fresh⟩, .placeholder, rfl, _, rfl, rfl, rfl, rfl⟩
  · obtain ⟨chain, fresh, hwf, hfits, hroom, hrun⟩ := h.room hc hnull 0
    obtain ⟨chain', hadd, hinv⟩ := push_chain hwf hfits hc hroom
    exact ⟨_, _, hrun chain' hadd, hinv⟩

theorem autorelease_inv {obj} (hobj : obj ≠ 0) :
    ∃ t' token, autoreleaseFast o t obj = .ok (t', token) ∧
      Inv o ⟨t', credit obj stack⟩ := by
  by_cases hnull : t.tls = .null
  · obtain ⟨tls, fresh⟩ := t
    subst hnull
    unfold autoreleaseFast
    have hnil : stack = [] := h
    subst hnil
    have hcap := o.two_le_capacity
    -- an object with no pool in place gets the first page all the same
    have hwf : ChainWf o (fresh + 1) ⟨⟨fresh, []⟩, [], []⟩ := by
      refine ⟨by simp, by simp, by simp, by simp [addresses], ?_⟩
      intro a ha
      have : a = fresh := by simpa [addresses] using ha
      rw [this]
      exact lt_succ_self fresh
    have hfits : Fits o [fresh] [] (⟨⟨fresh, []⟩, [], []⟩ : Chain).entries :=
      fun e he => absurd he (by simp [entries])
    obtain ⟨chain', hadd, hinv⟩ := autorelease_chain hwf hfits
      (by simp only [Page.full, length_nil, beq_eq_false_iff_ne]; omega) hobj
    refine ⟨⟨.page chain', fresh + 1⟩, chain'.top, ?_, hinv⟩
    simp only [autoreleaseNoPage, hadd, bind, Except.bind, hobj, if_false]
  · obtain ⟨chain, fresh, hwf, hfits, hroom, hrun⟩ := h.room hc hnull obj
    obtain ⟨chain', hadd, hinv⟩ := autorelease_chain hwf hfits hroom hobj
    exact ⟨_, _, hrun chain' hadd, hinv⟩

omit h hc

/-! ### Popping -/

theorem ChainWf.slot_boundary (h : ChainWf o fresh chain) {own below}
    (hentries : chain.entries = own ++ poolBoundary :: below) {page index}
    (hslot : SlotAt o chain.addresses page index below.length) :
    ∃ q, chain.find page = some q ∧ q.address = page ∧ q.slot index = some poolBoundary ∧
      q.entries.length ≠ index := by
  obtain ⟨m, hm, hpos, hlt⟩ := hslot
  have hn : below.length < chain.entries.length := by
    rw [hentries, length_append, length_cons]
    omega
  have hle : m ≤ chain.parents.length := h.depth_le (by omega) hn
  obtain ⟨q, upper, lower, hfind, haddr, hfull, hhot, hsplit, hlower⟩ := h.page_at hm hle
  have hindex : index < q.entries.length := by
    rcases lt_or_eq_of_le hle with hlt' | heq
    · rw [hfull hlt']
      exact hlt
    · rw [hhot heq]
      have := h.length_entries
      rw [← heq] at this
      omega
  refine ⟨q, hfind, haddr, ?_, by omega⟩
  -- both are the entry with `below.length` entries below it
  have hboundary : chain.entries.reverse[below.length]? = some poolBoundary := by
    rw [hentries, reverse_append, reverse_cons, append_assoc, getElem?_append_right (by simp)]
    simp
  rw [← hboundary, hsplit, reverse_append, reverse_append, ← hpos, ← hlower,
    getElem?_append_right (by simp), length_reverse, Nat.add_sub_cancel_left,
    getElem?_append_left (by simpa using hindex)]
  rfl

theorem ChainWf.coldPage_slot (h : ChainWf o fresh chain) :
    SlotAt o chain.addresses chain.coldPage.address 0 0 ∧
      chain.find chain.coldPage.address = some chain.coldPage := by
  have hcap := o.two_le_capacity
  unfold coldPage
  cases hlast : chain.parents.getLast? with
  | none =>
    rw [getLast?_eq_none_iff] at hlast
    refine ⟨⟨0, ?_, by simp, by omega⟩, h.find_eq mem_cons_self⟩
    have := chain.addresses_hot
    rw [hlast] at this
    exact this
  | some page =>
    refine ⟨⟨0, ?_, by simp, by omega⟩, h.find_eq (mem_cons_of_mem _ (mem_of_getLast? hlast))⟩
    have hhead : chain.parents.reverse.head? = some page := by
      rw [head?_reverse, hlast]
    unfold addresses
    cases hrev : chain.parents.reverse with
    | nil =>
      rw [hrev] at hhead
      cases hhead
    | cons p ps =>
      rw [hrev] at hhead
      cases hhead
      rfl

theorem pop_inv {p rest} (h : Inv o ⟨t, .pool p :: rest⟩) :
    (∃ t', pop t p.token = .ok (.done t') ∧ Inv o ⟨t', rest⟩ ∧ p.made = (fun _ => 0) ∧
      t'.entries = p.below) ∨ (∃ page stop, pop t p.token = .ok (.releaseUntil page stop) ∧
      Inv o ⟨t, .call ⟨page, stop, 0, 0, false, fun _ => 0⟩ :: .pool p :: rest⟩) := by
  obtain ⟨tls, fresh⟩ := t
  cases tls with
  | null =>
    have hnil : Item.pool p :: rest = [] := h
    exact absurd hnil (cons_ne_nil _ _)
  | placeholder =>
    obtain ⟨q, hstack, htok, hbelow, hmade⟩ := h
    obtain ⟨hpq, rfl⟩ := cons.inj hstack
    obtain rfl := Item.pool.inj hpq
    refine .inl ⟨⟨.null, fresh⟩, ?_, rfl, hmade, hbelow.symm⟩
    rw [htok]
    rfl
  | page chain =>
    obtain ⟨hwf, hfits⟩ := h.fits rfl
    obtain ⟨⟨own, hentries, hno, hcopies⟩, htok, hclient, hrest⟩ := hfits
    -- whatever the token, it leads to the slot of the boundary
    have hgo : ∀ {page index}, SlotAt o chain.addresses page index p.below.length →
        Inv o ⟨⟨.page chain, fresh⟩,
          .call ⟨page, index, 0, 0, false, fun _ => 0⟩ :: .pool p :: rest⟩ := by
      intro page index hslot
      refine ⟨hwf, .inl ⟨⟨own, hentries, hno, fun x => ?_⟩, hslot, hclient, hrest⟩⟩
      rw [hcopies x]
      simp
    have hcheck : ∀ {q} {index}, q.slot index = some poolBoundary →
        pop.checkStop chain q index = .ok (.releaseUntil q.address index) := by
      intro q index hq
      unfold pop.checkStop
      rw [if_neg fun hbad => hbad.1 hq]
    right
    cases htoken : p.token with
    | placeholder =>
      rw [htoken] at htok
      obtain ⟨hcold, hfindCold⟩ := hwf.coldPage_slot
      have hslot : SlotAt o chain.addresses chain.coldPage.address 0 p.below.length := by
        rw [show p.below = [] from htok]
        exact hcold
      obtain ⟨q, hfind, haddr, hq, -⟩ := hwf.slot_boundary hentries hslot
      rw [hfindCold] at hfind
      cases hfind
      exact ⟨_, _, hcheck hq, hgo hslot⟩
    | slot page index =>
      rw [htoken] at htok
      obtain ⟨q, hfind, haddr, hq, -⟩ := hwf.slot_boundary hentries htok
      refine ⟨page, index, ?_, hgo htok⟩
      have hstop := hcheck hq
      rw [haddr] at hstop
      simp only [pop, hfind, hstop]

/-! ### Releasing -/

/-- What the runtime still has to do by itself. -/
def Item.work : Item → Nat
  | .pool _ => 0
  | .call c => 2 * c.left + c.running.toNat + 1

def State.work (s : State) : Nat :=
  (s.thread.entries.map fun e => 2 * (e.count + 1) + 1).sum + (s.stack.map Item.work).sum

/-- A step of `releaseUntil` keeps the invariant. If it completes the `pop`, the
releases it has sent are those that were asked for. -/
theorem releaseUntil_inv {c items} (h : Inv o ⟨t, .call c :: items⟩) (hrun : c.running = false) :
    ∃ s' ev, releaseUntil o t c items = .ok (s', ev) ∧ Inv o s' ∧
      s'.work < (⟨t, .call c :: items⟩ : State).work ∧
      ∀ sent, ev = some sent → ∃ p, items = .pool p :: s'.stack ∧ sent = p.made ∧
        s'.thread.entries = p.below := by
  obtain ⟨tls, fresh⟩ := t
  cases tls with
  | null =>
    have hnil : Item.call c :: items = [] := h
    exact absurd hnil (cons_ne_nil _ _)
  | placeholder =>
    obtain ⟨q, hstack, -⟩ := h
    exact absurd (cons.inj hstack).1 (by simp)
  | page chain =>
    obtain ⟨hwf, hfits | ⟨c', p, rest, hstack, hclosing⟩⟩ := h
    · match items with
      | [] | .call _ :: _ => simp [Fits] at hfits
      | .pool p :: rest =>
        obtain ⟨⟨own, hentries, hno, hcount⟩, hslot, hclient, hrest⟩ := hfits
        have hentries' : chain.entries = own ++ poolBoundary :: p.below := hentries
        unfold releaseUntil
        by_cases hleft : 0 < c.left
        · -- send one of the releases that are owed
          rw [if_pos hleft]
          refine ⟨_, _, rfl, ⟨hwf, .inl ⟨⟨own, hentries, hno, fun x => ?_⟩, hslot, hclient,
            hrest⟩⟩, ?_, by simp⟩
          · have := hcount x
            dsimp only
            rw [update_succ_apply]
            by_cases hx : c.obj = x
            · rw [if_pos hx] at this ⊢
              rw [if_pos hx]
              omega
            · rw [if_neg hx] at this ⊢
              rw [if_neg hx]
              omega
          · simp only [State.work, Thread.entries, map_cons, sum_cons, Item.work, hrun,
              Bool.toNat_true, Bool.toNat_false]
            omega
        · rw [if_neg hleft]
          obtain ⟨q, hfind, -, -, hne⟩ := hwf.slot_boundary hentries' hslot
          have hzero : ∀ x, c.sent x + copies own x = p.made x := by
            intro x
            have := hcount x
            split at this <;> omega
          cases own with
          | nil =>
            -- the boundary of the pool is next
            obtain ⟨chain', htake, hwf', haddr, hent, hroom⟩ := hwf.takeEntry hentries'
            refine ⟨⟨⟨.page chain', fresh⟩, .call c :: .pool p :: rest⟩, none, ?_, ⟨hwf', .inr
              ⟨c, p, rest, rfl, hent, by omega, hrun, ?_, by rw [haddr]; exact hslot, hroom,
                hclient, by rw [haddr]; exact hrest⟩⟩, ?_, by simp⟩
            · simp only [hfind, hne, htake, bind, Except.bind, poolBoundary, if_false, ne_eq,
                not_true]
            · funext x
              rw [← hzero x, copies_nil, add_zero]
            · simp only [State.work, Thread.entries, hent, hentries', nil_append,
                map_cons, sum_cons]
              omega
          | cons e own =>
            have hcons : chain.entries = e :: (own ++ poolBoundary :: p.below) := hentries'
            obtain ⟨chain', htake, hwf', haddr, hent, -⟩ := hwf.takeEntry hcons
            have he : e.ptr ≠ 0 := hno e mem_cons_self
            refine ⟨⟨⟨.page chain', fresh⟩,
              .call { c with obj := e.ptr, left := e.count + 1 } :: .pool p :: rest⟩, none, ?_,
              ⟨hwf', .inl ⟨⟨own, hent, fun f hf => hno f (mem_cons_of_mem e hf), ?_⟩,
                by rw [haddr]; exact hslot, hclient, by rw [haddr]; exact hrest⟩⟩, ?_,
              by simp⟩
            · simp only [hfind, hne, htake, bind, Except.bind, if_false, ne_eq, he,
                not_false_eq_true, if_true]
            · intro x
              rw [← hzero x, copies_cons]
              dsimp only
              omega
            · simp only [State.work, Thread.entries, hent, hcons, map_cons,
                sum_cons, Item.work, hrun, Bool.toNat_false]
              omega
    · -- the boundary is gone: finish
      obtain ⟨hcc, hitems⟩ := cons.inj hstack
      obtain rfl := Item.call.inj hcc
      subst hitems
      obtain ⟨hentries, hleft, -, hsent, ⟨m, hm, hpos, hlt⟩, hroom, hclient, hrest⟩ := hclosing
      have hlen := hwf.length_entries
      rw [hentries] at hlen
      have hdepth : m = chain.parents.length := by
        apply le_antisymm
        · by_contra hgt
          have := mul_le_mul_right o.capacity (show chain.parents.length + 1 ≤ m by omega)
          rw [add_one_mul] at this
          omega
        · by_contra hgt
          have := mul_le_mul_right o.capacity (show m + 1 ≤ chain.parents.length by omega)
          rw [add_one_mul] at this
          omega
      subst hdepth
      rw [chain.addresses_hot] at hm
      have haddr : chain.hot.address = c.page := Option.some.inj hm
      have hset : chain.setHotPage c.page = some chain := by
        unfold setHotPage setHotParent
        cases hp : chain.parents <;> simp [haddr, ← hp]
      have hfind : chain.find c.page = some chain.hot := by
        rw [← haddr]
        exact hwf.find_eq mem_cons_self
      obtain ⟨hwf', hent', hkeep⟩ := hwf.killChildren
      refine ⟨⟨⟨.page (chain.killChildren o), fresh⟩, rest⟩, some c.sent, ?_, ⟨hwf', .inl ?_⟩, ?_,
        ?_⟩
      · unfold releaseUntil
        rw [if_neg (by omega)]
        simp only [hfind, hset, tail_cons]
        rw [if_pos (by omega)]
      · rw [hent', hentries]
        apply hrest.mono
        intro m a hm hlt'
        rw [hkeep m, hm]
        exact hwf.depth_le (le_refl _) (by rw [hentries]; exact hlt')
      · simp only [State.work, Thread.entries, hent', map_cons, sum_cons, Item.work]
        omega
      · rintro sent hs
        cases hs
        exact ⟨p, rfl, hsent, hent'.trans hentries⟩

end Steps

/-! ### Whole runs -/

variable {o : Options} {s : State}

/-- The client code of a call returns; the call goes on draining its pool. -/
theorem ret_inv {c} (hwf : ChainWf o fresh chain)
    (hfits : Fits o chain.addresses (.call c :: stack) chain.entries) :
    Inv o ⟨⟨.page chain, fresh⟩, .call { c with running := false } :: stack⟩ := by
  cases stack with
  | nil => simp [Fits] at hfits
  | cons item rest =>
    cases item with
    | call c => simp [Fits] at hfits
    | pool p => exact ⟨hwf, .inl hfits⟩

/-- Every possible step succeeds and keeps the invariant; the steps of the runtime
get it closer to the end; and a completed `pop` has done its work. -/
theorem step_inv (h : Inv o s) {act r} (hstep : step o s act = some r) :
    ∃ s' ev, r = .ok (s', ev) ∧ Inv o s' ∧ (act = .ret ∨ act = .tick → s'.work < s.work) ∧
      ∀ sent, ev = some sent → ∃ p, (s.stack = .pool p :: s'.stack ∨
          ∃ c, s.stack = .call c :: .pool p :: s'.stack) ∧ sent = p.made ∧
        s'.thread.entries = p.below := by
  obtain ⟨t, stack⟩ := s
  cases act with
  | push =>
    simp only [step] at hstep
    split at hstep
    next hc =>
      obtain ⟨t', token, hpush, hinv⟩ := push_inv h hc
      cases hstep
      refine ⟨_, none, ?_, hinv, by simp, by simp⟩
      simp only [hpush, bind, Except.bind]
    · cases hstep
  | autorelease obj =>
    simp only [step] at hstep
    split at hstep
    next hc =>
      obtain ⟨hc, hobj⟩ := Bool.and_eq_true_iff.1 hc
      obtain ⟨t', token, hadd, hinv⟩ := autorelease_inv h hc (of_decide_eq_true hobj)
      cases hstep
      refine ⟨_, none, ?_, hinv, by simp, by simp⟩
      simp only [hadd, bind, Except.bind]
    · cases hstep
  | pop =>
    cases stack with
    | nil => simp [step] at hstep
    | cons item rest =>
      cases item with
      | call c => simp [step] at hstep
      | pool p =>
        cases hstep
        rcases pop_inv h with ⟨t', hpop, hinv, hmade, hbelow⟩ | ⟨page, stop, hpop, hinv⟩
        · refine ⟨⟨t', rest⟩, some fun _ => 0, ?_, hinv, by simp, ?_⟩
          · simp only [hpop, bind, Except.bind]
          · intro sent hs
            cases hs
            exact ⟨p, .inl rfl, hmade.symm, hbelow⟩
        · refine ⟨_, none, ?_, hinv, by simp, by simp⟩
          simp only [hpop, bind, Except.bind]
  | ret =>
    cases stack with
    | nil => simp [step] at hstep
    | cons item rest =>
      cases item with
      | pool p => simp [step] at hstep
      | call c =>
        simp only [step] at hstep
        split at hstep
        next hrun =>
          cases hstep
          refine ⟨_, none, rfl, ?_, fun _ => ?_, by simp⟩
          · obtain ⟨tls, fresh⟩ := t
            cases tls with
            | null => exact absurd h (cons_ne_nil _ _)
            | placeholder =>
              obtain ⟨q, hstack, -⟩ := h
              exact absurd (cons.inj hstack).1 (by simp)
            | page chain =>
              obtain ⟨hwf, hfits⟩ := h.fits hrun
              exact ret_inv hwf hfits
          · simp only [State.work, map_cons, sum_cons, Item.work, hrun,
              Bool.toNat_true, Bool.toNat_false]
            omega
        · cases hstep
  | tick =>
    cases stack with
    | nil => simp [step] at hstep
    | cons item rest =>
      cases item with
      | pool p => simp [step] at hstep
      | call c =>
        simp only [step] at hstep
        split at hstep
        · cases hstep
        next hrun =>
          cases hstep
          obtain ⟨s', ev, hrel, hinv, hwork, hpop⟩ := releaseUntil_inv h (Bool.eq_false_iff.2 hrun)
          refine ⟨s', ev, hrel, hinv, fun _ => hwork, fun sent hs => ?_⟩
          obtain ⟨p, rfl, hmade, hbelow⟩ := hpop sent hs
          exact ⟨p, .inr ⟨c, rfl⟩, hmade, hbelow⟩

theorem reaches_inv (h : Reaches o State.init s) : Inv o s := by
  induction h with
  | refl => rfl
  | tail _ hstep ih =>
    obtain ⟨act, ev, hstep⟩ := hstep
    obtain ⟨s', ev', heq, hinv, -⟩ := step_inv ih hstep
    obtain ⟨rfl, -⟩ := Prod.mk.inj (Except.ok.inj heq)
    exact hinv

/-- **The autorelease pool is a stack of pools.** In every state that a thread
reaches from an empty slot, whatever well-bracketed calls it and the releases it
runs make:

* no step faults: no page overflows, no page is used after it was killed, and
  `badPop` is never reached;
* when a `pop` completes, it has sent each object exactly the releases that were
  autoreleased into the pool since its push, the autoreleases made while it was
  draining among them, and the entries are those that were below its token;
* the steps that the client does not ask for cannot go on for ever. -/
theorem pop_releases_pool (o : Options) (s : State) (h : Reaches o State.init s) :
    (∀ act f, step o s act ≠ some (.error f)) ∧
    (∀ act s' sent, step o s act = some (.ok (s', some sent)) →
      ∃ p, (s.stack = .pool p :: s'.stack ∨ ∃ c, s.stack = .call c :: .pool p :: s'.stack) ∧
        sent = p.made ∧ s'.thread.entries = p.below) ∧
    (∀ act s' ev, step o s act = some (.ok (s', ev)) → act = .ret ∨ act = .tick →
      s'.work < s.work) := by
  have hinv := reaches_inv h
  refine ⟨?_, ?_, ?_⟩
  · intro act f hstep
    obtain ⟨s', ev, heq, -⟩ := step_inv hinv hstep
    cases heq
  · intro act s' sent hstep
    obtain ⟨s1, ev, heq, -, -, hpop⟩ := step_inv hinv hstep
    obtain ⟨rfl, rfl⟩ := Prod.mk.inj (Except.ok.inj heq)
    exact hpop sent rfl
  · intro act s' ev hstep hact
    obtain ⟨s1, ev', heq, -, hwork, -⟩ := step_inv hinv hstep
    obtain ⟨rfl, -⟩ := Prod.mk.inj (Except.ok.inj heq)
    exact hwork hact

/-- The state after some acts, if they are all possible. -/
def State.after (o : Options) : State → List Act → Option State
  | s, [] => some s
  | s, act :: acts =>
    match step o s act with
    | some (.ok (s', _)) => s'.after o acts
    | _ => none

theorem reaches_after {acts} : ∀ {s s'}, s.after o acts = some s' → Reaches o s s' := by
  induction acts with
  | nil =>
    intro s s' h
    cases h
    exact Relation.ReflTransGen.refl
  | cons act acts ih =>
    intro s s' h
    unfold State.after at h
    split at h
    next s1 ev hstep => exact (ih h).head ⟨act, ev, hstep⟩
    · cases h

/-- Pages of two entries. -/
def twoEntries : Options := ⟨2, le_refl 2, false, false⟩

/-- A pool with two autoreleases of one object, pushed on top of the placeholder
and popped up to the last step. -/
def twoReleases : List Act :=
  [.push, .push, .autorelease 5, .autorelease 5, .pop, .tick, .tick, .ret, .tick, .tick, .ret,
    .tick]

def lastTick : State := (State.init.after twoEntries twoReleases).getD State.init

/-- That `pop` has sent the two releases, and leaves the boundary of the pool the
placeholder stood for. -/
theorem pop_releases_pool_lastTick :
    Reaches twoEntries State.init lastTick ∧
      ∃ s' sent, step twoEntries lastTick .tick = some (.ok (s', some sent)) ∧ sent 5 = 2 ∧
        s'.thread.entries = [poolBoundary] := by
  have hafter : State.init.after twoEntries twoReleases = some lastTick := rfl
  have hreach := reaches_after hafter
  obtain ⟨s', sent, hstep⟩ : ∃ s' sent,
      step twoEntries lastTick .tick = some (.ok (s', some sent)) := ⟨_, _, rfl⟩
  obtain ⟨p, hstack | ⟨c, hstack⟩, hsent, hbelow⟩ :=
    (pop_releases_pool twoEntries lastTick hreach).2.1 .tick s' sent hstep
  · exact absurd (cons.inj hstack).1 (by simp)
  · have hpool := (cons.inj (cons.inj hstack).2).1
    refine ⟨hreach, s', sent, hstep, ?_, ?_⟩
    · rw [hsent, ← Item.pool.inj hpool]
      decide
    · rw [hbelow, ← Item.pool.inj hpool]
      rfl

/-! ### The inner loop -/

/-- `releaseUntil` is about to take an entry off. -/
def State.Iterates (s : State) (chain : Chain) : Prop :=
  ∃ c rest page, s.stack = .call c :: rest ∧ c.running = false ∧ c.left = 0 ∧
    chain.find c.page = some page ∧ page.entries.length ≠ c.stop

/-- **The inner `while` of `releaseUntil` can be an `if`.** In every state that a thread
reaches, the pages colder than the hot one are full and the hotter ones are empty. In an
iteration of `releaseUntil` an empty hot page has a parent, which is not empty; going to
it once leads to where the loop leads. -/
theorem releaseUntil_while_is_if {o s} (h : Reaches o State.init s) {chain}
    (htls : s.thread.tls = .page chain) :
    (∀ page ∈ chain.parents, page.full o) ∧ (∀ page ∈ chain.children, page.empty) ∧
    (s.Iterates chain →
      (chain.hot.empty → ∃ parent parents, chain.parents = parent :: parents ∧
        parent.empty = false) ∧
      lastNonEmpty chain.hot chain.children chain.parents = chain.ifEmpty) := by
  have hinv := reaches_inv h
  have hwf : ChainWf o s.thread.fresh chain := by
    unfold Inv at hinv
    rw [htls] at hinv
    exact hinv.1
  refine ⟨fun page hp => ?_, fun page hp => ?_, ?_⟩
  · simpa [Page.full] using hwf.parents_full page hp
  · simp [Page.empty, hwf.children_empty page hp]
  · rintro ⟨c, rest, page, hstack, hrun, hleft, hfind, hne⟩
    refine ⟨fun hempty => ?_, hwf.lastNonEmpty_eq⟩
    cases hparents : chain.parents with
    | cons parent parents =>
      exact ⟨parent, parents, rfl, hwf.parent_not_empty (hparents ▸ mem_cons_self)⟩
    | nil =>
      -- going on from here would fault
      have htake : chain.takeEntry = .error .nilPage := by
        unfold Chain.takeEntry
        rw [hparents, lastNonEmpty, if_pos hempty]
        rfl
      have hstep : releaseUntil o s.thread c rest = .error .nilPage := by
        simp [releaseUntil, hleft, htls, hfind, hne, htake, bind, Except.bind]
      have hcall : Inv o ⟨s.thread, .call c :: rest⟩ := hstack ▸ hinv
      obtain ⟨s', ev, hok, -⟩ := releaseUntil_inv hcall hrun
      rw [hstep] at hok
      cases hok

/-- Before the last step of the pop above the second page is empty, and the boundary to
take off is on the first one. -/
theorem releaseUntil_while_is_if_twoPages :
    ∃ s chain, State.init.after twoEntries twoReleases.dropLast = some s ∧
      s.thread.tls = .page chain ∧ chain.hot.empty ∧
      ∃ parent parents, chain.parents = parent :: parents ∧ parent.empty = false := by
  obtain ⟨s, chain, hafter, htls, hempty, hiter⟩ : ∃ s chain,
      State.init.after twoEntries twoReleases.dropLast = some s ∧ s.thread.tls = .page chain ∧
      chain.hot.empty ∧ s.Iterates chain :=
    ⟨_, _, rfl, rfl, rfl, _, _, _, rfl, rfl, rfl, rfl, by decide⟩
  exact ⟨s, chain, hafter, htls, hempty,
    ((releaseUntil_while_is_if (reaches_after hafter) htls).2.2 hiter).1 hempty⟩

end ObjcRuntime.Autorelease
