import ObjcRuntime.Lib.Forest

/-!
# ObjcRuntime.Lib.ForestCycle

The walk of `ObjcRuntime.Lib.Forest` on pointers that are not a forest: a node
below the top has the top as its first child.

The walk goes through everything before that node and then visits the top again,
with a smaller budget (`Links.Passes`). So it runs out of budget, however large
(`Links.Knot.traverse_eq_none`).
-/

namespace ObjcRuntime.Lib

open List Nat Links

universe u v

variable {α : Type u} {ρ : Type v}

/-- Below `top` the pointers describe `kids`, but for node `x`, whose first child is
`top` again. -/
structure Links.Knot (L : Links α) (kids : α → List α) (rank : α → Nat) (bound : Nat)
    (top x : α) : Prop where
  under : Under kids top x
  first_eq : L.first x = some top
  chained : ∀ a, Under kids top a → a ≠ x → Chained L.next (L.first a) (kids a)
  parent_eq : ∀ a, ∀ b ∈ kids a, L.parent b = some a
  rank_lt : ∀ a, ∀ b ∈ kids a, rank a < rank b
  bounded : ∀ a, ∀ b ∈ kids a, rank b < bound

theorem Under.cases_head {kids : α → List α} {a d : α} (h : Under kids a d) :
    d = a ∨ ∃ b ∈ kids a, Under kids b d := by
  induction h with
  | refl => exact .inl rfl
  | @snoc b d _ hin ih =>
    rcases ih with rfl | ⟨c, hc, hcb⟩
    · exact .inr ⟨d, hin, .refl⟩
    · exact .inr ⟨c, hc, hcb.snoc hin⟩

section Knot

variable [DecidableEq α] {L : Links α} {kids : α → List α} {rank : α → Nat} {bound : Nat}
variable {top x : α} {code : α → ρ → Bool × ρ}

/-- The walk from one move ends like the walk from another that has a smaller
budget, or not at all. -/
def Links.Passes (L : Links α) (code : α → ρ → Bool × ρ) (top : α) (move move' : Move α) : Prop :=
  ∀ n m, L.traverse code top n move m = none ∨
    ∃ n' m', n' < n ∧ L.traverse code top n move m = L.traverse code top n' move' m'

theorem Links.Passes.trans {move move' move''} (h : L.Passes code top move move')
    (h' : L.Passes code top move' move'') : L.Passes code top move move'' := by
  intro n m
  rcases h n m with hnone | ⟨n', m', hlt, heq⟩
  · exact .inl hnone
  · rcases h' n' m' with hnone | ⟨n'', m'', hlt', heq'⟩
    · exact .inl (heq.trans hnone)
    · exact .inr ⟨n'', m'', Nat.lt_trans hlt' hlt, heq.trans heq'⟩

theorem Links.passes_up (L : Links α) (code : α → ρ → Bool × ρ) (top a : α) :
    L.Passes code top (.up a) (L.leave top a) := by
  intro n m
  cases n with
  | zero => exact .inl (by simp [Links.traverse])
  | succ n => exact .inr ⟨n, m, lt_succ_self n, by rw [Links.traverse]⟩

theorem Links.passes_first (henter : ∀ a r, (code a r).1) {a b}
    (hb : L.first a = some b) : L.Passes code top (.visit a) (.visit b) := by
  intro n m
  cases n with
  | zero => exact .inl (by simp [Links.traverse])
  | succ n =>
    refine .inr ⟨n, Function.update m a (code a (m a)).2, lt_succ_self n, ?_⟩
    rw [Links.traverse, henter, hb]

theorem Links.passes_leaf {a} (hb : L.first a = none) :
    L.Passes code top (.visit a) (L.leave top a) := by
  intro n m
  cases n with
  | zero => exact .inl (by simp [Links.traverse])
  | succ n =>
    refine .inr ⟨n, Function.update m a (code a (m a)).2, lt_succ_self n, ?_⟩
    rw [Links.traverse, hb]
    cases (code a (m a)).1 <;> rfl

variable (h : L.Knot kids rank bound top x)
include h

omit [DecidableEq α] in
theorem Links.Knot.kid_ne_top {a b} (ha : Under kids top a) (hb : b ∈ kids a) : b ≠ top := by
  rintro rfl
  have hle : ∀ {d}, Under kids b d → rank b ≤ rank d := by
    intro d hd
    induction hd with
    | refl => exact Nat.le_refl _
    | snoc _ hin ih => exact Nat.le_trans ih (Nat.le_of_lt (h.rank_lt _ _ hin))
  exact absurd (hle ha) (Nat.not_le.2 (h.rank_lt a b hb))

theorem Links.Knot.leave_visit {a b c}
    (ha : Under kids top a) (hb : b ∈ kids a) (hc : L.next b = some c) :
    L.leave top b = .visit c := by
  unfold leave
  rw [if_neg (h.kid_ne_top ha hb), hc]

theorem Links.Knot.leave_up {a b} (ha : Under kids top a)
    (hb : b ∈ kids a) (hc : L.next b = none) : L.leave top b = .up a := by
  unfold leave
  rw [if_neg (h.kid_ne_top ha hb), hc, h.parent_eq a b hb]

theorem Links.Knot.passes_below (henter : ∀ a r, (code a r).1) {n} :
    ∀ {a}, bound ≤ rank a + n → Under kids top a → ¬ Under kids a x →
      L.Passes code top (.visit a) (L.leave top a) := by
  induction n using Nat.strongRecOn with
  | _ n ih =>
    intro a hbound ha hx
    have hch := h.chained a ha (by rintro rfl; exact hx .refl)
    have hbelow : ∀ b ∈ kids a, L.Passes code top (.visit b) (L.leave top b) := by
      intro b hb
      have h1 := h.rank_lt a b hb
      have h2 := h.bounded a b hb
      exact ih (n - 1) (by omega) (by omega) (ha.snoc hb)
        fun hbx => hx ((under_of_mem hb).trans hbx)
    -- the walk over the children, one after the other
    have hloop : ∀ l b head, b :: l ⊆ kids a →
        Chained L.next head (b :: l) → L.Passes code top (.visit b) (L.leave top a) := by
      intro l
      induction l with
      | nil =>
        intro b head hsub hch
        have hb := hsub mem_cons_self
        have hpass := hbelow b hb
        rw [h.leave_up ha hb hch.2] at hpass
        exact hpass.trans (L.passes_up code top a)
      | cons c l ihl =>
        intro b head hsub hch
        have hb := hsub mem_cons_self
        have hpass := hbelow b hb
        rw [h.leave_visit ha hb hch.2.1] at hpass
        exact hpass.trans (ihl c _ (fun y hy => hsub (mem_cons_of_mem b hy)) hch.2)
    cases hkids : kids a with
    | nil =>
      rw [hkids] at hch
      exact passes_leaf hch
    | cons b l =>
      rw [hkids] at hch hloop
      exact (passes_first henter hch.1).trans (hloop l b _ (List.Subset.refl _) hch)

/-- From a node above the knot the walk comes to the knot, and so to the top. -/
theorem Links.Knot.passes_top (henter : ∀ a r, (code a r).1) {n} :
    ∀ {a}, bound ≤ rank a + n → Under kids top a → Under kids a x →
      L.Passes code top (.visit a) (.visit top) := by
  induction n with
  | zero =>
    intro a hbound ha hx
    rcases hx.cases_head with rfl | ⟨b, hb, -⟩
    · exact passes_first henter h.first_eq
    · have h1 := h.rank_lt a b hb
      have h2 := h.bounded a b hb
      omega
  | succ n ih =>
    intro a hbound ha hx
    by_cases hax : a = x
    · exact hax ▸ passes_first henter h.first_eq
    · obtain ⟨d, hd, hdx⟩ := hx.cases_head.resolve_left (Ne.symm hax)
      have hch := h.chained a ha hax
      -- the walk over the children up to the one above the knot
      have hloop : ∀ l b head, b :: l ⊆ kids a →
          Chained L.next head (b :: l) → d ∈ b :: l →
            L.Passes code top (.visit b) (.visit top) := by
        intro l
        induction l with
        | nil =>
          intro b head hsub _ hin
          obtain rfl := mem_singleton.1 hin
          exact ih (by have := h.rank_lt a d hd; omega) (ha.snoc hd) hdx
        | cons c l ihl =>
          intro b head hsub hch hin
          have hb := hsub mem_cons_self
          have hrank := h.rank_lt a b hb
          by_cases hbx : Under kids b x
          · exact ih (by omega) (ha.snoc hb) hbx
          · have hbelow := h.passes_below henter (n := n) (by omega) (ha.snoc hb) hbx
            rw [h.leave_visit ha hb hch.2.1] at hbelow
            have hne : d ≠ b := by
              rintro rfl
              exact hbx hdx
            exact hbelow.trans (ihl c _ (fun y hy => hsub (mem_cons_of_mem b hy)) hch.2
              ((mem_cons.1 hin).resolve_left hne))
      cases hkids : kids a with
      | nil =>
        rw [hkids] at hd
        cases hd
      | cons b l =>
        rw [hkids] at hch hloop hd
        exact (passes_first henter hch.1).trans (hloop l b _ (List.Subset.refl _) hch hd)

theorem Links.Knot.traverse_eq_none (henter : ∀ a r, (code a r).1) (n : Nat) :
    ∀ m, L.traverse code top n (.visit top) m = none := by
  induction n using Nat.strongRecOn with
  | _ n ih =>
    intro m
    rcases h.passes_top henter (Nat.le_add_left bound (rank top)) .refl h.under n m with
      hnone | ⟨n', m', hlt, heq⟩
    · exact hnone
    · exact heq.trans (ih n' hlt m')

omit h

end Knot

end ObjcRuntime.Lib
