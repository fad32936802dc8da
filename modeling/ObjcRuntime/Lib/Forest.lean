import Mathlib.Data.List.Basic
import Mathlib.Data.List.Nodup
import Mathlib.Logic.Function.Basic
import Mathlib.Order.Basic
import Mathlib.Data.Set.Defs

/-!
# ObjcRuntime.Lib.Forest

Trees kept as pointers to the first child, the next sibling and the parent, and
the walk over them that needs no stack.

`Links.traverse` runs a piece of code on every node below a top node. The code
may change the record of the node it is called on, and it decides whether to go
below that node. The walk takes a budget of moves. `Links.Wf` relates the
pointers to lists of children, with ranks that grow downwards. On a well-formed
forest and with enough budget the walk changes exactly the records of the nodes
it reaches (`traverse_eq`, `foldSub_apply`).
-/

namespace ObjcRuntime.Lib

open Function List Option

universe u v

variable {α : Type u} {ρ : Type v}

/-- The pointers of a forest. -/
structure Links (α : Type u) where
  first : α → Option α
  next : α → Option α
  parent : α → Option α

/-- What the walk does next. -/
inductive Move (α : Type u)
  | visit (a : α)
  /-- Back at a parent. -/
  | up (a : α)
  | stop
  /-- A parent pointer that is nil. -/
  | crash

section Run

variable [DecidableEq α]

/-- Leave node `a`: on to its sibling, or up. -/
def Links.leave (L : Links α) (top a : α) : Move α :=
  if a = top then .stop
  else
    match L.next a with
    | some b => .visit b
    | none =>
      match L.parent a with
      | some p => .up p
      | none => .crash

/-- The walk below `top`, with at most so many moves; the budget that is left and
the new records. -/
def Links.traverse (L : Links α) (code : α → ρ → Bool × ρ) (top : α) :
    Nat → Move α → (α → ρ) → Option (Nat × (α → ρ))
  | count, .stop, m => some (count, m)
  | _, .crash, _ => none
  | 0, _, _ => none
  | count + 1, .visit a, m =>
    let result := code a (m a)
    let m := update m a result.2
    match result.1, L.first a with
    | true, some b => L.traverse code top count (.visit b) m
    | _, _ => L.traverse code top count (L.leave top a) m
  | count + 1, .up p, m => L.traverse code top count (L.leave top p) m

/-- The walk below each of the roots, from `root` on; one budget for all. -/
def Links.traverseRoots (L : Links α) (code : α → ρ → Bool × ρ) :
    Nat → Nat → Option α → (α → ρ) → Option (Nat × (α → ρ))
  | _, count, none, m => some (count, m)
  | 0, _, some _, _ => none
  | fuel + 1, count, some root, m =>
    match L.traverse code root count (.visit root) m with
    | some (count, m) => L.traverseRoots code fuel count (L.next root) m
    | none => none

end Run

/-! ### Well-formed forests -/

/-- The list that starts at a pointer and is chained by `next`. -/
def Chained (next : α → Option α) : Option α → List α → Prop
  | head, [] => head = none
  | head, a :: l => head = some a ∧ Chained next (next a) l

/-- `kids` are the children the pointers describe. -/
structure Links.Wf (L : Links α) (kids : α → List α) (rank : α → Nat) (bound : Nat) : Prop where
  chained : ∀ a, Chained L.next (L.first a) (kids a)
  parent_eq : ∀ a b, b ∈ kids a → L.parent b = some a
  rank_lt : ∀ a b, L.parent b = some a → rank a < rank b
  bounded : ∀ a b, b ∈ kids a → rank b < bound

/-- `d` is `a` or below it. -/
inductive Under (kids : α → List α) (a : α) : α → Prop
  | refl : Under kids a a
  | snoc {b d} : Under kids a b → d ∈ kids b → Under kids a d

/-- `a` is `d` or above it, along the parent pointers. -/
inductive Ancestor (parent : α → Option α) (a : α) : α → Prop
  | refl : Ancestor parent a a
  | step {d p} : parent d = some p → Ancestor parent a p → Ancestor parent a d

theorem Ancestor.of_unmoved {parent parent' : α → Option α} {moved : Set α} {a d : α}
    (h : Ancestor parent a d) (hsame : ∀ c, c ∉ moved → parent' c = parent c) :
    (∀ c, Ancestor parent' c d → c ∉ moved) → Ancestor parent' a d := by
  induction h with
  | refl => exact fun _ => .refl
  | step hp _ ih =>
    intro hnone
    have hp' := (hsame _ (hnone _ .refl)).trans hp
    exact .step hp' (ih fun c hc => hnone c (.step hp' hc))

variable {next : α → Option α}

theorem Chained.eq : ∀ {head} {l l'}, Chained next head l → Chained next head l' → l = l' := by
  intro head l
  induction l generalizing head with
  | nil =>
    intro l' h h'
    cases l' with
    | nil => rfl
    | cons a l' => cases h.symm.trans h'.1
  | cons a l ih =>
    intro l' h h'
    cases l' with
    | nil => cases h'.symm.trans h.1
    | cons b l' =>
      obtain rfl := some.inj (h.1.symm.trans h'.1)
      rw [ih h.2 h'.2]

theorem Chained.suffix {a rest} :
    ∀ {head} {pre}, Chained next head (pre ++ a :: rest) →
      Chained next (next a) rest := by
  intro head pre
  induction pre generalizing head with
  | nil => exact fun h => h.2
  | cons b pre ih => exact fun h => ih h.2

/-- A chain visits no node twice: it would never end. -/
theorem Chained.nodup {head l} (h : Chained next head l) : l.Nodup := by
  induction l generalizing head with
  | nil => exact nodup_nil
  | cons a l ih =>
    refine nodup_cons.2 ⟨fun hin => ?_, ih h.2⟩
    obtain ⟨pre, rest, rfl⟩ := append_of_mem hin
    have heq := Chained.eq h.2 (Chained.suffix h.2)
    have hlen := congrArg List.length heq
    rw [length_append, length_cons] at hlen
    omega

section Wf

variable {L : Links α} {kids : α → List α} {rank : α → Nat} {bound : Nat}

theorem Under.trans {a b d} (hab : Under kids a b) (hbd : Under kids b d) : Under kids a d := by
  induction hbd with
  | refl => exact hab
  | snoc _ hin ih => exact ih.snoc hin

theorem under_of_mem {a b} (h : b ∈ kids a) : Under kids a b := Under.refl.snoc h

variable (h : L.Wf kids rank bound)
include h

theorem Links.Wf.rank_kid {a b} (hb : b ∈ kids a) :
    rank a < rank b := h.rank_lt a b (h.parent_eq a b hb)

theorem Links.Wf.rank_le {a d} (hd : Under kids a d) : rank a ≤ rank d := by
  induction hd with
  | refl => exact Nat.le_refl _
  | snoc _ hin ih => exact Nat.le_trans ih (Nat.le_of_lt (h.rank_kid hin))

theorem Links.Wf.not_under_kid {a b} (hb : b ∈ kids a) : ¬ Under kids b a :=
  fun hba => absurd (h.rank_le hba) (Nat.not_le.2 (h.rank_kid hb))

theorem Links.Wf.siblings {a b b' d} (hb : b ∈ kids a)
    (hb' : b' ∈ kids a) (hd : Under kids b d) (hd' : Under kids b' d) : b = b' := by
  induction hd with
  | refl =>
    cases hd' with
    | refl => rfl
    | @snoc p _ hp hin =>
      obtain rfl := some.inj ((h.parent_eq p b hin).symm.trans (h.parent_eq a b hb))
      exact absurd hp (h.not_under_kid hb')
  | @snoc p d hp hin ih =>
    cases hd' with
    | refl =>
      obtain rfl := some.inj ((h.parent_eq p b' hin).symm.trans (h.parent_eq a b' hb'))
      exact absurd hp (h.not_under_kid hb)
    | @snoc p' _ hp' hin' =>
      obtain rfl := some.inj ((h.parent_eq p d hin).symm.trans (h.parent_eq p' d hin'))
      exact ih hp'

theorem Links.Wf.roots {a b d} (ha : L.parent a = none)
    (hb : L.parent b = none) (hd : Under kids a d) (hd' : Under kids b d) : a = b := by
  induction hd with
  | refl =>
    cases hd' with
    | refl => rfl
    | snoc _ hin => cases (h.parent_eq _ _ hin).symm.trans ha
  | @snoc p d hp hin ih =>
    cases hd' with
    | refl => cases (h.parent_eq _ _ hin).symm.trans hb
    | @snoc p' _ hp' hin' =>
      obtain rfl := some.inj ((h.parent_eq p d hin).symm.trans (h.parent_eq p' d hin'))
      exact ih hp'

omit h

end Wf

/-! ### The walk -/

/-- The walk as a recursion over children, to depth `n`. -/
def foldSub [DecidableEq α] (kids : α → List α) (code : α → ρ → Bool × ρ) :
    Nat → α → (α → ρ) → α → ρ
  | 0, _, m => m
  | n + 1, a, m =>
    let result := code a (m a)
    let m := update m a result.2
    if result.1 then (kids a).foldl (fun m b => foldSub kids code n b m) m else m

section Walk

variable [DecidableEq α] {L : Links α} {kids : α → List α} {rank : α → Nat} {bound : Nat}
variable {code : α → ρ → Bool × ρ}

variable {l : List α}

/-- From a child of `a` that is not the top on, the walk deals with the rest of
the children and comes back to `a`. -/
theorem traverse_kids (h : L.Wf kids rank bound) {top a n} (ih : ∀ b ∈ kids a, ∀ m, ∃ cost, ∀ k,
      L.traverse code top (k + cost) (.visit b) m =
        L.traverse code top k (L.leave top b) (foldSub kids code n b m))
    (hne : ∀ b ∈ kids a, b ≠ top) {b head}
    (hch : Chained L.next head (b :: l)) (hsub : b :: l ⊆ kids a) (m : α → ρ) :
    ∃ cost, ∀ k, L.traverse code top (k + cost) (.visit b) m =
      L.traverse code top k (L.leave top a)
        ((b :: l).foldl (fun m b => foldSub kids code n b m) m) := by
  induction l generalizing b head m with
  | nil =>
    have hb := hsub mem_cons_self
    obtain ⟨cost, hcost⟩ := ih b hb m
    have hleave : L.leave top b = .up a := by
      have hnext : L.next b = none := hch.2
      unfold Links.leave
      rw [if_neg (hne b hb), hnext, h.parent_eq a b hb]
    refine ⟨cost + 1, fun k => ?_⟩
    rw [show k + (cost + 1) = k + 1 + cost by omega, hcost, hleave]
    rfl
  | cons b' l ihl =>
    have hb := hsub mem_cons_self
    obtain ⟨cost, hcost⟩ := ih b hb m
    have hleave : L.leave top b = .visit b' := by
      unfold Links.leave
      rw [if_neg (hne b hb), hch.2.1]
    obtain ⟨cost', hcost'⟩ := ihl hch.2 (fun x hx => hsub (mem_cons_of_mem b hx))
      (foldSub kids code n b m)
    refine ⟨cost' + cost, fun k => ?_⟩
    rw [← Nat.add_assoc, hcost, hleave, hcost']
    rfl

theorem traverse_visit (h : L.Wf kids rank bound) {top n} :
    ∀ {a}, bound ≤ rank a + n → Under kids top a → ∀ m, ∃ cost, ∀ k,
      L.traverse code top (k + cost) (.visit a) m =
        L.traverse code top k (L.leave top a) (foldSub kids code (n + 1) a m) := by
  induction n with
  | zero =>
    intro a hbound htop m
    -- a node of the largest rank has no children
    have hnil : kids a = [] := by
      by_contra hne
      obtain ⟨b, hb⟩ := exists_mem_of_ne_nil _ hne
      have h1 := h.rank_kid hb
      have h2 := h.bounded a b hb
      omega
    have hfirst : L.first a = none := by
      have := h.chained a
      rw [hnil] at this
      exact this
    refine ⟨1, fun k => ?_⟩
    rw [Links.traverse, foldSub, hfirst, hnil]
    cases (code a (m a)).1 <;> rfl
  | succ n ih =>
    intro a hbound htop m
    cases hkids : kids a with
    | nil =>
      have hfirst : L.first a = none := by
        have := h.chained a
        rw [hkids] at this
        exact this
      refine ⟨1, fun k => ?_⟩
      rw [Links.traverse, foldSub, hfirst, hkids]
      cases (code a (m a)).1 <;> rfl
    | cons b l =>
      have hch := h.chained a
      rw [hkids] at hch
      have hne : ∀ x ∈ kids a, x ≠ top := by
        rintro x hx rfl
        exact h.not_under_kid hx htop
      cases henter : (code a (m a)).1 with
      | false =>
        refine ⟨1, fun k => ?_⟩
        rw [Links.traverse, foldSub]
        simp only [henter]
        rfl
      | true =>
        obtain ⟨cost, hcost⟩ := traverse_kids h
          (fun x hx m => ih (by have := h.rank_kid hx; omega) (htop.snoc hx) m) hne hch
          (by rw [hkids]; exact List.Subset.refl _)
          (update m a (code a (m a)).2)
        refine ⟨cost + 1, fun k => ?_⟩
        rw [← Nat.add_assoc, Links.traverse, foldSub]
        simp only [henter, hch.1, hcost, hkids, if_true]

theorem traverse_eq (h : L.Wf kids rank bound) {top n} (hn : bound ≤ rank top + n) (m : α → ρ) :
    ∃ cost, ∀ k, L.traverse code top (k + cost) (.visit top) m =
      some (k, foldSub kids code (n + 1) top m) := by
  obtain ⟨cost, hcost⟩ := traverse_visit h hn Under.refl m
  refine ⟨cost, fun k => ?_⟩
  rw [hcost, Links.leave, if_pos rfl, Links.traverse]

/-! ### What the walk changes -/

/-- The nodes the walk comes to: below `a` through nodes that the code enters. -/
inductive Reached (kids : α → List α) (code : α → ρ → Bool × ρ) (m : α → ρ) (a : α) : α → Prop
  | refl : Reached kids code m a a
  | snoc {b d} : Reached kids code m a b → (code b (m b)).1 = true → d ∈ kids b →
      Reached kids code m a d

variable {m : α → ρ} {a d : α}

omit [DecidableEq α] in
theorem Reached.under (h : Reached kids code m a d) : Under kids a d := by
  induction h with
  | refl => exact Under.refl
  | snoc _ _ hin ih => exact ih.snoc hin

omit [DecidableEq α] in
theorem Under.reached (h : Under kids a d)
    (hcode : ∀ a x, (code a x).1) : Reached kids code m a d := by
  induction h with
  | refl => exact .refl
  | snoc _ hin ih => exact ih.snoc (hcode _ _) hin

omit [DecidableEq α] in
theorem Reached.cases_head (h : Reached kids code m a d) :
    d = a ∨ (code a (m a)).1 ∧ ∃ b ∈ kids a, Reached kids code m b d := by
  induction h with
  | refl => exact .inl rfl
  | @snoc b d _ henter hin ih =>
    rcases ih with rfl | ⟨henter', c, hc, hcb⟩
    · exact .inr ⟨henter, d, hin, .refl⟩
    · exact .inr ⟨henter', c, hc, hcb.snoc henter hin⟩

omit [DecidableEq α] in
theorem Reached.head {a b d} (henter : (code a (m a)).1) (hb : b ∈ kids a)
    (h : Reached kids code m b d) : Reached kids code m a d := by
  induction h with
  | refl => exact Reached.refl.snoc henter hb
  | snoc _ henter' hin ih => exact ih.snoc henter' hin

omit [DecidableEq α] in
theorem Reached.congr {m m'} (h : Reached kids code m a d)
    (heq : ∀ x, Under kids a x → m x = m' x) : Reached kids code m' a d := by
  induction h with
  | refl => exact .refl
  | @snoc b d hb henter hin ih => exact ih.snoc (by rw [← heq b hb.under]; exact henter) hin

/-- The code has run on the records that are reached from `a`, and on no others. -/
def RanBelow (kids : α → List α) (code : α → ρ → Bool × ρ) (m : α → ρ) (a : α) (m' : α → ρ) :
    Prop :=
  ∀ d, (Reached kids code m a d → m' d = (code d (m d)).2) ∧
    (¬ Reached kids code m a d → m' d = m d)

omit [DecidableEq α] in
theorem ne_of_not_reached (h : ¬ Reached kids code m a d) : d ≠ a := by
  rintro rfl
  exact h .refl

/-- The code has run on the records reached from one of the nodes, and on no
others. -/
def RanBelowAll (kids : α → List α) (code : α → ρ → Bool × ρ) (m : α → ρ) (l : List α)
    (m₁ m' : α → ρ) : Prop :=
  ∀ d, ((∃ b ∈ l, Reached kids code m b d) → m' d = (code d (m d)).2) ∧
    ((¬ ∃ b ∈ l, Reached kids code m b d) → m' d = m₁ d)

omit [DecidableEq α] in
/-- Running below nodes that have nothing below them in common, one after the
other. -/
theorem foldl_run_apply (run : α → (α → ρ) → α → ρ) :
    (∀ b ∈ l, ∀ m, RanBelow kids code m b (run b m)) →
    (∀ b ∈ l, ∀ c ∈ l, ∀ d, Under kids b d → Under kids c d → b = c) → l.Nodup →
    ∀ m₁, (∀ b ∈ l, ∀ x, Under kids b x → m₁ x = m x) →
      RanBelowAll kids code m l m₁ (l.foldl (fun m b => run b m) m₁) := by
  induction l with
  | nil => exact fun _ _ _ m₁ _ d => ⟨fun ⟨b, hb, _⟩ => absurd hb (by simp), fun _ => rfl⟩
  | cons b l ih =>
    intro hrun hdisj hnodup m₁ hm₁ d
    rw [nodup_cons] at hnodup
    have hb := mem_cons_self (a := b) (l := l)
    have hmem : ∀ {c}, c ∈ l → c ∈ b :: l := mem_cons_of_mem b
    have hran := hrun b hb m₁
    have hmb : ∀ x, Under kids b x → m₁ x = m x := hm₁ b hb
    have hiff : ∀ x, Reached kids code m₁ b x ↔ Reached kids code m b x :=
      fun x => ⟨fun hx => hx.congr hmb, fun hx => hx.congr fun y hy => (hmb y hy).symm⟩
    have hapart : ∀ {c x}, c ∈ l → Under kids c x → ¬ Under kids b x := by
      intro c x hc hcx hbx
      have := hdisj b hb c (hmem hc) x hbx hcx
      exact hnodup.1 (this ▸ hc)
    -- what is below the other nodes has not changed
    have hother : ∀ c ∈ l, ∀ x, Under kids c x → run b m₁ x = m x := by
      intro c hc x hx
      rw [(hran x).2 fun hreach => hapart hc hx hreach.under, hm₁ c (hmem hc) x hx]
    obtain ⟨hyes, hno⟩ := ih (fun c hc => hrun c (hmem hc))
      (fun c hc c' hc' => hdisj c (hmem hc) c' (hmem hc')) hnodup.2 (run b m₁) hother d
    rw [foldl_cons]
    constructor
    · rintro ⟨c, hc, hreach⟩
      rcases mem_cons.1 hc with rfl | hc
      · rw [hno, (hran d).1 ((hiff d).2 hreach), hmb d hreach.under]
        rintro ⟨c', hc', hreach'⟩
        exact hapart hc' hreach'.under hreach.under
      · exact hyes ⟨c, hc, hreach⟩
    · intro hnone
      rw [hno fun ⟨c, hc, hreach⟩ => hnone ⟨c, hmem hc, hreach⟩, (hran d).2]
      exact fun hreach => hnone ⟨b, hb, (hiff d).1 hreach⟩

theorem foldSub_apply (h : L.Wf kids rank bound) {n} :
    ∀ {a}, bound ≤ rank a + n → ∀ m,
      RanBelow kids code m a (foldSub kids code (n + 1) a m) := by
  induction n with
  | zero =>
    intro a hbound m d
    have hnil : kids a = [] := by
      by_contra hne
      obtain ⟨b, hb⟩ := exists_mem_of_ne_nil _ hne
      have h1 := h.rank_kid hb
      have h2 := h.bounded a b hb
      omega
    have hfold : foldSub kids code 1 a m = update m a (code a (m a)).2 := by
      rw [foldSub, hnil]
      split <;> rfl
    rw [hfold]
    constructor
    · intro hreach
      rcases hreach.cases_head with rfl | ⟨-, b, hb, -⟩
      · exact update_self ..
      · rw [hnil] at hb
        cases hb
    · intro hnot
      exact update_of_ne (ne_of_not_reached hnot) ..
  | succ n ih =>
    intro a hbound m d
    have hsame : ∀ b ∈ kids a, ∀ x, Under kids b x → update m a (code a (m a)).2 x = m x := by
      intro b hb x hx
      apply update_of_ne
      rintro rfl
      exact h.not_under_kid hb hx
    have hkids := foldl_run_apply (fun b m => foldSub kids code (n + 1) b m)
      (fun b hb m => ih (by have := h.rank_kid hb; omega) m)
      (fun b hb c hc d => h.siblings hb hc) (h.chained a).nodup
      (update m a (code a (m a)).2) hsame d
    rw [foldSub]
    cases henter : (code a (m a)).1 with
    | false =>
      constructor
      · intro hreach
        rcases hreach.cases_head with rfl | ⟨htrue, -⟩
        · exact update_self ..
        · cases henter.symm.trans htrue
      · intro hnot
        exact update_of_ne (ne_of_not_reached hnot) ..
    | true =>
      simp only [if_true]
      constructor
      · intro hreach
        rcases hreach.cases_head with rfl | ⟨-, b, hb, hbd⟩
        · rw [hkids.2, update_self]
          rintro ⟨b, hb, hbd⟩
          exact h.not_under_kid hb hbd.under
        · exact hkids.1 ⟨b, hb, hbd⟩
      · intro hnot
        rw [hkids.2 fun ⟨b, hb, hbd⟩ => hnot (hbd.head henter hb)]
        exact update_of_ne (ne_of_not_reached hnot) ..

theorem traverse_apply (h : L.Wf kids rank bound) (code : α → ρ → Bool × ρ) (top : α) (m : α → ρ) :
    ∃ m', RanBelow kids code m top m' ∧ ∃ cost, ∀ k,
      L.traverse code top (k + cost) (.visit top) m = some (k, m') :=
  ⟨_, foldSub_apply h (Nat.le_add_left bound (rank top)) m,
    traverse_eq h (Nat.le_add_left bound (rank top)) m⟩

theorem traverseRoots_apply (h : L.Wf kids rank bound) :
    ∀ {head}, Chained L.next head l → (∀ r ∈ l, L.parent r = none) →
    ∀ m₁ m, (∀ b ∈ l, ∀ x, Under kids b x → m₁ x = m x) →
      ∃ m', RanBelowAll kids code m l m₁ m' ∧ ∃ cost, ∀ k fuel, l.length ≤ fuel →
        L.traverseRoots code fuel (k + cost) head m₁ = some (k, m') := by
  intro head hch hroot m₁ m hm₁
  -- the run below each root, as a function of the records
  choose run hrun cost hcost using fun r m => traverse_apply h code r m
  refine ⟨l.foldl (fun m b => run b m) m₁, foldl_run_apply run (fun b _ m => hrun b m)
    (fun b hb c hc d => h.roots (hroot b hb) (hroot c hc)) hch.nodup m₁ hm₁, ?_⟩
  clear hm₁ hroot
  induction l generalizing head m₁ with
  | nil =>
    have hnil : head = none := hch
    subst hnil
    refine ⟨0, fun k fuel _ => ?_⟩
    cases fuel <;> rfl
  | cons b l ih =>
    obtain ⟨rfl, hch'⟩ := hch
    obtain ⟨cost', hcost'⟩ := ih hch' (run b m₁)
    refine ⟨cost' + cost b m₁, fun k fuel hfuel => ?_⟩
    cases fuel with
    | zero => cases hfuel
    | succ fuel =>
      rw [Links.traverseRoots, ← Nat.add_assoc, hcost b m₁]
      exact hcost' k fuel (Nat.le_of_succ_le_succ hfuel)

theorem traverse_budget {top count} (k : Nat) :
    ∀ {move m} {r},
      L.traverse code top count move m = some r →
      L.traverse code top (count + k) move m = some (r.1 + k, r.2) := by
  induction count with
  | zero =>
    intro move m r h
    cases move with
    | stop =>
      rw [Links.traverse] at h ⊢
      cases h
      rfl
    | visit a | up a | crash => simp [Links.traverse] at h
  | succ count ih =>
    intro move m r h
    rw [Nat.succ_add]
    cases move with
    | stop =>
      rw [Links.traverse] at h ⊢
      cases h
      rw [Nat.succ_add]
    | visit a =>
      rw [Links.traverse] at h ⊢
      split at h
      · exact ih h
      · exact ih h
    | up a =>
      exact ih h
    | crash => simp [Links.traverse] at h

theorem traverseRoots_budget {fuel} (k k' : Nat) :
    ∀ {count root m} {r},
      L.traverseRoots code fuel count root m = some r →
      L.traverseRoots code (fuel + k') (count + k) root m = some (r.1 + k, r.2) := by
  induction fuel with
  | zero =>
    intro count root m r h
    cases root with
    | none =>
      cases h
      cases k' <;> rfl
    | some a => simp [Links.traverseRoots] at h
  | succ fuel ih =>
    intro count root m r h
    rw [Nat.succ_add]
    cases root with
    | none =>
      cases h
      rfl
    | some a =>
      rw [Links.traverseRoots] at h ⊢
      split at h
      next heq =>
        rw [traverse_budget k heq]
        exact ih h
      · cases h

theorem traverse_ran (h : L.Wf kids rank bound)
    {top count r} (hr : L.traverse code top count (.visit top) m = some r) :
    RanBelow kids code m top r.2 := by
  obtain ⟨m', hm', cost, hcost⟩ := traverse_apply h code top m
  have heq := (traverse_budget cost hr).symm.trans (hcost count)
  have hm : r.2 = m' := congrArg Prod.snd (some.inj heq)
  exact hm ▸ hm'

theorem traverseRoots_ran (h : L.Wf kids rank bound) {head}
    (hch : Chained L.next head l) (hroot : ∀ r ∈ l, L.parent r = none)
    {fuel count r} (hr : L.traverseRoots code fuel count head m = some r) :
    RanBelowAll kids code m l m r.2 := by
  obtain ⟨m', hm', cost, hcost⟩ := traverseRoots_apply h hch hroot m m (fun _ _ _ _ => rfl)
  have heq := (traverseRoots_budget cost l.length hr).symm.trans
    (hcost count (fuel + l.length) (Nat.le_add_left _ _))
  have hm : r.2 = m' := congrArg Prod.snd (some.inj heq)
  exact hm ▸ hm'

/-- Whatever the pointers are, a record is changed by the code only. -/
theorem traverse_related {R : ρ → ρ → Prop} (hrefl : ∀ x, R x x)
    (htrans : ∀ {x y z}, R x y → R y z → R x z) (hcode : ∀ a x, R x (code a x).2) {top : α}
    {count : Nat} :
    ∀ {move m} {r},
      L.traverse code top count move m = some r → ∀ d, R (m d) (r.2 d) := by
  have hstep : ∀ m a d, R (m d) (update m a (code a (m a)).2 d) := by
    intro m a d
    rw [update_apply]
    split
    next heq => exact heq ▸ hcode d (m d)
    · exact hrefl _
  induction count with
  | zero =>
    intro move m r h d
    cases move with
    | stop =>
      cases h
      exact hrefl _
    | visit a | up a | crash => simp [Links.traverse] at h
  | succ count ih =>
    intro move m r h d
    cases move with
    | stop =>
      cases h
      exact hrefl _
    | visit a =>
      rw [Links.traverse] at h
      split at h
      · exact htrans (hstep m a d) (ih h d)
      · exact htrans (hstep m a d) (ih h d)
    | up a =>
      exact ih h d
    | crash => simp [Links.traverse] at h

theorem traverseRoots_related {R : ρ → ρ → Prop} (hrefl : ∀ x, R x x)
    (htrans : ∀ {x y z}, R x y → R y z → R x z) (hcode : ∀ a x, R x (code a x).2) {fuel : Nat} :
    ∀ {count root m} {r},
      L.traverseRoots code fuel count root m = some r → ∀ d, R (m d) (r.2 d) := by
  induction fuel with
  | zero =>
    intro count root m r h d
    cases root with
    | none =>
      cases h
      exact hrefl _
    | some a => simp [Links.traverseRoots] at h
  | succ fuel ih =>
    intro count root m r h d
    cases root with
    | none =>
      cases h
      exact hrefl _
    | some a =>
      rw [Links.traverseRoots] at h
      split at h
      next heq => exact htrans (traverse_related hrefl htrans hcode heq d) (ih h d)
      · cases h

end Walk

/-! ### Changing the forest -/

theorem Chained.congr {next next' l} :
    ∀ {head : Option α}, Chained next head l → (∀ a ∈ l, next' a = next a) →
      Chained next' head l := by
  induction l with
  | nil => exact fun h _ => h
  | cons a l ih =>
    intro head h heq
    refine ⟨h.1, ?_⟩
    rw [heq a mem_cons_self]
    exact ih h.2 fun b hb => heq b (mem_cons_of_mem a hb)

section Edit

variable [DecidableEq α]

/-- Make `b` the first child of `a`. The parent pointer of `b` is set elsewhere. -/
def Links.push (L : Links α) (a b : α) : Links α :=
  { L with first := update L.first a (some b), next := update L.next b (L.first a) }

/-- Redirect the sibling pointer to `b` in the list that starts with `p`. -/
def unlinkAfter (next : α → Option α) (b : α) : Nat → α → Option (α → Option α)
  | 0, _ => none
  | fuel + 1, p =>
    match next p with
    | none => none
    | some c => if c = b then some (update next p (next b)) else unlinkAfter next b fuel c

/-- Take `b` out of the children of `a`. -/
def Links.unlink (L : Links α) (fuel : Nat) (a b : α) : Option (Links α) :=
  match L.first a with
  | none => none
  | some c =>
    if c = b then some { L with first := update L.first a (L.next b) }
    else (unlinkAfter L.next b fuel c).map fun next => { L with next }

variable {L : Links α} {kids : α → List α} {rank : α → Nat} {bound : Nat}

theorem mem_kids_push {a b x y} (h : y ∈ update kids a (b :: kids a) x) :
    x = a ∧ y = b ∨ y ∈ kids x := by
  rw [update_apply] at h
  split at h
  next hx =>
    rcases mem_cons.1 h with rfl | h
    · exact .inl ⟨hx, rfl⟩
    · exact .inr (hx ▸ h)
  next => exact .inr h

theorem Links.Wf.push (h : L.Wf kids rank bound) {a b} (hb : ∀ x, b ∉ kids x)
    (hparent : L.parent b = some a) :
    (L.push a b).Wf (update kids a (b :: kids a)) rank (max bound (rank b + 1)) := by
  refine ⟨fun x => ?_, fun x y hy => ?_, h.rank_lt, fun x y hy => ?_⟩
  · have hold : Chained (L.push a b).next (L.first x) (kids x) :=
      (h.chained x).congr fun y hy => update_of_ne (by rintro rfl; exact hb x hy) ..
    by_cases hx : x = a
    · subst hx
      rw [update_self]
      refine ⟨update_self .., ?_⟩
      have hnext : (L.push x b).next b = L.first x := update_self ..
      rw [hnext]
      exact hold
    · rw [update_of_ne hx]
      have hfirst : (L.push a b).first x = L.first x := update_of_ne hx ..
      rw [hfirst]
      exact hold
  · rcases mem_kids_push hy with ⟨rfl, rfl⟩ | hy
    · exact hparent
    · exact h.parent_eq x y hy
  · rcases mem_kids_push hy with ⟨rfl, rfl⟩ | hy
    · exact Nat.lt_of_lt_of_le (Nat.lt_succ_self _) (Nat.le_max_right _ _)
    · exact Nat.lt_of_lt_of_le (h.bounded x y hy) (Nat.le_max_left _ _)

theorem unlinkAfter_spec {next next' b fuel} :
    ∀ {p : α} {l}, Chained next (next p) l → p ∉ l → b ∈ l →
      unlinkAfter next b fuel p = some next' →
      Chained next' (next' p) (l.erase b) ∧ ∀ x, x ≠ p → x ∉ l → next' x = next x := by
  induction fuel with
  | zero => exact by simp [unlinkAfter]
  | succ fuel ih =>
    intro p l hch hp hb h
    cases l with
    | nil => cases hb
    | cons c l =>
      have hnodup := hch.nodup
      rw [nodup_cons] at hnodup
      unfold unlinkAfter at h
      rw [hch.1] at h
      dsimp only at h
      have hpc : p ≠ c := fun heq => hp (heq ▸ mem_cons_self)
      have hpl : p ∉ l := fun hin => hp (mem_cons_of_mem c hin)
      split at h
      next hcb =>
        subst hcb
        cases h
        rw [erase_cons_head, update_self]
        refine ⟨hch.2.congr fun y hy => update_of_ne (by rintro rfl; exact hpl hy) ..,
          fun x hx _ => update_of_ne hx ..⟩
      next hcb =>
        have hbl : b ∈ l := (mem_cons.1 hb).resolve_left (Ne.symm hcb)
        obtain ⟨hch', hsame⟩ := ih hch.2 hnodup.1 hbl h
        rw [erase_cons_tail (by simpa using hcb)]
        have hnp : next' p = some c := by rw [hsame p hpc hpl, hch.1]
        refine ⟨⟨hnp, hch'⟩, fun x hx hxl => ?_⟩
        exact hsame x (fun heq => hxl (heq ▸ mem_cons_self))
          (fun hin => hxl (mem_cons_of_mem c hin))

theorem Links.Wf.unlink (h : L.Wf kids rank bound) {a b} (hb : b ∈ kids a)
    {fuel L'} (heq : L.unlink fuel a b = some L') :
    L'.parent = L.parent ∧ (∀ x, x ∉ kids a → L'.next x = L.next x) ∧
      L'.Wf (update kids a ((kids a).erase b)) rank bound := by
  have hch := h.chained a
  cases hkids : kids a with
  | nil =>
    rw [hkids] at hb
    cases hb
  | cons c l =>
    rw [hkids] at hch hb
    have hnodup := hch.nodup
    rw [nodup_cons] at hnodup
    -- the other lists of children are elsewhere
    have helse : ∀ x, x ≠ a → ∀ y ∈ kids x, y ∉ kids a := by
      intro x hx y hy hya
      exact hx (some.inj ((h.parent_eq x y hy).symm.trans (h.parent_eq a y hya)))
    have hmem : ∀ {x y}, y ∈ update kids a ((c :: l).erase b) x → y ∈ kids x := by
      intro x y hy
      rw [update_apply] at hy
      split at hy
      next hx =>
        rw [hx, hkids]
        exact mem_of_mem_erase hy
      · exact hy
    have hwf : ∀ {L' : Links α}, L'.parent = L.parent →
        (∀ x, Chained L'.next (L'.first x) (update kids a ((c :: l).erase b) x)) →
        L'.Wf (update kids a ((c :: l).erase b)) rank bound := by
      intro L' hparent hchain
      refine ⟨hchain, fun x y hy => ?_, ?_, fun x y hy => h.bounded x y (hmem hy)⟩
      · rw [hparent]
        exact h.parent_eq x y (hmem hy)
      · rw [hparent]
        exact h.rank_lt
    unfold Links.unlink at heq
    rw [hch.1] at heq
    dsimp only at heq
    split at heq
    next hcb =>
      subst hcb
      cases heq
      refine ⟨rfl, fun _ _ => rfl, hwf rfl fun x => ?_⟩
      by_cases hx : x = a
      · subst hx
        dsimp only
        rw [update_self, update_self, erase_cons_head]
        exact hch.2
      · dsimp only
        rw [update_of_ne hx, update_of_ne hx]
        exact h.chained x
    next hcb =>
      obtain ⟨next', hafter, rfl⟩ := map_eq_some_iff.1 heq
      have hbl : b ∈ l := (mem_cons.1 hb).resolve_left (Ne.symm hcb)
      obtain ⟨hch', hsame⟩ := unlinkAfter_spec hch.2 hnodup.1 hbl hafter
      refine ⟨rfl, fun x hx => hsame x (ne_of_not_mem_cons hx)
        (not_mem_of_not_mem_cons hx), hwf rfl fun x => ?_⟩
      by_cases hx : x = a
      · subst hx
        rw [update_self, erase_cons_tail (by simpa using hcb)]
        exact ⟨hch.1, hch'⟩
      · rw [update_of_ne hx]
        refine (h.chained x).congr fun y hy => hsame y ?_ ?_
        · rintro rfl
          exact helse x hx y hy (hkids ▸ mem_cons_self)
        · exact fun hin => helse x hx y hy (hkids ▸ mem_cons_of_mem c hin)

omit [DecidableEq α] in
/-- `b` and what is below it move below `a`: their ranks are raised. -/
theorem Links.Wf.reparent [DecidableEq α] (h : L.Wf kids rank bound) {a b}
    (hb : ∀ x, b ∉ kids x) (hna : ¬ Ancestor L.parent b a) :
    ∃ rank' bound', ({ L with parent := update L.parent b (some a) } : Links α).Wf
      kids rank' bound' := by
  classical
  refine ⟨fun x => if Ancestor L.parent b x then rank x + (rank a + 1) else rank x,
    bound + (rank a + 1), h.chained, fun x y hy => ?_, fun x y hxy => ?_, fun x y hy => ?_⟩
  · dsimp only
    rw [update_of_ne (by rintro rfl; exact hb x hy)]
    exact h.parent_eq x y hy
  · dsimp only at hxy
    by_cases hyb : y = b
    · subst hyb
      rw [update_self] at hxy
      cases hxy
      rw [if_neg hna, if_pos .refl]
      omega
    · rw [update_of_ne hyb] at hxy
      have hlt := h.rank_lt x y hxy
      have hiff : Ancestor L.parent b y ↔ Ancestor L.parent b x := by
        constructor
        · intro hanc
          cases hanc with
          | refl => exact absurd rfl hyb
          | step hp hanc =>
            obtain rfl := some.inj (hp.symm.trans hxy)
            exact hanc
        · exact .step hxy
      by_cases hanc : Ancestor L.parent b x
      · rw [if_pos hanc, if_pos (hiff.2 hanc)]
        omega
      · rw [if_neg hanc, if_neg (fun hy => hanc (hiff.1 hy))]
        exact hlt
  · have hlt := h.bounded x y hy
    split <;> omega

end Edit

end ObjcRuntime.Lib
