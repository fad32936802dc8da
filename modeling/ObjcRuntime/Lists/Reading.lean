import ObjcRuntime.Lists.Edits
import Mathlib.Data.List.Forall2
import Mathlib.Data.List.ReduceOption

/-!
# ObjcRuntime.Lists.Reading

When the lists of an array can be read, and what keeps them.

An array stays readable while nobody frees its block. `attachLists` frees the block of
its own array only, so that arrays in blocks of their own do not disturb each other
(`Arranged`).
-/

namespace ObjcRuntime.Lists

open Function List Option World Store

variable {L : Type} {s s' : Store L} {la lb : ListArray} {xs ys zs : List L}

/-! ### One array -/

/-- The addresses are those of the lists. -/
def Store.At (s : Store L) (ps : List Nat) (xs : List L) : Prop :=
  List.Forall₂ (fun p x => s.list p = some x) ps xs

/-- The array has the lists `xs`, and its block and the lists are allocated. -/
def Store.Reads (s : Store L) (la : ListArray) (xs : List L) : Prop :=
  ∃ ps : List Nat, Slots s.heap la (ps.map some) ∧ s.At ps xs

theorem mapM_of_forall₂ {α β : Type} {f : α → Option β} {as : List α} {bs : List β}
    (h : List.Forall₂ (fun a b => f a = some b) as bs) : as.mapM f = some bs := by
  induction h with
  | nil => rfl
  | cons hab _ ih => rw [mapM_cons, hab, ih]; rfl

theorem Slots.pointers {ps} (hs : Slots s.heap la (ps.map some)) : s.pointers la = some ps := by
  rw [Store.pointers, hs.countLists_eq, bind_eq_bind, bind_some]
  refine mapM_of_forall₂ (List.forall₂_iff_get.2 ⟨by simp, fun i hi hi' => ?_⟩)
  rw [hs.slot_eq]
  simp [getElem?_eq_getElem (show i < ps.length from hi')]

theorem Store.Reads.lists (h : s.Reads la xs) : s.lists la = some xs := by
  obtain ⟨ps, hslots, hat⟩ := h
  rw [Store.lists, hslots.pointers, bind_eq_bind, bind_some]
  exact mapM_of_forall₂ hat

theorem Store.Reads.unique (h : s.Reads la xs) (h' : s.Reads la ys) : xs = ys :=
  some.inj (h.lists.symm.trans h'.lists)

theorem Store.Reads.nil : s.Reads .nil [] := ⟨[], .nil, .nil⟩

theorem Store.Reads.list {p x} (h : s.list p = some x) : s.Reads (.list p) [x] :=
  ⟨[p], .list p, .cons h .nil⟩

theorem Slots.mono {h h' ss} (hslots : Slots h la ss)
    (hblock : ∀ a b, la = .array a → h.block a = some b → h'.block a = some b) :
    Slots h' la ss := by
  cases hslots with
  | nil => exact .nil
  | list l => exact .list l
  | array hb hcount => exact .array (hblock _ _ rfl hb) hcount

theorem Store.Reads.mono (h : s.Reads la xs) (hlist : ∀ p x, s.list p = some x → s'.list p = some x)
    (hblock : ∀ a b, la = .array a → s.heap.block a = some b → s'.heap.block a = some b) :
    s'.Reads la xs := by
  obtain ⟨ps, hslots, hat⟩ := h
  exact ⟨ps, hslots.mono hblock, hat.imp fun p x => hlist p x⟩

theorem Store.list_alloc {l x p} (h : s.list p = some x) : (s.alloc l).list p = some x := by
  refine (update_of_ne ?_ _ _).trans h
  rintro rfl
  rw [s.fresh _ le_rfl] at h
  cases h

theorem Store.list_alloc_next (l : L) : (s.alloc l).list s.next = some l :=
  update_self _ _ _

theorem Store.Reads.alloc (h : s.Reads la xs) (l : L) : (s.alloc l).Reads la xs :=
  h.mono (fun _ _ => list_alloc) fun _ _ _ hb => hb

theorem Store.At.alloc {ps} (h : s.At ps xs) (l : L) : (s.alloc l).At ps xs :=
  h.imp fun _ _ => list_alloc

/-! ### Attaching -/

/-- `attachLists` for an array of at most 2^31 lists. -/
theorem Store.Reads.attach {added} (h : s.Reads la xs) (hadded : s.At added zs)
    (hsmall : xs.length + added.length ≤ 2 ^ 31) :
    ∃ s' la', s.attach la added = some (s', la') ∧ s'.Reads la' (zs ++ xs) ∧
      s'.list = s.list ∧ Frame s.heap la s'.heap la' := by
  obtain ⟨ps, hslots, hat⟩ := h
  have hlength : ps.length = xs.length := hat.length_eq
  have hnew : attachSlots (ps.map some) added = some ((added ++ ps).map some) := by
    unfold attachSlots
    by_cases hnil : added = []
    · rw [if_pos hnil, hnil, nil_append]
    · rw [if_neg hnil, if_pos (by rw [length_map]; omega),
        if_pos (by rw [length_map]; omega), map_append]
  have hlt : added.length < 2 ^ 32 := by omega
  rcases attachLists_spec hslots hlt with ⟨hnone, -⟩ | ⟨new, h', la', hnew', hrun, hs, hframe⟩
  · rw [hnone] at hnew
    cases hnew
  · rw [hnew] at hnew'
    cases hnew'
    refine ⟨{ s with heap := h' }, la', ?_, ⟨added ++ ps, hs, ?_⟩, rfl, hframe⟩
    · rw [Store.attach, hrun]
      rfl
    · exact rel_append hadded hat

theorem Store.Reads.frame {la'} (h : s.Reads lb ys) (hlist : s'.list = s.list)
    (hframe : Frame s.heap la s'.heap la') (hapart : ∀ a, la = .array a → lb ≠ .array a) :
    s'.Reads lb ys := by
  refine h.mono (fun p x hp => hlist ▸ hp) fun a b ha hb => hframe.other a b hb ?_
  exact fun hla => hapart a hla ha

/-- The block of an array is freed when a list is attached. -/
theorem attach_frees {a p}
    (h : s.attach (.array a) [p] = some (s', la)) : s'.heap.block a = none := by
  obtain ⟨r, hr, h⟩ := bind_eq_some_iff.1 h
  cases h
  obtain ⟨b, -, hr⟩ := bind_eq_some_iff.1 hr
  obtain ⟨new, -, hr⟩ := bind_eq_some_iff.1 hr
  cases hr
  exact update_self _ _ _

/-- The arrays of a `family` of classes can be read, and those of the `movers`, which have
at most `n` lists, are in blocks of their own. -/
structure Arranged (s : Store L) (array : Nat → ListArray) (movers family : Nat → Prop) (n : Nat) :
    Prop where
  reads : ∀ c, family c → ∃ xs, s.Reads (array c) xs
  apart : ∀ c e, movers c → family e → c ≠ e → ∀ a, array c = .array a → array e ≠ .array a
  small : ∀ c xs, movers c → s.Reads (array c) xs → xs.length ≤ n

/-- What a step on the array of `c` keeps: the arrays of the others, with their lists. -/
structure Kept (s : Store L) (array : Nat → ListArray) (family : Nat → Prop) (c : Nat)
    (s' : Store L) (array' : Nat → ListArray) : Prop where
  same : ∀ e, e ≠ c → array' e = array e
  reads : ∀ e xs, family e → e ≠ c → s.Reads (array e) xs → s'.Reads (array e) xs

variable {array array' array'' : Nat → ListArray} {movers family : Nat → Prop} {n k c : Nat}

theorem Kept.refl : Kept s array family c s array := ⟨fun _ _ => rfl, fun _ _ _ _ h => h⟩

theorem Kept.trans {s''} (h : Kept s array family c s' array')
    (h' : Kept s' array' family c s'' array'') : Kept s array family c s'' array'' := by
  refine ⟨fun e he => (h'.same e he).trans (h.same e he), fun e xs hf he hr => ?_⟩
  have hmid := h.reads e xs hf he hr
  rw [← h.same e he] at hmid ⊢
  exact h'.reads e xs hf he hmid

theorem Arranged.mono (h : Arranged s array movers family n) (hn : n ≤ k) :
    Arranged s array movers family k :=
  ⟨h.reads, h.apart, fun c xs hc hr => Nat.le_trans (h.small c xs hc hr) hn⟩

theorem Arranged.alloc (h : Arranged s array movers family n) (hmovers : ∀ c, movers c → family c)
    (l : L) :
    Arranged (s.alloc l) array movers family n ∧ Kept s array family c (s.alloc l) array := by
  refine ⟨⟨fun e he => ?_, h.apart, fun e xs he hr => ?_⟩, fun _ _ => rfl,
    fun _ _ _ _ hr => hr.alloc l⟩
  · obtain ⟨xs, hr⟩ := h.reads e he
    exact ⟨xs, hr.alloc l⟩
  · obtain ⟨ys, hr'⟩ := h.reads e (hmovers e he)
    rw [hr.unique (hr'.alloc l)]
    exact h.small e ys he hr'

/-- **Attaching** lists to the array of a mover. -/
theorem Arranged.attach {added} (h : Arranged s array movers family n)
    (hmovers : ∀ c, movers c → family c) (hc : movers c) (hr : s.Reads (array c) xs)
    (hadded : s.At added zs) (hsmall : n + added.length ≤ 2 ^ 31) :
    ∃ s' la', s.attach (array c) added = some (s', la') ∧ s'.Reads la' (zs ++ xs) ∧
      s'.list = s.list ∧ Arranged s' (update array c la') movers family
        (n + added.length) ∧ Kept s array family c s' (update array c la') := by
  have hxs := h.small c xs hc hr
  obtain ⟨s', la', hrun, hr', hlist, hframe⟩ := hr.attach hadded (by omega)
  have hothers : ∀ e ys, family e → e ≠ c → s.Reads (array e) ys → s'.Reads (array e) ys :=
    fun e ys he hne hread => hread.frame hlist hframe fun a ha => h.apart c e hc he hne.symm a ha
  have hlength : zs.length = added.length := hadded.length_eq.symm
  refine ⟨s', la', hrun, hr', hlist, ⟨fun e he => ?_, fun e₁ e₂ he₁ he₂ hne a ha => ?_,
    fun e ys he hread => ?_⟩, fun e he => update_of_ne he _ _, hothers⟩
  · by_cases hec : e = c
    · rw [hec, update_self]
      exact ⟨_, hr'⟩
    · obtain ⟨ys, hread⟩ := h.reads e he
      rw [update_of_ne hec]
      exact ⟨ys, hothers e ys he hec hread⟩
  · -- the block of the array is either the old one or a fresh one, which no array uses
    have hfresh : ∀ e, family e → array e ≠ .array s.heap.next := by
      intro e he heq
      obtain ⟨ys, ps, hslots, -⟩ := h.reads e he
      rw [heq] at hslots
      generalize ps.map some = ss at hslots
      cases hslots with
      | array hb _ =>
        rw [s.heap.fresh _ le_rfl] at hb
        cases hb
    have hmoved : ∀ e, family e → e ≠ c → ∀ a, la' = .array a → array e ≠ .array a := by
      intro e he hec a ha
      rcases hframe.target a ha with hold | rfl
      · exact h.apart c e hc he hec.symm a hold
      · exact hfresh e he
    by_cases h₁ : e₁ = c
    · subst h₁
      rw [update_self] at ha
      rw [update_of_ne hne.symm]
      exact hmoved e₂ he₂ hne.symm a ha
    · rw [update_of_ne h₁] at ha
      by_cases h₂ : e₂ = c
      · subst h₂
        rw [update_self]
        exact fun hla => hmoved e₁ (hmovers e₁ he₁) h₁ a hla ha
      · rw [update_of_ne h₂]
        exact h.apart e₁ e₂ he₁ he₂ hne a ha
  · by_cases hec : e = c
    · rw [hec, update_self] at hread
      rw [hread.unique hr', length_append]
      omega
    · rw [update_of_ne hec] at hread
      obtain ⟨ys', hread'⟩ := h.reads e (hmovers e he)
      rw [hread.unique (hothers e ys' (hmovers e he) hec hread')]
      exact Nat.le_trans (h.small e ys' he hread') (Nat.le_add_right _ _)

/-! ### The buffers of categories -/

/-- The state of a buffer for the array of `c`: `xs` are attached and `zs` are pending. -/
structure Filling (s : Store L) (array : Nat → ListArray) (movers family : Nat → Prop) (c n : Nat)
    (b : Buffer L) (zs xs : List L) : Prop where
  arranged : Arranged b.store (update array c b.array) movers family n
  reads : b.store.Reads b.array xs
  pending : b.store.At b.pending zs
  kept : Kept s array family c b.store (update array c b.array)

section Filling

variable {b : Buffer L}

variable (hmovers : ∀ c, movers c → family c)
include hmovers

variable (h : Filling s array movers family c n b zs xs)
include h

theorem Filling.flush (hc : movers c) (hsmall : n + zs.length ≤ 2 ^ 31) :
    ∃ b', b.flush = some b' ∧
      Filling s array movers family c (n + zs.length) b' [] (zs ++ xs) := by
  have hlength : b.pending.length = zs.length := h.pending.length_eq
  have hr : b.store.Reads (update array c b.array c) xs := by
    rw [update_self]
    exact h.reads
  obtain ⟨s', la', hrun, hr', hlist, harranged, hkept⟩ :=
    h.arranged.attach hmovers hc hr h.pending (hlength ▸ hsmall)
  rw [update_self] at hrun
  rw [update_idem] at harranged hkept
  refine ⟨⟨s', la', []⟩, ?_, hlength ▸ harranged, hr', .nil, h.kept.trans hkept⟩
  rw [Buffer.flush, hrun]
  rfl

theorem Filling.push (hc : movers c) (entry)
    (hsmall : n + zs.length + entry.toList.length ≤ 2 ^ 31) :
    ∃ b' n' zs' xs', b.push entry = some b' ∧ Filling s array movers family c n' b' zs' xs' ∧
      n' + zs'.length = n + zs.length + entry.toList.length ∧
      zs' ++ xs' = entry.toList ++ (zs ++ xs) := by
  cases entry with
  | none => exact ⟨b, n, zs, xs, rfl, h, rfl, rfl⟩
  | some l =>
    obtain ⟨b', n', zs', xs', hfull, h', hn, hlists⟩ : ∃ b' n' zs' xs',
        b.flushIfFull = some b' ∧ Filling s array movers family c n' b' zs' xs' ∧
          n' + zs'.length = n + zs.length ∧ zs' ++ xs' = zs ++ xs := by
      unfold Buffer.flushIfFull
      split
      · obtain ⟨b', hflush, h'⟩ := h.flush hmovers hc (by omega)
        exact ⟨b', _, _, _, hflush, h', rfl, rfl⟩
      · exact ⟨b, n, zs, xs, rfl, h, rfl, rfl⟩
    obtain ⟨harranged, hkept⟩ := h'.arranged.alloc (c := c) hmovers l
    refine ⟨{ b' with store := b'.store.alloc l, pending := b'.store.next :: b'.pending }, n',
      l :: zs', xs', ?_, ⟨harranged, h'.reads.alloc l, ?_, h'.kept.trans hkept⟩, ?_, ?_⟩
    · rw [Buffer.push, hfull]
      rfl
    · exact .cons (list_alloc_next l) (h'.pending.alloc l)
    · rw [length_cons, toList_some, length_singleton]
      omega
    · rw [cons_append, hlists]
      rfl

theorem Filling.pushAll (hc : movers c) (entries)
    (hsmall : n + zs.length + entries.length ≤ 2 ^ 31) :
    ∃ b' n' zs' xs', b.pushAll entries = some b' ∧
      Filling s array movers family c n' b' zs' xs' ∧
      n' + zs'.length ≤ n + zs.length + entries.length ∧
      zs' ++ xs' = entries.reduceOption.reverse ++ (zs ++ xs) := by
  induction entries generalizing b n zs xs with
  | nil => exact ⟨b, n, zs, xs, rfl, h, le_refl _, rfl⟩
  | cons entry rest ih =>
    have hone : entry.toList.length ≤ 1 := by cases entry <;> simp
    rw [length_cons] at hsmall ⊢
    obtain ⟨b₁, n₁, zs₁, xs₁, hpush, h₁, hn₁, hlists₁⟩ := h.push hmovers hc entry (by omega)
    obtain ⟨b₂, n₂, zs₂, xs₂, hrest, h₂, hn₂, hlists₂⟩ := ih h₁ (by omega)
    refine ⟨b₂, n₂, zs₂, xs₂, ?_, h₂, by omega, ?_⟩
    · rw [Buffer.pushAll, hpush]
      exact hrest
    · rw [hlists₂, hlists₁]
      cases entry with
      | none => rw [reduceOption_cons_of_none]; rfl
      | some l => rw [reduceOption_cons_of_some, reverse_cons, append_assoc]; rfl

omit h

/-- The lists of the categories come before those that were there, the last category first. -/
theorem Arranged.attachAll (h : Arranged s array movers family n) (hc : movers c)
    (hr : s.Reads (array c) xs) (entries) (hsmall : n + entries.length ≤ 2 ^ 31) :
    ∃ s' la', Buffer.attachAll entries s (array c) = some (s', la') ∧
      s'.Reads la' (entries.reduceOption.reverse ++ xs) ∧
      Arranged s' (update array c la') movers family (n + entries.length) ∧
      Kept s array family c s' (update array c la') := by
  have hstart : Filling s array movers family c n ⟨s, array c, []⟩ [] xs := by
    refine ⟨?_, hr, .nil, ?_⟩
    · rwa [update_eq_self]
    · rw [update_eq_self]
      exact .refl
  obtain ⟨b, n', zs', xs', hpush, h', hn, hlists⟩ := hstart.pushAll hmovers hc entries hsmall
  rw [length_nil] at hn
  obtain ⟨b', hflush, hdone⟩ := h'.flush hmovers hc (by omega)
  refine ⟨b'.store, b'.array, ?_, hlists ▸ hdone.reads, hdone.arranged.mono (by omega), hdone.kept⟩
  rw [Buffer.attachAll, hpush, bind_eq_bind, bind_some, hflush]
  rfl

omit hmovers

end Filling

/-! ### Classes -/

variable {Imp A : Type} {w : World Imp A}

theorem World.rwe_setRwe (w : World Imp A) (c e : Nat) (x) :
    (w.setRwe c x).rwe e = if e = c then x else w.rwe e := by
  unfold setRwe rwe
  by_cases he : e = c
  · simp [he]
  · simp [he]

theorem exists_findProperty {ps xs} (name)
    (hat : w.properties.At ps xs) : ∃ found, w.findProperty name ps = some found := by
  induction hat with
  | nil => exact ⟨none, rfl⟩
  | @cons p x ps xs hp _ ih =>
    rw [findProperty, hp, bind_eq_bind, bind_some]
    cases x.findIdx? fun prop => prop.name = name with
    | none => exact ih
    | some i => exact ⟨_, rfl⟩

theorem exists_getPropertyIn {chain} (name)
    (h : ∀ e ∈ chain, ∃ xs, w.properties.Reads (w.rwe e).properties xs) :
    ∃ found, w.getPropertyIn name chain = some found := by
  induction chain with
  | nil => exact ⟨none, rfl⟩
  | cons e rest ih =>
    obtain ⟨⟨xs, ps, hslots, hat⟩, hrest⟩ := forall_mem_cons.1 h
    obtain ⟨found, hfound⟩ := exists_findProperty name hat
    rw [getPropertyIn, hslots.pointers, bind_eq_bind, bind_some, hfound, bind_eq_bind, bind_some]
    cases found with
    | none => exact ih hrest
    | some prop => exact ⟨_, rfl⟩

end ObjcRuntime.Lists
