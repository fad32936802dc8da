import ObjcRuntime.Classes.Frames
import ObjcRuntime.Lib.ForestCycle
import Mathlib.Order.BooleanAlgebra.Set

/-!
# ObjcRuntime.Classes.Graph

The graph of the realized classes is a forest in every reachable state.

`Graph` relates the pointers to lists of subclasses and roots. Realizing a class
marks it before it is linked, and meanwhile its superclass and metaclass are
realized; moving a class unlinks it first. The classes that are marked but not
linked are `pending`. Every operation is done while no class is pending, and the
lemmas below say what each pointer change does to the pending classes.

`realizeClass_induction` is the induction over the recursion of
`realizeClassWithoutSwift`, for the properties the other modules prove.
-/

namespace ObjcRuntime.Classes

open Function Lib List Option Set

variable {κ : Type} {img : Image} {count : Nat} {s s' : State κ}

/-- The pointers describe the subclasses `kids` and the roots. -/
structure Graph (img : Image) (s : State κ) (pending : Set Cls) (kids : Cls → List Cls)
    (roots : List Cls) (rank : Cls → Nat) (bound : Nat) : Prop where
  wf : s.links.Wf kids rank bound
  chained_roots : Chained s.nextSiblingClass s.firstRealizedClass roots
  root_superclass : ∀ r ∈ roots, s.superclass r = none
  settled_kid : ∀ a, ∀ b ∈ kids a, s.realized b = true ∧ b ∉ pending
  settled_root : ∀ r ∈ roots, s.realized r = true ∧ r ∉ pending
  linked : ∀ c p, s.realized c = true → c ∉ pending → s.superclass c = some p →
    c ∈ kids p ∧ s.realized p = true
  rooted : ∀ c, s.realized c = true → c ∉ pending → s.superclass c = none → c ∈ roots
  realized_isa : ∀ c, s.realized c = true → c ∉ pending → s.realized (img.isa c) = true
  superclass_isa : ∀ c p, img.isMeta c = false → s.superclass c = some p →
    img.isMeta p = false ∧ s.superclass (img.isa c) = some (img.isa p)
  superclass_isa_root : ∀ c, img.isMeta c = false → s.superclass c = none →
    s.superclass (img.isa c) = some c

/-- Some lists of subclasses and roots fit the pointers. -/
def GraphWf (img : Image) (s : State κ) (pending : Set Cls) : Prop :=
  ∃ kids roots rank bound, Graph img s pending kids roots rank bound

section Facts

variable {pending : Set Cls} {kids : Cls → List Cls} {roots : List Cls} {rank : Cls → Nat}
  {bound : Nat}

variable (h : Graph img s pending kids roots rank bound)
include h

theorem Graph.congr (heq : SameGraph s s') : Graph img s' pending kids roots rank bound := by
  have hlinks := heq.links
  obtain ⟨hsuper, -, hnext, hroot, hreal, -⟩ := heq
  refine ⟨hlinks ▸ h.wf, ?_, ?_, ?_, ?_, ?_, ?_, ?_, ?_, ?_⟩
  · rw [hnext, hroot]
    exact h.chained_roots
  · rw [hsuper]
    exact h.root_superclass
  · rw [hreal]
    exact h.settled_kid
  · rw [hreal]
    exact h.settled_root
  · rw [hreal, hsuper]
    exact h.linked
  · rw [hreal, hsuper]
    exact h.rooted
  · rw [hreal]
    exact h.realized_isa
  · rw [hsuper]
    exact h.superclass_isa
  · rw [hsuper]
    exact h.superclass_isa_root

/-- Above a class without pending classes above it, every class is realized. -/
theorem Graph.realized_above {c d} (hanc : Ancestor s.superclass c d) (hd : s.realized d)
    (hlive : ∀ a, Ancestor s.superclass a d → a ∉ pending) : s.realized c := by
  induction hanc with
  | refl => exact hd
  | step hp _ ih =>
    exact ih (h.linked _ _ hd (hlive _ .refl) hp).2 fun a ha => hlive a (.step hp ha)

theorem Graph.under {c d} (hanc : Ancestor s.superclass c d) (hd : s.realized d)
    (hlive : ∀ a, Ancestor s.superclass a d → a ∉ pending) : Under kids c d := by
  induction hanc with
  | refl => exact .refl
  | step hp _ ih =>
    obtain ⟨hkid, hreal⟩ := h.linked _ _ hd (hlive _ .refl) hp
    exact (ih hreal fun a ha => hlive a (.step hp ha)).snoc hkid

/-- The walk from the roots comes to every class. -/
theorem Graph.under_root :
    ∀ {n} {d}, rank d ≤ n → s.realized d →
      (∀ a, Ancestor s.superclass a d → a ∉ pending) → ∃ r ∈ roots, Under kids r d := by
  intro n
  induction n using Nat.strong_induction_on with
  | _ n ih =>
    intro d hn hd hlive
    cases hp : s.superclass d with
    | none => exact ⟨d, h.rooted d hd (hlive d .refl) hp, .refl⟩
    | some p =>
      have hlt := h.wf.rank_lt p d hp
      obtain ⟨hkid, hreal⟩ := h.linked d p hd (hlive d .refl) hp
      obtain ⟨r, hr, hunder⟩ := ih (rank p) (by omega) le_rfl hreal fun a ha =>
        hlive a (.step hp ha)
      exact ⟨r, hr, hunder.snoc hkid⟩

theorem Graph.flushCaches_below [MethodCache κ] {c predicate}
    (hflush : flushCaches count (some c) predicate s = some s') {d}
    (hd : Under kids c d) (hpred : predicate (s.cache d)) :
    s'.cache d = MethodCache.erase (s.cache d) := by
  obtain ⟨cache, hcache, rfl⟩ := map_eq_some_iff.1 hflush
  obtain ⟨r, hr, rfl⟩ := map_eq_some_iff.1 hcache
  have hran := (traverse_ran h.wf hr d).1 (hd.reached fun _ _ => rfl)
  exact hran.trans (if_pos hpred)

theorem Graph.flushCaches_all [MethodCache κ] {predicate}
    (hflush : flushCaches count none predicate s = some s')
    {r d} (hr : r ∈ roots) (hd : Under kids r d) (hpred : predicate (s.cache d)) :
    s'.cache d = MethodCache.erase (s.cache d) := by
  obtain ⟨cache, hcache, rfl⟩ := map_eq_some_iff.1 hflush
  obtain ⟨res, hres, rfl⟩ := map_eq_some_iff.1 hcache
  have hran := (traverseRoots_ran h.wf h.chained_roots h.root_superclass hres d).1
    ⟨r, hr, hd.reached fun _ _ => rfl⟩
  exact hran.trans (if_pos hpred)

omit h

end Facts

/-! ### Pointer changes -/

section Edits

variable {pending : Set Cls} {kids : Cls → List Cls} {roots : List Cls} {rank : Cls → Nat}
  {bound : Nat}

variable (h : Graph img s pending kids roots rank bound)
include h

theorem Graph.kids_eq_nil {c} (hc : s.realized c = false) : kids c = [] := by
  by_contra hne
  obtain ⟨b, hb⟩ := exists_mem_of_ne_nil _ hne
  obtain ⟨hreal, hset⟩ := h.settled_kid c b hb
  have hp := (h.linked b c hreal hset (h.wf.parent_eq c b hb)).2
  cases hc.symm.trans hp

theorem Graph.allocRw [MethodCache κ] {c}
    (hc : s.realized c = false) :
    Graph img (s.allocRw c) (insert c pending) kids roots rank bound := by
  have hne : ∀ {x}, s.realized x → x ≠ c := by
    rintro x hx rfl
    cases hc.symm.trans hx
  have hreal : ∀ {x}, s.realized x → (s.allocRw c).realized x :=
    fun hx => (update_of_ne (hne hx) ..).trans hx
  have hold : ∀ {x}, (s.allocRw c).realized x → x ∉ insert c pending →
      s.realized x ∧ x ∉ pending := by
    intro x hx hmem
    rw [mem_insert_iff, not_or] at hmem
    exact ⟨(update_of_ne hmem.1 ..).symm.trans hx, hmem.2⟩
  have hset : ∀ {x}, s.realized x → x ∉ pending → x ∉ insert c pending := by
    intro x hx hmem hin
    rcases mem_insert_iff.1 hin with heq | hin
    · exact hne hx heq
    · exact hmem hin
  have hnext : ∀ {x}, s.realized x → (s.allocRw c).nextSiblingClass x = s.nextSiblingClass x :=
    fun hx => update_of_ne (hne hx) ..
  refine ⟨⟨fun a => ?_, h.wf.parent_eq, h.wf.rank_lt, h.wf.bounded⟩,
    h.chained_roots.congr fun r hr => hnext (h.settled_root r hr).1, h.root_superclass,
    fun a b hb => ?_, fun r hr => ?_, fun x p hx hmem hp => ?_, fun x hx hmem hp => ?_,
    fun x hx hmem => ?_, h.superclass_isa, h.superclass_isa_root⟩
  · have hchain := (h.wf.chained a).congr fun b hb => hnext (h.settled_kid a b hb).1
    by_cases ha : a = c
    · subst ha
      rw [h.kids_eq_nil hc]
      exact update_self ..
    · have hfirst : (s.allocRw c).firstSubclass a = s.firstSubclass a := update_of_ne ha ..
      change Chained (s.allocRw c).nextSiblingClass ((s.allocRw c).firstSubclass a) (kids a)
      rw [hfirst]
      exact hchain
  · obtain ⟨hb, hmem⟩ := h.settled_kid a b hb
    exact ⟨hreal hb, hset hb hmem⟩
  · obtain ⟨hr, hmem⟩ := h.settled_root r hr
    exact ⟨hreal hr, hset hr hmem⟩
  · obtain ⟨hx, hmem⟩ := hold hx hmem
    obtain ⟨hkid, hp⟩ := h.linked x p hx hmem hp
    exact ⟨hkid, hreal hp⟩
  · obtain ⟨hx, hmem⟩ := hold hx hmem
    exact h.rooted x hx hmem hp
  · obtain ⟨hx, hmem⟩ := hold hx hmem
    exact hreal (h.realized_isa x hx hmem)

theorem Graph.linkRoot {c} (hc : c ∈ pending) (hreal : s.realized c)
    (hsuper : s.superclass c = none) (hisa : s.realized (img.isa c)) :
    Graph img (addRootClass c s) (pending \ {c}) kids (c :: roots) rank bound := by
  have hnext : ∀ {x}, x ∉ pending →
      (addRootClass c s).nextSiblingClass x = s.nextSiblingClass x := by
    intro x hx
    exact update_of_ne (by rintro rfl; exact hx hc) ..
  refine ⟨⟨fun a => (h.wf.chained a).congr fun b hb => hnext (h.settled_kid a b hb).2,
      h.wf.parent_eq, h.wf.rank_lt, h.wf.bounded⟩, ⟨rfl, ?_⟩, fun r hr => ?_,
    fun a b hb => ⟨(h.settled_kid a b hb).1, fun hin => (h.settled_kid a b hb).2 hin.1⟩,
    fun r hr => ?_, fun x p hx hmem hp => ?_, fun x hx hmem hp => ?_, fun x hx hmem => ?_,
    h.superclass_isa, h.superclass_isa_root⟩
  · have hhead : (addRootClass c s).nextSiblingClass c = s.firstRealizedClass := update_self ..
    rw [hhead]
    exact h.chained_roots.congr fun r hr => hnext (h.settled_root r hr).2
  · rcases mem_cons.1 hr with rfl | hr
    · exact hsuper
    · exact h.root_superclass r hr
  · rcases mem_cons.1 hr with rfl | hr
    · exact ⟨hreal, fun hin => hin.2 rfl⟩
    · exact ⟨(h.settled_root r hr).1, fun hin => (h.settled_root r hr).2 hin.1⟩
  · by_cases hxc : x = c
    · cases hsuper.symm.trans (hxc ▸ hp)
    · exact h.linked x p hx (fun hin => hmem ⟨hin, hxc⟩) hp
  · by_cases hxc : x = c
    · exact hxc ▸ mem_cons_self
    · exact mem_cons_of_mem c (h.rooted x hx (fun hin => hmem ⟨hin, hxc⟩) hp)
  · by_cases hxc : x = c
    · exact hxc ▸ hisa
    · exact h.realized_isa x hx fun hin => hmem ⟨hin, hxc⟩

theorem Graph.linkSubclass {p c} (hc : c ∈ pending) (hreal : s.realized c)
    (hsuper : s.superclass c = some p) (hp : s.realized p) (hisa : s.realized (img.isa c)) :
    Graph img (s.pushSubclass p c) (pending \ {c}) (update kids p (c :: kids p)) roots
      rank (max bound (rank c + 1)) := by
  have hfresh : ∀ x, c ∉ kids x := fun x hin => (h.settled_kid x c hin).2 hc
  have hmono : ∀ {x y}, y ∈ kids x → y ∈ update kids p (c :: kids p) x := by
    intro x y hy
    rw [update_apply]
    split
    next hx => exact mem_cons_of_mem c (hx ▸ hy)
    · exact hy
  refine ⟨h.wf.push hfresh hsuper, h.chained_roots.congr fun r hr => update_of_ne ?_ ..,
    h.root_superclass, fun a b hb => ?_,
    fun r hr => ⟨(h.settled_root r hr).1, fun hin => (h.settled_root r hr).2 hin.1⟩,
    fun x q hx hmem hq => ?_, fun x hx hmem hq => ?_, fun x hx hmem => ?_, h.superclass_isa,
    h.superclass_isa_root⟩
  · rintro rfl
    exact (h.settled_root r hr).2 hc
  · rcases mem_kids_push hb with ⟨-, rfl⟩ | hb
    · exact ⟨hreal, fun hin => hin.2 rfl⟩
    · exact ⟨(h.settled_kid a b hb).1, fun hin => (h.settled_kid a b hb).2 hin.1⟩
  · by_cases hxc : x = c
    · subst hxc
      obtain rfl := some.inj (hsuper.symm.trans hq)
      refine ⟨?_, hp⟩
      rw [update_self]
      exact mem_cons_self
    · obtain ⟨hkid, hq⟩ := h.linked x q hx (fun hin => hmem ⟨hin, hxc⟩) hq
      exact ⟨hmono hkid, hq⟩
  · by_cases hxc : x = c
    · cases hsuper.symm.trans (hxc ▸ hq)
    · exact h.rooted x hx (fun hin => hmem ⟨hin, hxc⟩) hq
  · by_cases hxc : x = c
    · exact hxc ▸ hisa
    · exact h.realized_isa x hx fun hin => hmem ⟨hin, hxc⟩

omit h

theorem removeSubclass_relinked {p c} (hrem : removeSubclass count p c s = some s') :
    Relinked s s' ∧ s'.superclass = s.superclass := by
  obtain ⟨links, -, rfl⟩ := map_eq_some_iff.1 hrem
  exact ⟨⟨_, _, _, _, rfl⟩, rfl⟩

/-- A class that is taken out of its superclass's list is pending. -/
theorem Graph.unlinkSubclass (h : Graph img s pending kids roots rank bound) {p c}
    (hreal : s.realized c) (hset : c ∉ pending) (hsuper : s.superclass c = some p)
    (hrem : removeSubclass count p c s = some s') :
    Graph img s' (insert c pending) (update kids p ((kids p).erase c)) roots rank bound := by
  obtain ⟨links, hlinks, rfl⟩ := map_eq_some_iff.1 hrem
  obtain ⟨hparent, hnext, hwf⟩ := h.wf.unlink (h.linked c p hreal hset hsuper).1 hlinks
  have hnodup := (h.wf.chained p).nodup
  have hkids : ∀ {x y}, y ∈ update kids p ((kids p).erase c) x → y ∈ kids x ∧ y ≠ c := by
    intro x y hy
    rw [update_apply] at hy
    split at hy
    next hx =>
      rw [hnodup.mem_erase_iff] at hy
      exact ⟨hx ▸ hy.2, hy.1⟩
    next hx =>
      refine ⟨hy, ?_⟩
      rintro rfl
      exact hx (some.inj ((h.wf.parent_eq x y hy).symm.trans hsuper))
  have hmono : ∀ {x y}, y ∈ kids x → y ≠ c → y ∈ update kids p ((kids p).erase c) x := by
    intro x y hy hyc
    rw [update_apply]
    split
    next hx =>
      rw [hnodup.mem_erase_iff]
      exact ⟨hyc, hx ▸ hy⟩
    · exact hy
  have hold : ∀ {x}, x ∉ insert c pending → x ∉ pending ∧ x ≠ c := by
    intro x hmem
    rw [mem_insert_iff, not_or] at hmem
    exact ⟨hmem.2, hmem.1⟩
  have hlinks' : (⟨links.first, links.next, s.superclass⟩ : Links Cls) = links := by
    have hsup : links.parent = s.superclass := hparent
    rw [← hsup]
  refine ⟨?_, h.chained_roots.congr fun r hr => hnext r ?_, h.root_superclass, fun a b hb => ?_,
    fun r hr => ?_, fun x q hx hmem hq => ?_, fun x hx hmem hq => h.rooted x hx (hold hmem).1 hq,
    fun x hx hmem => h.realized_isa x hx (hold hmem).1, h.superclass_isa, h.superclass_isa_root⟩
  · change (⟨links.first, links.next, s.superclass⟩ : Links Cls).Wf _ rank bound
    rw [hlinks']
    exact hwf
  · intro hin
    cases (h.wf.parent_eq p r hin).symm.trans (h.root_superclass r hr)
  · obtain ⟨hb, hbc⟩ := hkids hb
    obtain ⟨hreal, hmem⟩ := h.settled_kid a b hb
    exact ⟨hreal, fun hin => (mem_insert_iff.1 hin).elim hbc hmem⟩
  · obtain ⟨hreal, hmem⟩ := h.settled_root r hr
    refine ⟨hreal, fun hin => (mem_insert_iff.1 hin).elim ?_ hmem⟩
    rintro rfl
    cases hsuper.symm.trans (h.root_superclass r hr)
  · obtain ⟨hmem, hxc⟩ := hold hmem
    obtain ⟨hkid, hq⟩ := h.linked x q hx hmem hq
    exact ⟨hmono hkid hxc, hq⟩

end Edits

/-! ### Moving a class -/

variable {c : Cls}

theorem Image.ne_isa (hc : img.isMeta c = false) (x : Cls) : c ≠ img.isa x := by
  rintro rfl
  cases (img.isMeta_isa x).symm.trans hc

/-- A metaclass is below another one only if its class is below the other's. -/
theorem ancestor_of_isa {superclass superclass' cls}
    (hcls : img.isMeta cls = false) (hsub : superclass cls ≠ none)
    (hsame : ∀ c, c ≠ cls → superclass' c = superclass c)
    (hisa : ∀ c p, img.isMeta c = false → superclass c = some p →
      img.isMeta p = false ∧ superclass (img.isa c) = some (img.isa p))
    (hroot : ∀ c, img.isMeta c = false → superclass c = none → superclass (img.isa c) = some c)
    {m} (h : Ancestor superclass' (img.isa cls) m) :
    ∀ {x}, img.isMeta x = false → m = img.isa x → Ancestor superclass cls x := by
  induction h with
  | refl =>
    intro x hx heq
    exact img.isa_inj cls x hcls hx heq ▸ .refl
  | @step m q hq hanc ih =>
    rintro x hx rfl
    rw [hsame _ (Image.ne_isa hcls x).symm] at hq
    cases hp : superclass x with
    | none =>
      -- the root class is above its metaclass, and nothing is above it
      obtain rfl := some.inj ((hroot x hx hp).symm.trans hq)
      have hne : x ≠ cls := by
        rintro rfl
        exact hsub hp
      cases hanc with
      | refl => exact absurd rfl (Image.ne_isa hx cls)
      | step hq' _ => cases (hsame x hne).symm.trans hq' ▸ hp
    | some p =>
      obtain ⟨hpm, hpi⟩ := hisa x p hx hp
      obtain rfl := some.inj (hpi.symm.trans hq)
      exact .step hp (ih hpm rfl)

variable {cls newSuper : Cls} {pending : Set Cls}

theorem Graph.setSuperclasses {kids roots rank bound}
    (h : Graph img s pending kids roots rank bound) (hcls : img.isMeta cls = false)
    (hnew : img.isMeta newSuper = false) (hpend : cls ∈ pending) (hpend' : img.isa cls ∈ pending)
    (hsub : s.superclass cls ≠ none) (hbelow : ¬ Ancestor s.superclass cls newSuper) :
    ∃ rank bound, Graph img (s.setSuperclasses img cls newSuper) pending kids roots rank bound := by
  have hfresh : ∀ {c}, c ∈ pending → ∀ x, c ∉ kids x := fun hc x hin => (h.settled_kid x _ hin).2 hc
  obtain ⟨rank₁, bound₁, h₁⟩ := h.wf.reparent (hfresh hpend) hbelow
  have hbelow' : ¬ Ancestor (update s.superclass cls (some newSuper)) (img.isa cls)
      (img.isa newSuper) := fun hanc =>
    hbelow (ancestor_of_isa hcls hsub (fun c hc => update_of_ne hc ..) h.superclass_isa
      h.superclass_isa_root hanc hnew rfl)
  obtain ⟨rank₂, bound₂, h₂⟩ := h₁.reparent (hfresh hpend') hbelow'
  have hother : ∀ {c}, c ≠ cls → c ≠ img.isa cls →
      (s.setSuperclasses img cls newSuper).superclass c = s.superclass c := by
    intro c hc hc'
    exact (update_of_ne hc' ..).trans (update_of_ne hc ..)
  have hsettled : ∀ {c}, c ∉ pending → (s.setSuperclasses img cls newSuper).superclass c =
      s.superclass c :=
    fun hc => hother (by rintro rfl; exact hc hpend) (by rintro rfl; exact hc hpend')
  have hself : (s.setSuperclasses img cls newSuper).superclass cls = some newSuper :=
    (update_of_ne (Image.ne_isa hcls cls) ..).trans (update_self ..)
  have hmeta : (s.setSuperclasses img cls newSuper).superclass (img.isa cls) =
      some (img.isa newSuper) := update_self ..
  -- classes other than the moved one keep their superclass, and so do their metaclasses
  have hkeep : ∀ {c}, img.isMeta c = false → c ≠ cls →
      (s.setSuperclasses img cls newSuper).superclass c = s.superclass c ∧
      (s.setSuperclasses img cls newSuper).superclass (img.isa c) = s.superclass (img.isa c) := by
    intro c hc hcc
    exact ⟨hother hcc (Image.ne_isa hc cls), hother (Image.ne_isa hcls c).symm
      fun heq => hcc (img.isa_inj c cls hc hcls heq)⟩
  refine ⟨rank₂, bound₂, h₂, h.chained_roots, fun r hr => ?_, h.settled_kid, h.settled_root,
    fun c p hc hmem hp => ?_, fun c hc hmem hp => ?_, h.realized_isa, fun c p hc hp => ?_,
    fun c hc hp => ?_⟩
  · rw [hsettled (h.settled_root r hr).2]
    exact h.root_superclass r hr
  · rw [hsettled hmem] at hp
    exact h.linked c p hc hmem hp
  · rw [hsettled hmem] at hp
    exact h.rooted c hc hmem hp
  · by_cases hcc : c = cls
    · subst hcc
      obtain rfl := some.inj (hself.symm.trans hp)
      exact ⟨hnew, hmeta⟩
    · rw [(hkeep hc hcc).1] at hp
      rw [(hkeep hc hcc).2]
      exact h.superclass_isa c p hc hp
  · by_cases hcc : c = cls
    · subst hcc
      cases hself.symm.trans hp
    · rw [(hkeep hc hcc).1] at hp
      rw [(hkeep hc hcc).2]
      exact h.superclass_isa_root c hc hp

theorem GraphWf.congr (h : GraphWf img s pending) (heq : SameGraph s s') :
    GraphWf img s' pending := by
  obtain ⟨kids, roots, rank, bound, h⟩ := h
  exact ⟨kids, roots, rank, bound, h.congr heq⟩

theorem addSubclass_graph (h : GraphWf img s pending) {p c}
    (hc : c ∈ pending) (hreal : s.realized c) (hsuper : s.superclass c = some p)
    (hp : s.realized p) (hisa : s.realized (img.isa c)) :
    GraphWf img (s.pushSubclass p c) (pending \ {c}) := by
  obtain ⟨kids, roots, rank, bound, h⟩ := h
  exact ⟨_, _, _, _, h.linkSubclass hc hreal hsuper hp hisa⟩

/-- The state in which both classes of a move are unlinked. -/
structure Unlinked (img : Image) (cls : Cls) (s s₂ : State κ) (kids : Cls → List Cls)
    (roots : List Cls) (rank : Cls → Nat) (bound : Nat) : Prop where
  relinked : Relinked s s₂
  superclass : s₂.superclass = s.superclass
  graph : Graph img s₂ {img.isa cls, cls} kids roots rank bound

theorem removeSubclasses_unlinked (h : GraphWf img s ∅) {cls old s₁ s₂}
    (hreal : s.realized cls) (hcls : img.isMeta cls = false)
    (hold : s.superclass cls = some old) (h₁ : removeSubclass count old cls s = some s₁)
    (h₂ : removeSubclass count (img.isa old) (img.isa cls) s₁ = some s₂) :
    ∃ kids roots rank bound, Unlinked img cls s s₂ kids roots rank bound := by
  obtain ⟨kids, roots, rank, bound, hg⟩ := h
  have hnil : ∀ x, x ∉ (∅ : Set Cls) := notMem_empty
  obtain ⟨hrel₁, hsuper₁⟩ := removeSubclass_relinked h₁
  obtain ⟨hrel₂, hsuper₂⟩ := removeSubclass_relinked h₂
  have hg₁ := hg.unlinkSubclass hreal (hnil _) hold h₁
  have hg₂ := hg₁.unlinkSubclass
    (by rw [hrel₁.contents.realized]; exact hg.realized_isa cls hreal (hnil _))
    (fun hin => (mem_insert_iff.1 hin).elim (Image.ne_isa hcls cls).symm (hnil _))
    (by rw [hsuper₁]; exact (hg.superclass_isa cls old hcls hold).2) h₂
  rw [insert_empty_eq] at hg₂
  exact ⟨_, _, _, _, hrel₁.trans hrel₂, hsuper₂.trans hsuper₁, hg₂⟩

section Below

variable {cls old : Cls} {s₂ : State κ} {kids : Cls → List Cls} {roots : List Cls}
  {rank : Cls → Nat} {bound : Nat}

/-- Below a class that is no root there are no metaclasses. -/
theorem Unlinked.isMeta_below (h : Unlinked img cls s s₂ kids roots rank bound)
    (hcls : img.isMeta cls = false) (hold : s.superclass cls = some old) {a}
    (ha : Under kids cls a) : img.isMeta a = false ∧ s.superclass a ≠ none := by
  induction ha with
  | refl => exact ⟨hcls, by rw [hold]; simp⟩
  | @snoc b d _ hin ih =>
    have hparent := h.graph.wf.parent_eq b d hin
    change s₂.superclass d = some b at hparent
    refine ⟨?_, by rw [← h.superclass, hparent]; simp⟩
    by_contra hmeta
    obtain ⟨c, hc, rfl⟩ := img.exists_isa d (by simpa using hmeta)
    cases hp : s₂.superclass c with
    | none =>
      obtain rfl := some.inj ((h.graph.superclass_isa_root c hc hp).symm.trans hparent)
      exact ih.2 (h.superclass ▸ hp)
    | some p =>
      obtain ⟨-, hisa⟩ := h.graph.superclass_isa c p hc hp
      obtain rfl := some.inj (hisa.symm.trans hparent)
      cases (img.isMeta_isa p).symm.trans ih.1

theorem Unlinked.under (h : Unlinked img cls s s₂ kids roots rank bound) {d}
    (hanc : Ancestor s.superclass cls d) (hd : s.realized d) (hmeta : img.isMeta d = false) :
    Under kids cls d := by
  rw [← h.superclass] at hanc
  rw [← h.relinked.contents.realized] at hd
  have hrank : ∀ {d}, Ancestor s₂.superclass cls d → rank cls ≤ rank d := by
    intro d hd
    induction hd with
    | refl => exact le_rfl
    | step hp _ ih => exact le_trans ih (le_of_lt (h.graph.wf.rank_lt _ _ hp))
  induction hanc with
  | refl => exact .refl
  | @step d p hp hanc ih =>
    have hset : d ∉ ({img.isa cls, cls} : Set Cls) := by
      rintro (rfl | rfl)
      · cases (img.isMeta_isa cls).symm.trans hmeta
      · exact absurd (hrank hanc) (not_le.2 (h.graph.wf.rank_lt _ _ hp))
    obtain ⟨hkid, hreal⟩ := h.graph.linked d p hd hset hp
    exact (ih hreal (h.graph.superclass_isa d p hmeta hp).1).snoc hkid

end Below

/-! ### Linking a class -/

theorem linkClass_cases (h : linkClass img count c s = some s') :
    (∃ p, s.superclass c = some p ∧ addSubclass img count p c s = some s') ∨
      s.superclass c = none ∧ s' = addRootClass c s := by
  unfold linkClass at h
  split at h
  next p hp => exact .inl ⟨p, hp, h⟩
  next hp => exact .inr ⟨hp, (some.inj h).symm⟩

theorem linkClass_contents (h : linkClass img count c s = some s') :
    SameContents s s' ∧ s'.superclass = s.superclass := by
  rcases linkClass_cases h with ⟨p, -, h⟩ | ⟨-, rfl⟩
  · have hflags := addSubclass_flagsOnly h
    exact ⟨(relinked_pushSubclass s p c).contents.trans hflags.contents, hflags.graph.superclass⟩
  · exact ⟨⟨rfl, rfl, rfl, rfl, rfl, rfl⟩, rfl⟩

/-- What realizing a class does to the classes it does not realize. -/
structure Realizes (s s' : State κ) : Prop where
  superclass : s'.superclass = s.superclass
  initialized : s'.initialized = s.initialized
  realized : ∀ c, s.realized c = true → s'.realized c = true

theorem Realizes.trans {s''} (h : Realizes s s') (h' : Realizes s' s'') : Realizes s s'' :=
  ⟨h'.superclass.trans h.superclass, h'.initialized.trans h.initialized,
    fun c hc => h'.realized c (h.realized c hc)⟩

/-- Linking the class ends its being pending. -/
theorem linkClass_graph (h : GraphWf img s pending) (hc : c ∈ pending)
    (hreal : s.realized c) (hsuper : ∀ p, s.superclass c = some p → s.realized p)
    (hisa : s.realized (img.isa c)) (hlink : linkClass img count c s = some s') :
    GraphWf img s' (pending \ {c}) := by
  rcases linkClass_cases hlink with ⟨p, hp, hadd⟩ | ⟨hp, rfl⟩
  · exact (addSubclass_graph h hc hreal hp (hsuper p hp) hisa).congr
      (addSubclass_flagsOnly hadd).graph
  · obtain ⟨kids, roots, rank, bound, h⟩ := h
    exact ⟨_, _, _, _, h.linkRoot hc hreal hp hisa⟩

theorem Graph.under_iff {kids roots rank bound} (h : Graph img s ∅ kids roots rank bound) {top d}
    (htop : s.realized top) : Under kids top d ↔ s.realized d ∧ Ancestor s.superclass top d := by
  refine ⟨fun hd => ?_, fun hd => h.under hd.2 hd.1 fun _ _ => notMem_empty _⟩
  induction hd with
  | refl => exact ⟨htop, .refl⟩
  | snoc _ hin ih => exact ⟨(h.settled_kid _ _ hin).1, .step (h.wf.parent_eq _ _ hin) ih.2⟩

/-! ### Moving a class and its cache -/

variable [MethodCache κ] {r : Cls × State κ}

theorem setSuperclass_cases (h : setSuperclass img count cls newSuper s = some r) :
    ∃ old s₁ s₂ s₃ s₄ s₅, s.superclass cls = some old ∧
      removeSubclass count old cls s = some s₁ ∧
      removeSubclass count (img.isa old) (img.isa cls) s₁ = some s₂ ∧
      addSubclass img count newSuper cls (s₂.setSuperclasses img cls newSuper) = some s₃ ∧
      addSubclass img count (img.isa newSuper) (img.isa cls) s₃ = some s₄ ∧
      flushCaches count (some cls) (fun _ => true) s₄ = some s₅ ∧
      flushCaches count (some (img.isa cls)) (fun _ => true) s₅ = some r.2 := by
  unfold setSuperclass at h
  split at h
  · cases h
  next old hold =>
    obtain ⟨s₁, h₁, h⟩ := bind_eq_some_iff.1 h
    obtain ⟨s₂, h₂, h⟩ := bind_eq_some_iff.1 h
    obtain ⟨s₃, h₃, h⟩ := bind_eq_some_iff.1 h
    obtain ⟨s₄, h₄, h⟩ := bind_eq_some_iff.1 h
    obtain ⟨s₅, h₅, h⟩ := bind_eq_some_iff.1 h
    obtain ⟨s₆, h₆, h⟩ := bind_eq_some_iff.1 h
    cases h
    exact ⟨old, s₁, s₂, s₃, s₄, s₅, hold, h₁, h₂, h₃, h₄, h₅, h₆⟩

/-- A class is not moved below itself: the flush would not come to an end. -/
theorem setSuperclass_not_below (h : GraphWf img s ∅)
    (hallowed : (Act.setSuperclass cls newSuper).Allowed img s)
    (hset : setSuperclass img count cls newSuper s = some r) :
    ¬ Ancestor s.superclass cls newSuper := by
  intro hanc
  obtain ⟨hreal, hnewReal, hcls, hnew⟩ := hallowed
  obtain ⟨old, s₁, s₂, s₃, s₄, s₅, hold, h₁, h₂, h₃, h₄, h₅, -⟩ := setSuperclass_cases hset
  obtain ⟨kids, roots, rank, bound, hun⟩ := removeSubclasses_unlinked h hreal hcls hold h₁ h₂
  have hsame₃ := (addSubclass_flagsOnly h₃).graph
  have hsame₄ := (addSubclass_flagsOnly h₄).graph
  have hfirst : s₄.firstSubclass = update (update s₂.firstSubclass newSuper
      (some cls)) (img.isa newSuper) (some (img.isa cls)) := by
    rw [hsame₄.firstSubclass]
    change update s₃.firstSubclass _ _ = _
    rw [hsame₃.firstSubclass]
    rfl
  have hkid : ∀ {a b}, b ∈ kids a → b ≠ img.isa cls ∧ b ≠ cls := by
    intro a b hb
    have hset := (hun.graph.settled_kid a b hb).2
    rw [mem_insert_iff, mem_singleton_iff, not_or] at hset
    exact hset
  have hnext : ∀ {b}, b ≠ img.isa cls → b ≠ cls →
      s₄.nextSiblingClass b = s₂.nextSiblingClass b := by
    intro b hb hb'
    rw [hsame₄.nextSiblingClass]
    refine (update_of_ne hb ..).trans ?_
    rw [hsame₃.nextSiblingClass]
    exact update_of_ne hb' ..
  have hsuper : ∀ {b}, b ≠ img.isa cls → b ≠ cls → s₄.superclass b = s₂.superclass b := by
    intro b hb hb'
    rw [hsame₄.superclass]
    change s₃.superclass b = _
    rw [hsame₃.superclass]
    exact (update_of_ne hb ..).trans (update_of_ne hb' ..)
  have hknot : s₄.links.Knot kids rank bound cls newSuper := by
    refine ⟨hun.under hanc hnewReal hnew, ?_, fun a ha hax => ?_, fun a b hb => ?_,
      fun a b hb => hun.graph.wf.rank_kid hb, hun.graph.wf.bounded⟩
    · change s₄.firstSubclass newSuper = some cls
      rw [hfirst]
      exact (update_of_ne (Image.ne_isa hnew newSuper) ..).trans (update_self ..)
    · have hmeta := (hun.isMeta_below hcls hold ha).1
      have heq : s₄.firstSubclass a = s₂.firstSubclass a := by
        rw [hfirst]
        exact (update_of_ne (Image.ne_isa hmeta newSuper) ..).trans (update_of_ne hax ..)
      change Chained s₄.nextSiblingClass (s₄.firstSubclass a) (kids a)
      rw [heq]
      exact (hun.graph.wf.chained a).congr fun b hb => hnext (hkid hb).1 (hkid hb).2
    · exact (hsuper (hkid hb).1 (hkid hb).2).trans (hun.graph.wf.parent_eq a b hb)
  obtain ⟨cache, hcache, -⟩ := map_eq_some_iff.1 h₅
  obtain ⟨res, hres, -⟩ := map_eq_some_iff.1 hcache
  cases (hknot.traverse_eq_none (fun _ _ => rfl) _ _).symm.trans hres

/-- The stages of a move: both classes are unlinked, then linked one by one. -/
theorem setSuperclass_graph (h : GraphWf img s ∅)
    (hallowed : (Act.setSuperclass cls newSuper).Allowed img s)
    (hset : setSuperclass img count cls newSuper s = some r) :
    ∃ s₂ s₃ s₄ s₅, Relinked s s₂ ∧
      s₂.superclass = (s.setSuperclasses img cls newSuper).superclass ∧
      GraphWf img (s₂.pushSubclass newSuper cls) {img.isa cls} ∧
      addSubclass img count newSuper cls s₂ = some s₃ ∧
      GraphWf img (s₃.pushSubclass (img.isa newSuper) (img.isa cls)) ∅ ∧
      addSubclass img count (img.isa newSuper) (img.isa cls) s₃ = some s₄ ∧
      flushCaches count (some cls) (fun _ => true) s₄ = some s₅ ∧
      flushCaches count (some (img.isa cls)) (fun _ => true) s₅ = some r.2 := by
  have hbelow := setSuperclass_not_below h hallowed hset
  obtain ⟨hreal, hnewReal, hcls, hnew⟩ := hallowed
  obtain ⟨old, s₁, s₂, s₃, s₄, s₅, hold, h₁, h₂, h₃, h₄, h₅, h₆⟩ := setSuperclass_cases hset
  have hgraph := h
  obtain ⟨kids, roots, rank, bound, hg⟩ := h
  have hnil : ∀ x, x ∉ (∅ : Set Cls) := notMem_empty
  have hisa := hg.realized_isa cls hreal (hnil _)
  have hisa' := hg.realized_isa _ hisa (hnil _)
  have hnewIsa := hg.realized_isa _ hnewReal (hnil _)
  obtain ⟨kids₂, roots₂, rank₂, bound₂, hun⟩ :=
    removeSubclasses_unlinked hgraph hreal hcls hold h₁ h₂
  have hrel : Relinked s (s₂.setSuperclasses img cls newSuper) :=
    hun.relinked.trans ⟨_, _, _, _, rfl⟩
  have hreal₂ := hrel.contents.realized
  obtain ⟨rank', bound', hg₃⟩ := hun.graph.setSuperclasses hcls hnew
    (mem_insert_of_mem _ (mem_singleton _)) (mem_insert _ _)
    (by rw [hun.superclass, hold]; simp) (by rw [hun.superclass]; exact hbelow)
  have hpend : ({img.isa cls, cls} : Set Cls) \ {cls} = {img.isa cls} := by
    rw [insert_sdiff_of_notMem _ (by simpa using (Image.ne_isa hcls cls).symm), sdiff_self,
      insert_empty_eq]
  have hgraph₁ := addSubclass_graph ⟨_, _, _, _, hg₃⟩
    (mem_insert_of_mem _ (mem_singleton _)) (by rw [hreal₂]; exact hreal)
    ((update_of_ne (Image.ne_isa hcls cls) ..).trans (update_self ..))
    (by rw [hreal₂]; exact hnewReal) (by rw [hreal₂]; exact hisa)
  rw [hpend] at hgraph₁
  have hsame₁ := (addSubclass_flagsOnly h₃).graph
  have hreal₃ : s₃.realized = s.realized := hsame₁.realized.trans hreal₂
  have hgraph₂ := addSubclass_graph (hgraph₁.congr hsame₁) (mem_singleton _)
    (by rw [hreal₃]; exact hisa) (by rw [hsame₁.superclass]; exact update_self ..)
    (by rw [hreal₃]; exact hnewIsa) (by rw [hreal₃]; exact hisa')
  rw [sdiff_self] at hgraph₂
  refine ⟨_, s₃, s₄, s₅, hrel, ?_, hgraph₁, h₃, hgraph₂, h₄, h₅, h₆⟩
  change update (update s₂.superclass _ _) _ _ = _
  rw [hun.superclass]
  rfl

/-! ### Realizing a class -/

theorem realizeClass_cases {depth}
    (h : realizeClassWithoutSwift img count depth (some c) s = some s') :
    s.realized c ∧ s' = s ∨
    s.realized c = false ∧ ∃ n s₁ s₂ s₃, depth = n + 1 ∧
      realizeClassWithoutSwift img count n (s.superclass c) (s.allocRw c) = some s₁ ∧
      realizeClassWithoutSwift img count n (some (img.isa c)) s₁ = some s₂ ∧
      linkClass img count c s₂ = some s₃ ∧ methodizeClass img count c s₃ = some s' := by
  cases depth with
  | zero =>
    rw [realizeClassWithoutSwift] at h
    split at h
    next hreal => exact .inl ⟨hreal, (some.inj h).symm⟩
    · cases h
  | succ n =>
    rw [realizeClassWithoutSwift] at h
    split at h
    next hreal => exact .inl ⟨hreal, (some.inj h).symm⟩
    next hreal =>
      obtain ⟨s₁, h₁, h⟩ := bind_eq_some_iff.1 h
      obtain ⟨s₂, h₂, h⟩ := bind_eq_some_iff.1 h
      obtain ⟨s₃, h₃, h⟩ := bind_eq_some_iff.1 h
      exact .inr ⟨by simpa using hreal, n, s₁, s₂, s₃, rfl, h₁, h₂, h₃, h⟩

theorem realizes_allocRw (s : State κ) (c : Cls) : Realizes s (s.allocRw c) := by
  refine ⟨rfl, rfl, fun x hx => ?_⟩
  change update s.realized c true x
  rw [update_apply]
  split
  · rfl
  · exact hx

theorem realizes_linked {s₁} (hlink : linkClass img count c s = some s₁)
    (hmeth : methodizeClass img count c s₁ = some s') :
    Realizes s s' ∧ s'.realized = s.realized := by
  obtain ⟨hsame, hsuper⟩ := linkClass_contents hlink
  have hgraph := (methodizeClass_changesAt hmeth).graph
  have hreal := hgraph.realized.trans hsame.realized
  refine ⟨⟨hgraph.superclass.trans hsuper, hgraph.initialized.trans hsame.initialized,
    fun x hx => ?_⟩, hreal⟩
  rw [hreal]
  exact hx

theorem realizeClass_realizes {depth} :
    ∀ {cls} {s s' : State κ},
      realizeClassWithoutSwift img count depth cls s = some s' →
      Realizes s s' ∧ ∀ c, cls = some c → s'.realized c := by
  induction depth using Nat.strong_induction_on with
  | _ depth ih =>
    intro cls s s' h
    cases cls with
    | none =>
      rw [realizeClassWithoutSwift] at h
      cases h
      exact ⟨⟨rfl, rfl, fun _ h => h⟩, by simp⟩
    | some c =>
      rcases realizeClass_cases h with ⟨hreal, rfl⟩ | ⟨-, m, s₁, s₂, s₃, rfl, h₁, h₂, h₃, h₄⟩
      · exact ⟨⟨rfl, rfl, fun _ h => h⟩, fun _ heq => some.inj heq ▸ hreal⟩
      · have hr₁ := (ih m m.lt_succ_self h₁).1
        have hr₂ := (ih m m.lt_succ_self h₂).1
        have hbefore := ((realizes_allocRw s c).trans hr₁).trans hr₂
        have hmark : s₂.realized c := hr₂.realized c (hr₁.realized c (update_self ..))
        obtain ⟨hlast, hsame⟩ := realizes_linked h₃ h₄
        refine ⟨hbefore.trans hlast, fun x heq => ?_⟩
        rw [hsame]
        exact some.inj heq ▸ hmark

/-- To prove something of a realization: it holds after a class is marked, and
linking and methodizing the class keep it. -/
theorem realizeClass_induction (Inv : Set Cls → State κ → Prop)
    (halloc : ∀ P s c, GraphWf img s P → Inv P s → s.realized c = false →
      Inv (insert c P) (s.allocRw c))
    (hmethodize : ∀ P s s₁ s' c, GraphWf img s P → Inv P s → c ∈ P → s.realized c →
      linkClass img count c s = some s₁ → GraphWf img s₁ (P \ {c}) →
      methodizeClass img count c s₁ = some s' → Inv (P \ {c}) s') {depth} :
    ∀ {cls} {P : Set Cls} {s s'}, GraphWf img s P → Inv P s →
      (∀ c ∈ P, s.realized c) →
      realizeClassWithoutSwift img count depth cls s = some s' → GraphWf img s' P ∧ Inv P s' := by
  induction depth using Nat.strong_induction_on with
  | _ depth ih =>
    intro cls P s s' hg hinv hP h
    cases cls with
    | none =>
      rw [realizeClassWithoutSwift] at h
      cases h
      exact ⟨hg, hinv⟩
    | some c =>
      rcases realizeClass_cases h with ⟨-, rfl⟩ | ⟨hreal, m, s₁, s₂, s₃, rfl, h₁, h₂, h₃, h₄⟩
      · exact ⟨hg, hinv⟩
      · have hm := m.lt_succ_self
        have hnot : c ∉ P := fun hin => absurd (hreal.symm.trans (hP c hin)) (by simp)
        have hmark : (s.allocRw c).realized c := update_self ..
        have hP₀ : ∀ x ∈ insert c P, (s.allocRw c).realized x := by
          intro x hx
          rcases mem_insert_iff.1 hx with rfl | hx
          · exact hmark
          · exact (realizes_allocRw s c).realized x (hP x hx)
        have hg₀ : GraphWf img (s.allocRw c) (insert c P) := by
          obtain ⟨kids, roots, rank, bound, hg⟩ := hg
          exact ⟨_, _, _, _, hg.allocRw hreal⟩
        -- the superclass and the metaclass, with this class pending
        obtain ⟨hr₁, hsuper₁⟩ := realizeClass_realizes h₁
        obtain ⟨hr₂, hisa₂⟩ := realizeClass_realizes h₂
        obtain ⟨hg₁, hinv₁⟩ := ih m hm hg₀ (halloc P s c hg hinv hreal) hP₀ h₁
        obtain ⟨hg₂, hinv₂⟩ := ih m hm hg₁ hinv₁ (fun x hx => hr₁.realized x (hP₀ x hx)) h₂
        have hsuper₂ : ∀ p, s₂.superclass c = some p → s₂.realized p := by
          intro p hp
          rw [hr₂.superclass, hr₁.superclass] at hp
          exact hr₂.realized p (hsuper₁ p hp)
        have hmark₂ := hr₂.realized c (hr₁.realized c hmark)
        have hdiff : insert c P \ {c} = P := insert_sdiff_self_of_notMem hnot
        have hg₃ := linkClass_graph hg₂ (mem_insert c P) hmark₂ hsuper₂ (hisa₂ _ rfl) h₃
        have hinv₃ := hmethodize _ _ _ _ _ hg₂ hinv₂ (mem_insert c P) hmark₂ h₃ hg₃ h₄
        rw [hdiff] at hg₃ hinv₃
        exact ⟨hg₃.congr (methodizeClass_changesAt h₄).graph, hinv₃⟩

/-! ### Runs -/

theorem graphWf_initial (h : Initial img s) : GraphWf img s ∅ := by
  have hwf : s.links.Wf (fun _ => []) img.depth 0 := by
    refine ⟨fun a => h.firstSubclass a, by simp, fun a b hb => ?_, by simp⟩
    have hparent : s.superclass b = some a := hb
    rw [h.superclass] at hparent
    exact img.depth_lt b a hparent
  have hreal : ∀ {c}, s.realized c → False := by
    intro c hc
    cases (h.realized c).symm.trans hc
  refine ⟨fun _ => [], [], img.depth, 0, hwf, h.firstRealizedClass, by simp, by simp, by simp,
    fun c p hc => (hreal hc).elim, fun c hc => (hreal hc).elim, fun c hc => (hreal hc).elim, ?_, ?_⟩
  · rw [h.superclass]
    exact img.superclass_isa
  · rw [h.superclass]
    exact img.superclass_isa_root

theorem step_graph (h : GraphWf img s ∅) {act} (hallowed : act.Allowed img s)
    (hstep : step img count s act = some s') : GraphWf img s' ∅ := by
  cases act with
  | realize cls =>
    exact (realizeClass_induction (fun _ _ => True) (fun _ _ _ _ _ _ => trivial)
      (fun _ _ _ _ _ _ _ _ _ _ _ _ => trivial) h trivial (by simp)
      hstep).1
  | setInitialized cls =>
    obtain ⟨s₁, hflags, heq⟩ := setInitialized_frame img cls s
    obtain rfl := (some.inj hstep).symm.trans heq
    obtain ⟨kids, roots, rank, bound, h⟩ := h.congr hflags.graph
    exact ⟨kids, roots, rank, bound, h.wf, h.chained_roots, h.root_superclass, h.settled_kid,
      h.settled_root, h.linked, h.rooted, h.realized_isa, h.superclass_isa, h.superclass_isa_root⟩
  | lookUp sel cls behavior =>
    obtain ⟨r, hr, rfl⟩ := map_eq_some_iff.1 hstep
    obtain ⟨cache, heq⟩ := lookUpLocked_frame hr
    rw [heq]
    exact h.congr ⟨rfl, rfl, rfl, rfl, rfl, rfl⟩
  | lookUpStructor cls sel =>
    cases hstep
    obtain ⟨cache, heq⟩ := lookupMethodInClass_frame img cls sel s
    rw [heq]
    exact h.congr ⟨rfl, rfl, rfl, rfl, rfl, rfl⟩
  | addMethod cls name imp replace =>
    obtain ⟨r, hr, rfl⟩ := map_eq_some_iff.1 hstep
    exact h.congr (addMethod_changesAt hr).graph
  | addMethods cls methods replace =>
    obtain ⟨r, hr, rfl⟩ := map_eq_some_iff.1 hstep
    exact h.congr (addMethods_changesAt hr).graph
  | setImplementation owner m imp =>
    obtain ⟨r, hr, rfl⟩ := map_eq_some_iff.1 hstep
    exact h.congr (methodSetImplementation_changesAt hr).graph
  | exchangeImplementations c₁ m₁ c₂ m₂ =>
    obtain ⟨s₁, h₁, s₂, h₂, h₃⟩ := exchangeImplementations_cases hstep
    have hset := (changesAt_setImp s c₁ m₁ (s.method c₂ m₂).imp).graph.trans
      (changesAt_setImp _ c₂ m₂ (s.method c₁ m₁).imp).graph
    exact h.congr (((hset.trans (flushCaches_changesAt h₁ c₁).graph).trans
      (adjustCustomFlags_flagsOnly h₂).graph).trans (adjustCustomFlags_flagsOnly h₃).graph)
  | loadCategory cat =>
    obtain ⟨s₁, h₁, h₂⟩ := loadCategory_cases hstep
    exact h.congr ((loadFor_changesAt h₁).graph.trans (loadFor_changesAt h₂).graph)
  | setSuperclass cls newSuper =>
    obtain ⟨r, hr, rfl⟩ := map_eq_some_iff.1 hstep
    obtain ⟨s₂, s₃, s₄, s₅, -, -, -, -, hgraph, h₄, h₅, h₆⟩ := setSuperclass_graph h hallowed hr
    exact hgraph.congr (((addSubclass_flagsOnly h₄).graph.trans
      (flushCaches_changesAt h₅ cls).graph).trans (flushCaches_changesAt h₆ cls).graph)

theorem reachable_graph {s₀} (hinit : Initial img s₀) (h : Reachable img s₀ s) :
    GraphWf img s ∅ := by
  induction h with
  | init => exact graphWf_initial hinit
  | step count act _ hallowed hstep ih => exact step_graph ih hallowed hstep

/-! ### Enumerations -/

/-- With a large enough counter, code that always goes on to the subclasses runs once on each
realized class, or each one below `top`, and on no other. -/
theorem enumerates_realized {ρ : Type} {s₀} (hinit : Initial img s₀) (hreach : Reachable img s₀ s)
    {code : Cls → ρ → Bool × ρ} (hcode : ∀ c x, (code c x).1) (m : Cls → ρ) :
    (∃ m' bound, (∀ count, bound ≤ count →
        foreachRealizedClassAndMetaclass count s code m = some m') ∧
      ∀ d, (s.realized d → m' d = (code d (m d)).2) ∧ (¬s.realized d → m' d = m d)) ∧
    ∀ top, s.realized top → ∃ m' bound, (∀ count, bound ≤ count →
        foreachRealizedClassAndSubclass count s top code m = some m') ∧
      ∀ d, (s.realized d ∧ Ancestor s.superclass top d → m' d = (code d (m d)).2) ∧
        (¬(s.realized d ∧ Ancestor s.superclass top d) → m' d = m d) := by
  obtain ⟨kids, roots, rank, bound, h⟩ := reachable_graph hinit hreach
  have hunder : ∀ {a d}, Reached kids code m a d ↔ Under kids a d :=
    ⟨Reached.under, fun hd => hd.reached hcode⟩
  constructor
  · obtain ⟨m', hran, cost, hcost⟩ : ∃ m', RanBelowAll kids code m roots m m' ∧ _ :=
      traverseRoots_apply h.wf h.chained_roots h.root_superclass m m fun _ _ _ _ => rfl
    refine ⟨m', cost + roots.length + 1, fun count hcount => ?_, fun d => ?_⟩
    · rw [foreachRealizedClassAndMetaclass, ← Nat.sub_add_cancel (show cost ≤ count - 1 by omega),
        hcost _ count (by omega)]
      rfl
    · have hd : (∃ r ∈ roots, Reached kids code m r d) ↔ s.realized d := by
        constructor
        · rintro ⟨r, hr, hd⟩
          exact ((h.under_iff (h.settled_root r hr).1).1 (hunder.1 hd)).1
        · intro hd
          obtain ⟨r, hr, hrd⟩ := h.under_root le_rfl hd fun _ _ => notMem_empty _
          exact ⟨r, hr, hunder.2 hrd⟩
      rw [← hd]
      exact hran d
  · intro top htop
    obtain ⟨m', hran, cost, hcost⟩ := traverse_apply h.wf code top m
    refine ⟨m', cost + 1, fun count hcount => ?_, fun d => ?_⟩
    · rw [foreachRealizedClassAndSubclass, ← Nat.sub_add_cancel (show cost ≤ count - 1 by omega),
        hcost]
      rfl
    · rw [← h.under_iff htop, ← hunder]
      exact hran d

end ObjcRuntime.Classes
