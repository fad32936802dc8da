import ObjcRuntime.Ivars.Layout

/-!
# ObjcRuntime.Ivars.Slide

Sliding keeps the layout of a class.

Whatever `reconcileInstanceVariables` does to a class, it moves all of it by one
amount (`Slid`), which is a multiple of every alignment in it. So the ivars stay
disjoint and aligned among themselves, and as the class ends up past its superclass
they stay clear of all ivars above.
-/

namespace ObjcRuntime.Ivars

open Function Lib List Nat

/-! ### Well-formed classes -/

/-- Two ivars do not overlap. -/
def Ivar.Apart (a b : Ivar) : Prop :=
  ∀ x y, a.offset = some x → b.offset = some y → x + a.size ≤ y ∨ y + b.size ≤ x

/-- The ivars of a class are aligned and disjoint, inside of what the class adds to
its superclass. -/
structure ClassRo.WellFormed (lp64 : Bool) (ro : ClassRo) : Prop where
  start_le : ro.instanceStart ≤ ro.instanceSize
  size_lt : ro.instanceSize < 2 ^ 32
  raw : ∀ ivar ∈ ro.ivars, ivar.alignmentRaw < 32 ∨ ivar.alignmentRaw = 2 ^ 32 - 1
  inside : ∀ ivar ∈ ro.ivars, ∀ x, ivar.offset = some x →
    ro.instanceStart ≤ x ∧ x + ivar.size ≤ ro.instanceSize
  aligned : ∀ ivar ∈ ro.ivars, ∀ x, ivar.offset = some x → ivar.alignment lp64 ∣ x
  apart : ro.ivars.Pairwise Ivar.Apart

def Ivar.shift (n : Int) (ivar : Ivar) : Ivar :=
  { ivar with offset := ivar.offset.map fun x : Nat => ((x : Int) + n).toNat }

/-- A class is moved by `n`, which is a multiple of what its ivars are aligned to. -/
structure Slid (lp64 : Bool) (n : Int) (ro ro' : ClassRo) : Prop where
  start : (ro'.instanceStart : Int) = ro.instanceStart + n
  size : (ro'.instanceSize : Int) = ro.instanceSize + n
  ivars : ro'.ivars = ro.ivars.map (Ivar.shift n)
  dvd : ∀ ivar ∈ ro.ivars, ivar.offset.isSome → (ivar.alignment lp64 : Int) ∣ n

variable {lp64 debug : Bool} {n m : Int} {ro ro' ro'' : ClassRo}

theorem Slid.refl : Slid lp64 0 ro ro := by
  refine ⟨by simp, by simp, ?_, fun _ _ _ => Int.dvd_zero _⟩
  have hid : Ivar.shift 0 = id := by
    funext ivar
    obtain ⟨offset, raw, size⟩ := ivar
    cases offset with
    | none => rfl
    | some x => simp [Ivar.shift]
  rw [hid, map_id]

variable (h : Slid lp64 n ro ro') (hro : ro.WellFormed lp64)
include h hro

theorem Slid.offset {ivar x} (hmem : ivar ∈ ro.ivars) (hx : ivar.offset = some x) :
    ∃ y, (ivar.shift n).offset = some y ∧ (y : Int) = x + n := by
  refine ⟨((x : Int) + n).toNat, by simp [Ivar.shift, hx], ?_⟩
  have hinside := (hro.inside ivar hmem x hx).1
  have hstart := h.start
  omega

theorem Slid.wellFormed (hsize : ro'.instanceSize < 2 ^ 32) : ro'.WellFormed lp64 := by
  have hstart := h.start
  have hend := h.size
  -- an ivar of the new class comes from one of the old class
  have hold : ∀ ivar ∈ ro.ivars, ∀ y, (ivar.shift n).offset = some y →
      ∃ x, ivar.offset = some x ∧ (y : Int) = x + n := by
    intro ivar hmem y hy
    cases hx : ivar.offset with
    | none => simp [Ivar.shift, hx] at hy
    | some x =>
      obtain ⟨y', hy', heq⟩ := h.offset hro hmem hx
      rw [hy] at hy'
      cases hy'
      exact ⟨x, rfl, heq⟩
  refine ⟨?_, hsize, ?_, ?_, ?_, ?_⟩
  · have := hro.start_le
    omega
  · rw [h.ivars, forall_mem_map]
    exact hro.raw
  · rw [h.ivars, forall_mem_map]
    intro ivar hmem y hy
    obtain ⟨x, hx, heq⟩ := hold ivar hmem y hy
    obtain ⟨hle, hle'⟩ := hro.inside ivar hmem x hx
    change _ ∧ y + ivar.size ≤ _
    omega
  · rw [h.ivars, forall_mem_map]
    intro ivar hmem y hy
    obtain ⟨x, hx, heq⟩ := hold ivar hmem y hy
    have hdvd := h.dvd ivar hmem (by rw [hx]; rfl)
    have hx' := Int.natCast_dvd_natCast.2 (hro.aligned ivar hmem x hx)
    rw [← Int.natCast_dvd_natCast, heq]
    exact Int.dvd_add hx' hdvd
  · rw [h.ivars, pairwise_map]
    refine hro.apart.imp_of_mem fun {a b} ha hb hapart => ?_
    intro x' y' hx' hy'
    obtain ⟨x, hx, hxeq⟩ := hold a ha x' hx'
    obtain ⟨y, hy, hyeq⟩ := hold b hb y' hy'
    have := hapart x y hx hy
    change x' + a.size ≤ y' ∨ y' + b.size ≤ x'
    omega

theorem Slid.trans (h' : Slid lp64 m ro' ro'') : Slid lp64 (n + m) ro ro'' := by
  have hshift : ∀ ivar ∈ ro.ivars, (ivar.shift n).shift m = ivar.shift (n + m) := by
    intro ivar hmem
    cases hx : ivar.offset with
    | none => simp [Ivar.shift, hx]
    | some x =>
      obtain ⟨y, hy, heq⟩ := h.offset hro hmem hx
      have hy' : ((x : Int) + n).toNat = y := by simpa [Ivar.shift, hx] using hy
      simp [Ivar.shift, hx, hy', heq, Int.add_assoc]
  refine ⟨by rw [h'.start, h.start, Int.add_assoc], by rw [h'.size, h.size, Int.add_assoc], ?_,
    fun ivar hmem hsome => Int.dvd_add (h.dvd ivar hmem hsome) ?_⟩
  · rw [h'.ivars, h.ivars, map_map]
    exact map_congr_left hshift
  · have hmem' : ivar.shift n ∈ ro'.ivars := h.ivars ▸ mem_map_of_mem hmem
    exact h'.dvd (ivar.shift n) hmem' (by rw [Ivar.shift, Option.isSome_map]; exact hsome)

omit h hro

/-! ### The two slides -/

theorem Ivar.alignment_pow {ivar : Ivar}
    (h : ivar.alignmentRaw < 32 ∨ ivar.alignmentRaw = 2 ^ 32 - 1) :
    ∃ k, k < 32 ∧ ivar.alignment lp64 = 2 ^ k := by
  unfold Ivar.alignment wordShift
  split
  · cases lp64 with
    | false => exact ⟨2, by decide, rfl⟩
    | true => exact ⟨3, by decide, rfl⟩
  next hraw => exact ⟨ivar.alignmentRaw, h.resolve_right hraw, one_shiftLeft _⟩

theorem add32_eq {a b} (h : a + b < 2 ^ 32) : add32 a b = a + b := mod_eq_of_lt h

theorem sub32_eq {a b} (h : b ≤ a) (ha : a < 2 ^ 32) : sub32 a b = a - b := by
  unfold sub32
  omega

theorem ClassRo.mapOffsets_eq {f}
    (h : ∀ ivar ∈ ro.ivars, ∀ x, ivar.offset = some x → (f x : Int) = x + n) :
    ro.mapOffsets f = ro.ivars.map (Ivar.shift n) := by
  refine map_congr_left fun ivar hmem => ?_
  unfold Ivar.shift
  cases hx : ivar.offset with
  | none => rfl
  | some x =>
    have heq := h ivar hmem x hx
    simp [← heq]

/-- **`moveIvars` slides a class past its superclass.** -/
theorem moveIvars_slid (hro : ro.WellFormed lp64) {superSize} (hlt : ro.instanceStart < superSize)
    (hdiff : superSize - ro.instanceStart + (maxAlignment lp64 ro - 1) < 2 ^ 32)
    (hsize : ro.instanceSize + slideValue lp64 ro superSize < 2 ^ 32) :
    Slid lp64 (slideValue lp64 ro superSize) ro (moveIvars lp64 ro superSize) ∧
      (moveIvars lp64 ro superSize).WellFormed lp64 ∧
      superSize ≤ (moveIvars lp64 ro superSize).instanceStart := by
  have hpow : ∀ a ∈ (ro.ivars.filter (·.offset.isSome)).map (Ivar.alignment lp64),
      ∃ k, k < 32 ∧ a = 2 ^ k := by
    rw [forall_mem_map]
    exact fun ivar hmem => Ivar.alignment_pow (hro.raw ivar (mem_filter.1 hmem).1)
  obtain ⟨⟨k, hk, hmax⟩, -, hdvd⟩ := maxOf_spec hpow 1 ⟨0, by decide, rfl⟩
  change maxAlignment lp64 ro = 2 ^ k at hmax
  -- the slide value is rounded up
  have hround : superSize - ro.instanceStart ≤ slideValue lp64 ro superSize ∧
      2 ^ k ∣ slideValue lp64 ro superSize := by
    unfold slideValue
    dsimp only
    rw [hmax] at hdiff ⊢
    rw [add32_eq hdiff]
    exact round_up_spec (le_of_lt hk) hdiff
  obtain ⟨hle, hmultiple⟩ := hround
  have hstart := hro.start_le
  have hslid : Slid lp64 (slideValue lp64 ro superSize) ro (moveIvars lp64 ro superSize) := by
    refine ⟨?_, ?_, ClassRo.mapOffsets_eq fun ivar hmem x hx => ?_, fun ivar hmem hsome => ?_⟩
    · change ((add32 ro.instanceStart _ : Nat) : Int) = _
      rw [add32_eq (by omega)]
      rfl
    · change ((add32 ro.instanceSize _ : Nat) : Int) = _
      rw [add32_eq hsize]
      rfl
    · have hinside := (hro.inside ivar hmem x hx).2
      rw [add32_eq (by omega)]
      rfl
    · have halign := hdvd _ (mem_map_of_mem (mem_filter.2 ⟨hmem, hsome⟩))
      rw [show maxOf 1 _ = 2 ^ k from hmax] at halign
      exact Int.natCast_dvd_natCast.2 (dvd_trans halign hmultiple)
  refine ⟨hslid, hslid.wellFormed hro (mod_lt _ (by decide)), ?_⟩
  have := hslid.start
  omega

/-- **So does the reset**, down. -/
theorem resetIvars_slid (hro : ro.WellFormed lp64) :
    ∃ n, Slid lp64 n ro (resetIvars lp64 ro) ∧ (resetIvars lp64 ro).WellFormed lp64 := by
  have hpow : ∀ a ∈ ro.ivars.map (Ivar.alignment lp64), ∃ k, k < 32 ∧ a = 2 ^ k := by
    rw [forall_mem_map]
    exact fun ivar hmem => Ivar.alignment_pow (hro.raw ivar hmem)
  have hword : ∃ k, k < 32 ∧ 1 <<< wordShift lp64 = 2 ^ k := by
    cases lp64 with
    | false => exact ⟨2, by decide, rfl⟩
    | true => exact ⟨3, by decide, rfl⟩
  obtain ⟨-, -, hdvd⟩ := maxOf_spec hpow (1 <<< wordShift lp64) hword
  have hstart := hro.start_le
  have hlt := hro.size_lt
  generalize halignment : maxOf (1 <<< wordShift lp64) (ro.ivars.map (Ivar.alignment lp64)) = a
    at hdvd
  have hmod := mod_le ro.instanceStart a
  have hslid : Slid lp64 (-(ro.instanceStart - ro.instanceStart % a : Nat)) ro
      (resetIvars lp64 ro) := by
    unfold resetIvars
    dsimp only
    rw [halignment]
    refine ⟨?_, ?_, ClassRo.mapOffsets_eq fun ivar hmem x hx => ?_, fun ivar hmem hsome => ?_⟩
    · dsimp only
      omega
    · rw [sub32_eq (by omega) hlt]
      dsimp only
      omega
    · have hinside := hro.inside ivar hmem x hx
      rw [sub32_eq (by omega) (by omega)]
      omega
    · have halign := hdvd _ (mem_map_of_mem hmem)
      exact Int.dvd_neg.2 (Int.natCast_dvd_natCast.2 (dvd_trans halign (dvd_sub_mod _)))
  exact ⟨_, hslid, hslid.wellFormed hro (mod_lt _ (by decide))⟩

/-- **A class is reconciled with its superclass**: it is slid by a multiple of its
alignments, past the superclass, and not at all if it need not be. -/
theorem reconcile_spec {superRo} (hro : ro.WellFormed lp64)
    (hfits : NoOverflow lp64 debug superRo ro) :
    (∃ n, Slid lp64 n ro (reconcileInstanceVariables lp64 debug superRo ro)) ∧
    (reconcileInstanceVariables lp64 debug superRo ro).WellFormed lp64 ∧
    superRo.instanceSize ≤ (reconcileInstanceVariables lp64 debug superRo ro).instanceStart ∧
    (debug = false → superRo.instanceSize ≤ ro.instanceStart →
      reconcileInstanceVariables lp64 debug superRo ro = ro) := by
  have hprepared : ∃ n, Slid lp64 n ro (prepareIvars lp64 debug ro) ∧
      (prepareIvars lp64 debug ro).WellFormed lp64 := by
    unfold prepareIvars
    split
    · exact resetIvars_slid hro
    · exact ⟨0, .refl, hro⟩
  have hsame : debug = false → prepareIvars lp64 debug ro = ro := by
    rintro rfl
    rfl
  obtain ⟨n, hslid, hwell⟩ := hprepared
  unfold reconcileInstanceVariables
  dsimp only
  split
  next hge => exact ⟨⟨n, hslid⟩, hwell, hge, fun hdebug _ => hsame hdebug⟩
  next hge =>
    have hlt := not_le.1 hge
    obtain ⟨hdiff, hsize⟩ := hfits hlt
    obtain ⟨hslid', hwell', hpast⟩ := moveIvars_slid hwell hlt hdiff hsize
    refine ⟨⟨_, hslid.trans hro hslid'⟩, hwell', hpast, fun hdebug hle => ?_⟩
    rw [hsame hdebug] at hlt
    omega

/-! ### Runs -/

section Runs

variable {κ : Type} [DecidableEq κ] {program : Program κ} {s s' : State κ} {cls : κ}

/-- One class is the superclass of another. -/
def Program.Super (program : Program κ) (cls supercls : κ) : Prop :=
  program.superclass cls = some supercls

/-- A realized class is one that the compiler has emitted, slid past its superclass,
which is realized as well. -/
structure Realized (lp64 debug : Bool) (program : Program κ) (s : State κ) (cls : κ)
    (ro : ClassRo) : Prop where
  slid : ∃ n, Slid lp64 n (program.ro cls) ro
  wellFormed : ro.WellFormed lp64
  past : ∀ supercls, program.superclass cls = some supercls → ∃ superRo,
    s supercls = some superRo ∧ superRo.instanceSize ≤ ro.instanceStart ∧
    (debug = false → superRo.instanceSize ≤ (program.ro cls).instanceStart → ro = program.ro cls)

omit [DecidableEq κ] in
theorem Realized.mono (h : Realized lp64 debug program s cls ro)
    (hs : ∀ cls ro, s cls = some ro → s' cls = some ro) :
    Realized lp64 debug program s' cls ro := by
  refine ⟨h.slid, h.wellFormed, fun supercls hsuper => ?_⟩
  obtain ⟨superRo, hrealized, hpast⟩ := h.past supercls hsuper
  exact ⟨superRo, hs supercls superRo hrealized, hpast⟩

omit [DecidableEq κ] in
theorem realized_layOut (hprogram : (program.ro cls).WellFormed lp64)
    (hsuper : ∀ supercls, program.superclass cls = some supercls → ∃ superRo,
      s supercls = some superRo ∧ NoOverflow lp64 debug superRo (program.ro cls)) :
    Realized lp64 debug program s cls (layOut lp64 debug program s cls) := by
  unfold layOut
  cases hparent : program.superclass cls with
  | none =>
    refine ⟨⟨0, .refl⟩, hprogram, fun supercls h => ?_⟩
    rw [hparent] at h
    cases h
  | some supercls =>
    obtain ⟨superRo, hrealized, hfits⟩ := hsuper supercls hparent
    obtain ⟨hslid, hwell, hpast, hsame⟩ := reconcile_spec hprogram hfits
    rw [Option.bind_some, hrealized]
    refine ⟨hslid, hwell, fun supercls' h => ?_⟩
    rw [hparent] at h
    cases h
    exact ⟨superRo, hrealized, hpast, hsame⟩

theorem Step.realized (hprogram : ∀ cls, (program.ro cls).WellFormed lp64)
    (hs : ∀ cls ro, s cls = some ro → Realized lp64 debug program s cls ro)
    (hstep : Step lp64 debug program s s') :
    ∀ cls ro, s' cls = some ro → Realized lp64 debug program s' cls ro := by
  cases hstep with
  | realize new hnew hsuper =>
    have hkept : ∀ cls ro, s cls = some ro →
        update s new (some (layOut lp64 debug program s new)) cls = some ro := by
      intro cls ro hcls
      have hne : cls ≠ new := fun heq => by
        rw [heq, hnew] at hcls
        cases hcls
      rw [update_of_ne hne, hcls]
    intro cls ro hcls
    by_cases heq : cls = new
    · subst heq
      rw [update_self] at hcls
      cases hcls
      exact (realized_layOut (hprogram cls) hsuper).mono hkept
    · rw [update_of_ne heq] at hcls
      exact (hs cls ro hcls).mono hkept

theorem Reachable.realized (hprogram : ∀ cls, (program.ro cls).WellFormed lp64)
    (hs : Reachable lp64 debug program s) :
    ∀ cls ro, s cls = some ro → Realized lp64 debug program s cls ro := by
  induction hs with
  | refl =>
    intro cls ro hcls
    cases hcls
  | tail _ hstep ih => exact hstep.realized hprogram ih

omit [DecidableEq κ] in
/-- A realized class lies past all classes above it. -/
theorem past_ancestor (hs : ∀ cls ro, s cls = some ro → Realized lp64 debug program s cls ro)
    {ancestor} (h : Relation.TransGen program.Super cls ancestor) :
    ∀ ro, s cls = some ro → ∃ ancestorRo, s ancestor = some ancestorRo ∧
      ancestorRo.instanceSize ≤ ro.instanceStart := by
  induction h using Relation.TransGen.head_induction_on with
  | single hsuper =>
    intro ro hcls
    obtain ⟨superRo, hrealized, hpast, -⟩ := (hs _ ro hcls).past _ hsuper
    exact ⟨superRo, hrealized, hpast⟩
  | head hsuper _ ih =>
    intro ro hcls
    obtain ⟨superRo, hrealized, hpast, -⟩ := (hs _ ro hcls).past _ hsuper
    obtain ⟨ancestorRo, hancestor, hpast'⟩ := ih superRo hrealized
    have hsize := (hs _ superRo hrealized).wellFormed.start_le
    exact ⟨ancestorRo, hancestor, by omega⟩

theorem Slid.getElem? {n : Int} (h : Slid lp64 n ro ro') (hro : ro.WellFormed lp64) {i : Nat}
    {ivar ivar' : Ivar} (hi : ro.ivars[i]? = some ivar) (hi' : ro'.ivars[i]? = some ivar')
    {x y : Nat} (hx : ivar.offset = some x) (hy : ivar'.offset = some y) :
    (y : Int) = x + n ∧ (ivar.alignment lp64 : Int) ∣ n := by
  have hmem := mem_of_getElem? hi
  rw [h.ivars, getElem?_map, hi] at hi'
  cases hi'
  obtain ⟨z, hz, heq⟩ := h.offset hro hmem hx
  rw [hy] at hz
  cases hz
  exact ⟨heq, h.dvd ivar hmem (by rw [hx]; rfl)⟩

variable (cls) in
/-- **The layout of instance variables is sound.** -/
theorem ivars_laid_out (hprogram : ∀ cls, (program.ro cls).WellFormed lp64)
    (hs : Reachable lp64 debug program s) {ro : ClassRo} (hcls : s cls = some ro) :
    -- a class starts past its superclass,
    (∀ supercls, program.superclass cls = some supercls →
      ∃ superRo, s supercls = some superRo ∧ superRo.instanceSize ≤ ro.instanceStart) ∧
    -- its own ivars are inside of it, aligned and disjoint,
    ro.WellFormed lp64 ∧ -- and disjoint from those of all classes above;
    (∀ ancestor ancestorRo, Relation.TransGen program.Super cls ancestor →
      s ancestor = some ancestorRo → ∀ a ∈ ro.ivars, ∀ b ∈ ancestorRo.ivars, a.Apart b) ∧
    -- the ivars are those of the compiler,
    (ro.ivars.map fun ivar => (ivar.alignmentRaw, ivar.size, ivar.offset.isSome)) =
      ((program.ro cls).ivars.map fun ivar =>
        (ivar.alignmentRaw, ivar.size, ivar.offset.isSome)) ∧
    -- each at an offset that is the same modulo its alignment,
    (∀ (i : Nat) ivar ivar' x y, (program.ro cls).ivars[i]? = some ivar →
      ro.ivars[i]? = some ivar' → ivar.offset = some x → ivar'.offset = some y →
      y % ivar.alignment lp64 = x % ivar.alignment lp64) ∧
    -- and at the same distance from the others;
    (∀ (i j : Nat) a a' b b' x x' y y', (program.ro cls).ivars[i]? = some a →
      ro.ivars[i]? = some a' → (program.ro cls).ivars[j]? = some b → ro.ivars[j]? = some b' →
      a.offset = some x → a'.offset = some x' → b.offset = some y → b'.offset = some y' →
      (x' : Int) - y' = x - y) ∧ -- nothing moves if the superclass has not outgrown its space.
    (∀ supercls superRo, debug = false → program.superclass cls = some supercls →
      s supercls = some superRo → superRo.instanceSize ≤ (program.ro cls).instanceStart →
      ro = program.ro cls) := by
  have hall := hs.realized hprogram
  have hrealized := hall cls ro hcls
  obtain ⟨n, hslid⟩ := hrealized.slid
  have hwell := hprogram cls
  refine ⟨fun supercls hsuper => ?_, hrealized.wellFormed,
    fun ancestor ancestorRo hancestor hro a ha b hb x y hx hy => ?_, ?_,
    fun i ivar ivar' x y hi hi' hx hy => ?_,
    fun i j a a' b b' x x' y y' hi hi' hj hj' hx hx' hy hy' => ?_,
    fun supercls superRo hdebug hsuper hro hle => ?_⟩
  · obtain ⟨superRo, hsuperRo, hpast, -⟩ := hrealized.past supercls hsuper
    exact ⟨superRo, hsuperRo, hpast⟩
  · obtain ⟨ancestorRo', hro', hpast⟩ := past_ancestor hall hancestor ro hcls
    rw [hro] at hro'
    cases hro'
    have hinside := (hrealized.wellFormed.inside a ha x hx).1
    have hinside' := ((hall ancestor ancestorRo hro).wellFormed.inside b hb y hy).2
    omega
  · rw [hslid.ivars, List.map_map]
    refine map_congr_left fun ivar _ => ?_
    simp [Ivar.shift]
  · obtain ⟨heq, k, hk⟩ := hslid.getElem? hwell hi hi' hx hy
    have hmod : ((y : Int) % (ivar.alignment lp64 : Int)) = (x : Int) % (ivar.alignment lp64) := by
      rw [heq, hk, Int.add_mul_emod_self_left]
    exact_mod_cast hmod
  · have hleft := (hslid.getElem? hwell hi hi' hx hx').1
    have hright := (hslid.getElem? hwell hj hj' hy hy').1
    omega
  · obtain ⟨superRo', hro', -, hsame⟩ := hrealized.past supercls hsuper
    rw [hro] at hro'
    cases hro'
    exact hsame hdebug hle

/-- A root class of 24 bytes, and a subclass that was compiled when it had 8. -/
def grownRoot : Program Bool where
  superclass cls := if cls then some false else none
  ro cls := if cls then ⟨"Sub", 8, 16, [⟨some 8, 3, 8⟩]⟩ else ⟨"Root", 0, 24, [⟨some 0, 3, 8⟩]⟩

theorem ivars_laid_out_grownRoot :
    ∃ s ro, Reachable true false grownRoot s ∧ s true = some ro ∧
      ro.ivars = [⟨some 24, 3, 8⟩] ∧ ro.WellFormed true := by
  have hprogram : ∀ cls, (grownRoot.ro cls).WellFormed true := by
    intro cls
    cases cls with
    | false =>
      refine ⟨by decide, by decide, by decide, ?_, ?_, by simp [grownRoot]⟩
      · simp [grownRoot]
      · simp [grownRoot]
    | true =>
      refine ⟨by decide, by decide, by decide, ?_, ?_, by simp [grownRoot]⟩
      · simp [grownRoot]
      · simp [grownRoot, Ivar.alignment]
  have hrun : Reachable true false grownRoot fun _ => none := .refl
  replace hrun := hrun |>.tail (.realize false rfl nofun)
    |>.tail (.realize true rfl fun supercls h => by
      cases h
      exact ⟨_, rfl, fun _ => by decide⟩)
  exact ⟨_, _, hrun, rfl, by decide, (ivars_laid_out true hprogram hrun rfl).2.1⟩

end Runs

end ObjcRuntime.Ivars
