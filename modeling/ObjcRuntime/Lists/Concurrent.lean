import Mathlib.Data.Fintype.Option
import ObjcRuntime.Lists.Properties
import ObjcRuntime.Lib.Interleave

/-!
# ObjcRuntime.Lists.Concurrent

Several threads add one property and one protocol to a class.

`class_addProperty` looks the name up in one region under `runtimeLock` and attaches the
new property in another, and so does `class_addProtocol`. Two threads that both look
before either attaches both succeed, and the class has the property twice. If no thread
looks while another one of its kind is between the two regions, exactly one of each kind
succeeds (`additions_unique`).
-/

namespace ObjcRuntime.Lists

open Function Lib List Option World Relation

variable {τ Imp A : Type} [DecidableEq τ]

/-! ### Threads -/

/-- The call that a thread makes. -/
inductive Addition (A : Type)
  | property (attributes : A)
  | protocol

def Addition.isProperty : Addition A → Bool
  | .property _ => true
  | .protocol => false

/-- Before the first region, between the regions, and after the call with its result. -/
inductive Pc
  | ready | adding | done (result : Bool)
  deriving DecidableEq

structure Local (A : Type) where
  addition : Addition A
  pc : Pc

def Local.goto (l : Local A) (pc : Pc) : Local A := { l with pc }

section Steps

variable (conforms : Nat → Nat → Bool) (c : Nat) (name : String) (proto : Nat)

/-- One region of a thread. -/
inductive Step (t : τ) : World Imp A → Local A → World Imp A → Local A → Prop
  | present {w l attributes prop} :
      l.addition = .property attributes → l.pc = .ready →
      w.classGetProperty c name = some (some prop) → Step t w l w (l.goto (.done false))
  | absent {w l attributes} :
      l.addition = .property attributes → l.pc = .ready →
      w.classGetProperty c name = some none → Step t w l w (l.goto .adding)
  | attachProperty {w w' l attributes} :
      l.addition = .property attributes → l.pc = .adding →
      w.attachProperty c name attributes = some w' → Step t w l w' (l.goto (.done true))
  | conforming {w l} :
      l.addition = .protocol → l.pc = .ready →
      w.classConformsToProtocol conforms c proto = some true →
      Step t w l w (l.goto (.done false))
  | notConforming {w l} :
      l.addition = .protocol → l.pc = .ready →
      w.classConformsToProtocol conforms c proto = some false → Step t w l w (l.goto .adding)
  | attachProtocol {w w' l} :
      l.addition = .protocol → l.pc = .adding → w.attachProtocol c proto = some w' →
      Step t w l w' (l.goto (.done true))

/-- All calls are about to begin. -/
def start (w : World Imp A) (additions : τ → Addition A) : Threads τ (World Imp A) (Local A) :=
  ⟨w, fun t => ⟨additions t, .ready⟩⟩

/-- If the thread is about to look, no other thread of its kind is between the regions. -/
def Serial (s : Threads τ (World Imp A) (Local A)) (t : τ) : Prop :=
  (s.pcs t).pc = .ready → ∀ u, u ≠ t →
    (s.pcs u).addition.isProperty = (s.pcs t).addition.isProperty → (s.pcs u).pc ≠ .adding

instance [Fintype τ] (s : Threads τ (World Imp A) (Local A)) (t : τ) :
    Decidable (Serial s t) :=
  inferInstanceAs (Decidable (_ → ∀ u, u ≠ t → _ → _ ≠ _))

/-- A step of a thread that looks only then. -/
inductive SerialStep (s : Threads τ (World Imp A) (Local A)) :
    Threads τ (World Imp A) (Local A) → Prop
  | step {t w l} :
      Step conforms c name proto t s.shared (s.pcs t) w l → Serial s t →
      SerialStep s ⟨w, update s.pcs t l⟩

end Steps

/-! ### The calls of one kind -/

section Phase

variable {K : τ → Prop} {pc : τ → Pc} {t : τ} {x : Pc}

/-- What the calls of a kind have come to, before the first one attaches and after it. -/
inductive Phase (K : τ → Prop) (pc : τ → Pc) : Bool → Prop
  | before : (∀ t, K t → pc t = .ready ∨ pc t = .adding) →
      (∀ t u, K t → K u → pc t = .adding → pc u = .adding → t = u) → Phase K pc false
  | after (t : τ) : K t → pc t = .done true →
      (∀ u, K u → u ≠ t → pc u = .ready ∨ pc u = .done false) → Phase K pc true

omit [DecidableEq τ] in
theorem Phase.congr {present pc'} (h : Phase K pc present)
    (hsame : ∀ t, K t → pc' t = pc t) : Phase K pc' present := by
  cases h with
  | before hpc hone =>
    refine .before (fun t ht => hsame t ht ▸ hpc t ht) fun t u ht hu => ?_
    rw [hsame t ht, hsame u hu]
    exact hone t u ht hu
  | after t ht hdone hothers =>
    refine .after t ht ((hsame t ht).trans hdone) fun u hu hne => ?_
    rw [hsame u hu]
    exact hothers u hu hne

theorem Phase.other {present} (h : Phase K pc present) (ht : ¬K t) :
    Phase K (update pc t x) present := by
  refine h.congr fun u hu => update_of_ne ?_ _ _
  rintro rfl
  exact ht hu

theorem Phase.look_absent (h : Phase K pc false) (hserial : ∀ u, u ≠ t → K u → pc u ≠ .adding) :
    Phase K (update pc t .adding) false := by
  cases h with
  | before hpc hone =>
    have hothers : ∀ u, K u → update pc t .adding u = .adding → u = t := by
      intro u hu hadding
      by_contra hne
      rw [update_of_ne hne] at hadding
      exact hserial u hne hu hadding
    refine .before (fun u hu => ?_) fun u v hu hv hadding hadding' => ?_
    · by_cases hne : u = t
      · rw [hne, update_self]
        exact .inr rfl
      · rw [update_of_ne hne]
        exact hpc u hu
    · rw [hothers u hu hadding, hothers v hv hadding']

theorem Phase.look_present (h : Phase K pc true) (hready : pc t = .ready) :
    Phase K (update pc t (.done false)) true := by
  cases h with
  | after u hu hdone hothers =>
    have hne : u ≠ t := by
      rintro rfl
      rw [hdone] at hready
      cases hready
    refine .after u hu ((update_of_ne hne _ _).trans hdone) fun v hv hvu => ?_
    by_cases hvt : v = t
    · rw [hvt, update_self]
      exact .inr rfl
    · rw [update_of_ne hvt]
      exact hothers v hv hvu

theorem Phase.attach {present} (h : Phase K pc present) (ht : K t) (hadding : pc t = .adding) :
    present = false ∧ Phase K (update pc t (.done true)) true := by
  cases h with
  | before hpc hone =>
    refine ⟨rfl, .after t ht (update_self _ _ _) fun u hu hne => ?_⟩
    rw [update_of_ne hne]
    rcases hpc u hu with hready | hadding'
    · exact .inl hready
    · exact absurd (hone u t hu ht hadding' hadding) hne
  | after u hu hdone hothers =>
    by_cases htu : t = u
    · rw [htu, hdone] at hadding
      cases hadding
    · rcases hothers t ht htu with hready | hfalse
      · rw [hready] at hadding
        cases hadding
      · rw [hfalse] at hadding
        cases hadding

theorem Phase.unique {present} (h : Phase K pc present) (ht : K t)
    (hdone : ∀ t, ∃ r, pc t = .done r) : present ∧ ∃! t, K t ∧ pc t = .done true := by
  cases h with
  | before hpc _ =>
    obtain ⟨r, hr⟩ := hdone t
    rcases hpc t ht with hready | hadding
    · rw [hr] at hready
      cases hready
    · rw [hr] at hadding
      cases hadding
  | after u hu hyes hothers =>
    refine ⟨rfl, u, ⟨hu, hyes⟩, fun v hv => ?_⟩
    by_contra hne
    rcases hothers v hv.1 hne with hready | hfalse
    · rw [hv.2] at hready
      cases hready
    · rw [hv.2] at hfalse
      cases hfalse

end Phase

/-! ### The lists -/

variable {conforms : Nat → Nat → Bool} {c : Nat} {name : String} {proto : Nat}
  {w w' : World Imp A} {attributes : A} {present : Bool}

/-- The property of the class, when it is absent and when it has been added. -/
inductive PropertyPart (c : Nat) (name : String) (w : World Imp A) : Bool → Prop
  | absent {xs} : w.classGetProperty c name = some none →
      w.properties.Reads (w.rwe c).properties xs → xs.length < 2 ^ 31 →
      PropertyPart c name w false
  | present {prop props} :
      w.classGetProperty c name = some (some prop) → w.copyPropertyList c = some props →
      (props.countP fun prop => prop.name = name) = 1 → PropertyPart c name w true

/-- The same for the protocol. -/
inductive ProtocolPart (conforms : Nat → Nat → Bool) (c proto : Nat) (w : World Imp A) :
    Bool → Prop
  | absent {xs} : w.classConformsToProtocol conforms c proto = some false →
      w.protocols.Reads (w.rwe c).protocols xs → xs.length < 2 ^ 31 →
      ProtocolPart conforms c proto w false
  | present {xs} : w.classConformsToProtocol conforms c proto = some true →
      w.protocolLists c = some xs → xs.flatten.count proto = 1 →
      ProtocolPart conforms c proto w true

theorem name_ne_of_findProperty {ps xs}
    (hat : w.properties.At ps xs) (h : w.findProperty name ps = some none) :
    ∀ prop ∈ xs.flatten, prop.name ≠ name := by
  induction hat with
  | nil => exact forall_mem_nil _
  | @cons p x ps xs hp _ ih =>
    rw [findProperty, hp, bind_eq_bind, bind_some] at h
    cases hidx : x.findIdx? fun prop => prop.name = name with
    | some i =>
      rw [hidx] at h
      cases h
    | none =>
      rw [hidx] at h
      refine forall_mem_append.2 ⟨fun prop hprop => ?_, ih h⟩
      have := findIdx?_eq_none_iff.1 hidx prop hprop
      simpa using this

theorem findProperty_of_classGetProperty {ps}
    (hps : w.properties.pointers (w.rwe c).properties = some ps)
    (h : w.classGetProperty c name = some none) : w.findProperty name ps = some none := by
  rw [World.classGetProperty, getPropertyIn, hps, bind_eq_bind, bind_some] at h
  obtain ⟨found, hfound, h⟩ := bind_eq_some_iff.1 h
  cases found with
  | none => exact hfound
  | some prop => cases h

theorem PropertyPart.attach (h : PropertyPart c name w false) (attributes : A) :
    ∃ w', w.attachProperty c name attributes = some w' ∧ PropertyPart c name w' true ∧
      w'.protocols = w.protocols ∧ (w'.rwe c).protocols = (w.rwe c).protocols := by
  cases h with
  | @absent xs hnone hr hsmall =>
    obtain ⟨w', hattach, hdone⟩ := attachProperty_spec hr hsmall name attributes
    obtain ⟨prop, hfound, -⟩ := hdone.found
    refine ⟨w', hattach, .present hfound (copyPropertyList_eq hdone.own) ?_, hdone.protocols⟩
    obtain ⟨ps, hslots, hat⟩ := hr
    have hnames := name_ne_of_findProperty hat
      (findProperty_of_classGetProperty hslots.pointers hnone)
    have hzero : (xs.flatten.countP fun prop => prop.name = name) = 0 :=
      countP_eq_zero.2 fun prop hprop => by simpa using hnames prop hprop
    rw [flatten_cons, countP_append, hzero, countP_singleton]
    simp

/-- What the protocol does not touch. -/
structure SameProperties (c : Nat) (w w' : World Imp A) : Prop where
  store : w'.properties = w.properties
  arrays : ∀ e, (w'.rwe e).properties = (w.rwe e).properties
  superclasses : w'.superclasses = w.superclasses

theorem SameProperties.classGetProperty (h : SameProperties c w w') :
    w'.classGetProperty c name = w.classGetProperty c name := by
  have hfind : ∀ ps, w'.findProperty name ps = w.findProperty name ps := by
    intro ps
    induction ps with
    | nil => rfl
    | cons p rest ih => rw [findProperty, findProperty, h.store, ih]
  have hin : ∀ chain, w'.getPropertyIn name chain = w.getPropertyIn name chain := by
    intro chain
    induction chain with
    | nil => rfl
    | cons e rest ih =>
      rw [getPropertyIn, getPropertyIn, h.store, h.arrays, ih]
      simp only [hfind]
  rw [World.classGetProperty, World.classGetProperty, h.superclasses, hin]

theorem SameProperties.part (h : SameProperties c w w') (hpart : PropertyPart c name w present) :
    PropertyPart c name w' present := by
  cases hpart with
  | absent hnone hr hsmall =>
    refine .absent (h.classGetProperty.trans hnone) ?_ hsmall
    rw [h.store, h.arrays]
    exact hr
  | present hfound hcopy hcount =>
    refine .present (h.classGetProperty.trans hfound) ?_ hcount
    rw [copyPropertyList, propertyLists, h.store, h.arrays]
    exact hcopy

theorem ProtocolPart.same (h : ProtocolPart conforms c proto w present)
    (hstore : w'.protocols = w.protocols) (harray : (w'.rwe c).protocols = (w.rwe c).protocols) :
    ProtocolPart conforms c proto w' present := by
  have hlists : w'.protocolLists c = w.protocolLists c := by
    rw [protocolLists, protocolLists, hstore, harray]
  have hconforms : w'.classConformsToProtocol conforms c proto =
      w.classConformsToProtocol conforms c proto := by
    rw [classConformsToProtocol, classConformsToProtocol, hlists]
  cases h with
  | absent hnone hr hsmall =>
    refine .absent (hconforms.trans hnone) ?_ hsmall
    rw [hstore, harray]
    exact hr
  | present hyes hxs hcount => exact .present (hconforms.trans hyes) (hlists.trans hxs) hcount

theorem ProtocolPart.attach (h : ProtocolPart conforms c proto w false) :
    ∃ w', w.attachProtocol c proto = some w' ∧ ProtocolPart conforms c proto w' true ∧
      SameProperties c w w' := by
  cases h with
  | @absent xs hnone hr hsmall =>
    have hat : (w.protocols.alloc [proto]).At [w.protocols.next] [[proto]] :=
      .cons (Store.list_alloc_next _) .nil
    obtain ⟨s', la, hrun, hr', -, -⟩ := (hr.alloc [proto]).attach hat hsmall
    have hrwe : ∀ e, ({ w.setRwe c { w.rwe c with protocols := la } with protocols := s' } :
        World Imp A).rwe e = if e = c then { w.rwe c with protocols := la } else w.rwe e :=
      fun e => w.rwe_setRwe c e _
    have hlists : ({ w.setRwe c { w.rwe c with protocols := la } with protocols := s' } :
        World Imp A).protocolLists c = some ([proto] :: xs) := by
      rw [protocolLists, hrwe, if_pos rfl]
      exact hr'.lists
    refine ⟨{ w.setRwe c { w.rwe c with protocols := la } with protocols := s' }, ?_,
      .present ?_ hlists ?_, rfl, fun e => ?_, rfl⟩
    · change ((w.protocols.alloc _).attach (w.rwe c).protocols _).bind _ = _
      rw [hrun]
      rfl
    · rw [classConformsToProtocol, hlists]
      simp
    · rw [classConformsToProtocol, protocolLists, hr.lists, map_some] at hnone
      have hnot : proto ∉ xs.flatten := by
        intro hmem
        have hany : (xs.flatten.any fun p => p = proto || conforms p proto) = true :=
          List.any_eq_true.2 ⟨proto, hmem, by simp⟩
        rw [hany] at hnone
        cases hnone
      rw [flatten_cons, count_append, count_eq_zero_of_not_mem hnot]
      simp
    · rw [hrwe]
      by_cases he : e = c
      · rw [if_pos he, he]
      · rw [if_neg he]

/-! ### Runs -/

/-- The invariant of serial runs. -/
structure Inv (conforms : Nat → Nat → Bool) (c : Nat) (name : String) (proto : Nat)
    (additions : τ → Addition A) (s : Threads τ (World Imp A) (Local A)) : Prop where
  same : ∀ t, (s.pcs t).addition = additions t
  property : ∃ present, PropertyPart c name s.shared present ∧
    Phase (fun t => (additions t).isProperty = true) (fun t => (s.pcs t).pc) present
  protocol : ∃ present, ProtocolPart conforms c proto s.shared present ∧
    Phase (fun t => (additions t).isProperty = false) (fun t => (s.pcs t).pc) present

variable {additions : τ → Addition A} {s s' : Threads τ (World Imp A) (Local A)}

theorem pc_update (pcs : τ → Local A) (t : τ) (pc : Pc) :
    (fun u => (update pcs t ((pcs t).goto pc) u).pc) =
      update (fun u => (pcs u).pc) t pc := by
  funext u
  by_cases hu : u = t
  · subst hu
    rw [update_self, update_self]
    rfl
  · rw [update_of_ne hu, update_of_ne hu]

variable (h : Inv conforms c name proto additions s)
include h

theorem Inv.of_parts {t pc} (hproperty : ∃ present, PropertyPart c name w present ∧
      Phase (fun t => (additions t).isProperty)
        (update (fun t => (s.pcs t).pc) t pc) present)
    (hprotocol : ∃ present, ProtocolPart conforms c proto w present ∧
      Phase (fun t => (additions t).isProperty = false)
        (update (fun t => (s.pcs t).pc) t pc) present) :
    Inv conforms c name proto additions
      ⟨w, update s.pcs t ((s.pcs t).goto pc)⟩ := by
  refine ⟨fun u => ?_, ?_, ?_⟩
  · dsimp only
    by_cases hu : u = t
    · subst hu
      rw [update_self]
      exact h.same u
    · rw [update_of_ne hu]
      exact h.same u
  · rw [pc_update]
    exact hproperty
  · rw [pc_update]
    exact hprotocol

/-- **One region.** -/
theorem Inv.step (hstep : SerialStep conforms c name proto s s') :
    Inv conforms c name proto additions s' := by
  obtain ⟨p, hp, hpphase⟩ := h.property
  obtain ⟨q, hq, hqphase⟩ := h.protocol
  cases hstep with
  | @step t w' l hmove hserial =>
    have hkind : ∀ u, (s.pcs u).addition.isProperty = (additions u).isProperty :=
      fun u => congrArg _ (h.same u)
    have hproperty : ∀ {A}, (s.pcs t).addition = .property A →
        (additions t).isProperty := fun hadd => (hkind t).symm.trans (by rw [hadd]; rfl)
    have hprotocol : (s.pcs t).addition = .protocol → (additions t).isProperty = false :=
      fun hadd => (hkind t).symm.trans (by rw [hadd]; rfl)
    have hother {kind : Bool} (hkt : (additions t).isProperty = kind) :
        ¬(additions t).isProperty = !kind := by
      rw [hkt]
      exact Bool.not_ne_self kind |>.symm
    have hserial' : (s.pcs t).pc = .ready → ∀ u, u ≠ t →
        (additions u).isProperty = (additions t).isProperty → (s.pcs u).pc ≠ .adding := by
      intro hready u hne hsame
      exact hserial hready u hne ((hkind u).trans (hsame.trans (hkind t).symm))
    cases hmove with
    | present hadd hpc hfound =>
      have hkt := hproperty hadd
      cases hp with
      | absent hnone _ _ =>
        rw [hnone] at hfound
        cases hfound
      | present hsome hcopy hcount =>
        exact h.of_parts ⟨true, .present hsome hcopy hcount, hpphase.look_present hpc⟩
          ⟨q, hq, hqphase.other (hother hkt)⟩
    | absent hadd hpc hnone =>
      have hkt := hproperty hadd
      cases hp with
      | present hsome _ _ =>
        rw [hsome] at hnone
        cases hnone
      | absent hnone' hr hsmall =>
        exact h.of_parts ⟨false, .absent hnone' hr hsmall, hpphase.look_absent
          fun u hne hu => hserial' hpc u hne (hu.trans hkt.symm)⟩
          ⟨q, hq, hqphase.other (hother hkt)⟩
    | attachProperty hadd hpc hattach =>
      have hkt := hproperty hadd
      obtain ⟨rfl, hphase⟩ := hpphase.attach hkt hpc
      obtain ⟨w₂, hattach', hp', hstore, harray⟩ := hp.attach _
      rw [hattach] at hattach'
      cases hattach'
      exact h.of_parts ⟨true, hp', hphase⟩ ⟨q, hq.same hstore harray, hqphase.other (hother hkt)⟩
    | conforming hadd hpc hyes =>
      have hkt := hprotocol hadd
      cases hq with
      | absent hno _ _ =>
        rw [hno] at hyes
        cases hyes
      | present hyes' hxs hcount =>
        exact h.of_parts ⟨p, hp, hpphase.other (hother hkt)⟩
          ⟨true, .present hyes' hxs hcount, hqphase.look_present hpc⟩
    | notConforming hadd hpc hno =>
      have hkt := hprotocol hadd
      cases hq with
      | present hyes _ _ =>
        rw [hyes] at hno
        cases hno
      | absent hno' hr hsmall =>
        exact h.of_parts ⟨p, hp, hpphase.other (hother hkt)⟩
          ⟨false, .absent hno' hr hsmall, hqphase.look_absent
            fun u hne hu => hserial' hpc u hne (hu.trans hkt.symm)⟩
    | attachProtocol hadd hpc hattach =>
      have hkt := hprotocol hadd
      obtain ⟨rfl, hphase⟩ := hqphase.attach hkt hpc
      obtain ⟨w₂, hattach', hq', hsame⟩ := hq.attach
      rw [hattach] at hattach'
      cases hattach'
      exact h.of_parts ⟨p, hsame.part hp, hpphase.other (hother hkt)⟩ ⟨true, hq', hphase⟩

omit h

/-- The class can be read, and has neither the property nor the protocol. -/
structure Lacks (conforms : Nat → Nat → Bool) (c : Nat) (name : String) (proto : Nat)
    (w : World Imp A) : Prop where
  property : w.classGetProperty c name = some none
  protocol : w.classConformsToProtocol conforms c proto = some false
  properties : ∃ xs, w.properties.Reads (w.rwe c).properties xs ∧ xs.length < 2 ^ 31
  protocols : ∃ xs, w.protocols.Reads (w.rwe c).protocols xs ∧ xs.length < 2 ^ 31

omit [DecidableEq τ] in
theorem Inv.start (h : Lacks conforms c name proto w) (additions : τ → Addition A) :
    Inv conforms c name proto additions (start w additions) := by
  obtain ⟨xs, hxs, hxsmall⟩ := h.properties
  obtain ⟨ys, hys, hysmall⟩ := h.protocols
  refine ⟨fun _ => rfl, ⟨false, .absent h.property hxs hxsmall, .before (fun _ _ => .inl rfl) ?_⟩,
    ⟨false, .absent h.protocol hys hysmall, .before (fun _ _ => .inl rfl) ?_⟩⟩
  · intro t u _ _ hadding
    cases hadding
  · intro t u _ _ hadding
    cases hadding

end ObjcRuntime.Lists
