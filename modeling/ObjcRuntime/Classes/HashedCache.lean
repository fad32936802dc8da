import ObjcRuntime.Classes.State
import ObjcRuntime.Cache.Arm64

/-!
# ObjcRuntime.Classes.HashedCache

The caches of `objc-cache.mm` keep the laws that the class model asks of a
`MethodCache`, so what is proved there about lookups holds with these caches.

A `HashedCache` is a memory with one cache in it, together with the invariant of
the operations. It is searched with the scan of `CacheLookup` on arm64.
-/

namespace ObjcRuntime.Classes

open Cache

/-- The addresses of the selectors and of the bucket arrays. -/
structure Addresses (storage : MaskStorage) where
  sel : Sel → Nat
  sel_inj : ∀ s t, sel s = sel t → s = t
  sel_ne_zero : ∀ s, sel s ≠ 0
  buckets : Placement storage

/-- A cache for selectors and arrays at these addresses. -/
def HashedCache {storage : MaskStorage} (_ : Addresses storage) : Type :=
  { w : World Unit Imp // Inv ⟨.arm64 storage, false⟩ w }

namespace HashedCache

variable {storage : MaskStorage} {addresses : Addresses storage}

/-- The scan needs no more steps than this. -/
def lookup (k : HashedCache addresses) (sel : Sel) : Option (Outcome Imp) :=
  cacheLookup addresses.buckets k.1 () (addresses.sel sel) ((k.1.cache ()).mask + 2)

def find (k : HashedCache addresses) (sel : Sel) : Option Imp :=
  match k.lookup sel with
  | some (.hit (.imp imp)) => some imp
  | _ => none

theorem find_eq_some {k : HashedCache addresses} {sel imp} :
    k.find sel = some imp ↔
      k.1.Holds ⟨.arm64 storage, false⟩ () (addresses.sel sel) (.imp imp) := by
  obtain ⟨hhit, hmiss⟩ := cacheLookup_spec k.2 () rfl addresses.buckets (addresses.sel sel) le_rfl
  constructor
  · intro hfind
    unfold find lookup at hfind
    by_cases hany : ∃ i, i ≤ (k.1.cache ()).mask ∧
        (at_ (k.1.arrays (k.1.cache ()).buckets) i).sel = addresses.sel sel
    · obtain ⟨i, hi, hsel⟩ := hany
      rw [hhit i hi hsel] at hfind
      refine ⟨i, mem_stored.2 ⟨hi, ?_, not_isEndMarker rfl _ i⟩, ?_⟩
      · rw [hsel]
        exact addresses.sel_ne_zero sel
      · generalize at_ (k.1.arrays (k.1.cache ()).buckets) i = bucket at hsel hfind ⊢
        obtain ⟨field, word⟩ := bucket
        cases field with
        | nil | bucket a => cases hfind
        | imp imp' =>
          cases hfind
          exact congrArg _ hsel
    · push Not at hany
      rw [hmiss hany] at hfind
      cases hfind
  · rintro ⟨i, hi, hpair⟩
    unfold find lookup
    rw [hhit i (mem_stored.1 hi).1 (congrArg Bucket.sel hpair), hpair]

def empty : HashedCache addresses := ⟨World.init _, init_inv _⟩

/-- The stores of `cache_t::insert`, which is never fatal. -/
def insertWrites (k : HashedCache addresses) (sel : Sel) (imp : Imp) : List (Write Unit Imp) :=
  match Cache.insert ⟨.arm64 storage, false⟩ k.1 () (addresses.sel sel) imp with
  | .ok ws => ws
  | .error _ => []

theorem insertWrites_spec (k : HashedCache addresses) (sel : Sel) (imp : Imp) :
    Inv ⟨.arm64 storage, false⟩ (k.1.writes (k.insertWrites sel imp)) ∧
    ∀ s x, (k.1.writes (k.insertWrites sel imp)).Holds ⟨.arm64 storage, false⟩ () s x →
      s = addresses.sel sel ∧ x = .imp imp ∨ k.1.Holds ⟨.arm64 storage, false⟩ () s x := by
  obtain ⟨ws, hws, hinv, hpairs⟩ := insert_spec k.2 () (addresses.sel_ne_zero sel) imp
  have heq : k.insertWrites sel imp = ws := by
    unfold insertWrites
    rw [hws]
  rw [heq]
  exact ⟨hinv, fun s x hholds => (hpairs () s x hholds).imp_left And.right⟩

def insert (k : HashedCache addresses) (sel : Sel) (imp : Imp) : HashedCache addresses :=
  ⟨k.1.writes (k.insertWrites sel imp), (k.insertWrites_spec sel imp).1⟩

def erase (k : HashedCache addresses) : HashedCache addresses :=
  ⟨k.1.writes (eraseNolock ⟨.arm64 storage, false⟩ k.1 ()), (eraseNolock_spec k.2 ()).1⟩

theorem empty_world : (empty : HashedCache addresses).1 = World.init ⟨.arm64 storage, false⟩ := rfl

theorem insert_world (k : HashedCache addresses) (sel : Sel) (imp : Imp) :
    (k.insert sel imp).1 = k.1.writes (k.insertWrites sel imp) := rfl

theorem erase_world (k : HashedCache addresses) :
    k.erase.1 = k.1.writes (eraseNolock ⟨.arm64 storage, false⟩ k.1 ()) := rfl

theorem find_empty (sel : Sel) : (empty : HashedCache addresses).find sel = none := by
  rw [Option.eq_none_iff_forall_ne_some]
  intro imp hfind
  rw [find_eq_some, empty_world] at hfind
  exact not_holds_of_occupied (init_inv _).shared ((init_inv _).cache ()) rfl hfind

theorem find_erase (k : HashedCache addresses) (sel : Sel) : k.erase.find sel = none := by
  rw [Option.eq_none_iff_forall_ne_some]
  intro imp hfind
  rw [find_eq_some, erase_world] at hfind
  exact ((eraseNolock_spec k.2 ()).2 () _ _ hfind).1 rfl

theorem find_insert (k : HashedCache addresses) (sel : Sel) (imp : Imp) (sel' : Sel) (imp' : Imp)
    (hfind : (k.insert sel imp).find sel' = some imp') :
    sel' = sel ∧ imp' = imp ∨ k.find sel' = some imp' := by
  rw [find_eq_some, insert_world] at hfind
  rcases (k.insertWrites_spec sel imp).2 _ _ hfind with ⟨hsel, himp⟩ | hold
  · exact .inl ⟨addresses.sel_inj _ _ hsel, ImpField.imp.inj himp⟩
  · exact .inr (find_eq_some.2 hold)

instance : MethodCache (HashedCache addresses) where
  empty := empty
  find := find
  insert := insert
  erase := erase
  find_empty := find_empty
  find_erase := find_erase
  find_insert := find_insert

end HashedCache

end ObjcRuntime.Classes
