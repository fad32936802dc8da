import Mathlib.Logic.Relation
import ObjcRuntime.Cache.Stores

/-!
# ObjcRuntime.Cache.X86

`CacheLookup` of `objc-msg-x86_64.s`, which reads a cache without any lock.

The machine interleaves the loads of one lookup with the single stores of
insertions and erasures. The lookup loads the mask, then the buckets, and then
compares bucket after bucket: the selector is loaded once to compare it with
`_cmd` and once more to compare it with 1. A bucket with a larger selector is
skipped, an empty one ends the search, and the end marker's imp is the address of
the first bucket, where a clone of the loop makes the second pass.

Between two loads anything may be stored, so the reader can have the mask of an
old array and the buckets of a newer one, and can pass a bucket that is filled a
moment later. What it holds stays usable all the same (`Held`), because the
stores only do what `Evolves` allows.
-/

namespace ObjcRuntime.Cache

open List

variable {κ ι : Type}

/-! ### The reader -/

/-- A selector: the address of its name. The words 0 and 1 are no addresses; they
mark empty buckets and the end marker. -/
structure Sel where
  addr : Nat
  one_lt : 1 < addr

/-- The loop, and the clone that follows the end marker. -/
inductive Pass
  | first
  | second
  deriving Repr, DecidableEq

/-- Where the reader is. -/
inductive Reader (ι : Type)
  | loadMask
  | loadBuckets (mask : Nat)
  /-- `cmpq cached_sel(%r11), %a2` -/
  | compare (pass : Pass) (array : ArrayId) (i : Nat)
  /-- `cmpq $1, cached_sel(%r11)` -/
  | classify (pass : Pass) (array : ArrayId) (i : Nat)
  /-- `movq cached_imp(%r11), %r11` at the end marker. -/
  | wrap (array : ArrayId) (i : Nat)
  /-- `CacheHit` -/
  | hit (array : ArrayId) (i : Nat)
  /-- The imp, or a miss. -/
  | done (array : ArrayId) (outcome : Option (ImpField ι))
  /-- The end marker's imp was not the address of a bucket. -/
  | fault
  deriving Repr, DecidableEq

/-- The bucket that the next instruction dereferences. -/
def Reader.bucket : Reader ι → Option (ArrayId × Nat)
  | .compare _ array i | .classify _ array i | .wrap array i | .hit array i => some (array, i)
  | _ => none

/-- One instruction of the lookup of `sel` in cache `c`. -/
def Reader.next (w : World κ ι) (c : κ) (sel : Sel) : Reader ι → Option (Reader ι)
  | .loadMask => some (.loadBuckets (w.cache c).mask)
  | .loadBuckets mask =>
    -- andl: the low half of the selector
    some (.compare .first (w.cache c).buckets (sel.addr % 2 ^ 32 &&& mask))
  | .compare pass array i =>
    if (at_ (w.arrays array) i).sel = sel.addr then some (.hit array i)
    else some (.classify pass array i)
  | .classify pass array i =>
    if 1 < (at_ (w.arrays array) i).sel then some (.compare pass array (i + 1))
    else if (at_ (w.arrays array) i).sel < 1 then some (.done array none)
    else
      match pass with
      | .first => some (.wrap array i)
      | .second => some (.done array none)
  | .wrap array i =>
    match (at_ (w.arrays array) i).imp with
    | .bucket first => some (.compare .second first 0)
    | _ => some .fault
  | .hit array i => some (.done array (some (at_ (w.arrays array) i).imp))
  | .done _ _ => none
  | .fault => none

/-- A bucket that was compared, and in which pass. -/
structure Visit where
  pass : Pass
  array : ArrayId
  i : Nat
  deriving Repr, DecidableEq

def Reader.visit : Reader ι → List Visit
  | .compare pass array i => [⟨pass, array, i⟩]
  | _ => []

/-! ### The machine -/

structure System (κ ι : Type) where
  memory : Memory κ ι
  /-- What the operation in progress has yet to store, and for which cache it
  allocates. -/
  stores : List (Write κ ι)
  client : Option κ
  reader : Reader ι
  /-- Every bucket the reader compared, the last one first. -/
  visited : List Visit
  /-- The memory at each instant since the lookup began, the last one first. -/
  history : List (World κ ι)

def System.init (b : Build) : System κ ι where
  memory := ⟨World.init b, fun _ => none, []⟩
  stores := []
  client := none
  reader := .loadMask
  visited := []
  history := [World.init b]

def x86_64 (debug : Bool) : Build := ⟨.x86_64, debug⟩

/-- The load of the mask begins the lookup: what was before it is dropped. -/
def Reader.history (w : World κ ι) (history : List (World κ ι)) : Reader ι → List (World κ ι)
  | .loadMask => [w]
  | _ => history

/-- An operation begins, one store of it is made, or the reader makes one load.
The runtime lock keeps operations apart, not the reader. -/
inductive Step [DecidableEq κ] (b : Build) (c : κ) (sel : Sel) : System κ ι → System κ ι → Prop
  | insert {s : System κ ι} {d : κ} {newSel : Sel} {imp : ι} {ws : List (Write κ ι)} :
      s.stores = [] → insert b s.memory.world d newSel.addr imp = .ok ws →
      Step b c sel s
        { s with
          memory := { s.memory with inserted := (d, newSel.addr, imp) :: s.memory.inserted }
          stores := ws
          client := some d }
  | erase {s d} :
      s.stores = [] →
      Step b c sel s { s with stores := eraseNolock b s.memory.world d, client := none }
  | store {s x ws} :
      s.stores = x :: ws →
      Step b c sel s
        { s with
          memory := s.memory.write s.client x
          stores := ws
          history := (s.memory.write s.client x).world :: s.history }
  | load {s r} :
      s.reader.next s.memory.world c sel = some r →
      Step b c sel s
        { s with
          reader := r
          visited := s.reader.visit ++ s.visited
          history := s.reader.history s.memory.world s.history }

abbrev Run [DecidableEq κ] (b : Build) (c : κ) (sel : Sel) :
    System κ ι → System κ ι → Prop := Relation.ReflTransGen (Step b c sel)

/-- At some instant since the lookup began, cache `c` paired `sel` with `x`. -/
def Seen (b : Build) (c : κ) (sel : Sel) (s : System κ ι) (x : ImpField ι) : Prop :=
  ∃ w ∈ s.history, w.Holds b c sel.addr x

/-! ### What the reader holds -/

section Reader

variable {b : Build} {c : κ} {sel : Sel} {m m' : Memory κ ι} {seen seen' : ImpField ι → Prop}

/-- The reader may load bucket `i` of the array, and whatever it finds for `sel`
in that array was in the cache at some time. -/
structure Held (m : Memory κ ι) (c : κ) (sel : Sel) (seen : ImpField ι → Prop) (a : ArrayId)
    (i : Nat) : Prop where
  scannable : Scannable m c a
  lt_length : i < (m.world.arrays a).length
  seen : ∀ j, (at_ (m.world.arrays a) j).sel = sel.addr → seen (at_ (m.world.arrays a) j).imp

/-- The buckets visited so far come before bucket `i` of this pass. -/
structure Before (m : Memory κ ι) (a : ArrayId) (pass : Pass) (i : Nat) (visited : List Visit) :
    Prop where
  nodup : visited.Nodup
  range : ∀ v ∈ visited, v.array = a ∧ v.i < (m.world.arrays a).length
  lt : ∀ v ∈ visited, v.pass = pass → v.i < i
  pass : ∀ v ∈ visited, v.pass = .second → pass = .second

/-- The array that was scanned, at the end. -/
structure Scanned (m : Memory κ ι) (c : κ) (a : ArrayId) (visited : List Visit) : Prop where
  scannable : Scannable m c a
  nodup : visited.Nodup
  range : ∀ v ∈ visited, v.array = a ∧ v.i < (m.world.arrays a).length

def Reader.Ok (m : Memory κ ι) (c : κ) (sel : Sel) (seen : ImpField ι → Prop)
    (visited : List Visit) : Reader ι → Prop
  | .loadMask => visited = []
  | .loadBuckets mask => visited = [] ∧ mask ≤ (m.world.cache c).mask
  | .compare pass a i => Held m c sel seen a i ∧ Before m a pass i visited
  | .classify pass a i => Held m c sel seen a i ∧ Before m a pass (i + 1) visited
  | .wrap a i =>
    Held m c sel seen a i ∧ Before m a .first (i + 1) visited ∧
      at_ (m.world.arrays a) i = ⟨.bucket a, 1⟩
  | .hit a i =>
    Held m c sel seen a i ∧ Scanned m c a visited ∧ (at_ (m.world.arrays a) i).sel = sel.addr
  | .done a outcome =>
    Scanned m c a visited ∧ ∀ x ∈ outcome, seen x ∧
      ∃ imp, x = .imp imp ∧ (c, sel.addr, imp) ∈ m.inserted
  | .fault => False

variable {visited : List Visit} {a : ArrayId} {i : Nat}

theorem Before.scanned {pass}
    (h : Before m a pass i visited) (hscan : Scannable m c a) : Scanned m c a visited :=
  ⟨hscan, h.nodup, h.range⟩

theorem Before.visit {pass} (h : Before m a pass i visited) (hi : i < (m.world.arrays a).length) :
    Before m a pass (i + 1) (⟨pass, a, i⟩ :: visited) := by
  refine ⟨nodup_cons.2 ⟨fun hmem => ?_, h.nodup⟩, fun v hv => ?_, fun v hv hpass => ?_,
    fun v hv hpass => ?_⟩
  · exact absurd (h.lt _ hmem rfl) (lt_irrefl i)
  · rcases mem_cons.1 hv with rfl | hv
    · exact ⟨rfl, hi⟩
    · exact h.range v hv
  · rcases mem_cons.1 hv with rfl | hv
    · exact Nat.lt_succ_self i
    · exact Nat.lt_succ_of_lt (h.lt v hv hpass)
  · rcases mem_cons.1 hv with rfl | hv
    · exact hpass
    · exact h.pass v hv hpass

theorem Before.wrap (h : Before m a .first i visited) : Before m a .second 0 visited := by
  refine ⟨h.nodup, h.range, fun v hv hpass => ?_, fun _ _ _ => rfl⟩
  exact absurd (h.pass v hv hpass) (by decide)

theorem Scannable.frame (h : Scannable m c a) (he : Evolves b m m') : Scannable m' c a := by
  refine ⟨Nat.lt_of_lt_of_le h.lt_fresh he.fresh, ?_⟩
  rw [he.owner a h.lt_fresh]
  exact h.own.imp (he.shared a) (And.imp_right (he.endMarked a h.lt_fresh))

theorem Held.frame (h : Held m c sel seen a i) (hsafe : Safe m')
    (he : Evolves b m m') (hseen : ∀ x, seen x → seen' x)
    (hnew : ∀ x, m'.world.Holds b c sel.addr x → seen' x) : Held m' c sel seen' a i := by
  have hscan := h.scannable.frame he
  refine ⟨hscan, ?_, fun j hj => ?_⟩
  · rw [he.length a h.scannable.lt_fresh]
    exact h.lt_length
  · have hreal : 1 < (at_ (m'.world.arrays a) j).sel := by
      rw [hj]
      exact sel.one_lt
    rcases he.filled a j h.scannable.lt_fresh hreal with hsame | ⟨d, howner, hholds⟩
    · rw [hsame] at hj ⊢
      exact hseen _ (h.seen j hj)
    · -- filled just now, in an array of cache `c`
      rcases hscan.own with hshared | ⟨hown, -⟩
      · rw [hsafe.shared_owner a hshared] at howner
        cases howner
      · rw [hown] at howner
        cases howner
        rw [hj] at hholds
        exact hnew _ hholds

theorem Before.frame {pass} (h : Before m a pass i visited) (hlength : (m'.world.arrays a).length =
      (m.world.arrays a).length) : Before m' a pass i visited := by
  refine ⟨h.nodup, ?_, h.lt, h.pass⟩
  rw [hlength]
  exact h.range

theorem Scanned.frame (h : Scanned m c a visited)
    (he : Evolves b m m') : Scanned m' c a visited := by
  refine ⟨h.scannable.frame he, h.nodup, ?_⟩
  rw [he.length a h.scannable.lt_fresh]
  exact h.range

theorem Reader.Ok.frame {r : Reader ι} (h : r.Ok m c sel seen visited)
    (hsafe : Safe m') (he : Evolves b m m') (hinserted : ∀ p ∈ m.inserted, p ∈ m'.inserted)
    (hseen : ∀ x, seen x → seen' x)
    (hnew : r ≠ .loadMask → ∀ x, m'.world.Holds b c sel.addr x → seen' x) :
    r.Ok m' c sel seen' visited := by
  have hlen : ∀ {a}, Scannable m c a → (m'.world.arrays a).length = (m.world.arrays a).length :=
    fun hscan => he.length _ hscan.lt_fresh
  have hkept : ∀ {a i}, Scannable m c a → (at_ (m.world.arrays a) i).sel ≠ 0 →
      at_ (m'.world.arrays a) i = at_ (m.world.arrays a) i :=
    fun hscan => he.kept _ _ hscan.lt_fresh
  cases r with
  | loadMask | fault => exact h
  | loadBuckets mask => exact ⟨h.1, Nat.le_trans h.2 (he.mask c)⟩
  | compare pass a i | classify pass a i =>
    have hheld := h.1.frame hsafe he hseen (hnew (by simp))
    exact ⟨hheld, h.2.frame (hlen h.1.scannable)⟩
  | wrap a i =>
    obtain ⟨hheld, hbefore, hmark⟩ := h
    refine ⟨hheld.frame hsafe he hseen (hnew (by simp)), hbefore.frame (hlen hheld.scannable), ?_⟩
    rw [hkept hheld.scannable (by rw [hmark]; exact one_ne_zero), hmark]
  | hit a i =>
    obtain ⟨hheld, hscanned, hsel⟩ := h
    refine ⟨hheld.frame hsafe he hseen (hnew (by simp)), hscanned.frame he, ?_⟩
    have hlt := sel.one_lt
    rw [hkept hheld.scannable (by omega), hsel]
  | done a outcome =>
    refine ⟨h.1.frame he, fun x hx => ?_⟩
    obtain ⟨hx, imp, himp, hins⟩ := h.2 x hx
    exact ⟨hseen x hx, imp, himp, hinserted _ hins⟩

theorem evolves_of_world (hworld : m'.world = m.world)
    (howner : m'.owner = m.owner) : Evolves b m m' := by
  obtain ⟨w, o, l⟩ := m'
  obtain rfl := hworld
  obtain rfl := howner
  exact ⟨le_refl _, fun _ => id, fun _ _ => rfl, fun _ _ => rfl, fun _ _ _ _ => rfl,
    fun _ _ => id, fun _ => le_refl _, fun _ _ _ _ => .inl rfl⟩

/-! ### The loads -/

/-- The buckets are loaded: their pairings are in the cache now. -/
theorem held_buckets (h : Safe m) (hi : i ≤ (m.world.cache c).mask)
    (hnew : ∀ x, m.world.Holds b c sel.addr x → seen x) :
    Held m c sel seen (m.world.cache c).buckets i := by
  have hfits := h.fits c
  refine ⟨hfits.scannable, Nat.lt_of_lt_of_le (Nat.lt_succ_of_le hi) hfits.length, fun j hj => ?_⟩
  have hreal : 1 < (at_ (m.world.arrays (m.world.cache c).buckets) j).sel := by
    rw [hj]
    exact sel.one_lt
  have hlt := hfits.placed j hreal
  refine hnew _ ⟨j, mem_stored.2 ⟨le_of_lt hlt, ne_of_gt (lt_trans zero_lt_one hreal),
    fun hlast => ne_of_lt hlt hlast.2⟩, ?_⟩
  rw [← hj]

theorem Held.succ (h : Safe m) (hheld : Held m c sel seen a i)
    (hi : 1 < (at_ (m.world.arrays a) i).sel) : Held m c sel seen a (i + 1) := by
  refine ⟨hheld.scannable, ?_, hheld.seen⟩
  rcases hheld.scannable.own with hshared | ⟨-, last, hlength, hmark, -⟩
  · rw [h.shared_zero a hshared i] at hi
    exact absurd hi (Nat.not_lt_zero 1)
  · have hlt := hheld.lt_length
    have hne : i ≠ last := by
      intro heq
      rw [heq, hmark] at hi
      exact lt_irrefl 1 hi
    omega

theorem Held.marker (h : Safe m) (hheld : Held m c sel seen a i)
    (hi : (at_ (m.world.arrays a) i).sel = 1) : at_ (m.world.arrays a) i = ⟨.bucket a, 1⟩ := by
  rcases hheld.scannable.own with hshared | ⟨-, last, -, hmark, honly⟩
  · rw [h.shared_zero a hshared i] at hi
    exact absurd hi zero_ne_one
  · rw [honly i hi, hmark]

/-- **One load keeps what the reader holds.** `seen` must contain what the cache
pairs with `sel` now, unless the lookup has not begun. -/
theorem Reader.Ok.next {r r' : Reader ι} (h : r.Ok m c sel seen visited)
    (hsafe : Safe m) (hnext : r.next m.world c sel = some r')
    (hnew : ∀ x, r ≠ .loadMask → m.world.Holds b c sel.addr x → seen x) :
    r'.Ok m c sel seen (r.visit ++ visited) := by
  cases r with
  | loadMask =>
    cases hnext
    exact ⟨h, le_refl _⟩
  | loadBuckets mask =>
    cases hnext
    refine ⟨held_buckets hsafe (Nat.le_trans Nat.and_le_right h.2) fun x => hnew x (by simp), ?_⟩
    rw [h.1]
    exact ⟨nodup_nil, by simp [Reader.visit], by simp [Reader.visit], by simp [Reader.visit]⟩
  | compare pass a i =>
    have hvisit := h.2.visit h.1.lt_length
    simp only [Reader.next] at hnext
    split at hnext
    next hsel =>
      cases hnext
      exact ⟨h.1, hvisit.scanned h.1.scannable, hsel⟩
    · cases hnext
      exact ⟨h.1, hvisit⟩
  | classify pass a i =>
    simp only [Reader.next] at hnext
    split at hnext
    next hreal =>
      cases hnext
      exact ⟨h.1.succ hsafe hreal, h.2⟩
    next hsmall =>
      have hdone : (Reader.done a none : Reader ι).Ok m c sel seen visited :=
        ⟨h.2.scanned h.1.scannable, by simp⟩
      split at hnext
      · cases hnext
        exact hdone
      next hnonzero =>
        cases pass with
        | first =>
          cases hnext
          exact ⟨h.1, h.2, h.1.marker hsafe (by omega)⟩
        | second =>
          cases hnext
          exact hdone
  | wrap a i =>
    obtain ⟨hheld, hbefore, hmark⟩ := h
    simp only [Reader.next] at hnext
    rw [hmark] at hnext
    cases hnext
    have hzero : 0 < (m.world.arrays a).length := Nat.lt_of_le_of_lt (Nat.zero_le i) hheld.lt_length
    exact ⟨⟨hheld.scannable, hzero, hheld.seen⟩, hbefore.wrap⟩
  | hit a i =>
    obtain ⟨hheld, hscanned, hsel⟩ := h
    cases hnext
    refine ⟨hscanned, fun x hx => ?_⟩
    cases hx
    have hreal : 1 < (at_ (m.world.arrays a) i).sel := by
      rw [hsel]
      exact sel.one_lt
    obtain ⟨d, imp, howner, himp, hins⟩ := hsafe.pairs a i hreal
    refine ⟨hheld.seen i hsel, imp, himp, ?_⟩
    rcases hheld.scannable.own with hshared | ⟨hown, -⟩
    · rw [hsafe.shared_owner a hshared] at howner
      cases howner
    · rw [hown] at howner
      cases howner
      rw [hsel] at hins
      exact hins
  | done a outcome => simp [Reader.next] at hnext
  | fault => exact h.elim

end Reader

/-! ### Whole runs -/

section Runs

variable {b : Build} {c : κ} {sel : Sel} {s s' : System κ ι}

theorem safe_init (b) : Safe (System.init b : System κ ι).memory := by
  have hshared : ∀ a, (World.init b : World κ ι).Shared a → a = emptyBuckets :=
    fun a ha => ha.resolve_right not_mem_nil
  have hzero : ∀ a i, at_ ((System.init b : System κ ι).memory.world.arrays a) i = .zero :=
    fun a i => at_replicate _ _
  refine ⟨fun a ha => ?_, fun a _ i => hzero a i, fun _ _ => rfl, fun c => ?_, fun a i hi => ?_⟩
  · rw [hshared a ha]
    exact Nat.lt_succ_self _
  · refine ⟨⟨Nat.lt_succ_self _, .inl (.inl rfl)⟩, ?_, fun i hi => ?_⟩
    · exact CacheOk.length_le (init_inv b).shared ((init_inv b).cache c)
    · rw [hzero] at hi
      exact absurd hi (Nat.not_lt_zero 1)
  · rw [hzero] at hi
    exact absurd hi (Nat.not_lt_zero 1)

theorem Safe.log {m} (h : Safe m) (p : κ × Nat × ι) :
    Safe { m with inserted := p :: m.inserted } := by
  refine ⟨h.shared_lt, h.shared_zero, h.shared_owner, fun c => ?_, fun a i hi => ?_⟩
  · exact (h.fits c).frame le_rfl id rfl rfl
  · obtain ⟨d, imp, howner, himp, hins⟩ := h.pairs a i hi
    exact ⟨d, imp, howner, himp, mem_cons_of_mem p hins⟩

variable [DecidableEq κ]

structure System.Ok (b : Build) (c : κ) (sel : Sel) (s : System κ ι) : Prop where
  safe : Safe s.memory
  stores : AllHarmless s.client s.memory s.stores
  inv : Inv b (s.memory.world.writes s.stores)
  now : s.memory.world ∈ s.history
  reader : s.reader.Ok s.memory c sel (Seen b c sel s) s.visited

/-- All buckets that the lookup has compared or is about to load are inside array
`a`, which belongs to its cache or is a shared empty one. Neither pass meets a
bucket twice. -/
structure System.Confined (s : System κ ι) (c : κ) (a : ArrayId) : Prop where
  own : s.memory.world.Shared a ∨ s.memory.owner a = some c
  next : ∀ p ∈ s.reader.bucket, p.1 = a ∧ p.2 < (s.memory.world.arrays a).length
  visited : ∀ v ∈ s.visited, v.array = a ∧ v.i < (s.memory.world.arrays a).length
  nodup : s.visited.Nodup

theorem System.Ok.confined (h : s.Ok b c sel) : ∃ a, s.Confined c a := by
  have hok := h.reader
  have hunstarted : s.visited = [] → s.reader.bucket = none → ∃ a, s.Confined c a := by
    intro hvisited hbucket
    refine ⟨emptyBuckets, .inl (.inl rfl), ?_, ?_, ?_⟩
    · rw [hbucket]; simp
    · rw [hvisited]; simp
    · rw [hvisited]; exact nodup_nil
  have hscanned : ∀ a, Scanned s.memory c a s.visited →
      (∀ p ∈ s.reader.bucket, p.1 = a ∧ p.2 < (s.memory.world.arrays a).length) →
      ∃ a, s.Confined c a :=
    fun a hs hnext => ⟨a, hs.scannable.own.imp_right And.left, hnext, hs.range, hs.nodup⟩
  have hheld : ∀ a i, Held s.memory c sel (Seen b c sel s) a i →
      ∀ p ∈ some (a, i), p.1 = a ∧ p.2 < (s.memory.world.arrays a).length := by
    intro a i hheld p hp
    cases hp
    exact ⟨rfl, hheld.lt_length⟩
  generalize s.reader = r at hok hunstarted hscanned
  cases r with
  | loadMask => exact hunstarted hok rfl
  | loadBuckets mask => exact hunstarted hok.1 rfl
  | compare pass a i | classify pass a i =>
    exact hscanned a (hok.2.scanned hok.1.scannable) (hheld a i hok.1)
  | wrap a i => exact hscanned a (hok.2.1.scanned hok.1.scannable) (hheld a i hok.1)
  | hit a i => exact hscanned a hok.2.1 (hheld a i hok.1)
  | done a outcome => exact hscanned a hok.1 (by simp [Reader.bucket])
  | fault => exact hok.elim

/-- **Every step keeps the memory safe and the reader sound.** -/
theorem System.Ok.step {debug} (h : s.Ok (x86_64 debug) c sel)
    (hstep : Step (x86_64 debug) c sel s s') : s'.Ok (x86_64 debug) c sel := by
  obtain ⟨hsafe, hstores, hinv, hnow, hreader⟩ := h
  cases hstep with
  | @insert d newSel imp ws hidle hws =>
    rw [hidle] at hinv
    have hsel : newSel.addr ≠ 0 := ne_of_gt (lt_trans zero_lt_one newSel.one_lt)
    obtain ⟨ws', heq, hinv', -⟩ := insert_spec hinv d hsel imp
    obtain rfl := Except.ok.inj (heq.symm.trans hws)
    have hsafe' := hsafe.log (d, newSel.addr, imp)
    refine ⟨hsafe', ?_, hinv', hnow, ?_⟩
    · exact allHarmless_insert hsafe' hinv rfl newSel.one_lt mem_cons_self hws
    · exact hreader.frame hsafe' (evolves_of_world rfl rfl) (fun p hp => mem_cons_of_mem _ hp)
        (fun _ => id) fun _ _ hholds => ⟨_, hnow, hholds⟩
  | @erase d hidle =>
    rw [hidle] at hinv
    exact ⟨hsafe, allHarmless_eraseNolock hinv rfl d, (eraseNolock_spec hinv d).1, hnow, hreader⟩
  | @store x ws hx =>
    rw [hx] at hstores hinv
    obtain ⟨hsafe', hevolves⟩ := hsafe.write (b := x86_64 debug) hstores.1 s.client
    refine ⟨hsafe', hstores.2, ?_, mem_cons_self, ?_⟩
    · rw [Memory.write_world]
      exact hinv
    · refine hreader.frame hsafe' hevolves (fun p hp => ?_)
        (fun _ ⟨w, hw, hholds⟩ => ⟨w, mem_cons_of_mem _ hw, hholds⟩)
        fun _ _ hholds => ⟨_, mem_cons_self, hholds⟩
      rw [Memory.write_inserted]
      exact hp
  | @load r hr =>
    have hnow' : s.memory.world ∈ s.reader.history s.memory.world s.history := by
      cases s.reader with
      | loadMask => exact mem_cons_self
      | _ => exact hnow
    refine ⟨hsafe, hstores, hinv, hnow', ?_⟩
    refine Reader.Ok.next (b := x86_64 debug) ?_ hsafe hr fun _ _ hholds => ⟨_, hnow', hholds⟩
    -- before the lookup nothing has been held; later the history goes on
    generalize s.reader = reader at hreader
    cases reader with
    | loadMask => exact hreader
    | _ => exact hreader

theorem System.Ok.run {debug}
    (h : Run (x86_64 debug) c sel (System.init (x86_64 debug)) s) : s.Ok (x86_64 debug) c sel := by
  induction h with
  | refl => exact ⟨safe_init _, trivial, init_inv _, mem_cons_self, rfl⟩
  | tail _ hstep ih => exact ih.step hstep

/-- **Lookups without a lock are safe.** At every point of every interleaving, the
lookup stays inside one array of its cache or a shared one, in at most two
passes. A hit returns an imp that was inserted with `sel`, and the cache did hold
that pairing while the lookup ran. -/
theorem lockfree_lookup_safe {debug : Bool}
    (h : Run (x86_64 debug) c sel (System.init (x86_64 debug)) s) :
    (∃ a, s.Confined c a) ∧ s.reader ≠ .fault ∧ ∀ a x, s.reader = .done a (some x) →
      (∃ imp, x = .imp imp ∧ (c, sel.addr, imp) ∈ s.memory.inserted) ∧
      Seen (x86_64 debug) c sel s x := by
  have hok := System.Ok.run h
  refine ⟨hok.confined, fun hfault => ?_, fun a x hdone => ?_⟩
  · have hreader := hok.reader
    rw [hfault] at hreader
    exact hreader
  · have hreader := hok.reader
    rw [hdone] at hreader
    exact (hreader.2 x rfl).symm

end Runs

/-- An insertion runs to its end, then a lookup finds its imp. -/
theorem lockfree_lookup_safe_hit :
    ∃ s : System Unit Nat, s.reader = .done 1 (some (.imp 7)) ∧
      (∃ imp, ImpField.imp 7 = .imp imp ∧ ((), 6, imp) ∈ s.memory.inserted) ∧
      Seen (x86_64 true) () ⟨6, by decide⟩ s (.imp 7) := by
  have hrun := Relation.ReflTransGen.refl (r := Step (x86_64 true) () ⟨6, by decide⟩)
    (a := (System.init (x86_64 true) : System Unit Nat))
  replace hrun := hrun.tail (@Step.insert _ _ _ _ _ _ _ () ⟨6, by decide⟩ 7 _ rfl rfl)
  replace hrun := hrun.tail (.store rfl)
  replace hrun := hrun.tail (.store rfl)
  replace hrun := hrun.tail (.store rfl)
  replace hrun := hrun.tail (.store rfl)
  replace hrun := hrun.tail (.store rfl)
  replace hrun := hrun.tail (.store rfl)
  replace hrun := hrun.tail (.store rfl)
  replace hrun := hrun.tail (.store rfl)
  replace hrun := hrun.tail (.store rfl)
  replace hrun := hrun.tail (.load rfl)
  replace hrun := hrun.tail (.load rfl)
  replace hrun := hrun.tail (.load rfl)
  replace hrun := hrun.tail (.load rfl)
  have hsafe := lockfree_lookup_safe hrun
  exact ⟨_, rfl, hsafe.2.2 1 _ rfl⟩

end ObjcRuntime.Cache
