import Mathlib.Data.List.TakeWhile

/-!
# ObjcRuntime.Ivars.LayoutString

Layout bitmaps and layout strings (`objc-layout.mm`, and `isScanned` in
`objc-class.mm`).

A bitmap has a bit for each word of an instance. A string is a run-length code for
it: the high nibble of a byte is a number of words to skip, the low nibble a number
of words to scan after them. A string is kept without the zero byte that ends it;
`none` is `NULL`, which stands for all words (strong) or for none (weak).

`expand` says what a string stands for. The writer puts down a string that stands for
the bitmap, and both readers agree with `expand`.
-/

namespace ObjcRuntime.LayoutString

open List

abbrev Byte := BitVec 8

/-- `layout_bitmap`: `bitCount` is the number of bits. -/
structure LayoutBitmap where
  bits : List Bool
  weak : Bool

/-! ### Writing -/

/-- The ranges of skip and scan that the loop of `compress_layout` counts. Each of its
rounds goes at least one bit further. -/
def ranges : Nat → List Bool → List (Nat × Nat)
  | 0, _ => []
  | fuel + 1, bits =>
    if bits.isEmpty then []
    else
      let rest := bits.dropWhile (!·)
      ((bits.takeWhile (!·)).length, (rest.takeWhile id).length) ::
        ranges fuel (rest.dropWhile id)

/-- `while (skip > 0xf)`: the bytes, and the skip that is left. -/
def longSkips (skip : Nat) : List Byte × Nat :=
  if 0xf < skip then
    let rest := longSkips (skip - 0xf)
    (0xf0 :: rest.1, rest.2)
  else ([], skip)

/-- The bytes of a scan; the first one is merged with what `*l` has. -/
def scanBytes (l : Byte) (scan : Nat) : List Byte :=
  if 0xf < scan then (l ||| 0x0f) :: scanBytes 0 (scan - 0xf) else [l ||| .ofNat 8 scan]

/-- Record skip and scan. -/
def recordRange (skip scan : Nat) : List Byte :=
  let long := longSkips skip
  long.1 ++ if long.2 ≠ 0 ∨ scan ≠ 0 then scanBytes (.ofNat 8 (long.2 <<< 4)) scan else []

/-- What `compress_layout` writes before the terminating byte. -/
def layoutBytes (bits : List Bool) : List Byte :=
  (ranges bits.length bits).flatMap fun r => recordRange r.1 r.2

/-- `compress_layout` -/
def compressLayout (bits : List Bool) (weak : Bool) : Option (List Byte) :=
  let rs := ranges bits.length bits
  if rs.all (·.2 == 0) && weak then none
  else if rs.all (·.1 == 0) && !weak then none
  -- `strdup`
  else some ((layoutBytes bits ++ [0]).takeWhile (· != 0))

/-- `layout_string_create` -/
def layoutStringCreate (b : LayoutBitmap) : Option (List Byte) := compressLayout b.bits b.weak

/-! ### Reading -/

/-- `set_bits`; there is no result if it is fatal. -/
def setBits (bits : List Bool) (bit : Nat) : Nat → Option (List Bool)
  | 0 => some bits
  | count + 1 =>
    if bit < bits.length then setBits (bits.set bit true) (bit + 1) count
    else if bit = bits.length then none
    else some bits

def skipNibble (c : Byte) : Nat := ((c &&& 0xf0#8) >>> 4).toNat

def scanNibble (c : Byte) : Nat := (c &&& 0x0f#8).toNat

/-- The loop of `decompress_layout`. -/
def decompressLayout (bits : List Bool) (bit : Nat) : List Byte → Option (List Bool)
  | [] => some bits
  | c :: string =>
    if c = 0 then some bits
    else (setBits bits (bit + skipNibble c) (scanNibble c)).bind
      (decompressLayout · (bit + skipNibble c + scanNibble c) string)

/-- `layout_bitmap_create` -/
def layoutBitmapCreate (string : Option (List Byte)) (layoutStringInstanceSize instanceSize : Nat)
    (weak : Bool) : Option LayoutBitmap :=
  let bits := replicate (instanceSize / 8) false
  Option.map (⟨·, weak⟩) <|
    match string with
    | none => if !weak then setBits bits 0 (layoutStringInstanceSize / 8) else some bits
    | some string => decompressLayout bits 0 string

/-- The loop of `isScanned`. -/
def isScannedLoop (ivarIndex index : Nat) : List Byte → Bool
  | [] => false
  | byte :: layout =>
    if byte = 0 then false
    else
      let skips := (byte >>> 4).toNat
      if ivarIndex < index + skips then false
      else if ivarIndex < index + skips + scanNibble byte then true
      else isScannedLoop ivarIndex (index + skips + scanNibble byte) layout

/-- `isScanned` -/
def isScanned (ivarOffset : Nat) : Option (List Byte) → Bool
  | none => false
  | some layout => isScannedLoop (ivarOffset / 8) 0 layout

/-! ### What a string stands for -/

def range (skip scan : Nat) : List Bool := replicate skip false ++ replicate scan true

def expand (string : List Byte) : List Bool :=
  string.flatMap fun c => range (skipNibble c) (scanNibble c)

/-- The string stands for these bits, and has no zero byte. -/
structure Codes (string : List Byte) (bits : List Bool) : Prop where
  nonzero : 0 ∉ string
  expand_eq : expand string = bits

theorem nibbles : ∀ skip scan : Fin 16,
    skipNibble (.ofNat 8 (skip.1 <<< 4) ||| .ofNat 8 scan.1) = skip ∧
      scanNibble (.ofNat 8 (skip.1 <<< 4) ||| .ofNat 8 scan.1) = scan := by
  decide

theorem eq_zero_iff : ∀ c : Byte, c = 0 ↔ skipNibble c = 0 ∧ scanNibble c = 0 := by
  decide

theorem shift_eq : ∀ c : Byte, (c >>> 4).toNat = skipNibble c := by
  decide

theorem expand_cons (c : Byte) (string) :
    expand (c :: string) = range (skipNibble c) (scanNibble c) ++ expand string :=
  flatMap_cons

theorem Codes.nil : Codes [] [] := ⟨not_mem_nil, rfl⟩

theorem Codes.append {s s' b b'} (h : Codes s b) (h' : Codes s' b') :
    Codes (s ++ s') (b ++ b') := by
  refine ⟨fun hmem => (mem_append.1 hmem).elim h.nonzero h'.nonzero, ?_⟩
  rw [expand, flatMap_append, ← h.expand_eq, ← h'.expand_eq]
  rfl

theorem codes_byte {skip scan} (hskip : skip ≤ 15) (hscan : scan ≤ 15) (hne : skip ≠ 0 ∨ scan ≠ 0) :
    Codes [.ofNat 8 (skip <<< 4) ||| .ofNat 8 scan] (range skip scan) := by
  obtain ⟨h₁, h₂⟩ := nibbles ⟨skip, by omega⟩ ⟨scan, by omega⟩
  dsimp only at h₁ h₂
  refine ⟨?_, by rw [expand_cons, h₁, h₂]; exact append_nil _⟩
  rw [mem_singleton, eq_comm, eq_zero_iff, h₁, h₂]
  omega

theorem codes_longSkips (skip : Nat) :
    ∃ n, Codes (longSkips skip).1 (replicate n false) ∧ n + (longSkips skip).2 = skip ∧
      (longSkips skip).2 ≤ 15 := by
  induction skip using Nat.strong_induction_on with
  | _ skip ih =>
    rw [longSkips]
    split
    next hlong =>
      obtain ⟨n, hcodes, hsum, hle⟩ := ih (skip - 0xf) (by omega)
      refine ⟨15 + n, ?_, by dsimp only; omega, hle⟩
      rw [← replicate_append_replicate]
      exact (codes_byte (le_refl 15) (Nat.zero_le 15) (by decide)).append hcodes
    · exact ⟨0, .nil, Nat.zero_add _, by dsimp only; omega⟩

theorem codes_scanBytes {skip scan} (hskip : skip ≤ 15) (hne : skip ≠ 0 ∨ scan ≠ 0) :
    Codes (scanBytes (.ofNat 8 (skip <<< 4)) scan) (range skip scan) := by
  induction scan using Nat.strong_induction_on generalizing skip with
  | _ scan ih =>
    rw [scanBytes]
    split
    next hlong =>
      have hrest := ih (scan - 0xf) (by omega) (Nat.zero_le 15) (by omega)
      have hbits : range skip 15 ++ range 0 (scan - 0xf) = range skip scan := by
        rw [range, append_assoc, range, replicate_zero, nil_append, replicate_append_replicate,
          Nat.add_sub_of_le (Nat.le_of_lt hlong), range]
      exact hbits ▸ (codes_byte hskip (le_refl 15) (by omega)).append hrest
    · exact codes_byte hskip (by omega) hne

theorem codes_recordRange (skip scan : Nat) : Codes (recordRange skip scan) (range skip scan) := by
  obtain ⟨n, hcodes, hsum, hle⟩ := codes_longSkips skip
  have hbits : replicate n false ++ range (longSkips skip).2 scan = range skip scan := by
    rw [range, ← append_assoc, replicate_append_replicate, hsum, range]
  unfold recordRange
  dsimp only
  split
  next hne => exact hbits ▸ hcodes.append (codes_scanBytes hle hne)
  next hzero =>
    obtain ⟨hskip, hscan⟩ : (longSkips skip).2 = 0 ∧ scan = 0 := by omega
    rw [hskip, hscan] at hbits
    rw [hscan]
    exact hbits ▸ hcodes.append .nil

theorem length_dropWhile_le (p : Bool → Bool) (bits : List Bool) :
    (bits.dropWhile p).length ≤ bits.length :=
  (dropWhile_sublist p).length_le

theorem flatMap_ranges {fuel bits} (hfuel : bits.length ≤ fuel) :
    ((ranges fuel bits).flatMap fun r => range r.1 r.2) = bits := by
  induction fuel generalizing bits with
  | zero => simp_all [ranges]
  | succ fuel ih =>
    rw [ranges]
    split
    next hempty => exact (isEmpty_iff.1 hempty).symm
    next hne =>
      have hskip : replicate (bits.takeWhile (!·)).length false = bits.takeWhile (!·) :=
        (eq_replicate_of_mem fun b hb => by simpa using mem_takeWhile_imp hb).symm
      have hscan : ∀ rest : List Bool,
          replicate (rest.takeWhile id).length true = rest.takeWhile id :=
        fun rest => (eq_replicate_of_mem fun b hb => by simpa using mem_takeWhile_imp hb).symm
      have hlt : ((bits.dropWhile (!·)).dropWhile id).length ≤ fuel := by
        cases bits with
        | nil => simp at hne
        | cons b bits =>
          rw [length_cons] at hfuel
          cases b with
          | false =>
            have hle := length_dropWhile_le id (bits.dropWhile (!·))
            have hle' := length_dropWhile_le (!·) bits
            simp
            omega
          | true =>
            have hle := length_dropWhile_le id bits
            simp
            omega
      rw [flatMap_cons, ih hlt, range, hskip, hscan, append_assoc, takeWhile_append_dropWhile,
        takeWhile_append_dropWhile]

theorem codes_layoutBytes (bits : List Bool) : Codes (layoutBytes bits) bits := by
  have hall : ∀ rs : List (Nat × Nat), Codes (rs.flatMap fun r => recordRange r.1 r.2)
      (rs.flatMap fun r => range r.1 r.2) := by
    intro rs
    induction rs with
    | nil => exact .nil
    | cons r rs ih => exact (codes_recordRange r.1 r.2).append ih
  have hcodes := hall (ranges bits.length bits)
  rwa [flatMap_ranges (le_refl _)] at hcodes

/-- Each byte stands for at least one bit. -/
theorem Codes.length_le {string bits} (h : Codes string bits) : string.length ≤ bits.length := by
  obtain ⟨hne, rfl⟩ := h
  induction string with
  | nil => exact Nat.zero_le _
  | cons c string ih =>
    obtain ⟨hc, hne⟩ := not_or.1 (mt mem_cons.2 hne)
    have hle := ih hne
    rw [eq_comm, eq_zero_iff] at hc
    simp only [expand_cons, range, length_cons, length_append, length_replicate]
    omega

/-! ### The readers -/

theorem setBits_zeros (done : List Bool) (count rest : Nat) :
    setBits (done ++ replicate (count + rest) false) done.length count =
      some (done ++ replicate count true ++ replicate rest false) := by
  induction count generalizing done with
  | zero => simp [setBits]
  | succ count ih =>
    have hset : (done ++ replicate (count + 1 + rest) false).set done.length true =
        (done ++ [true]) ++ replicate (count + rest) false := by
      simp [Nat.add_right_comm count 1 rest, replicate_succ]
    have hnext := ih (done ++ [true])
    rw [length_append, length_singleton] at hnext
    rw [setBits, if_pos (by rw [length_append, length_replicate]; omega), hset, hnext]
    simp [replicate_succ]

theorem Codes.decompressLayout {string bits} (h : Codes string bits) (done : List Bool)
    (rest : Nat) :
    decompressLayout (done ++ replicate (bits.length + rest) false) done.length string =
      some (done ++ bits ++ replicate rest false) := by
  obtain ⟨hne, rfl⟩ := h
  induction string generalizing done with
  | nil => simp [LayoutString.decompressLayout, expand]
  | cons c string ih =>
    obtain ⟨hc, hne⟩ := not_or.1 (mt mem_cons.2 hne)
    rw [LayoutString.decompressLayout, if_neg (Ne.symm hc), expand_cons, range]
    generalize skipNibble c = skip
    generalize scanNibble c = scan
    -- the words that are skipped are done
    have hset := setBits_zeros (done ++ replicate skip false) scan ((expand string).length + rest)
    have hnext := ih (done ++ range skip scan) hne
    simp only [range, append_assoc, replicate_append_replicate, length_append, length_replicate,
      Nat.add_assoc] at hset hnext ⊢
    rw [hset]
    exact hnext

theorem Codes.isScannedLoop_iff {string bits} (h : Codes string bits) (index k : Nat) :
    isScannedLoop (index + k) index string ↔ bits[k]? = some true := by
  obtain ⟨hne, rfl⟩ := h
  induction string generalizing index k with
  | nil => simp [isScannedLoop, expand]
  | cons c string ih =>
    obtain ⟨hc, hne⟩ := not_or.1 (mt mem_cons.2 hne)
    rw [isScannedLoop, if_neg (Ne.symm hc), shift_eq, expand_cons, range]
    generalize skipNibble c = skip
    generalize scanNibble c = scan
    dsimp only
    split
    next hin => simp [getElem?_append, show k < skip by omega]
    next hout =>
      split
      next hin =>
        simp [getElem?_append, show ¬ k < skip by omega, show k - skip < scan by omega]
      next hpast =>
        have hnext := ih (index + skip + scan) (k - (skip + scan)) hne
        rw [show index + skip + scan + (k - (skip + scan)) = index + k by omega] at hnext
        rw [hnext, getElem?_append_right (by simp; omega)]
        simp

/-! ### There and back -/

theorem eq_replicate_of_ranges {bits : List Bool} {b : Bool}
    (h : ∀ r ∈ ranges bits.length bits, ∀ b' ∈ range r.1 r.2, b' = b) :
    bits = replicate bits.length b := by
  refine eq_replicate_of_mem fun b' hb' => ?_
  rw [← flatMap_ranges (le_refl bits.length)] at hb'
  obtain ⟨r, hr, hb'⟩ := mem_flatMap.1 hb'
  exact h r hr b' hb'

theorem layoutStringCreate_cases (bits : List Bool) (weak : Bool) :
    layoutStringCreate ⟨bits, weak⟩ = none ∧ bits = replicate bits.length (!weak) ∨
      layoutStringCreate ⟨bits, weak⟩ = some (layoutBytes bits) := by
  have hdup : (layoutBytes bits ++ [0]).takeWhile (· != 0) = layoutBytes bits := by
    rw [takeWhile_append_of_pos fun c hc => by
      simpa using ne_of_mem_of_not_mem hc (codes_layoutBytes bits).nonzero]
    simp
  unfold layoutStringCreate compressLayout
  rw [hdup]
  dsimp only
  split
  next hnone =>
    simp only [Bool.and_eq_true, all_eq_true, beq_iff_eq] at hnone
    refine .inl ⟨rfl, eq_replicate_of_ranges fun r hr b hb => ?_⟩
    have hb : ¬ r.1 = 0 ∧ b = false := by simpa [range, hnone.1 r hr] using hb
    rw [hb.2, hnone.2]
    rfl
  · split
    next hall =>
      simp only [Bool.and_eq_true, all_eq_true, beq_iff_eq, Bool.not_eq_true'] at hall
      refine .inl ⟨rfl, eq_replicate_of_ranges fun r hr b hb => ?_⟩
      have hb : ¬ r.2 = 0 ∧ b = true := by simpa [range, hall.1 r hr] using hb
      rw [hb.2, hall.2]
      rfl
    · exact .inr rfl

/-- **Layout strings and bitmaps are inverse.** For every bitmap, strong or weak: reading the
string that is created from it gives the bitmap back; the bytes that are written have no zero
among them and leave room for the terminating one; and a string that is not `NULL` is what was
written, and `isScanned` reads the bits off it. -/
theorem layout_round_trip (bits : List Bool) (weak : Bool) :
    layoutBitmapCreate (layoutStringCreate ⟨bits, weak⟩) (8 * bits.length) (8 * bits.length) weak =
      some ⟨bits, weak⟩ ∧ 0 ∉ layoutBytes bits ∧ (layoutBytes bits).length + 1 ≤ bits.length + 1 ∧
    ∀ string, layoutStringCreate ⟨bits, weak⟩ = some string → string = layoutBytes bits ∧
      ∀ k, isScanned (8 * k) (some string) ↔ bits[k]? = some true := by
  have hcodes := codes_layoutBytes bits
  refine ⟨?_, hcodes.nonzero, Nat.succ_le_succ hcodes.length_le, fun string hstring => ?_⟩
  · unfold layoutBitmapCreate
    rw [Nat.mul_div_cancel_left _ (by decide)]
    rcases layoutStringCreate_cases bits weak with ⟨hnull, hbits⟩ | hstring
    · rw [hnull, hbits, length_replicate]
      cases weak with
      | true => rfl
      | false =>
        have hset := setBits_zeros [] bits.length 0
        simp at hset
        simp [hset]
    · have hread := hcodes.decompressLayout [] 0
      simp at hread
      simp [hstring, hread]
  · rcases layoutStringCreate_cases bits weak with ⟨hnull, -⟩ | hlayout
    · rw [hnull] at hstring
      cases hstring
    · rw [hlayout] at hstring
      cases hstring
      refine ⟨rfl, fun k => ?_⟩
      have hread := hcodes.isScannedLoop_iff 0 k
      rw [Nat.zero_add] at hread
      rw [isScanned, Nat.mul_div_cancel_left _ (by decide), hread]

end ObjcRuntime.LayoutString
