import Mathlib.Data.List.TakeWhile
import Mathlib.Data.Nat.Bitwise
import Mathlib.Tactic.Common

/-!
# ObjcRuntime.TypeEncoding

The parsers of method type encodings (`objc-typeencoding.mm`).

A pointer into the string is what follows up to the NUL; `none` is the pointer behind the
NUL. `SkipFirstType` takes the NUL for a type of its own, so it returns that pointer where
nothing but qualifiers is left, and whoever reads there leaves the string.
-/

namespace ObjcRuntime.TypeEncoding

open List Nat

/-! ### The parsers -/

/-- Why a parser does not return. -/
inductive Stop
  /-- `_objc_fatal` -/
  | fatal
  /-- A byte behind the NUL is read. -/
  | overrun
  /-- A distance that does not fit the result of `SubtypeUntil`, an `int`. -/
  | longDistance
  /-- More rounds of a loop than the string has bytes. -/
  | endless
  deriving DecidableEq

abbrev Pointer := Option (List Char)

/-- `*p` -/
def deref : Pointer → Except Stop (List Char)
  | some rest => .ok rest
  | none => .error .overrun

def nesting (c : Char) : Int :=
  if c = ']' ∨ c = '}' ∨ c = ')' then -1 else if c = '[' ∨ c = '{' ∨ c = '(' then 1 else 0

/-- `SubtypeUntil`: what is left at the end. -/
def subtypeUntil (close : Char) : Int → List Char → Except Stop (List Char)
  | _, [] => .error .fatal
  | level, c :: rest =>
    if level = 0 ∧ c = close then .ok (c :: rest)
    else subtypeUntil close (level + nesting c) rest

/-- `type + SubtypeUntil (type, close) + 1` -/
def skipSubtype (close : Char) (type : List Char) : Except Stop Pointer := do
  let rest ← subtypeUntil close 0 type
  if type.length - rest.length < 2 ^ 31 then .ok (some rest.tail) else .error .longDistance

def isQualifier (c : Char) : Bool :=
  c = 'O' ∨ c = 'n' ∨ c = 'o' ∨ c = 'N' ∨ c = 'r' ∨ c = 'V' ∨ c = '^'

/-- `SkipFirstType` -/
def skipFirstType : List Char → Except Stop Pointer
  | [] => .ok none
  | c :: rest =>
    if isQualifier c then skipFirstType rest
    else if c = '@' then .ok (some (if rest.head? = some '?' then rest.tail else rest))
    else if c = '[' then skipSubtype ']' (rest.dropWhile Char.isDigit)
    else if c = '{' then skipSubtype '}' rest
    else if c = '(' then skipSubtype ')' rest
    else .ok (some rest)

/-- `SkipFirstType` where the next byte is read then. -/
def skipType (type : List Char) : Except Stop (List Char) := skipFirstType type >>= deref

/-- The value of the digits at the start. -/
def number (rest : List Char) : Nat :=
  (rest.takeWhile Char.isDigit).foldl (fun n c => n * 10 + (c.toNat - '0'.toNat)) 0

/-- The GNU runtime's register parameter hint, and the sign: is it negative? -/
def skipSign (rest : List Char) : Bool × List Char :=
  let rest := if rest.head? = some '+' then rest.tail else rest
  if rest.head? = some '-' then (true, rest.tail) else (false, rest)

def skipOffset (rest : List Char) : List Char := (skipSign rest).2.dropWhile Char.isDigit

/-- The offset that follows a type. The source adds up the digits in an `int`, whose overflow
(from 2 ^ 31 on) is undefined; here the number has no bound. -/
def readOffset (rest : List Char) : Int :=
  if (skipSign rest).1 then -(number (skipSign rest).2) else number (skipSign rest).2

/-- The loop of `encoding_getNumberOfArguments`. -/
def countArguments : Nat → List Char → Except Stop Nat
  | 0, _ => .error .endless
  | rounds + 1, rest =>
    if rest = [] then .ok 0
    else do
      let rest ← skipType rest
      let nargs ← countArguments rounds (skipOffset rest)
      .ok (nargs + 1)

def encodingGetNumberOfArguments (types : List Char) : Except Stop Nat := do
  let rest ← skipType types
  countArguments (types.length + 1) (rest.dropWhile Char.isDigit)

/-- The stack size is an `unsigned`. -/
def encodingGetSizeOfArguments (types : List Char) : Except Stop Nat := do
  let rest ← skipType types
  .ok (number rest % 2 ^ 32)

/-- The loop of `encoding_getArgumentInfo`: the number of arguments before, the offset of
`self`, and what is left. -/
def seekArgument (arg : Nat) : Nat → Nat → Int → List Char → Except Stop (Nat × Int × List Char)
  | 0, _, _, _ => .error .endless
  | rounds + 1, nargs, selfOffset, rest =>
    if rest = [] ∨ nargs = arg then .ok (nargs, selfOffset, rest)
    else do
      let rest ← skipType rest
      seekArgument arg rounds (nargs + 1) (if nargs = 0 then readOffset rest else selfOffset)
        (skipOffset rest)

/-- `encoding_getArgumentInfo`: the number of arguments before, the type and the offset. -/
def encodingGetArgumentInfo (types : List Char) (arg : Nat) :
    Except Stop (Nat × Option (List Char) × Int) := do
  let rest ← skipType types
  let (nargs, selfOffset, type) ←
    seekArgument arg (types.length + 1) 0 0 (rest.dropWhile Char.isDigit)
  if type = [] then .ok (nargs, none, 0)
  else
    let rest ← skipFirstType type
    -- nothing is read behind the type of argument 0
    if arg = 0 then .ok (nargs, some type, 0)
    else
      let rest ← deref rest
      .ok (nargs, some type, readOffset rest - selfOffset)

/-- `encoding_copyReturnType`; `strncpy` stops at the NUL. -/
def encodingCopyReturnType (types : List Char) : Except Stop (List Char) := do
  match ← skipFirstType types with
  | some rest => .ok (types.take (types.length - rest.length))
  | none => .ok types

def encodingCopyArgumentType (types : List Char) (index : Nat) :
    Except Stop (Option (List Char)) := do
  match (← encodingGetArgumentInfo types index).2.1 with
  | some type => return some (← encodingCopyReturnType type)
  | none => .ok none

/-! ### Types -/

/-- Strings with nested brackets, of whatever kind. -/
inductive Nested : List Char → Prop
  | nil : Nested []
  | char {c s} : nesting c = 0 → Nested s → Nested (c :: s)
  | group {o c s t} : nesting o = 1 → nesting c = -1 → Nested s → Nested t →
      Nested (o :: (s ++ c :: t))

/-- What is generated as a type. -/
inductive IsType : List Char → Prop
  | qualified {c s} : isQualifier c = true → IsType s → IsType (c :: s)
  | object : IsType ['@']
  | block : IsType ['@', '?']
  | array {d s} : (∀ c ∈ d, c.isDigit = true) → Nested s →
      IsType ('[' :: (d ++ s ++ [']']))
  | struct {s} : Nested s → IsType ('{' :: (s ++ ['}']))
  | union {s} : Nested s → IsType ('(' :: (s ++ [')']))
  | basic {c} : isQualifier c = false → c.isDigit = false →
      c ≠ '@' ∧ c ≠ '[' ∧ c ≠ '{' ∧ c ≠ '(' → IsType [c]

section Types

variable {s t a : List Char} {c close : Char} {level : Int}

theorem IsType.head (h : IsType a) : ∃ c s, a = c :: s ∧ c.isDigit = false := by
  cases h with
  | @qualified c s hc _ =>
    refine ⟨c, s, rfl, ?_⟩
    simp only [isQualifier, decide_eq_true_eq] at hc
    rcases hc with rfl | rfl | rfl | rfl | rfl | rfl | rfl <;> rfl
  | object | block | array _ _ | struct _ | union _ => exact ⟨_, _, rfl, rfl⟩
  | basic _ hdigit _ => exact ⟨_, _, rfl, hdigit⟩

end Types

/-! ### Encodings -/

structure IsNumber (digits : List Char) : Prop where
  nonempty : digits ≠ []
  isDigit : ∀ c ∈ digits, c.isDigit = true
  small : number digits < 2 ^ 30

/-- An argument's type and offset. -/
structure Argument where
  type : List Char
  plus : Bool
  minus : Bool
  digits : List Char
  isType : IsType type
  isNumber : IsNumber digits

namespace Argument

def offsetText (a : Argument) : List Char :=
  (if a.plus then ['+'] else []) ++ ((if a.minus then ['-'] else []) ++ a.digits)

def offset (a : Argument) : Int := if a.minus then -(number a.digits) else number a.digits

def text (a : Argument) : List Char := a.type ++ a.offsetText

end Argument

/-- A method's type encoding: `self` is the first argument. -/
structure Encoding where
  result : List Char
  size : List Char
  self : Argument
  args : List Argument
  isType : IsType result
  isNumber : IsNumber size

def Encoding.arguments (e : Encoding) : List Argument := e.self :: e.args

def Encoding.text (e : Encoding) : List Char :=
  e.result ++ (e.size ++ e.arguments.flatMap Argument.text)

section Encodings

variable {d t : List Char} {a : Argument} {args : List Argument} {e : Encoding}

theorem IsNumber.head (h : IsNumber d) :
    ∃ c s, d = c :: s ∧ ∀ other, other.isDigit = false → c ≠ other := by
  cases d with
  | nil => exact absurd rfl h.nonempty
  | cons c s =>
    refine ⟨c, s, rfl, ?_⟩
    rintro other hother rfl
    rw [h.isDigit c (.head _)] at hother
    cases hother

end Encodings

/-! ### Staying inside -/

/-- The types that `addMethod` stores for the caller's. -/
def methodTypes (types : Option (List Char)) : List Char := types.getD []

/-- The process is stopped, or the call has read nothing behind the NUL and returns a `Q`. -/
def Returns {α : Type} (r : Except Stop α) (Q : α → Prop) : Prop :=
  r = .error .fatal ∨ ∃ v, r = .ok v ∧ Q v

def Inside {α : Type} (r : Except Stop α) : Prop := Returns r fun _ => True

def ParsesInside (types : List Char) (index : Nat) : Prop :=
  Inside (encodingGetNumberOfArguments types) ∧ Inside (encodingCopyReturnType types) ∧
    Inside (encodingCopyArgumentType types index) ∧ Inside (encodingGetSizeOfArguments types) ∧
    Inside (encodingGetArgumentInfo types index)

/-- Where the arguments of an encoding start, and where the last one ends. -/
inductive ArgumentStart (types : List Char) : List Char → Prop
  | self {rest} : skipFirstType types = .ok (some rest) →
      ArgumentStart types (rest.dropWhile Char.isDigit)
  | next {type rest} : ArgumentStart types type →
      skipFirstType type = .ok (some rest) → ArgumentStart types (skipOffset rest)

/-- A type is there behind the qualifiers, with its closing bracket in reach of an `int`. -/
def HasType (type : List Char) : Prop :=
  (∃ c ∈ type, isQualifier c = false) ∧ skipFirstType type ≠ .error .longDistance

/-- What can come of skipping a type. -/
inductive Skips (type : List Char) : Except Stop Pointer → Prop
  | fatal {c} : c ∈ type → isQualifier c = false → Skips type (.error .fatal)
  | longDistance : Skips type (.error .longDistance)
  | behind : (∀ c ∈ type, isQualifier c = true) → Skips type (.ok none)
  | type {c rest} : c ∈ type → isQualifier c = false →
      rest.length < type.length → Skips type (.ok (some rest))

section Inside

variable {α β : Type} {x : Except Stop α} {f : α → Except Stop β} {c : Char}
  {P : α → Prop} {Q : β → Prop}
  {types type rest : List Char} {arg rounds : Nat}

theorem Returns.ok {v} (h : P v) : Returns (.ok v) P := .inr ⟨v, rfl, h⟩

theorem Returns.bind (h : Returns x P) (hf : ∀ v, P v → Returns (f v) Q) : Returns (x >>= f) Q := by
  rcases h with rfl | ⟨v, rfl, hv⟩
  · exact .inl rfl
  · exact hf v hv

theorem Returns.inside (h : Returns x P) : Inside x :=
  h.imp_right fun ⟨v, hv, _⟩ => ⟨v, hv, trivial⟩

theorem not_inside (stop) (h : stop ≠ .fatal) : ¬ Inside (.error stop : Except Stop α) := by
  rintro (⟨⟨⟩⟩ | ⟨v, ⟨⟩, -⟩)
  exact h rfl

theorem Inside.of_bind (h : Inside (x >>= f)) : Inside x := by
  cases x with
  | error stop =>
    rcases h with h | ⟨v, h, -⟩
    · cases h
      exact .inl rfl
    · cases h
  | ok v => exact .ok trivial

theorem subtypeUntil_cases (close) (level : Int) (type) :
    subtypeUntil close level type = .error .fatal ∨
      ∃ rest, subtypeUntil close level type = .ok rest ∧ rest.length ≤ type.length := by
  induction type generalizing level with
  | nil => exact .inl rfl
  | cons c type ih =>
    rw [subtypeUntil]
    split
    next => exact .inr ⟨_, rfl, le_refl _⟩
    next => exact (ih _).imp_right fun ⟨rest, h, hle⟩ => ⟨rest, h, le_succ_of_le hle⟩

theorem skips_skipSubtype (close) (hc : isQualifier c = false)
    (hle : rest.length ≤ type.length) : Skips (c :: type) (skipSubtype close rest) := by
  unfold skipSubtype
  rcases subtypeUntil_cases close 0 rest with h | ⟨left, h, hleft⟩
  · rw [h]
    exact .fatal (.head _) hc
  · rw [h]
    change Skips _ (if _ - _ < 2 ^ 31 then _ else _)
    have htail := (tail_sublist left).length_le
    split
    · exact .type (.head _) hc (by rw [length_cons]; omega)
    · exact .longDistance

theorem skips_skipFirstType (type) : Skips type (skipFirstType type) := by
  induction type with
  | nil => exact .behind nofun
  | cons c type ih =>
    rw [skipFirstType]
    cases hc : isQualifier c with
    | true =>
      rw [if_pos rfl]
      generalize skipFirstType type = r at ih ⊢
      cases ih with
      | fatal hd hq => exact .fatal (.tail _ hd) hq
      | longDistance => exact .longDistance
      | behind hall => exact .behind (forall_mem_cons.2 ⟨hc, hall⟩)
      | type hd hq hlt => exact .type (.tail _ hd) hq (lt_succ_of_lt hlt)
    | false =>
      rw [if_neg Bool.false_ne_true]
      repeat' split
      · exact .type (.head _) hc (lt_succ_of_le (tail_sublist _).length_le)
      · exact .type (.head _) hc (lt_succ_self _)
      · exact skips_skipSubtype _ hc (dropWhile_sublist _).length_le
      · exact skips_skipSubtype _ hc (le_refl _)
      · exact skips_skipSubtype _ hc (le_refl _)
      · exact .type (.head _) hc (lt_succ_self _)

theorem skipFirstType_returns (h : HasType type) : Returns (skipFirstType type) fun p =>
    ∃ rest, p = some rest ∧ skipFirstType type = .ok (some rest) ∧ rest.length < type.length := by
  obtain ⟨⟨c, hc, hq⟩, hfits⟩ := h
  have hskips := skips_skipFirstType type
  generalize skipFirstType type = r at hskips hfits ⊢
  cases hskips with
  | fatal => exact .inl rfl
  | longDistance => exact absurd rfl hfits
  | behind hall =>
    rw [hall c hc] at hq
    cases hq
  | type _ _ hlt => exact .ok ⟨_, rfl, rfl, hlt⟩

theorem skipType_returns (h : HasType type) : Returns (skipType type) fun rest =>
    skipFirstType type = .ok (some rest) ∧ rest.length < type.length := by
  refine (skipFirstType_returns h).bind fun p => ?_
  rintro ⟨rest, rfl, hrest⟩
  exact .ok hrest

theorem hasType_of_inside (h : Inside (skipType type)) : HasType type := by
  have hskips := skips_skipFirstType type
  unfold HasType
  unfold skipType at h
  generalize skipFirstType type = r at hskips h ⊢
  cases hskips with
  | fatal hc hq | type hc hq _ => exact ⟨⟨_, hc, hq⟩, nofun⟩
  | longDistance | behind hall => exact absurd h (not_inside _ nofun)

theorem length_skipOffset_le (rest) : (skipOffset rest).length ≤ rest.length := by
  have hdrop := (dropWhile_sublist (l := (skipSign rest).2) Char.isDigit).length_le
  refine le_trans hdrop ?_
  unfold skipSign
  have htail (s : List Char) := (tail_sublist s).length_le
  dsimp only
  repeat' split
  · exact le_trans (htail _) (htail _)
  · exact htail _
  · exact htail _
  · exact le_refl _

theorem length_dropWhile_le (rest : List Char) :
    (rest.dropWhile Char.isDigit).length ≤ rest.length :=
  (dropWhile_sublist _).length_le

/-- Both loops read the types of the arguments, and end. -/
theorem countArguments_inside (hall : ∀ type, ArgumentStart types type → type ≠ [] → HasType type)
    (h : ArgumentStart types type) (hrounds : type.length < rounds) :
    Inside (countArguments rounds type) := by
  induction rounds generalizing type with
  | zero => cases hrounds
  | succ rounds ih =>
    rw [countArguments]
    split
    next => exact .ok trivial
    next hne =>
      refine (skipType_returns (hall type h hne)).bind fun rest ⟨hskip, hlt⟩ => ?_
      have hle := length_skipOffset_le rest
      exact (ih (.next h hskip) (by omega)).bind fun n _ => .ok trivial

theorem seekArgument_returns {nargs selfOffset}
    (hall : ∀ type, ArgumentStart types type → type ≠ [] → HasType type)
    (h : ArgumentStart types type) (hrounds : type.length < rounds) :
    Returns (seekArgument arg rounds nargs selfOffset type) fun v => ArgumentStart types v.2.2 := by
  induction rounds generalizing type nargs selfOffset with
  | zero => cases hrounds
  | succ rounds ih =>
    rw [seekArgument]
    split
    next => exact .ok h
    next hstop =>
      have hne : type ≠ [] := fun hnil => hstop (.inl hnil)
      refine (skipType_returns (hall type h hne)).bind fun rest ⟨hskip, hlt⟩ => ?_
      have hle := length_skipOffset_le rest
      exact ih (.next h hskip) (by omega)

theorem copyReturnType_inside (h : HasType type) : Inside (encodingCopyReturnType type) := by
  refine (skipFirstType_returns h).bind fun p => ?_
  rintro ⟨rest, rfl, -⟩
  exact .ok trivial

theorem getArgumentInfo_returns (arg : Nat) (h : HasType types)
    (hall : ∀ type, ArgumentStart types type → type ≠ [] → HasType type) :
    Returns (encodingGetArgumentInfo types arg) fun v =>
      ∀ type, v.2.1 = some type → HasType type := by
  refine (skipType_returns h).bind fun rest ⟨hskip, hlt⟩ => ?_
  have hle := length_dropWhile_le rest
  refine (seekArgument_returns hall (.self hskip) (by omega)).bind ?_
  rintro ⟨nargs, selfOffset, type⟩ hstart
  change Returns (if type = [] then _ else _) _
  split
  next => exact .ok nofun
  next hne =>
    have htype := hall type hstart hne
    refine (skipFirstType_returns htype).bind fun p => ?_
    rintro ⟨rest, rfl, -⟩
    split
    · exact .ok fun _ heq => Option.some.inj heq ▸ htype
    · exact .ok fun _ heq => Option.some.inj heq ▸ htype

/-- Where the types are counted without leaving the string, every argument has been reached. -/
theorem countArguments_of_start (h : Inside (encodingGetNumberOfArguments types))
    (hstart : ArgumentStart types type) : ∃ rounds, Inside (countArguments (rounds + 1) type) := by
  induction hstart with
  | self hskip =>
    rw [encodingGetNumberOfArguments, skipType, hskip] at h
    exact ⟨_, h⟩
  | @next type rest _ hskip ih =>
    obtain ⟨rounds, ih⟩ := ih
    rw [countArguments, if_neg (by rintro rfl; cases hskip), skipType, hskip] at ih
    change Inside (countArguments rounds (skipOffset rest) >>= _) at ih
    have hrest := ih.of_bind
    cases rounds with
    | zero => exact absurd hrest (not_inside _ nofun)
    | succ rounds => exact ⟨rounds, hrest⟩

/-- **The parsers stay inside the string just if wherever a type starts there is one.** -/
theorem parses_inside_iff (caller : Option (List Char)) :
    (∀ index, ParsesInside (methodTypes caller) index) ↔
      HasType (methodTypes caller) ∧
        ∀ type, ArgumentStart (methodTypes caller) type → type ≠ [] → HasType type := by
  generalize methodTypes caller = types
  constructor
  · intro h
    have hcount := (h 0).1
    refine ⟨hasType_of_inside hcount.of_bind, fun type hstart hne => hasType_of_inside ?_⟩
    obtain ⟨rounds, hinside⟩ := countArguments_of_start hcount hstart
    rw [countArguments, if_neg hne] at hinside
    exact hinside.of_bind
  · rintro ⟨htype, hall⟩ index
    have hskip := skipType_returns htype
    have hinfo := getArgumentInfo_returns index htype hall
    refine ⟨hskip.bind fun rest ⟨hrest, hlt⟩ => ?_, copyReturnType_inside htype, hinfo.bind ?_,
      hskip.bind fun _ _ => .ok trivial, hinfo.inside⟩
    · have hle := length_dropWhile_le rest
      exact countArguments_inside hall (.self hrest) (by omega)
    · rintro ⟨nargs, type, offset⟩ hargument
      cases type with
      | none => exact .ok trivial
      | some type => exact (copyReturnType_inside (hargument _ rfl)).bind fun _ _ => .ok trivial

/-- A method without types. -/
theorem parses_behind_nul : ¬ ParsesInside (methodTypes none) 0 :=
  fun h => not_inside .overrun nofun h.1

end Inside

end ObjcRuntime.TypeEncoding
