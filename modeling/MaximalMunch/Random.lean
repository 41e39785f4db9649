import MaximalMunch.Byte

/-! Sources of random choices, and what is generated from them: texts and patterns over a set of
characters. A source turns its state into a number below a bound or into a yes or no; what is
generated is written against any source. -/

namespace MaximalMunch

/-! ## Sources -/

/-- How likely a yes is: certain, or as likely as a 64-bit number is below the threshold. -/
inductive Chance
  | always
  | below (threshold : UInt64)
  deriving DecidableEq

/-- The chance of a probability between 0 and 1. -/
def Chance.ofFloat? (p : Float) : Option Chance :=
  if p == 1.0 then some .always
  else if 0.0 ≤ p && p < 1.0 then some (.below (p * 18446744073709551616.0).toUInt64)
  else none

/-- A source of choices with a state. Numbers are within their bound by their type. -/
structure Source (σ : Type) where
  below : (n : Nat) → 0 < n → σ → Fin n × σ
  flip : Chance → σ → Bool × σ

/-- A choice that depends on a state, which it changes; there is none where one had to pick from
nothing. -/
abbrev Choice (σ α : Type) := StateT σ Option α

namespace Source

variable {σ α : Type}

/-- A yes or no. -/
def toss (source : Source σ) (chance : Chance) : Choice σ Bool :=
  fun s => some (source.flip chance s)

/-- A number from `lo` on and below `hi`. -/
def range (source : Source σ) (lo hi : Nat) : Choice σ Nat := fun s =>
  if h : lo < hi then
    let (i, s) := source.below (hi - lo) (Nat.sub_pos_of_lt h) s
    some (lo + i, s)
  else none

/-- One of several items. -/
def pick (source : Source σ) (items : List α) : Choice σ α := fun s =>
  if h : 0 < items.length then
    let (i, s) := source.below items.length h s
    some (items.get i, s)
  else none

end Source

/-- As many choices as given, one after the other. -/
def Choice.times {σ α : Type} (n : Nat) (choice : Choice σ α) : Choice σ (List α) :=
  match n with
  | 0 => pure []
  | n + 1 => do
    let a ← choice
    let rest ← times n choice
    pure (a :: rest)

/-! ## Texts -/

namespace Random

variable {σ : Type}

/-- A character given by a byte. -/
def character (source : Source σ) (charset : Bytes) : Choice σ Char := do
  return Char.ofUInt8 (← source.pick charset)

/-- A text of at least `lo` and fewer than `hi` characters. -/
def text (source : Source σ) (lo hi : Nat) (charset : Bytes) : Choice σ String := do
  let length ← source.range lo hi
  let chars ← Choice.times length (character source charset)
  return String.ofList chars

/-! ## Patterns

When none of the characters has a meaning of its own in patterns, what is generated is well
formed. -/

/-- The double nearest to 0.2, as a threshold. -/
def oneInFive : Chance := .below 3689348814741910528

/-- The double nearest to 0.3, as a threshold. -/
def threeInTen : Chance := .below 5534023222112865280

def evenChance : Chance := .below 9223372036854775808

/-- A character that stands for itself. -/
def literal (source : Source σ) (charset : Bytes) : Choice σ (List Char) := do
  return [Char.ofUInt8 (← source.pick charset)]

/-- The elements of a set with two characters: a range if they are in order and the toss is so,
otherwise the characters themselves. -/
def elements (source : Source σ) (a b : UInt8) : Choice σ (List Char) := do
  let ranged ← if a < b then source.toss evenChance else pure false
  if ranged then return [Char.ofUInt8 a, '-', Char.ofUInt8 b]
  else if a = b then return [Char.ofUInt8 a]
  else return [Char.ofUInt8 a, Char.ofUInt8 b]

/-- A set in brackets. -/
def bracketed (source : Source σ) (charset : Bytes) : Choice σ (List Char) := do
  let negated ← source.toss oneInFive
  let a ← source.pick charset
  let b ← source.pick charset
  let inner ← elements source a b
  return '[' :: (if negated then ['^'] else []) ++ inner ++ [']']

/-- An operand and perhaps a quantifier. -/
def quantified (source : Source σ) (operand : Choice σ (List Char)) : Choice σ (List Char) := do
  let chars ← operand
  if ← source.toss threeInTen then return chars ++ [← source.pick ['*', '+', '?']]
  else return chars

/-- One to three operands in a row. -/
def sequence (source : Source σ) (operand : Choice σ (List Char)) : Choice σ (List Char) := do
  let count ← source.range 1 4
  let parts ← Choice.times count (quantified source operand)
  return parts.flatten

/-- One or two sequences with a bar between them. -/
def union (source : Source σ) (operand : Choice σ (List Char)) : Choice σ (List Char) := do
  let count ← source.range 1 3
  let parts ← Choice.times count (sequence source operand)
  return ['|'].intercalate parts

/-- A literal, a set, or a group, groups nested at most so deep. -/
def operand (source : Source σ) (charset : Bytes) : (depth : Nat) → Choice σ (List Char)
  | 0 => do
    let choice ← source.range 0 3
    if choice < 2 then literal source charset else bracketed source charset
  | depth + 1 => do
    let choice ← source.range 0 5
    if choice < 2 then literal source charset
    else if choice = 2 then bracketed source charset
    else
      let inner ← union source (operand source charset depth)
      return '(' :: inner ++ [')']

/-- A pattern with groups nested at most so deep. -/
def pattern (source : Source σ) (depth : Nat) (charset : Bytes) : Choice σ String := do
  return String.ofList (← union source (operand source charset depth))

end Random

/-! ## A generator

A multiplicative congruential generator with 128 bits of state, whose 64-bit numbers are the two
halves of the state combined and rotated. -/

/-- The state of the generator, an odd number. -/
structure Congruential where
  state : BitVec 128
  deriving DecidableEq

namespace Congruential

/-- A word with its lowest `count` bits moved to the top. -/
def rotate64 (x count : UInt64) : UInt64 := (x >>> count) ||| (x <<< (64 - count))

/-- A word with its lowest `count` bits moved to the top. -/
def rotate32 (x count : UInt32) : UInt32 := (x >>> count) ||| (x <<< (32 - count))

/-- One step of the linear congruence that spreads a seed. -/
def spread (seed : UInt64) : UInt64 := seed * 6364136223846793005 + 11634580027462260723

/-- A 32-bit word of a spread seed. -/
def word (seed : UInt64) : UInt32 :=
  rotate32 (((seed >>> 18) ^^^ seed) >>> 27).toUInt32 (seed >>> 59).toUInt32

/-- The generator of a seed. Four words make the state, the lowest first. -/
def ofSeed (seed : UInt64) : Congruential :=
  let s1 := spread seed
  let s2 := spread s1
  let s3 := spread s2
  let s4 := spread s3
  ⟨((word s4).toBitVec ++ (word s3).toBitVec ++ (word s2).toBitVec ++ (word s1).toBitVec)
    ||| 1#128⟩

/-- The next number. -/
def next (g : Congruential) : UInt64 × Congruential :=
  let state := g.state * 0x2360ED051FC65DA44385DF649FCCF645#128
  let high := UInt64.ofNat (state.toNat >>> 64)
  let low := UInt64.ofNat state.toNat
  (rotate64 (high ^^^ low) (high >>> 58), ⟨state⟩)

/-- The last low half that is accepted for a bound below `2 ^ 64`: with the bits above the bound's
own filled, every number below the bound is equally likely. -/
def zone (n : Nat) : Nat := (n <<< (63 - n.log2)) - 1

/-- The high half of a number times the bound, which is below the bound. -/
def scale (n : Nat) (hn : 0 < n) (x : UInt64) : Fin n :=
  ⟨x.toNat * n / UInt64.size, by
    apply Nat.div_lt_of_lt_mul
    exact Nat.mul_lt_mul_of_pos_right x.toNat_lt_size hn⟩

/-- Draws numbers until the low half of one times the bound is accepted. -/
def below (n : Nat) (hn : 0 < n) : (attempts : Nat) → Congruential → Fin n × Congruential
  | 0, g => (⟨0, hn⟩, g)
  | attempts + 1, g =>
    let (x, g) := g.next
    if x.toNat * n % UInt64.size ≤ zone n then (scale n hn x, g) else below n hn attempts g

/-- A certain yes draws nothing. -/
def flip (chance : Chance) (g : Congruential) : Bool × Congruential :=
  match chance with
  | .always => (true, g)
  | .below threshold => let (x, g) := g.next; (x < threshold, g)

/-- The generator as a source of choices. At least every other number is accepted, so that many
attempts never run out. -/
def source : Source Congruential := ⟨fun n hn => below n hn UInt32.size, flip⟩

end Congruential

end MaximalMunch
