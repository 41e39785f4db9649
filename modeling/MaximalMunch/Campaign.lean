import MaximalMunch.Check
import MaximalMunch.Random

/-! Fuzzing campaigns: rounds of checks on random patterns and inputs, reproducible by their
seed. -/

namespace MaximalMunch.Campaign

/-- How many inputs a check is made on. -/
def samples : Nat := 200

/-- How many rounds there are unless said otherwise. -/
def defaultRounds : Nat := 200

def patterns : Choice Congruential String :=
  Random.pattern Congruential.source 3 (bytesOf "abc")

def inputs : Choice Congruential String :=
  Random.text Congruential.source 0 16 (bytesOf "abcd")

/-- One round: the automata of a pattern, then the tokenizer of one to four patterns. -/
def round : Choice Congruential Verdict := do
  match ← Check.automata (← patterns) inputs samples with
  | .error failure => pure (.error failure)
  | .ok () =>
    let count ← Congruential.source.range 1 5
    let texts ← Choice.times count patterns
    Check.tokenizer texts inputs samples

/-- The rounds from a number on: the number of the first that fails with its failure, if one
does. -/
def rounds (number : Nat) : (left : Nat) → Choice Congruential (Option (Nat × Failure))
  | 0 => pure none
  | left + 1 => do
    match ← round with
    | .error failure => pure (some (number, failure))
    | .ok () => rounds (number + 1) left

/-- The exit code and the output of a campaign. -/
def run (seed : UInt64) (count : Nat) : Nat × String :=
  let header := "fuzzing with seed " ++ toString seed ++ " for " ++ toString count ++ " rounds\n"
  match (rounds 0 count).run (.ofSeed seed) with
  | some (some (number, failure), _) =>
    (1, header ++ "round " ++ toString number ++ " failed (seed " ++ toString seed ++ "): "
      ++ failure.message ++ "\n")
  | _ => (0, header ++ "all " ++ toString count ++ " rounds passed\n")

/-- A decimal number below `2 ^ 64`, with a plus sign in front or not. -/
def number? (text : String) : Option Nat :=
  let digits := match text.toList with
    | '+' :: rest => rest
    | chars => chars
  if digits.isEmpty || !digits.all (·.isDigit) then none
  else
    let n := digits.foldl (fun n c => n * 10 + (c.toNat - 48)) 0
    if n < UInt64.size then some n else none

/-- The exit code and the output for arguments: a seed, the time if there is none, and a number
of rounds. -/
def ofArguments (time : UInt64) (args : List String) : Nat × String :=
  let seed := (args.head?.bind number?).map UInt64.ofNat
  let count := args.tail.head?.bind number?
  run (seed.getD time) (count.getD defaultRounds)

end MaximalMunch.Campaign
