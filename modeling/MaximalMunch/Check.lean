import MaximalMunch.Random
import MaximalMunch.Tokenizer.Builder
import MaximalMunch.Tokenizer.Scan

/-! Checks of two ways to compute one answer: the automata of a pattern against each other, and a
tokenizer against the separate automata of its patterns. -/

namespace MaximalMunch

/-! ## Failures -/

/-- A check could not be made, or two answers differ. -/
inductive Failure
  | syntaxFault (pattern : String) (source : SyntaxError)
  | build (source : BuildError)
  | mismatch (subject input detail : String)
  deriving DecidableEq

def Failure.message : Failure → String
  | syntaxFault pattern source =>
    "pattern " ++ Quoted.encode pattern ++ " does not compile: " ++ source.message
  | build source => source.message
  | mismatch subject input detail =>
    subject ++ " disagrees on input " ++ Quoted.encode input ++ ": " ++ detail

/-- What a check says: that all is well, or a failure. -/
abbrev Verdict := Except Failure Unit

/-- Tests so many inputs, up to the first that fails. -/
def Verdict.ofSamples {σ : Type} (input : Choice σ String) (test : String → Verdict) :
    (samples : Nat) → Choice σ Verdict
  | 0 => pure (.ok ())
  | samples + 1 => do
    match test (← input) with
    | .error failure => pure (.error failure)
    | .ok () => ofSamples input test samples

/-! ## Automata

The nondeterministic automaton of a pattern, the deterministic one and the minimal one have to
accept the same inputs. -/

namespace Check

/-- The automata of a pattern. -/
structure Automata where
  nfa : Nfa
  closures : Array NodeSet
  dfa : Dfa
  minimal : Dfa

def Automata.ofPattern (p : Pattern) : Automata :=
  let nfa := p.nfa
  let dfa := Dfa.ofNfa nfa
  { nfa, closures := nfa.closures, dfa, minimal := dfa.minimize }

/-- Minimizing must not add states, and minimizing again must not take any away. -/
def sizes (text : String) (a : Automata) : Verdict :=
  if a.minimal.size > a.dfa.size || a.minimal.minimize.size != a.minimal.size then
    .error (.mismatch ("minimized automaton of " ++ Quoted.encode text) ""
      (toString a.minimal.size ++ " states from " ++ toString a.dfa.size ++ ", not minimal"))
  else .ok ()

/-- All automata have to give the same answer on an input. -/
def acceptance (text : String) (a : Automata) (input : String) : Verdict :=
  let bytes := bytesOf input
  let expected := a.nfa.acceptsWith a.closures bytes
  let full := a.dfa.isMatch bytes
  let minimal := a.minimal.isMatch bytes
  if full = expected ∧ minimal = expected then .ok ()
  else
    .error (.mismatch ("automata of " ++ Quoted.encode text) input
      ("nfa: " ++ toString expected ++ ", dfa: " ++ toString full ++ ", minimal dfa: "
        ++ toString minimal))

/-- Checks the automata of a pattern on so many inputs. -/
def automata {σ : Type} (text : String) (input : Choice σ String) (samples : Nat) :
    Choice σ Verdict :=
  match Pattern.parse text with
  | .error e => pure (.error (.syntaxFault text e))
  | .ok p =>
    let a := Automata.ofPattern p
    match sizes text a with
    | .error failure => pure (.error failure)
    | .ok () => Verdict.ofSamples input (acceptance text a) samples

/-! ## Tokenizers

A tokenizer and the separate automata of its patterns have to split every input alike. -/

/-- The better of a match so far and that of one more pattern: the longer one, the earlier one on
a tie. Empty matches do not count. -/
def longer (best : Option (Nat × Nat)) (found : Option Nat) (index : Nat) : Option (Nat × Nat) :=
  match found with
  | none | some 0 => best
  | some length =>
    match best with
    | none => some (length, index)
    | some (bestLength, _) => if bestLength < length then some (length, index) else best

/-- The longest match among automata from an index on, and the index of the first that has it. -/
def longestAmong (rest : Bytes) (best : Option (Nat × Nat)) (index : Nat) :
    List Dfa → Option (Nat × Nat)
  | [] => best
  | d :: ds =>
    longestAmong rest (longer best ((d.longestMatch rest).map (·.1)) index) (index + 1) ds

/-- What the patterns match on their own: a length and the index of a pattern. -/
def oracle (dfas : List Dfa) (rest : Bytes) : Option (Nat × Nat) := longestAmong rest none 0 dfas

/-- The symbols of so many patterns. -/
def numberedSymbols (count : Nat) : List Symbol :=
  (List.range count).map fun i => .own (UInt32.ofNat i + 1) "Fuzz"

/-- What a tokenizer makes of a match: the length of the token's text and the index of its
symbol. -/
def tokenAnswer (t : Tokenizer) (symbols : List Symbol) (rest : Bytes) :
    Option (Nat × Symbol) → Option (Nat × Nat)
  | none => none
  | some (length, s) =>
    if s == .error then none
    else (symbols.idxOf? s).map ((t.tokenText s (rest.take length)).utf8ByteSize, ·)

/-- An answer as it is shown. -/
def answerText : Option (Nat × Nat) → String
  | none => "None"
  | some (length, index) => "Some((" ++ toString length ++ ", " ++ toString index ++ "))"

/-- The first difference between a tokenizer and the oracle from an offset on. -/
def difference? (t : Tokenizer) (symbols : List Symbol) (dfas : List Dfa) (offset : Nat)
    (rest : Bytes) : Option String :=
  if _hr : rest = [] then none
  else
    let expected := oracle dfas rest
    match _hm : t.matchAt rest with
    | none =>
      if expected = none then none
      else some ("at " ++ toString offset ++ " expected (length, pattern) "
        ++ answerText expected ++ ", got " ++ answerText none)
    | some (length, s) =>
      let got := tokenAnswer t symbols rest (some (length, s))
      if got ≠ expected then
        some ("at " ++ toString offset ++ " expected (length, pattern) "
          ++ answerText expected ++ ", got " ++ answerText got)
      else if got = none then none
      else difference? t symbols dfas (offset + length) (rest.drop length)
termination_by rest.length
decreasing_by
  have := Tokenizer.matchAt_pos _hm
  have := List.length_pos_iff.2 _hr
  simp only [List.length_drop]
  omega

/-- A tokenizer has to split an input as the oracle does. -/
def splitting (texts : List String) (t : Tokenizer) (dfas : List Dfa) (input : String) : Verdict :=
  match difference? t (numberedSymbols texts.length) dfas 0 (bytesOf input) with
  | none => .ok ()
  | some detail =>
    .error (.mismatch ("tokenizer of " ++ Quoted.encodeAll texts) input detail)

/-- Compiles patterns one by one. -/
def compileAll : List String → Except Failure (List Dfa)
  | [] => .ok []
  | text :: rest =>
    match Pattern.compile text with
    | .error e => .error (.syntaxFault text e)
    | .ok d => (compileAll rest).map (d :: ·)

/-- Checks the tokenizer of patterns on so many inputs. -/
def tokenizer {σ : Type} (texts : List String) (input : Choice σ String) (samples : Nat) :
    Choice σ Verdict :=
  let patterns := texts.zip (numberedSymbols texts.length)
  match (({} : TokenizerBuilder).withPatterns patterns).build with
  | .error e => pure (.error (.build e))
  | .ok t =>
    match compileAll texts with
    | .error failure => pure (.error failure)
    | .ok dfas => Verdict.ofSamples input (splitting texts t dfas) samples

end Check

end MaximalMunch
