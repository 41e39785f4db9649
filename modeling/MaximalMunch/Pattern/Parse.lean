import MaximalMunch.Dfa.Minimal
import MaximalMunch.Dfa.Subset
import MaximalMunch.Pattern.Lexeme

/-! Reading patterns and compiling them. Lexemes are shifted one by one onto a stack of open groups;
a bar binds weaker than juxtaposition, and a quantifier applies to the operand right before it. -/

namespace MaximalMunch

namespace Pattern

/-- What a group holds so far: the finished choices, the sequence behind the last bar, and the
latest operand, which a quantifier may still follow. -/
structure Level where
  choices : Option Pattern := none
  sequence : Option Pattern := none
  operand : Option Pattern := none
  deriving DecidableEq

/-- The level being read, and the interrupted ones around it, innermost first, each with the
offset of the parenthesis that interrupted it. -/
structure Stack where
  level : Level := {}
  outer : List (Nat × Level) := []
  deriving DecidableEq

/-- A fault, with the finished parts of the pattern before it in the order they were read. -/
structure Failure where
  error : SyntaxError
  parts : List Pattern
  deriving DecidableEq

/-- Joins a pattern to what came before it, if anything did. -/
def join (op : Pattern → Pattern → Pattern) : Option Pattern → Pattern → Pattern
  | none, p => p
  | some before, p => op before p

namespace Level

/-- Puts a finished operand behind the sequence. -/
def append (l : Level) (p : Pattern) : Level :=
  { l with sequence := some (join seq l.sequence p), operand := none }

/-- Takes the operand as finished. -/
def settle (l : Level) : Level :=
  match l.operand with
  | none => l
  | some p => l.append p

/-- The finished parts of a level. -/
def parts (l : Level) : List Pattern := l.choices.toList ++ l.settle.sequence.toList

end Level

namespace Stack

/-- The finished parts of all levels, the outermost first. -/
def parts (s : Stack) : List Pattern :=
  (s.outer.reverse.flatMap fun o => o.2.parts) ++ s.level.parts

def fail {α : Type} (s : Stack) (e : SyntaxError) : Except Failure α := .error ⟨e, s.parts⟩

/-- Shifts one lexeme. -/
def shift (s : Stack) (x : Lexeme) : Except Failure Stack :=
  let level := s.level.settle
  match x.kind with
  | .atom bytes => .ok { s with level := { level with operand := some (atom bytes) } }
  | .quantifier q =>
    match s.level.operand with
    | none => s.fail (.nothingToRepeat x.offset)
    | some p => .ok { s with level := s.level.append (quantified q p) }
  | .openGroup => .ok ⟨{}, (x.offset, level) :: s.outer⟩
  | .bar =>
    match level.sequence with
    | none => s.fail (.nothingToRepeat x.offset)
    | some p => .ok { s with level := { choices := some (join alt level.choices p) } }
  | .closeGroup =>
    match level.sequence, s.outer with
    | none, [] => s.fail (.unmatchedCloseParen x.offset)
    | none, _ :: _ => s.fail (.nothingToRepeat x.offset)
    | some p, [] =>
      .error ⟨.unmatchedCloseParen x.offset, [join alt level.choices p]⟩
    | some p, (_, interrupted) :: outer =>
      .ok ⟨{ interrupted with operand := some (join alt level.choices p) }, outer⟩

/-- The pattern at the end of a text of the given length. -/
def finish (s : Stack) (length : Nat) : Except Failure Pattern :=
  let level := s.level.settle
  match level.sequence, s.outer with
  | none, _ => s.fail (.unexpectedEnd length)
  | some p, [] => .ok (join alt level.choices p)
  | some p, (openAt, _) :: _ =>
    let closed : Stack := { s with level := { choices := some (join alt level.choices p) } }
    closed.fail (.unmatchedOpenParen openAt)

/-- Shifts the lexemes and then ends as the text does. -/
def run (s : Stack) (verdict : Except SyntaxError Nat) : List Lexeme → Except Failure Pattern
  | [] =>
    match verdict with
    | .error e => s.fail e
    | .ok length => s.finish length
  | x :: rest =>
    match s.shift x with
    | .error e => .error e
    | .ok s => run s verdict rest

end Stack

/-- Reads the bytes of a pattern. -/
def read (text : Bytes) : Except Failure Pattern :=
  match text with
  | [] => .error ⟨.emptyPattern, []⟩
  | _ :: _ =>
    let (signs, ending) := Sign.readAll 0 text
    let (lexemes, verdict) := Lexeme.readAll ending signs
    Stack.run {} verdict lexemes

/-- Reads a pattern. -/
def parse (text : String) : Except SyntaxError Pattern :=
  (read (bytesOf text)).mapError (·.error)

end Pattern

/-- Adds the component of a written pattern to a graph. The finished parts of a faulty pattern are
added too. -/
def Graph.addWritten (g : Graph) (text : String) : Graph × Except SyntaxError Component :=
  match Pattern.read (bytesOf text) with
  | .error failure => (g.addFragments failure.parts, .error failure.error)
  | .ok p => let (g, c) := g.addPattern p; (g, .ok c)

/-! ## Minimal automata of patterns -/

namespace Graph

/-- The minimal automaton of a component. -/
def automaton (g : Graph) (c : Component) : Dfa := (Dfa.ofNfa (.ofGraph g c)).minimize

/-- Adds the component of a written pattern and compiles it. -/
def compileWritten (g : Graph) (text : String) : Graph × Except SyntaxError Dfa :=
  let (g, component) := g.addWritten text
  (g, component.map g.automaton)

end Graph

namespace Pattern

/-- The minimal automaton of a pattern. -/
def dfa (p : Pattern) : Dfa :=
  let (g, c) := Graph.empty.addPattern p
  g.automaton c

/-- Reads a pattern and compiles it on its own. -/
def compile (text : String) : Except SyntaxError Dfa := (Graph.empty.compileWritten text).2

end Pattern

end MaximalMunch
