import MaximalMunch.Pattern.Parse
import MaximalMunch.Text.Quoted
import MaximalMunch.Tokenizer

/-! Building tokenizers from prioritized patterns and settings. -/

namespace MaximalMunch

/-- Why no tokenizer can be built. -/
inductive BuildError
  | pattern (index : Nat) (text : String) (source : SyntaxError)
  | noPatterns
  | priority (source : MissingPriority)
  deriving DecidableEq

def BuildError.message : BuildError → String
  | pattern index text source =>
    "pattern " ++ toString index ++ " (" ++ Quoted.encode text ++ ") is malformed: "
      ++ source.message
  | noPatterns => "no token patterns were given"
  | priority source => source.message

/-- The automaton of a pattern list, and the patterns' symbols in order. -/
structure CompiledPatterns where
  dfa : Dfa
  symbols : Array Symbol

namespace CompiledPatterns

/-- Adds the components of patterns, each with its index as the priority of its stop. -/
def addAll (g : Graph) (index : Nat) : List String → Except BuildError (Graph × List Component)
  | [] => .ok (g, [])
  | text :: rest =>
    match g.addWritten text with
    | (_, .error e) => .error (.pattern index text e)
    | (g, .ok c) =>
      match addAll (g.setPriority c.stop index) (index + 1) rest with
      | .error e => .error e
      | .ok (g, cs) => .ok (g, c :: cs)

/-- The component of all patterns, in their graph. -/
def join (texts : List String) : Except BuildError (Graph × Component) :=
  match addAll .empty 0 texts with
  | .error e => .error e
  | .ok (g, cs) =>
    match g.unionAllKeepingStops cs with
    | (_, .error e) => .error (.priority e)
    | (_, .ok none) => .error .noPatterns
    | (g, .ok (some c)) => .ok (g, c)

/-- Compiles patterns into one automaton. Earlier patterns win over later ones that match the same
text. -/
def ofList (patterns : List (String × Symbol)) : Except BuildError CompiledPatterns :=
  (join (patterns.map (·.1))).map fun (g, c) =>
    ⟨g.automaton c, (patterns.map (·.2)).toArray⟩

end CompiledPatterns

/-- The settings of a tokenizer to be built. -/
structure TokenizerBuilder where
  compiled : Except BuildError CompiledPatterns := .error .noPatterns
  ignored : List Symbol := []
  lineComment : Option Delimiter := none
  blockComment : Option (Delimiter × Bytes) := none
  newline : Symbol := .lineFeed
  firstRow : UInt64 := 1

namespace TokenizerBuilder

instance : Inhabited TokenizerBuilder := ⟨{}⟩

/-- Replaces the patterns. -/
def withPatterns (b : TokenizerBuilder) (patterns : List (String × Symbol)) : TokenizerBuilder :=
  { b with compiled := CompiledPatterns.ofList patterns }

/-- Replaces the symbols whose tokens are left out; none stands for the space symbol. -/
def withIgnored (b : TokenizerBuilder) (symbols : List Symbol) : TokenizerBuilder :=
  { b with ignored := symbols }

/-- Replaces the delimiter of line comments; an empty one stands for no line comments. -/
def withLineComment (b : TokenizerBuilder) (start : String) : TokenizerBuilder :=
  { b with lineComment := Delimiter.ofString? start }

/-- Replaces the delimiters of block comments; an empty first one stands for no block comments. -/
def withBlockComment (b : TokenizerBuilder) (start stop : String) : TokenizerBuilder :=
  { b with blockComment := (Delimiter.ofString? start).map (·, bytesOf stop) }

def withNewline (b : TokenizerBuilder) (symbol : Symbol) : TokenizerBuilder :=
  { b with newline := symbol }

def withFirstRow (b : TokenizerBuilder) (row : UInt64) : TokenizerBuilder :=
  { b with firstRow := row }

/-- Whether building fails. -/
def isError (b : TokenizerBuilder) : Bool :=
  match b.compiled with
  | .error _ => true
  | .ok _ => false

def build (b : TokenizerBuilder) : Except BuildError Tokenizer :=
  b.compiled.map fun compiled =>
    { dfa := compiled.dfa
      symbols := compiled.symbols
      ignored := if b.ignored.isEmpty then [.space] else b.ignored
      lineComment := b.lineComment
      blockComment := b.blockComment
      newline := b.newline
      firstRow := b.firstRow }

end TokenizerBuilder

end MaximalMunch
