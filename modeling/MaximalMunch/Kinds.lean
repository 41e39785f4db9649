import MaximalMunch.Tokenizer.Builder
import MaximalMunch.Tokenizer.Scan

/-! Token kinds: a type of kinds with the tables that make a tokenizer of it, and declarations that
the tables are read from. -/

namespace MaximalMunch

/-- The tables of a type of kinds. -/
structure Kinds (κ : Type) where
  /-- Patterns with the kinds they recognize, in order of priority. -/
  patterns : List (String × κ)
  symbol : κ → Symbol
  ofSymbol? : Symbol → Option κ
  /-- Kinds that are left out. -/
  ignored : List κ := []
  /-- The kind of line ends, when that is not the line feed symbol. -/
  newline : Option κ := none
  lineComment : Option String := none
  blockComment : Option (String × String) := none

/-- Whatever can go wrong between patterns and tokens. -/
inductive LexingError
  | syntaxFault (source : SyntaxError)
  | build (source : BuildError)
  | lex (source : LexError)
  deriving DecidableEq

def LexingError.message : LexingError → String
  | syntaxFault source => source.message
  | build source => source.message
  | lex source => source.message

namespace Kinds

variable {κ : Type}

def builder (k : Kinds κ) : TokenizerBuilder :=
  let patterns := k.patterns.map fun p => (p.1, k.symbol p.2)
  let b := (({} : TokenizerBuilder).withPatterns patterns).withIgnored (k.ignored.map k.symbol)
  let b := (k.newline.map fun n => b.withNewline (k.symbol n)).getD b
  let b := (k.lineComment.map b.withLineComment).getD b
  (k.blockComment.map fun d => b.withBlockComment d.1 d.2).getD b

def tokenizer (k : Kinds κ) : Except BuildError Tokenizer := k.builder.build

/-- Pairs tokens with their kinds; tokens of no kind are left out. -/
def pair (k : Kinds κ) (tokens : List Token) : List (κ × Token) :=
  tokens.filterMap fun t => (k.ofSymbol? t.symbol).map (·, t)

/-- The tokens of a source with their kinds, unless lexing overruns the source. -/
def lex (k : Kinds κ) (source : Bytes) : Option (Except LexingError (List (κ × Token))) :=
  match k.tokenizer with
  | .error e => some (.error (.build e))
  | .ok t =>
    match t.analyze source with
    | .error .overrun => none
    | .error (.unexpected e) => some (.error (.lex e))
    | .ok tokens => some (.ok (k.pair tokens))

end Kinds

/-! ## Declarations

An enumeration whose attributes say what the tables hold. -/

/-- An attribute with its arguments, if it has a list of them. -/
structure Attribute where
  name : String
  args : Option (List String) := none
  deriving DecidableEq

inductive Fields
  | unit
  | tuple
  | named
  deriving DecidableEq

structure Variant where
  name : String
  attributes : List Attribute := []
  fields : Fields := .unit
  deriving DecidableEq

/-- An enumeration as it is declared. -/
structure Declaration where
  name : String
  generic : Bool := false
  attributes : List Attribute := []
  variants : List Variant := []
  deriving DecidableEq

/-- Why a declaration does not describe kinds. -/
inductive DeclarationError
  | generic
  | fields
  | missingArguments (name : String)
  | noString
  | tooManyArguments
  | blockDelimiters
  | superfluousArguments (name : String)
  | secondBinding
  | secondNewline
  | malformedPattern (source : SyntaxError)
  deriving DecidableEq

def DeclarationError.message : DeclarationError → String
  | generic => "token kinds can not be generic"
  | fields => "token kinds can only be unit-like variants"
  | missingArguments a => "expected attribute arguments in parentheses: #[" ++ a ++ "(...)]"
  | noString => "unexpected end of input, expected string literal"
  | tooManyArguments => "unexpected token"
  | blockDelimiters => "'block_comment' needs a start and an end delimiter"
  | superfluousArguments a => "'" ++ a ++ "' requires no arguments"
  | secondBinding => "a variant can be bound to one predefined symbol only"
  | secondNewline => "only one variant can be 'newline'"
  | malformedPattern source => "malformed token pattern: " ++ source.message

/-- The symbol of a kind: one of its own, counted from 1, or a predefined one. -/
inductive Binding
  | own (offset : Nat)
  | space
  | newline
  deriving DecidableEq

/-- The symbol a kind of a given name is bound to. -/
def Binding.symbol (b : Binding) (name : String) : Symbol :=
  match b with
  | own offset => .own (UInt32.ofNat offset) name
  | space => .space
  | newline => .lineFeed

/-- What the attributes of a declaration say, kinds being named by their variants. -/
structure KindTable where
  name : String
  bindings : List (String × Binding) := []
  patterns : List (String × String) := []
  ignored : List String := []
  newline : Option String := none
  lineComment : Option String := none
  blockComment : Option (String × String) := none
  deriving DecidableEq

namespace Attribute

/-- The list of arguments, which has to be there. -/
def arguments (a : Attribute) : Except DeclarationError (List String) :=
  match a.args with
  | none => .error (.missingArguments a.name)
  | some args => .ok args

/-- The one string an attribute has to have. -/
def single (a : Attribute) : Except DeclarationError String :=
  match a.arguments with
  | .error e => .error e
  | .ok [] => .error .noString
  | .ok [s] => .ok s
  | .ok (_ :: _ :: _) => .error .tooManyArguments

/-- The two strings a block comment has to have. -/
def delimiters (a : Attribute) : Except DeclarationError (String × String) :=
  match a.arguments with
  | .error e => .error e
  | .ok [start, stop] => .ok (start, stop)
  | .ok _ => .error .blockDelimiters

/-- Refuses arguments, even an empty list of them. -/
def bare (a : Attribute) : Except DeclarationError Unit :=
  if a.args.isNone then .ok () else .error (.superfluousArguments a.name)

end Attribute

/-- What an attribute says about the variant it stands at. -/
inductive VariantRule
  | pattern (text : String)
  | skip
  | space
  | newline
  | foreign
  deriving DecidableEq

/-- Reads an attribute of a variant; literal tokens become patterns that match themselves. -/
def Attribute.rule (a : Attribute) : Except DeclarationError VariantRule :=
  if a.name = "token" then a.single.map fun literal => .pattern (escapePattern literal)
  else if a.name = "regex" then a.single.map .pattern
  else if a.name = "skip" then a.bare.map fun _ => .skip
  else if a.name = "space" then a.bare.map fun _ => .space
  else if a.name = "newline" then a.bare.map fun _ => .newline
  else .ok .foreign

namespace KindTable

/-- Reads an attribute of the enumeration. A later one of the same name wins. -/
def readOuter (t : KindTable) (a : Attribute) : Except DeclarationError KindTable :=
  if a.name = "line_comment" then
    a.single.map fun start => { t with lineComment := some start }
  else if a.name = "block_comment" then
    a.delimiters.map fun delims => { t with blockComment := some delims }
  else .ok t

/-- Adds a pattern of a variant, which has to be well formed. -/
def addPattern (t : KindTable) (variant text : String) : Except DeclarationError KindTable :=
  match Pattern.parse text with
  | .error e => .error (.malformedPattern e)
  | .ok _ => .ok { t with patterns := t.patterns ++ [(text, variant)] }

/-- Lets a rule act on a variant that may be bound already. -/
def obey (variant : String) (t : KindTable) (bound : Option Binding) :
    VariantRule → Except DeclarationError (KindTable × Option Binding)
  | .pattern text => (t.addPattern variant text).map (·, bound)
  | .skip => .ok ({ t with ignored := t.ignored ++ [variant] }, bound)
  | .space => if bound.isSome then .error .secondBinding else .ok (t, some .space)
  | .newline =>
    if bound.isSome then .error .secondBinding
    else if t.newline.isSome then .error .secondNewline
    else .ok ({ t with newline := some variant }, some .newline)
  | .foreign => .ok (t, bound)

/-- Reads the attributes of a variant in order. -/
def readAttributes (variant : String) (t : KindTable) (bound : Option Binding) :
    List Attribute → Except DeclarationError (KindTable × Option Binding)
  | [] => .ok (t, bound)
  | a :: rest =>
    match a.rule with
    | .error e => .error e
    | .ok rule =>
      match t.obey variant bound rule with
      | .error e => .error e
      | .ok (t, bound) => readAttributes variant t bound rest

/-- How many kinds have a symbol of their own. -/
def ownCount (t : KindTable) : Nat :=
  t.bindings.countP fun b => b.2 matches .own _

/-- Reads a variant. One that is not bound to a predefined symbol gets the next own one. -/
def readVariant (t : KindTable) (v : Variant) : Except DeclarationError KindTable :=
  if v.fields ≠ .unit then .error .fields
  else
    (readAttributes v.name t none v.attributes).map fun (t, bound) =>
      { t with bindings := t.bindings ++ [(v.name, bound.getD (.own (t.ownCount + 1)))] }

/-- Reads a declaration: its own attributes first, then the variants in order. -/
def ofDeclaration (d : Declaration) : Except DeclarationError KindTable :=
  if d.generic then .error .generic
  else
    match d.attributes.foldlM readOuter { name := d.name } with
    | .error e => .error e
    | .ok t => d.variants.foldlM readVariant t

/-- The symbol of a kind. -/
def symbol (t : KindTable) (kind : String) : Symbol :=
  match t.bindings.lookup kind with
  | some b => b.symbol kind
  | none => .error

/-- The first kind that has a symbol. -/
def ofSymbol? (t : KindTable) (s : Symbol) : Option String :=
  (t.bindings.find? fun b => s == b.2.symbol b.1).map (·.1)

/-- The kinds a table describes. -/
def kinds (t : KindTable) : Kinds String where
  patterns := t.patterns
  symbol := t.symbol
  ofSymbol? := t.ofSymbol?
  ignored := t.ignored
  newline := t.newline
  lineComment := t.lineComment
  blockComment := t.blockComment

end KindTable

end MaximalMunch
