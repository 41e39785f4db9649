import MaximalMunch.Byte

/-! Symbols, positions in a source, and tokens. -/

namespace MaximalMunch

/-! ## Symbols

Symbols name the kinds of tokens. Two symbols are the same symbol when their ids are equal, whatever
their names are. -/

/-- A symbol of a grammar, terminal for tokens. -/
structure Symbol where
  id : UInt32
  name : String
  terminal : Bool := true

namespace Symbol

instance : BEq Symbol := ⟨fun s t => s.id == t.id⟩

theorem beq_iff {s t : Symbol} : (s == t) = true ↔ s.id = t.id := beq_iff_eq (α := UInt32)

theorem beq_eq_false_iff {s t : Symbol} : (s == t) = false ↔ s.id ≠ t.id :=
  beq_eq_false_iff_ne (α := UInt32)

instance : Ord Symbol := ⟨fun s t => compare s.id t.id⟩

/-- Ids of a program's own symbols are offsets from this one. -/
def firstId : UInt32 := 10000

def start : Symbol := ⟨firstId, "Start", false⟩
def error : Symbol := ⟨firstId - 1, "Error", true⟩
def endOfInput : Symbol := ⟨firstId - 2, "EOF", true⟩
def epsilon : Symbol := ⟨firstId - 3, "Epsilon", true⟩
def space : Symbol := ⟨firstId - 4, "Space", true⟩
def lineFeed : Symbol := ⟨firstId - 5, "LF", true⟩

instance : Inhabited Symbol := ⟨error⟩

/-- The terminal at an offset from the first id. -/
def own (offset : UInt32) (name : String) : Symbol := ⟨firstId + offset, name, true⟩

end Symbol

/-! ## Positions

A position is a byte offset with the row it is on and the offset that row begins at. Rows and
columns are 64-bit numbers. -/

/-- Where lexing goes on. -/
@[ext]
structure Cursor where
  pos : Nat
  row : UInt64
  rowStart : Nat
  deriving DecidableEq

namespace Cursor

/-- The beginning of a source whose first row has the given number. -/
def atStart (firstRow : UInt64) : Cursor := ⟨0, firstRow, 0⟩

instance : Inhabited Cursor := ⟨atStart 1⟩

/-- How far the cursor is into its row. -/
def column (c : Cursor) : UInt64 := UInt64.ofNat c.pos - UInt64.ofNat c.rowStart

/-- Steps over one byte. A line feed begins a new row behind itself. -/
def step (c : Cursor) (b : UInt8) : Cursor :=
  if b = 10 then ⟨c.pos + 1, c.row + 1, c.pos + 1⟩ else { c with pos := c.pos + 1 }

/-- Steps over the bytes that begin at the cursor. -/
def advance (c : Cursor) (consumed : Bytes) : Cursor := consumed.foldl step c

end Cursor

/-! ## Tokens, and the fault of a source that no token begins -/

/-- A piece of a source with the symbol it was recognized as and the position it begins at. -/
structure Token where
  text : String
  symbol : Symbol
  row : UInt64
  column : UInt64

namespace Token

def isError (t : Token) : Bool := t.symbol == .error

def display (t : Token) : String :=
  "Token \x7b P(" ++ toString t.row ++ ", " ++ toString t.column ++ "), " ++ t.symbol.name ++ ", "
    ++ t.text ++ " \x7d"

end Token

/-- Where lexing could not go on, and the byte there. -/
structure LexError where
  row : UInt64
  column : UInt64
  offset : Nat
  byte : UInt8
  deriving DecidableEq

def LexError.message (e : LexError) : String :=
  "could not get next token at (" ++ toString e.row ++ ", " ++ toString e.column
    ++ "): unexpected '" ++ Byte.text e.byte ++ "'"

end MaximalMunch
