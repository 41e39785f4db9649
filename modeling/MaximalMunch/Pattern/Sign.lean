import MaximalMunch.Byte
import MaximalMunch.ByteSet

/-! The signs of a pattern's text: bytes as they stand, and what a backslash makes of the byte
behind it. Which sign stands where does not depend on groups or sets around it. -/

namespace MaximalMunch

/-! ## Faults

What can be wrong with the text of a pattern, and where. -/

/-- A fault in the text of a pattern. Offsets count bytes. -/
inductive SyntaxError
  | emptyPattern
  | unexpectedEnd (offset : Nat)
  | unmatchedOpenParen (offset : Nat)
  | unmatchedCloseParen (offset : Nat)
  | unterminatedSet (offset : Nat)
  | emptySet (offset : Nat)
  | invalidRange (offset : Nat) (lo hi : UInt8)
  | danglingRange (offset : Nat)
  | unknownEscape (offset : Nat) (byte : UInt8)
  | nothingToRepeat (offset : Nat)
  deriving DecidableEq

namespace SyntaxError

/-- Where the fault is; an empty pattern has no place for one. -/
def offset? : SyntaxError → Option Nat
  | emptyPattern => none
  | unexpectedEnd o | unmatchedOpenParen o | unmatchedCloseParen o | unterminatedSet o
  | emptySet o | invalidRange o _ _ | danglingRange o | unknownEscape o _
  | nothingToRepeat o => some o

def message : SyntaxError → String
  | emptyPattern => "the pattern is empty"
  | unexpectedEnd o => "unexpected end of pattern at " ++ toString o
  | unmatchedOpenParen o => "'(' at " ++ toString o ++ " is never closed"
  | unmatchedCloseParen o => "')' at " ++ toString o ++ " has no matching '('"
  | unterminatedSet o => "set starting at " ++ toString o ++ " is never closed"
  | emptySet o => "set at " ++ toString o ++ " has no elements"
  | invalidRange o lo hi =>
    "invalid range '" ++ Byte.text lo ++ "-" ++ Byte.text hi ++ "' at " ++ toString o
  | danglingRange o => "'-' at " ++ toString o ++ " does not form a range"
  | unknownEscape o b => "unknown escape '\\" ++ Byte.text b ++ "' at " ++ toString o
  | nothingToRepeat o => "nothing to repeat at " ++ toString o

end SyntaxError

/-! ## Signs -/

/-- What a sign stands for: a byte that may have a meaning of its own, a byte that stands for
itself, or a class of bytes. -/
inductive Glyph
  | raw (byte : UInt8)
  | quoted (byte : UInt8)
  | named (bytes : ByteSet)
  deriving DecidableEq

/-- A sign and the offset it is written at. -/
structure Sign where
  offset : Nat
  glyph : Glyph
  deriving DecidableEq

/-- How a text of signs ends: properly, with a lone backslash, or before an escape that has no
meaning. The first two give the length of the text. -/
inductive Ending
  | complete (length : Nat)
  | loneBackslash (length : Nat)
  | unknownEscape (offset : Nat) (byte : UInt8)
  deriving DecidableEq

namespace Glyph

/-- The bytes a glyph stands for. -/
def bytes : Glyph → ByteSet
  | raw b | quoted b => .singleton b
  | named s => s

/-- The single byte a glyph stands for; classes have none. -/
def byte? : Glyph → Option UInt8
  | raw b | quoted b => some b
  | named _ => none

def digits : ByteSet := .range 48 57

/-- Space, form feed, line feed, carriage return, tab and vertical tab. -/
def blanks : ByteSet := .ofList [32, 12, 10, 13, 9, 11]

/-- Letters, digits and the underscore. -/
def wordBytes : ByteSet := .range 97 122 ∪ .range 65 90 ∪ digits ∪ .singleton 95

/-- The bytes with a meaning of their own somewhere in a pattern; a backslash takes it away. -/
def special : Bytes := [92, 46, 42, 43, 63, 40, 41, 91, 93, 124, 94, 45]

/-- What a byte means behind a backslash. -/
def ofEscape (b : UInt8) : Option Glyph :=
  if b = 100 then some (named digits)
  else if b = 68 then some (named digits.complement)
  else if b = 115 then some (named blanks)
  else if b = 83 then some (named blanks.complement)
  else if b = 119 then some (named wordBytes)
  else if b = 87 then some (named wordBytes.complement)
  else if b = 110 then some (quoted 10)
  else if b = 116 then some (quoted 9)
  else if b = 114 then some (quoted 13)
  else if b = 102 then some (quoted 12)
  else if b = 118 then some (quoted 11)
  else if special.contains b then some (quoted b)
  else none

end Glyph

namespace Sign

/-- Whether a sign is the given byte, written without a backslash. -/
def isRaw (s : Sign) (b : UInt8) : Bool := s.glyph = .raw b

/-- The signs of a text that begins at an offset, up to its end or the first bad escape. -/
def readAll (offset : Nat) : Bytes → List Sign × Ending
  | [] => ([], .complete offset)
  | b :: rest =>
    if b = 92 then
      match rest with
      | [] => ([], .loneBackslash (offset + 1))
      | c :: rest =>
        match Glyph.ofEscape c with
        | none => ([], .unknownEscape offset c)
        | some glyph =>
          let (signs, ending) := readAll (offset + 2) rest
          (⟨offset, glyph⟩ :: signs, ending)
    else
      let (signs, ending) := readAll (offset + 1) rest
      (⟨offset, .raw b⟩ :: signs, ending)

end Sign

/-- A text with every byte of a special meaning behind a backslash, so that it stands for
itself. -/
def escapePattern (literal : String) : String :=
  let escapeChar (c : Char) : List Char :=
    if c.toNat < 128 ∧ Glyph.special.contains c.toUInt8 then ['\\', c] else [c]
  String.ofList (literal.toList.flatMap escapeChar)

end MaximalMunch
