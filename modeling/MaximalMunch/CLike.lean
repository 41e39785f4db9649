import MaximalMunch.Tokenizer.Builder

/-! The tokens of a small language in the manner of C. -/

namespace MaximalMunch.CLike

/-- The terminal whose id is the code of its character. -/
def punctuation (c : Char) (name : String) : Symbol := ⟨c.val, name, true⟩

def ifKeyword : Symbol := .own 11 "If"
def elseKeyword : Symbol := .own 12 "Else"
def forKeyword : Symbol := .own 13 "For"
def breakKeyword : Symbol := .own 14 "Break"
def whileKeyword : Symbol := .own 15 "While"
def doKeyword : Symbol := .own 16 "Do"
def intKeyword : Symbol := .own 21 "Int"
def printfKeyword : Symbol := .own 22 "Printf"

def identifier : Symbol := .own 23 "Identifier"
def number : Symbol := .own 24 "Number"
def stringLiteral : Symbol := .own 25 "String"

def increment : Symbol := .own 31 "Inc"
def decrement : Symbol := .own 32 "Dec"
def lessEqual : Symbol := .own 33 "LE"
def greaterEqual : Symbol := .own 34 "GE"
def equal : Symbol := .own 35 "EQ"
def notEqual : Symbol := .own 36 "NE"

/-- The keywords, all of them words. -/
def keywords : List (String × Symbol) := [
  ("if", ifKeyword), ("else", elseKeyword), ("for", forKeyword), ("break", breakKeyword),
  ("while", whileKeyword), ("do", doKeyword), ("int", intKeyword), ("printf", printfKeyword)]

/-- The operators and brackets, those of two characters first. -/
def operators : List (String × Symbol) := [
  ("\\+\\+", increment), ("--", decrement), ("<=", lessEqual), (">=", greaterEqual),
  ("==", equal), ("!=", notEqual),
  ("\x7b", punctuation '\x7b' "LeftBrace"), ("\x7d", punctuation '\x7d' "RightBrace"),
  ("\\(", punctuation '(' "LeftParen"), ("\\)", punctuation ')' "RightParen"),
  (",", punctuation ',' "Comma"), (";", punctuation ';' "Semicolon"),
  ("=", punctuation '=' "Assign"), ("\\+", punctuation '+' "Add"),
  ("-", punctuation '-' "Sub"), ("\\*", punctuation '*' "Mul"), ("/", punctuation '/' "Div"),
  ("<", punctuation '<' "LT"), (">", punctuation '>' "GT")]

/-- All patterns, the keywords before the identifiers that they would match as well. -/
def patterns : List (String × Symbol) :=
  [("[ \\v\\t\\f]", .space), ("\\r?\\n", .lineFeed)] ++ keywords ++ operators ++ [
    ("0[xX][0-9a-fA-F]+|\\d+", number),
    ("\"([^\"\\\\\\n]|\\\\.)*\"", stringLiteral),
    ("[a-zA-Z_]\\w*", identifier)]

/-- Blanks and line ends are left out, and comments are written as in C. -/
def builder : TokenizerBuilder :=
  ((({} : TokenizerBuilder).withLineComment "//").withBlockComment "/*" "*/").withIgnored
    [.space, .lineFeed]

def tokenizer : Except BuildError Tokenizer := (builder.withPatterns patterns).build

end MaximalMunch.CLike
