import MaximalMunch.Pattern
import MaximalMunch.Proofs.ByteSet

/-! The grammar of patterns, as relations between texts and what they stand for. A bar binds
weakest, then juxtaposition, and a quantifier belongs to the atom or group right before it. -/

namespace MaximalMunch.Grammar

/-! ## Escapes -/

/-- The bytes from one to another. -/
def between (lo hi : UInt8) : Set UInt8 := {b | lo ≤ b ∧ b ≤ hi}

/-- Space, form feed, line feed, carriage return, tab and vertical tab. -/
def blanks : Set UInt8 := {32, 12, 10, 13, 9, 11}

/-- Letters, digits and the underscore. -/
def wordBytes : Set UInt8 := between 97 122 ∪ between 65 90 ∪ between 48 57 ∪ {95}

/-- The letters that name a class behind a backslash: `d`, `s` and `w`, and the capital ones for all
other bytes. -/
inductive ClassLetter : UInt8 → Set UInt8 → Prop
  | digits : ClassLetter 100 (between 48 57)
  | nonDigits : ClassLetter 68 (between 48 57)ᶜ
  | blanks : ClassLetter 115 blanks
  | nonBlanks : ClassLetter 83 blanksᶜ
  | word : ClassLetter 119 wordBytes
  | nonWord : ClassLetter 87 wordBytesᶜ

/-- What stands for a single byte behind a backslash: the letters `n`, `t`, `r`, `f` and `v`, and
the bytes with a meaning of their own, which lose it. -/
inductive EscapedByte : UInt8 → UInt8 → Prop
  | lineFeed : EscapedByte 110 10
  | tab : EscapedByte 116 9
  | carriageReturn : EscapedByte 114 13
  | formFeed : EscapedByte 102 12
  | verticalTab : EscapedByte 118 11
  | special (b : UInt8) (h : b ∈ [92, 46, 42, 43, 63, 40, 41, 91, 93, 124, 94, 45]) :
    EscapedByte b b

/-! ## Sets -/

/-- A single byte in a set: any byte but a backslash, or an escape. -/
inductive SetByte : Bytes → UInt8 → Prop
  | plain (b : UInt8) (h : b ≠ 92) : SetByte [b] b
  | escaped {c b : UInt8} (h : EscapedByte c b) : SetByte [92, c] b

/-- One element of a set: a byte, a class, or a range. It does not begin with a dash or a closing
bracket, and a range does not end with a closing bracket. -/
inductive Element : Bytes → Set UInt8 → Prop
  | byte {t : Bytes} {b : UInt8} (ht : SetByte t b) (hdash : t ≠ [45]) (hclose : t ≠ [93]) :
    Element t {b}
  | named {c : UInt8} {s : Set UInt8} (h : ClassLetter c s) : Element [92, c] s
  | range {t u : Bytes} {lo hi : UInt8} (ht : SetByte t lo) (hdash : t ≠ [45]) (hclose : t ≠ [93])
    (hu : SetByte u hi) (hstop : u ≠ [93]) (hlt : lo < hi) : Element (t ++ 45 :: u) (between lo hi)

/-- Elements one after the other. -/
inductive Elements : Bytes → Set UInt8 → Prop
  | nil : Elements [] ∅
  | cons {t u : Bytes} {s r : Set UInt8} (ht : Element t s) (hu : Elements u r) :
    Elements (t ++ u) (s ∪ r)

/-- What stands in brackets: elements, of which a dash in front is one. -/
inductive SetBody : Bytes → Set UInt8 → Prop
  | dash {t : Bytes} {s : Set UInt8} (h : Elements t s) : SetBody (45 :: t) ({45} ∪ s)
  | plain {t : Bytes} {s : Set UInt8} (h : Elements t s) (hne : t ≠ []) : SetBody t s

/-- A set in brackets. A caret right behind the opening one takes the complement. -/
inductive Bracketed : Bytes → Set UInt8 → Prop
  | plain {t : Bytes} {s : Set UInt8} (h : SetBody t s) (hcaret : t.head? ≠ some 94) :
    Bracketed (91 :: t ++ [93]) s
  | negated {t : Bytes} {s : Set UInt8} (h : SetBody t s) : Bracketed (91 :: 94 :: t ++ [93]) sᶜ

/-! ## Patterns -/

/-- What matches a single byte: a dot, a set, an escape, or a byte that stands for itself. -/
inductive Atom : Bytes → Set UInt8 → Prop
  | dot : Atom [46] Set.univ
  | bracketed {t : Bytes} {s : Set UInt8} (h : Bracketed t s) : Atom t s
  | named {c : UInt8} {s : Set UInt8} (h : ClassLetter c s) : Atom [92, c] s
  | escaped {c b : UInt8} (h : EscapedByte c b) : Atom [92, c] {b}
  | literal (b : UInt8) (h : b ∉ [40, 41, 91, 46, 92, 42, 43, 63, 124]) : Atom [b] {b}

/-- The mark of a quantifier. -/
def mark : Quantifier → UInt8
  | .star => 42
  | .plus => 43
  | .optional => 63

/-- The parts of the grammar, the weakest first. -/
inductive Nonterminal
  | union
  | concatenation
  | basic
  | primitive

/-- What a text derives from, and the pattern it is read as. -/
inductive Derives : Nonterminal → Bytes → Pattern → Prop
  | atom {t : Bytes} {s : ByteSet} (h : Atom t s.members) : Derives .primitive t (.atom s)
  | group {t : Bytes} {p : Pattern} (h : Derives .union t p) :
    Derives .primitive (40 :: t ++ [41]) p
  | bare {t : Bytes} {p : Pattern} (h : Derives .primitive t p) : Derives .basic t p
  | quantified {t : Bytes} {p : Pattern} (h : Derives .primitive t p) (q : Quantifier) :
    Derives .basic (t ++ [mark q]) (.quantified q p)
  | single {t : Bytes} {p : Pattern} (h : Derives .basic t p) : Derives .concatenation t p
  | seq {t u : Bytes} {p q : Pattern} (hl : Derives .concatenation t p) (hr : Derives .basic u q) :
    Derives .concatenation (t ++ u) (.seq p q)
  | choice {t : Bytes} {p : Pattern} (h : Derives .concatenation t p) : Derives .union t p
  | alt {t u : Bytes} {p q : Pattern} (hl : Derives .union t p)
    (hr : Derives .concatenation u q) : Derives .union (t ++ 124 :: u) (.alt p q)

end MaximalMunch.Grammar
