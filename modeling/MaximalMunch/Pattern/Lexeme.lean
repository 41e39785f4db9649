import MaximalMunch.Pattern
import MaximalMunch.Pattern.Sign

/-! The lexemes of a pattern: atoms, which match one byte of a set, and the marks around them. A
bracketed set is one lexeme. -/

namespace MaximalMunch

inductive Lexeme.Kind
  | atom (bytes : ByteSet)
  | openGroup
  | closeGroup
  | bar
  | quantifier (q : Quantifier)
  deriving DecidableEq

/-- A lexeme and the offset it begins at. -/
structure Lexeme where
  offset : Nat
  kind : Lexeme.Kind
  deriving DecidableEq

namespace Ending

/-- The fault of a set that the text ends in. -/
def inSet (e : Ending) (openAt : Nat) : SyntaxError :=
  match e with
  | complete _ | loneBackslash _ => .unterminatedSet openAt
  | unknownEscape offset byte => .unknownEscape offset byte

/-- The length of a text that ends properly, or the fault outside of sets. -/
def outside : Ending → Except SyntaxError Nat
  | complete length => .ok length
  | loneBackslash length => .error (.unexpectedEnd length)
  | unknownEscape offset byte => .error (.unknownEscape offset byte)

end Ending

namespace Lexeme

/-- What is left of the signs behind a given raw byte, if they begin with it. -/
def after? (b : UInt8) : List Sign → Option (List Sign)
  | [] => none
  | s :: rest => if s.isRaw b then some rest else none

/-- Reads set elements up to the closing bracket, adding them to the members found before.
`unclosed` is the fault of a text that ends before the bracket. The answer also tells whether
there was any element. -/
def readElements (unclosed : SyntaxError) (members : ByteSet) (any : Bool) :
    List Sign → Except SyntaxError (ByteSet × Bool × List Sign)
  | [] => .error unclosed
  | lo :: rest =>
    if lo.isRaw 93 then .ok (members, any, rest)
    else if lo.isRaw 45 then .error (.danglingRange lo.offset)
    else
      match rest with
      | [] => .error unclosed
      | dash :: beyond =>
        if dash.isRaw 45 then
          match lo.glyph.byte?, beyond with
          | none, _ => .error (.danglingRange dash.offset)
          | some _, [] => .error unclosed
          | some l, hi :: beyond =>
            if hi.isRaw 93 then .error (.danglingRange dash.offset)
            else
              match hi.glyph.byte? with
              | none => .error (.danglingRange dash.offset)
              | some h =>
                if l < h then readElements unclosed (members ∪ .range l h) true beyond
                else .error (.invalidRange lo.offset l h)
        else readElements unclosed (members ∪ lo.glyph.bytes) true (dash :: beyond)

/-- Reads a set behind its opening bracket. A caret in front takes the complement, and a dash
before all elements is one of them. -/
def readSet (ending : Ending) (openAt : Nat) (signs : List Sign) :
    Except SyntaxError (ByteSet × List Sign) :=
  let negated := (after? 94 signs).isSome
  let body := (after? 94 signs).getD signs
  let dash := (after? 45 body).isSome
  let first : ByteSet := if dash then .singleton 45 else ∅
  match readElements (ending.inSet openAt) first dash ((after? 45 body).getD body) with
  | .error e => .error e
  | .ok (_, false, _) => .error (.emptySet openAt)
  | .ok (members, true, rest) => .ok (if negated then members.complement else members, rest)

private theorem length_after (b : UInt8) (signs : List Sign) :
    ((after? b signs).getD signs).length ≤ signs.length := by
  cases signs with
  | nil => simp [after?]
  | cons s rest => by_cases h : s.isRaw b <;> simp [after?, h]

theorem readElements_shorter {unclosed : SyntaxError} {members members' : ByteSet}
    {any any' : Bool} {signs rest : List Sign}
    (h : readElements unclosed members any signs = .ok (members', any', rest)) :
    rest.length < signs.length := by
  fun_induction readElements unclosed members any signs with
  | case2 members any x rest =>
    cases h
    exact Nat.lt_succ_self _
  | case9 members any x _ _ y _ l z beyond _ _ k _ _ ih =>
    have hshorter := ih h
    simp only [List.length_cons]
    omega
  | case11 members any x _ _ y beyond _ ih => exact Nat.lt_succ_of_lt (ih h)
  | _ => cases h

theorem readSet_shorter {ending : Ending} {openAt : Nat} {signs rest : List Sign} {s : ByteSet}
    (h : readSet ending openAt signs = .ok (s, rest)) : rest.length < signs.length := by
  unfold readSet at h
  simp only at h
  split at h
  · cases h
  · cases h
  · rename_i hread
    have hshorter := readElements_shorter hread
    have hdash := length_after 45 ((after? 94 signs).getD signs)
    have hcaret := length_after 94 signs
    cases h
    omega

/-- The lexeme of a sign that does not open a set. -/
def ofGlyph : Glyph → Kind
  | .raw b =>
    if b = 40 then .openGroup
    else if b = 41 then .closeGroup
    else if b = 124 then .bar
    else if b = 42 then .quantifier .star
    else if b = 43 then .quantifier .plus
    else if b = 63 then .quantifier .optional
    else if b = 46 then .atom .full
    else .atom (.singleton b)
  | .quoted b => .atom (.singleton b)
  | .named s => .atom s

/-- The lexemes of signs, up to the end of the text, whose length is given, or the first fault. -/
def readAll (ending : Ending) : List Sign → List Lexeme × Except SyntaxError Nat
  | [] => ([], ending.outside)
  | s :: rest =>
    if s.isRaw 91 then
      match _h : readSet ending s.offset rest with
      | .error e => ([], .error e)
      | .ok (bytes, rest') =>
        let (lexemes, verdict) := readAll ending rest'
        (⟨s.offset, .atom bytes⟩ :: lexemes, verdict)
    else
      let (lexemes, verdict) := readAll ending rest
      (⟨s.offset, ofGlyph s.glyph⟩ :: lexemes, verdict)
termination_by signs => signs.length
decreasing_by
  · have := readSet_shorter _h
    simp only [List.length_cons]
    omega
  · simp

end Lexeme

end MaximalMunch
