import MaximalMunch.Tokenizer

/-! Lexing a whole source, one comment or token after the other. Ignored tokens are left out, and
so are newline tokens that follow one. -/

namespace MaximalMunch

/-- Lexing in progress: what is left of the source, where that begins, whether the latest token put
out is a newline, and whether the end or a fault has been reported. -/
structure Scan where
  rest : Bytes
  cursor : Cursor
  afterNewline : Bool := false
  finished : Bool := false

/-- Why lexing cannot go on: no pattern matches, or the byte to report lies beyond the end. -/
inductive Scan.Fault
  | unexpected (e : LexError)
  | overrun
  deriving DecidableEq

/-- What one comment or token leads to. -/
inductive Scan.Step
  | finish
  | fail (fault : Scan.Fault) (position : Cursor)
  | pass (next : Scan)
  | emit (token : Token) (next : Scan)

namespace Scan

/-- Steps over some bytes. -/
def consume (s : Scan) (length : Nat) : Scan :=
  { s with rest := s.rest.drop length, cursor := s.cursor.advance (s.rest.take length) }

/-- The fault reported for a token that begins at a cursor, with the first byte of what is left. -/
def faultAt (start behind : Cursor) : Bytes → Fault
  | [] => .overrun
  | b :: _ => .unexpected ⟨start.row, start.column, behind.pos, b⟩

/-- Takes a match. A match of the error symbol is a fault, reported with the byte behind it. -/
def take (t : Tokenizer) (s : Scan) (length : Nat) (symbol : Symbol) : Step :=
  let next := s.consume length
  if symbol == .error then .fail (faultAt s.cursor next.cursor next.rest) next.cursor
  else if t.isIgnored symbol || (symbol == t.newline && s.afterNewline) then .pass next
  else
    .emit ⟨t.tokenText symbol (s.rest.take length), symbol, s.cursor.row, s.cursor.column⟩
      { next with afterNewline := symbol == t.newline }

/-- Takes the comment or the token at the front. -/
def step (t : Tokenizer) (s : Scan) : Step :=
  match t.commentLength s.rest with
  | some length => .pass (s.consume length)
  | none =>
    if s.rest.isEmpty then .finish
    else
      match t.matchAt s.rest with
      | none => .fail (faultAt s.cursor s.cursor s.rest) s.cursor
      | some (length, symbol) => take t s length symbol

section Steps

variable {t : Tokenizer} {s next : Scan} {token : Token} {length : Nat} {symbol : Symbol}

/-- A match that is passed over is one to leave out. -/
theorem take_eq_pass (h : take t s length symbol = .pass next) :
    (t.isIgnored symbol || (symbol == t.newline && s.afterNewline)) = true ∧
      next = s.consume length := by
  unfold take at h
  split at h
  · cases h
  · split at h
    · rename_i hleft
      cases h
      exact ⟨hleft, rfl⟩
    · cases h

/-- A match that is put out is none to leave out, and the token has its symbol. -/
theorem take_eq_emit (h : take t s length symbol = .emit token next) : token.symbol = symbol ∧
    (t.isIgnored symbol || (symbol == t.newline && s.afterNewline)) = false ∧
      next = { s.consume length with afterNewline := symbol == t.newline } := by
  unfold take at h
  split at h
  · cases h
  · split at h
    · cases h
    · rename_i hkept
      cases h
      exact ⟨rfl, Bool.eq_false_iff.2 hkept, rfl⟩

/-- What is passed over is a comment, or a match to leave out. -/
theorem step_eq_pass (h : step t s = .pass next) : ∃ length, next = s.consume length ∧
    (t.commentLength s.rest = some length ∨ s.rest ≠ [] ∧ ∃ symbol,
      t.matchAt s.rest = some (length, symbol) ∧
        (t.isIgnored symbol || (symbol == t.newline && s.afterNewline)) = true) := by
  unfold step at h
  split at h
  · rename_i length hcomment
    cases h
    exact ⟨length, rfl, .inl hcomment⟩
  · split at h
    · cases h
    · rename_i hinside
      split at h
      · cases h
      · rename_i length symbol hmatch
        obtain ⟨hleft, hnext⟩ := take_eq_pass h
        exact ⟨length, hnext, .inr ⟨mt List.isEmpty_iff.2 hinside, symbol, hmatch, hleft⟩⟩

/-- What is put out is a match that is none to leave out. -/
theorem step_eq_emit (h : step t s = .emit token next) : s.rest ≠ [] ∧ ∃ length,
    t.matchAt s.rest = some (length, token.symbol) ∧
      (t.isIgnored token.symbol || (token.symbol == t.newline && s.afterNewline)) = false ∧
        next = { s.consume length with afterNewline := token.symbol == t.newline } := by
  unfold step at h
  split at h
  · cases h
  · split at h
    · cases h
    · rename_i hinside
      split at h
      · cases h
      · rename_i length symbol hmatch
        obtain ⟨rfl, hkept, hnext⟩ := take_eq_emit h
        exact ⟨mt List.isEmpty_iff.2 hinside, length, hmatch, hkept, hnext⟩

theorem rest_consume_lt (hlength : 0 < length) (hinside : s.rest ≠ []) :
    (s.consume length).rest.length < s.rest.length := by
  have hpos := List.length_pos_iff.2 hinside
  rw [consume, List.length_drop]
  omega

theorem step_pass_shorter (h : step t s = .pass next) : next.rest.length < s.rest.length := by
  obtain ⟨length, rfl, hcomment | ⟨hinside, symbol, hmatch, -⟩⟩ := step_eq_pass h
  · obtain ⟨hpos, hle⟩ := Tokenizer.commentLength_bounds hcomment
    exact rest_consume_lt hpos (List.length_pos_iff.1 (Nat.lt_of_lt_of_le hpos hle))
  · exact rest_consume_lt (Tokenizer.matchAt_pos hmatch) hinside

theorem step_emit_shorter (h : step t s = .emit token next) :
    next.rest.length < s.rest.length := by
  obtain ⟨hinside, length, hmatch, -, rfl⟩ := step_eq_emit h
  exact rest_consume_lt (Tokenizer.matchAt_pos hmatch) hinside

end Steps

/-- The next token or fault, and the scan behind it; nothing once the scan is finished. -/
def next (t : Tokenizer) (s : Scan) : Option (Except Fault Token) × Scan :=
  if s.finished then (none, s)
  else
    match _h : step t s with
    | .finish => (none, { s with finished := true })
    | .fail fault position => (some (.error fault), { s with cursor := position, finished := true })
    | .pass s' => next t s'
    | .emit token s' => (some (.ok token), s')
termination_by s.rest.length
decreasing_by exact step_pass_shorter _h

/-- All tokens that are left, or the first fault. -/
def collect (t : Tokenizer) (s : Scan) : Except Fault (List Token) :=
  match _h : step t s with
  | .finish => .ok []
  | .fail fault _ => .error fault
  | .pass s' => collect t s'
  | .emit token s' => (collect t s').map (token :: ·)
termination_by s.rest.length
decreasing_by
  · exact step_pass_shorter _h
  · exact step_emit_shorter _h

end Scan

namespace Tokenizer

/-- A scan of a whole source. -/
def scan (t : Tokenizer) (source : Bytes) : Scan := { rest := source, cursor := t.cursor }

/-- The tokens of a source. -/
def analyze (t : Tokenizer) (source : Bytes) : Except Scan.Fault (List Token) :=
  (t.scan source).collect t

end Tokenizer

end MaximalMunch
