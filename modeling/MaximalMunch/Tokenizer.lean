import MaximalMunch.Dfa
import MaximalMunch.Text.Utf8
import MaximalMunch.Token

/-! Tokenizers: one automaton over all token patterns, run for the longest match, and comments to
step over. -/

namespace MaximalMunch

/-- The bytes that begin a comment; there is at least one. -/
structure Delimiter where
  bytes : Bytes
  nonempty : bytes ≠ []
  deriving DecidableEq

/-- The delimiter written by a text; the empty text is none. -/
def Delimiter.ofString? (text : String) : Option Delimiter :=
  if h : bytesOf text ≠ [] then some ⟨bytesOf text, h⟩ else none

/-- Whether bytes begin with the delimiter. -/
def Delimiter.begins (d : Delimiter) (source : Bytes) : Bool := d.bytes.isPrefixOf source

theorem Delimiter.begins_bounds {d : Delimiter} {rest : Bytes} (h : d.begins rest = true) :
    0 < d.bytes.length ∧ d.bytes.length ≤ rest.length :=
  ⟨List.length_pos_iff.2 d.nonempty, (List.isPrefixOf_iff_prefix.1 h).length_le⟩

/-- What tokens and comments look like. The symbol of a pattern stands at the pattern's
priority. -/
structure Tokenizer where
  dfa : Dfa
  symbols : Array Symbol
  ignored : List Symbol
  lineComment : Option Delimiter
  blockComment : Option (Delimiter × Bytes)
  newline : Symbol
  firstRow : UInt64

/-- The place of the first occurrence of some bytes in a source. -/
def findBytes (wanted : Bytes) : Bytes → Option Nat
  | [] => if wanted.isEmpty then some 0 else none
  | b :: rest =>
    if wanted.isPrefixOf (b :: rest) then some 0 else (findBytes wanted rest).map (· + 1)

theorem findBytes_le {wanted source : Bytes} {i : Nat} (h : findBytes wanted source = some i) :
    i + wanted.length ≤ source.length := by
  induction source generalizing i with
  | nil =>
    rw [findBytes] at h
    split at h
    · rename_i hempty
      cases h
      rw [List.isEmpty_iff.1 hempty]
      exact Nat.le_refl 0
    · cases h
  | cons b source ih =>
    rw [findBytes] at h
    split at h
    · rename_i hp
      cases h
      rw [Nat.zero_add]
      exact (List.isPrefixOf_iff_prefix.1 hp).length_le
    · obtain ⟨j, hj, rfl⟩ := Option.map_eq_some_iff.1 h
      have := ih hj
      rw [List.length_cons]
      omega

namespace Tokenizer

/-- The symbol of the pattern with a priority. -/
def symbolFor? (t : Tokenizer) (priority : Nat) : Option Symbol := t.symbols[priority]?

def isIgnored (t : Tokenizer) (s : Symbol) : Bool := t.ignored.contains s

/-- The beginning of a source. -/
def cursor (t : Tokenizer) : Cursor := .atStart t.firstRow

/-- The longest match of at least one byte at the front of what is left of a source: its length
and the symbol of the pattern that matches. -/
def matchAt (t : Tokenizer) (rest : Bytes) : Option (Nat × Symbol) :=
  match t.dfa.longestMatch rest with
  | some (length + 1, priority) => some (length + 1, (priority.bind t.symbolFor?).getD .error)
  | _ => none

theorem matchAt_pos {t : Tokenizer} {rest : Bytes} {length : Nat} {symbol : Symbol}
    (h : t.matchAt rest = some (length, symbol)) : 0 < length := by
  unfold matchAt at h
  split at h
  · simp only [Option.some.injEq, Prod.mk.injEq] at h
    omega
  · simp at h

/-- Tokens of the newline symbol are shown as `\n`, others by their bytes. -/
def tokenText (t : Tokenizer) (s : Symbol) (bytes : Bytes) : String :=
  if s == t.newline then "\\n" else Utf8.decode bytes

/-- The token at the cursor and the cursor behind it. Where no pattern matches, it is the error
token, which is empty. -/
def nextToken (t : Tokenizer) (source : Bytes) (c : Cursor) : Token × Cursor :=
  let rest := source.drop c.pos
  match t.matchAt rest with
  | none => (⟨"", .error, c.row, c.column⟩, c)
  | some (length, s) =>
    let bytes := rest.take length
    (⟨t.tokenText s bytes, s, c.row, c.column⟩, c.advance bytes)

/-- The length of a line comment: up to its line feed, or to the end of the source. -/
def lineLength (rest : Bytes) : Nat :=
  match rest.idxOf? 10 with
  | some i => i + 1
  | none => rest.length

theorem lineLength_bounds {rest : Bytes} (h : rest ≠ []) :
    0 < lineLength rest ∧ lineLength rest ≤ rest.length := by
  unfold lineLength
  split
  · rename_i i hi
    have := (List.findIdx?_eq_some_iff_getElem.1 hi).1
    omega
  · exact ⟨List.length_pos_iff.2 h, Nat.le_refl _⟩

/-- The length of a block comment that begins with so many bytes: through the first end delimiter
behind them, or to the end of the source. -/
def blockLength (opening : Nat) (closing rest : Bytes) : Nat :=
  match findBytes closing (rest.drop opening) with
  | some i => opening + i + closing.length
  | none => rest.length

theorem blockLength_bounds {opening : Nat} {closing rest : Bytes} (hpos : 0 < opening)
    (hle : opening ≤ rest.length) :
    0 < blockLength opening closing rest ∧ blockLength opening closing rest ≤ rest.length := by
  unfold blockLength
  split
  · rename_i i hi
    have hfound := findBytes_le hi
    rw [List.length_drop] at hfound
    omega
  · omega

/-- The length of the comment at the front of what is left of a source. Line comments are looked
for first. -/
def commentLength (t : Tokenizer) (rest : Bytes) : Option Nat :=
  match t.lineComment.filter (·.begins rest), t.blockComment.filter (·.1.begins rest) with
  | some _, _ => some (lineLength rest)
  | none, some (opening, closing) => some (blockLength opening.bytes.length closing rest)
  | none, none => none

/-- A comment is not empty and ends within the source. -/
theorem commentLength_bounds {t : Tokenizer} {rest : Bytes} {length : Nat}
    (h : t.commentLength rest = some length) :
    0 < length ∧ length ≤ rest.length := by
  unfold commentLength at h
  split at h
  · rename_i d hd
    obtain ⟨hpos, hle⟩ := Delimiter.begins_bounds (Option.filter_eq_some_iff.1 hd).2
    cases h
    exact lineLength_bounds (List.length_pos_iff.1 (Nat.lt_of_lt_of_le hpos hle))
  · rename_i d closing _ hd
    obtain ⟨hpos, hle⟩ := Delimiter.begins_bounds (Option.filter_eq_some_iff.1 hd).2
    cases h
    exact blockLength_bounds hpos hle
  · cases h

/-- The cursor behind the comment at the cursor, if there is one. -/
def skipComment? (t : Tokenizer) (source : Bytes) (c : Cursor) : Option Cursor :=
  let rest := source.drop c.pos
  (t.commentLength rest).map fun length => c.advance (rest.take length)

end Tokenizer

end MaximalMunch
