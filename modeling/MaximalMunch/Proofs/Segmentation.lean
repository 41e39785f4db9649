import MaximalMunch.Proofs.Oracle

/-! Lexing a whole source. The source is cut into comments and matches of patterns, one behind the
other, and the tokens of the matches are put out. -/

namespace MaximalMunch

/-! ## Segments -/

/-- A piece of a source: a comment, or a match by the index of its pattern. -/
inductive Segment
  | comment (length : Nat)
  | token (length index : Nat)

def Segment.length : Segment → Nat
  | comment length => length
  | token length _ => length

namespace Tokenizer

/-- The segment at the front of what is left of a source: a comment whenever one begins there, and
otherwise the longest non-empty match, by the earliest pattern that has it. -/
def Begins (t : Tokenizer) (texts : List String) (rest : Bytes) : Segment → Prop
  | .comment length => t.commentLength rest = some length
  | .token length index => t.commentLength rest = none ∧
      IsLongest 1 (CompiledPatterns.leastMatch texts) rest (some (length, index))

/-- Neither a comment begins at the front of what is left, nor does a pattern match there. -/
def Stuck (t : Tokenizer) (texts : List String) (rest : Bytes) : Prop :=
  t.commentLength rest = none ∧ IsLongest 1 (CompiledPatterns.leastMatch texts) rest none

/-- From an offset on, a source is cut into segments, each beginning where the one before it ends,
up to the first offset at which none begins. -/
inductive Cut (t : Tokenizer) (texts : List String) (source : Bytes) :
    Nat → List Segment → Nat → Prop
  | stop {offset : Nat} : t.Stuck texts (source.drop offset) → Cut t texts source offset [] offset
  | segment {offset stop : Nat} {s : Segment} {segments : List Segment} :
      t.Begins texts (source.drop offset) s →
      Cut t texts source (offset + s.length) segments stop →
      Cut t texts source offset (s :: segments) stop

variable {t : Tokenizer} {texts : List String} {patterns : List (String × Symbol)}
  {source rest : Bytes} {offset stop : Nat} {s s' : Segment} {segments : List Segment}

theorem Begins.bounds (h : t.Begins texts rest s) : 0 < s.length ∧ s.length ≤ rest.length := by
  cases s with
  | comment length => exact commentLength_bounds h
  | token length index => exact ⟨h.2.1, h.2.2.1⟩

theorem Begins.not_stuck (h : t.Begins texts rest s) : ¬ t.Stuck texts rest := by
  rintro ⟨hcomment, hlongest⟩
  cases s with
  | comment length =>
    rw [Begins, hcomment] at h
    cases h
  | token length index => cases h.2.unique hlongest

theorem Begins.unique (h : t.Begins texts rest s) (h' : t.Begins texts rest s') : s = s' := by
  cases s with
  | comment length =>
    rw [Begins] at h
    cases s' with
    | comment length' =>
      rw [Begins, h] at h'
      rw [Option.some.inj h']
    | token length' index' =>
      have hnone := h'.1
      rw [h] at hnone
      cases hnone
  | token length index =>
    cases s' with
    | comment length' =>
      rw [Begins, h.1] at h'
      cases h'
    | token length' index' =>
      have heq := Option.some.inj (h.2.unique h'.2)
      rw [Prod.mk.injEq] at heq
      rw [heq.1, heq.2]

namespace Cut

/-- A source is cut in one way only. -/
theorem unique {segments' : List Segment} {stop' : Nat}
    (h : t.Cut texts source offset segments stop)
    (h' : t.Cut texts source offset segments' stop') : segments = segments' ∧ stop = stop' := by
  induction h generalizing segments' with
  | stop hstuck =>
    cases h' with
    | stop _ => exact ⟨rfl, rfl⟩
    | segment hs _ => exact absurd hstuck hs.not_stuck
  | segment hs _ ih =>
    cases h' with
    | stop hstuck => exact absurd hstuck hs.not_stuck
    | segment hs' hrest =>
      cases hs.unique hs'
      obtain ⟨rfl, rfl⟩ := ih hrest
      exact ⟨rfl, rfl⟩

theorem length_pos (h : t.Cut texts source offset segments stop) :
    ∀ s ∈ segments, 0 < s.length := by
  induction h with
  | stop _ => simp
  | segment hs _ ih => exact List.forall_mem_cons.2 ⟨hs.bounds.1, ih⟩

/-- The segments fill the source from the offset to where they stop. -/
theorem sum_length (h : t.Cut texts source offset segments stop) :
    offset + (segments.map Segment.length).sum = stop := by
  induction h with
  | stop _ => rfl
  | segment _ _ ih => rw [List.map_cons, List.sum_cons, ← Nat.add_assoc, ih]

theorem stop_le (h : t.Cut texts source offset segments stop) (hle : offset ≤ source.length) :
    stop ≤ source.length := by
  induction h with
  | stop _ => exact hle
  | segment hs _ ih =>
    have := hs.bounds.2
    rw [List.length_drop] at this
    exact ih (by omega)

end Cut

/-! ## What is put out -/

/-- The cursor at an offset of a source. -/
def cursorAt (t : Tokenizer) (source : Bytes) (offset : Nat) : Cursor :=
  t.cursor.advance (source.take offset)

/-- The token of a match at an offset. -/
def tokenAt (t : Tokenizer) (source : Bytes) (offset length : Nat) (symbol : Symbol) : Token :=
  let c := t.cursorAt source offset
  ⟨t.tokenText symbol ((source.drop offset).take length), symbol, c.row, c.column⟩

/-- The tokens of the segments from an offset on, given the symbols of the patterns. -/
def segmentTokens (t : Tokenizer) (symbols : List Symbol) (source : Bytes) :
    Nat → List Segment → List Token
  | _, [] => []
  | offset, .comment length :: rest => t.segmentTokens symbols source (offset + length) rest
  | offset, .token length index :: rest =>
    t.tokenAt source offset length (symbols.getD index .error) ::
      t.segmentTokens symbols source (offset + length) rest

/-- Whether the last of the tokens put out is a newline. -/
def endsInNewline (t : Tokenizer) (out : List Token) : Bool :=
  out.getLast?.any fun token => token.symbol == t.newline

/-- A token is put out behind others unless it is ignored, or a newline right behind a newline. -/
def putOut (t : Tokenizer) (out : List Token) (token : Token) : List Token :=
  if t.isIgnored token.symbol || (token.symbol == t.newline && t.endsInNewline out) then out
  else out ++ [token]

theorem endsInNewline_snoc (out : List Token) (token : Token) :
    t.endsInNewline (out ++ [token]) = (token.symbol == t.newline) := by
  rw [endsInNewline, List.getLast?_concat, Option.any_some]

/-- The pattern of a match is one of the list. -/
theorem exists_pattern {length index : Nat}
    (h : IsLongest 1 (CompiledPatterns.leastMatch (patterns.map (·.1))) rest
      (some (length, index))) : ∃ p, patterns[index]? = some p := by
  obtain ⟨hindex, _⟩ := List.findIdx?_eq_some_iff_getElem.1 h.2.2.1
  rw [List.length_map] at hindex
  exact ⟨_, List.getElem?_eq_getElem hindex⟩

theorem symbol_of_pattern {index : Nat} {p : String × Symbol} (h : patterns[index]? = some p) :
    (patterns.map (·.2)).getD index .error = p.2 := by
  rw [List.getD_eq_getElem?_getD, List.getElem?_map, h, Option.map_some, Option.getD_some]

/-- The tokenizer finds the matches of patterns, and their symbols. -/
structure Recognizes (t : Tokenizer) (patterns : List (String × Symbol)) : Prop where
  longest : ∀ rest, IsLongest 1 (CompiledPatterns.leastMatch (patterns.map (·.1))) rest
    (t.numberAt rest)
  matchAt : ∀ rest, t.matchAt rest =
    (t.numberAt rest).map fun x => (x.1, (patterns.map (·.2)).getD x.2 .error)

namespace Recognizes

variable (r : t.Recognizes patterns)

include r

theorem matchAt_of_longest {length index : Nat}
    (h : IsLongest 1 (CompiledPatterns.leastMatch (patterns.map (·.1))) rest
      (some (length, index))) :
    t.matchAt rest = some (length, (patterns.map (·.2)).getD index .error) := by
  rw [r.matchAt, (r.longest rest).unique h, Option.map_some]

theorem matchAt_of_stuck (h : t.Stuck (patterns.map (·.1)) rest) : t.matchAt rest = none := by
  rw [r.matchAt, (r.longest rest).unique h.2, Option.map_none]

/-- At each offset a segment begins, or none does. -/
theorem begins_or_stuck (rest : Bytes) :
    (∃ s, t.Begins (patterns.map (·.1)) rest s) ∨ t.Stuck (patterns.map (·.1)) rest := by
  cases hcomment : t.commentLength rest with
  | some length => exact Or.inl ⟨.comment length, hcomment⟩
  | none =>
    have hlongest := r.longest rest
    cases hnumber : t.numberAt rest with
    | none =>
      rw [hnumber] at hlongest
      exact Or.inr ⟨hcomment, hlongest⟩
    | some found =>
      rw [hnumber] at hlongest
      exact Or.inl ⟨.token found.1 found.2, hcomment, hlongest⟩

theorem exists_cut (source : Bytes) (offset : Nat) :
    ∃ segments stop, t.Cut (patterns.map (·.1)) source offset segments stop := by
  induction hn : source.length - offset using Nat.strongRecOn generalizing offset with
  | ind n ih =>
    rcases r.begins_or_stuck (source.drop offset) with ⟨s, hs⟩ | hstuck
    · obtain ⟨hpos, hle⟩ := hs.bounds
      rw [List.length_drop] at hle
      obtain ⟨segments, stop, hcut⟩ := ih _ (by omega) (offset + s.length) rfl
      exact ⟨s :: segments, stop, .segment hs hcut⟩
    · exact ⟨[], offset, .stop hstuck⟩

end Recognizes

end Tokenizer

/-! ## The scan -/

namespace Scan

open Tokenizer

variable {t : Tokenizer} {patterns : List (String × Symbol)} {source : Bytes} {s next : Scan}
  {offset stop length : Nat} {segments : List Segment} {out : List Token}

theorem collect_finish (h : step t s = .finish) : s.collect t = .ok [] := by
  rw [collect]
  split <;> simp_all

theorem collect_fail {fault : Fault} {position : Cursor} (h : step t s = .fail fault position) :
    s.collect t = .error fault := by
  rw [collect]
  split <;> simp_all

theorem collect_pass (h : step t s = .pass next) : s.collect t = next.collect t := by
  rw [collect]
  split <;> simp_all

theorem collect_emit {token : Token} (h : step t s = .emit token next) :
    s.collect t = (next.collect t).map (token :: ·) := by
  rw [collect]
  split <;> simp_all

/-- A scan that has come to an offset of a source, with the tokens put out before it. -/
structure At (t : Tokenizer) (source : Bytes) (offset : Nat) (out : List Token) (s : Scan) :
    Prop where
  rest : s.rest = source.drop offset
  cursor : s.cursor = t.cursorAt source offset
  after : s.afterNewline = t.endsInNewline out

theorem at_start (t : Tokenizer) (source : Bytes) : At t source 0 [] (t.scan source) :=
  ⟨rfl, rfl, rfl⟩

/-- What lexing gives in the end: the tokens put out or, before the end of the source, the fault of
the byte at which it stops. -/
def outcome (t : Tokenizer) (source : Bytes) (stop : Nat) (out : List Token) :
    Except Fault (List Token) :=
  match source[stop]? with
  | none => .ok out
  | some b =>
    let c := t.cursorAt source stop
    .error (.unexpected ⟨c.row, c.column, stop, b⟩)

namespace At

variable (h : At t source offset out s)

include h

theorem consume (length : Nat) : At t source (offset + length) out (s.consume length) where
  rest := by
    rw [Scan.consume, h.rest, List.drop_drop]
  cursor := by
    simp only [Scan.consume, h.cursor, h.rest, cursorAt, Cursor.advance]
    rw [List.take_add, List.foldl_append]
  after := h.after

theorem pos (hle : offset ≤ source.length) : s.cursor.pos = offset := by
  rw [h.cursor, cursorAt, Cursor.pos_advance, List.length_take, Nat.min_eq_left hle]
  exact Nat.zero_add offset

/-- A comment is stepped over. -/
theorem comment (hcomment : t.commentLength (source.drop offset) = some length) :
    ∃ next, At t source (offset + length) out next ∧ s.collect t = next.collect t := by
  refine ⟨_, h.consume length, collect_pass ?_⟩
  rw [step, h.rest, hcomment]

/-- A match of a symbol other than the error symbol is passed over or put out. -/
theorem step_match {symbol : Symbol} (hcomment : t.commentLength (source.drop offset) = none)
    (hmatch : t.matchAt (source.drop offset) = some (length, symbol))
    (hrest : source.drop offset ≠ []) (herror : (symbol == .error) = false) : step t s =
      if t.isIgnored symbol || (symbol == t.newline && t.endsInNewline out) then
        .pass (s.consume length)
      else .emit (t.tokenAt source offset length symbol)
        { s.consume length with afterNewline := symbol == t.newline } := by
  rw [step, h.rest, hcomment]
  simp only [List.isEmpty_eq_false_iff.2 hrest, hmatch, take, herror, Bool.false_eq_true, if_false]
  rw [h.after, h.cursor, h.rest]
  rfl

/-- The token of a match is passed over, or put out behind those before it. -/
theorem token_step {symbol : Symbol} (hcomment : t.commentLength (source.drop offset) = none)
    (hmatch : t.matchAt (source.drop offset) = some (length, symbol))
    (hrest : source.drop offset ≠ []) (herror : (symbol == .error) = false) :
    let token := t.tokenAt source offset length symbol
    ∃ next, At t source (offset + length) (t.putOut out token) next ∧ next.finished = s.finished ∧
      (step t s = .pass next ∧ t.putOut out token = out ∨
        step t s = .emit token next ∧ t.putOut out token = out ++ [token]) := by
  intro token
  have hstep := h.step_match hcomment hmatch hrest herror
  have hnext := h.consume length
  have hput : t.putOut out token =
      if t.isIgnored symbol || (symbol == t.newline && t.endsInNewline out) then out
      else out ++ [token] := rfl
  by_cases hpass : t.isIgnored symbol || (symbol == t.newline && t.endsInNewline out)
  · rw [if_pos hpass] at hstep hput
    rw [hput]
    exact ⟨_, hnext, rfl, Or.inl ⟨hstep, rfl⟩⟩
  · rw [if_neg hpass] at hstep hput
    rw [hput]
    refine ⟨{ s.consume length with afterNewline := symbol == t.newline },
      ⟨hnext.rest, hnext.cursor, ?_⟩, rfl, Or.inr ⟨hstep, rfl⟩⟩
    rw [endsInNewline_snoc]
    rfl

theorem token {symbol : Symbol} (hcomment : t.commentLength (source.drop offset) = none)
    (hmatch : t.matchAt (source.drop offset) = some (length, symbol))
    (hrest : source.drop offset ≠ []) (herror : (symbol == .error) = false) :
    let token := t.tokenAt source offset length symbol
    ∃ next, At t source (offset + length) (t.putOut out token) next ∧
      (s.collect t).map (out ++ ·) = (next.collect t).map (t.putOut out token ++ ·) := by
  obtain ⟨next, hnext, -, ⟨hstep, hput⟩ | ⟨hstep, hput⟩⟩ :=
    h.token_step hcomment hmatch hrest herror
  · refine ⟨next, hnext, ?_⟩
    rw [hput, collect_pass hstep]
  · refine ⟨next, hnext, ?_⟩
    rw [hput, collect_emit hstep]
    cases next.collect t with
    | error fault => rfl
    | ok tokens => simp [Except.map]

/-- Where nothing begins before the end of the source, the byte there is reported. -/
theorem step_stuck {b : UInt8} (hcomment : t.commentLength (source.drop offset) = none)
    (hmatch : t.matchAt (source.drop offset) = none) (hbyte : source[offset]? = some b) :
    let c := t.cursorAt source offset
    step t s = .fail (.unexpected ⟨c.row, c.column, offset, b⟩) c := by
  intro c
  obtain ⟨hlt, rfl⟩ := List.getElem?_eq_some_iff.1 hbyte
  have hrest : s.rest = source[offset] :: source.drop (offset + 1) := by
    rw [h.rest, List.drop_eq_getElem_cons hlt]
  have hpos := h.pos (Nat.le_of_lt hlt)
  rw [step, h.rest, hcomment]
  simp only [hmatch]
  rw [← h.rest, hrest, faultAt, hpos, h.cursor]
  rfl

/-- Where nothing begins, lexing ends. -/
theorem stuck (hcomment : t.commentLength (source.drop offset) = none)
    (hmatch : t.matchAt (source.drop offset) = none) :
    (s.collect t).map (out ++ ·) = outcome t source offset out := by
  cases hbyte : source[offset]? with
  | none =>
    have hend : source.drop offset = [] :=
      List.drop_eq_nil_of_le (List.getElem?_eq_none_iff.1 hbyte)
    have hstep : step t s = .finish := by
      rw [step, h.rest, hcomment, hend]
      rfl
    rw [collect_finish hstep, outcome, hbyte]
    simp [Except.map]
  | some b =>
    rw [collect_fail (h.step_stuck hcomment hmatch hbyte), outcome, hbyte]
    rfl

end At

theorem symbol_ne_error {rest : Bytes} {index : Nat}
    (herror : ∀ p ∈ patterns, p.2.id ≠ Symbol.error.id)
    (h : IsLongest 1 (CompiledPatterns.leastMatch (patterns.map (·.1))) rest
      (some (length, index))) :
    ((patterns.map (·.2)).getD index .error == Symbol.error) = false := by
  obtain ⟨p, hp⟩ := exists_pattern h
  rw [symbol_of_pattern hp, Symbol.beq_eq_false_iff]
  exact herror p (List.mem_of_getElem? hp)

/-- From any offset on, lexing puts out the tokens of the segments that follow. -/
theorem collect_of_cut (r : t.Recognizes patterns)
    (herror : ∀ p ∈ patterns, p.2.id ≠ Symbol.error.id)
    (hcut : t.Cut (patterns.map (·.1)) source offset segments stop) (h : At t source offset out s) :
    (s.collect t).map (out ++ ·) = outcome t source stop
      ((t.segmentTokens (patterns.map (·.2)) source offset segments).foldl t.putOut out) := by
  induction hcut generalizing s out with
  | stop hstuck => exact h.stuck hstuck.1 (r.matchAt_of_stuck hstuck)
  | @segment offset stop segment segments hbegins _ ih =>
    obtain ⟨hpos, hfits⟩ := hbegins.bounds
    have hrest : source.drop offset ≠ [] :=
      List.ne_nil_of_length_pos (Nat.lt_of_lt_of_le hpos hfits)
    cases segment with
    | comment length =>
      obtain ⟨next, hnext, heq⟩ := h.comment hbegins
      rw [heq]
      exact ih hnext
    | token length index =>
      obtain ⟨hcomment, hlongest⟩ := hbegins
      have hsymbol := symbol_ne_error herror hlongest
      obtain ⟨next, hnext, heq⟩ := h.token hcomment (r.matchAt_of_longest hlongest) hrest hsymbol
      rw [heq]
      exact ih hnext

/-- Lexing a source puts out the tokens of its segments. -/
theorem analyze_of_cut (r : t.Recognizes patterns)
    (herror : ∀ p ∈ patterns, p.2.id ≠ Symbol.error.id)
    (hcut : t.Cut (patterns.map (·.1)) source 0 segments stop) : t.analyze source =
      outcome t source stop
        ((t.segmentTokens (patterns.map (·.2)) source 0 segments).foldl t.putOut []) := by
  rw [← collect_of_cut r herror hcut (at_start t source), Tokenizer.analyze]
  cases (t.scan source).collect t <;> rfl

end Scan

namespace TokenizerBuilder

variable {b : TokenizerBuilder} {patterns : List (String × Symbol)} {t : Tokenizer}

theorem build_recognizes (h : (b.withPatterns patterns).build = .ok t) : t.Recognizes patterns := by
  obtain ⟨_, hsymbols, _⟩ := build_ok h
  have hsymbol : ∀ i, (t.symbolFor? i).getD .error = (patterns.map (·.2)).getD i .error := by
    intro i
    rw [Tokenizer.symbolFor?, hsymbols, List.getElem?_toArray, List.getD_eq_getElem?_getD]
  constructor
  · intro rest
    exact (Tokenizer.numberAt_spec (build_answer h) rest).1
  · intro rest
    rw [(Tokenizer.numberAt_spec (build_answer h) rest).2]
    simp only [hsymbol]

/-- A source is cut into segments in one way: comments, and otherwise longest matches. If the
segments reach its end, lexing gives their tokens without the ignored ones and without newlines
behind a newline; else it reports the byte at which they stop. -/
theorem analyze_eq_of_cut (h : (b.withPatterns patterns).build = .ok t)
    (herror : ∀ p ∈ patterns, p.2.id ≠ Symbol.error.id) (source : Bytes) :
    ∃ segments stop, t.Cut (patterns.map (·.1)) source 0 segments stop ∧
      (∀ segments' stop', t.Cut (patterns.map (·.1)) source 0 segments' stop' →
        segments' = segments ∧ stop' = stop) ∧
      (∀ s ∈ segments, 0 < s.length) ∧ (segments.map Segment.length).sum = stop ∧
      let tokens := t.segmentTokens (patterns.map (·.2)) source 0 segments
      let c := t.cursorAt source stop
      (stop = source.length ∧ t.analyze source = .ok (tokens.foldl t.putOut [])) ∨
        ∃ byte, source[stop]? = some byte ∧
          t.analyze source = .error (.unexpected ⟨c.row, c.column, stop, byte⟩) := by
  have r := build_recognizes h
  obtain ⟨segments, stop, hcut⟩ := r.exists_cut source 0
  refine ⟨segments, stop, hcut, fun _ _ hcut' => hcut'.unique hcut, hcut.length_pos, ?_, ?_⟩
  · rw [← hcut.sum_length, Nat.zero_add]
  · intro tokens c
    have hle := hcut.stop_le (Nat.zero_le _)
    rw [Scan.analyze_of_cut r herror hcut, Scan.outcome]
    cases hbyte : source[stop]? with
    | none =>
      have hge := List.getElem?_eq_none_iff.1 hbyte
      exact Or.inl ⟨Nat.le_antisymm hle hge, rfl⟩
    | some byte => exact Or.inr ⟨byte, rfl, rfl⟩

/-! A tokenizer of line feeds and spaces, the latter ignored, with line comments. A comment and a
space do not keep line feeds apart. -/

def remarks : TokenizerBuilder := { lineComment := some ⟨[47, 47], by decide⟩ }

def blanks : List (String × Symbol) := [("\n", .lineFeed), (" ", .space)]

theorem leastMatch_blanks (w : Bytes) : CompiledPatterns.leastMatch (blanks.map (·.1)) w =
    if w = [10] then some 0 else if w = [32] then some 1 else none := by
  have hfeed : Pattern.textMatches "\n" w = decide (w = [10]) :=
    Pattern.textMatches_byte (by decide +kernel) w
  have hspace : Pattern.textMatches " " w = decide (w = [32]) :=
    Pattern.textMatches_byte (by decide +kernel) w
  simp only [CompiledPatterns.leastMatch, blanks, List.map_cons, List.map_nil, List.findIdx?_cons,
    List.findIdx?_nil, hfeed, hspace, decide_eq_true_eq]
  by_cases h10 : w = [10]
  · simp [h10]
  · by_cases h32 : w = [32] <;> simp [h10, h32]

theorem isLongest_blanks {b : UInt8} {i : Nat} (rest : Bytes)
    (h : CompiledPatterns.leastMatch (blanks.map (·.1)) [b] = some i) :
    IsLongest 1 (CompiledPatterns.leastMatch (blanks.map (·.1))) (b :: rest) (some (1, i)) := by
  refine ⟨Nat.le_refl 1, Nat.le_add_left 1 rest.length, h, fun m hm hle => ?_⟩
  have hne : ∀ c : UInt8, (b :: rest).take m ≠ [c] := by
    intro c hc
    have hlength := congrArg List.length hc
    rw [List.length_take, Nat.min_eq_left hle, List.length_singleton] at hlength
    omega
  rw [leastMatch_blanks, if_neg (hne 10), if_neg (hne 32)]

theorem analyze_eq_of_cut_blanks : ∃ t, (remarks.withPatterns blanks).build = .ok t ∧
    (∀ p ∈ blanks, p.2.id ≠ Symbol.error.id) ∧
    let source : Bytes := [10, 32, 47, 47, 120, 10, 10]
    t.Cut (blanks.map (·.1)) source 0 [.token 1 0, .token 1 1, .comment 4, .token 1 0] 7 ∧
      t.analyze source = .ok [t.tokenAt source 0 1 .lineFeed] := by
  obtain ⟨compiled, hcompiled⟩ : ∃ compiled, CompiledPatterns.ofList blanks = .ok compiled :=
    exists_eq_ok (by decide +kernel)
  obtain ⟨t, hbuild, hignored, hnewline, hcomment⟩ : ∃ t,
      (remarks.withPatterns blanks).build = .ok t ∧ t.ignored = [.space] ∧
        t.newline = .lineFeed ∧ ∀ rest, t.commentLength rest =
          if [47, 47].isPrefixOf rest then some (Tokenizer.lineLength rest) else none := by
    rw [build, withPatterns, hcompiled]
    refine ⟨_, rfl, rfl, rfl, fun rest => ?_⟩
    cases h : ([47, 47] : Bytes).isPrefixOf rest <;>
      simp [remarks, Tokenizer.commentLength, Delimiter.begins, Option.filter, h]
  have herror : ∀ p ∈ blanks, p.2.id ≠ Symbol.error.id := by decide
  refine ⟨t, hbuild, herror, ?_⟩
  intro source
  have hfeed := leastMatch_blanks [10]
  have hspace := leastMatch_blanks [32]
  have hcut : t.Cut (blanks.map (·.1)) source 0
      [.token 1 0, .token 1 1, .comment 4, .token 1 0] 7 := by
    apply Tokenizer.Cut.segment (s := .token 1 0) ⟨hcomment _, isLongest_blanks _ hfeed⟩
    apply Tokenizer.Cut.segment (s := .token 1 1) ⟨hcomment _, isLongest_blanks _ hspace⟩
    apply Tokenizer.Cut.segment (s := .comment 4) (show _ = some 4 from hcomment _)
    apply Tokenizer.Cut.segment (s := .token 1 0) ⟨hcomment _, isLongest_blanks _ hfeed⟩
    refine Tokenizer.Cut.stop ⟨hcomment _, fun n hn hle => ?_⟩
    exact absurd (Nat.le_trans hn hle) (by decide)
  obtain ⟨segments, stop, _, hunique, _, _, hresult⟩ := analyze_eq_of_cut hbuild herror source
  obtain ⟨rfl, rfl⟩ := hunique _ _ hcut
  refine ⟨hcut, ?_⟩
  rcases hresult with ⟨_, hok⟩ | ⟨byte, hbyte, _⟩
  · have hff : (Symbol.lineFeed == Symbol.lineFeed) = true := by decide
    have hfs : (Symbol.lineFeed == Symbol.space) = false := by decide
    have hss : (Symbol.space == Symbol.space) = true := by decide
    rw [hok]
    simp [blanks, Tokenizer.segmentTokens, Tokenizer.putOut, Tokenizer.isIgnored,
      Tokenizer.endsInNewline, Tokenizer.tokenAt, hignored, hnewline, hff, hfs, hss]
  · cases hbyte

end TokenizerBuilder

end MaximalMunch
