import MaximalMunch.Proofs.Position
import MaximalMunch.Proofs.Segmentation

/-! Lexing by calls. Calls for the next token and for a comment to step over lead a cursor through a
source, in any order. A scan of the source is one such order, and reports what the calls give. -/

namespace MaximalMunch

namespace Tokenizer

variable {t : Tokenizer} {source rest : Bytes} {c : Cursor} {length : Nat} {symbol : Symbol}
  {firstRow : UInt64}

/-! ## Calls -/

/-- What can be asked for at a cursor. -/
inductive Call
  | token
  | comment

/-- The cursor behind a call. Where there is no comment, it stays. -/
def call (t : Tokenizer) (source : Bytes) (c : Cursor) : Call → Cursor
  | .token => (t.nextToken source c).2
  | .comment => (t.skipComment? source c).getD c

/-- The cursor behind some calls that begin at the beginning of a source. -/
def cursorAfter (t : Tokenizer) (source : Bytes) (calls : List Call) : Cursor :=
  calls.foldl (t.call source) t.cursor

theorem matchAt_le (h : t.matchAt rest = some (length, symbol)) : length ≤ rest.length := by
  have hspec := t.dfa.longestMatch_spec rest
  unfold matchAt at h
  split at h
  · rename_i hfound
    rw [hfound] at hspec
    cases h
    exact hspec.2.1
  · cases h

theorem nextToken_of_match (h : t.matchAt (source.drop c.pos) = some (length, symbol)) :
    t.nextToken source c =
      (⟨t.tokenText symbol ((source.drop c.pos).take length), symbol, c.row, c.column⟩,
        c.advance ((source.drop c.pos).take length)) := by
  simp only [nextToken, h]

theorem nextToken_of_stuck (h : t.matchAt (source.drop c.pos) = none) :
    t.nextToken source c = (⟨"", .error, c.row, c.column⟩, c) := by
  simp only [nextToken, h]

/-- A token bears the row and the column of the cursor. -/
theorem nextToken_position (t : Tokenizer) (source : Bytes) (c : Cursor) :
    (t.nextToken source c).1.row = c.row ∧ (t.nextToken source c).1.column = c.column := by
  cases h : t.matchAt (source.drop c.pos) with
  | none =>
    rw [nextToken_of_stuck h]
    exact ⟨rfl, rfl⟩
  | some found =>
    rw [nextToken_of_match h]
    exact ⟨rfl, rfl⟩

/-- Both calls step over bytes that stand at the cursor, so they keep it located. -/
theorem call_locates (h : c.Locates firstRow source) (call : Call) :
    (t.call source c call).Locates firstRow source := by
  cases call with
  | token =>
    rw [Tokenizer.call]
    cases hmatch : t.matchAt (source.drop c.pos) with
    | none =>
      rw [nextToken_of_stuck hmatch]
      exact h
    | some found =>
      rw [nextToken_of_match hmatch]
      exact h.advance (List.take_prefix _ _)
  | comment =>
    rw [Tokenizer.call, skipComment?]
    cases t.commentLength (source.drop c.pos) with
    | none => exact h
    | some length => exact h.advance (List.take_prefix _ _)

/-- Whatever is called for, the cursor stays located. -/
theorem cursorAfter_locates (t : Tokenizer) (source : Bytes) (calls : List Call) :
    (t.cursorAfter source calls).Locates t.firstRow source := by
  have hrun : ∀ c : Cursor, c.Locates t.firstRow source →
      (calls.foldl (t.call source) c).Locates t.firstRow source := by
    induction calls with
    | nil => exact fun c h => h
    | cons call calls ih => exact fun c h => ih _ (call_locates h call)
  exact hrun _ (Cursor.atStart_locates t.firstRow source)

/-- The cursors that calls lead to. -/
def Reaches (t : Tokenizer) (source : Bytes) (c : Cursor) : Prop :=
  ∃ calls, c = t.cursorAfter source calls

theorem Reaches.start (t : Tokenizer) (source : Bytes) : t.Reaches source t.cursor := ⟨[], rfl⟩

theorem Reaches.call (h : t.Reaches source c) (call : Call) :
    t.Reaches source (t.call source c call) := by
  obtain ⟨calls, rfl⟩ := h
  refine ⟨calls ++ [call], ?_⟩
  rw [cursorAfter, cursorAfter, List.foldl_append]
  rfl

theorem Reaches.locates (h : t.Reaches source c) : c.Locates t.firstRow source := by
  obtain ⟨calls, rfl⟩ := h
  exact cursorAfter_locates t source calls

/-! ## Reports -/

/-- What a scan reports of the place it has come to: the token there, or a fault if this is an error
token. -/
def report (t : Tokenizer) (source : Bytes) (c : Cursor) : Except Scan.Fault Token :=
  let (token, behind) := t.nextToken source c
  if token.isError then .error (Scan.faultAt c behind (source.drop behind.pos)) else .ok token

/-- The places of which a scan reports: neither does a comment begin there, nor is it the end of the
source. -/
structure Looks (t : Tokenizer) (source : Bytes) (c : Cursor) : Prop where
  uncommented : t.commentLength (source.drop c.pos) = none
  inside : c.pos < source.length

theorem report_ok {token : Token} (h : t.report source c = .ok token) :
    (t.nextToken source c).1 = token := by
  unfold report at h
  split at h
  rename_i found behind hnext
  split at h
  · cases h
  · rw [hnext]
    exact Except.ok.inj h

theorem report_of_stuck (h : t.matchAt (source.drop c.pos) = none) (hlt : c.pos < source.length) :
    t.report source c = .error (.unexpected ⟨c.row, c.column, c.pos, source[c.pos]⟩) := by
  rw [report, nextToken_of_stuck h]
  show Except.error (Scan.faultAt c c (source.drop c.pos)) = _
  rw [List.drop_eq_getElem_cons hlt, Scan.faultAt]

/-- A match of the error symbol is reported with the offset behind it. -/
theorem report_of_match (h : t.matchAt (source.drop c.pos) = some (length, symbol)) :
    let behind := c.advance ((source.drop c.pos).take length)
    t.report source c =
      if symbol == .error then .error (Scan.faultAt c behind (source.drop behind.pos))
      else .ok (t.nextToken source c).1 := by
  rw [report, nextToken_of_match h]
  rfl

end Tokenizer

/-! ## Scans -/

namespace Scan

open Tokenizer

variable {t : Tokenizer} {source : Bytes} {s next : Scan} {c position : Cursor} {length n : Nat}
  {token : Token} {fault : Fault} {found : Except Fault Token}

/-- Goes on at another place of the source. -/
def moveTo (s : Scan) (source : Bytes) (c : Cursor) : Scan :=
  { s with rest := source.drop c.pos, cursor := c }

theorem consume_eq (hrest : s.rest = source.drop s.cursor.pos) (hle : length ≤ s.rest.length) :
    s.consume length = s.moveTo source (s.cursor.advance (s.rest.take length)) := by
  have hpos : (s.cursor.advance (s.rest.take length)).pos = s.cursor.pos + length := by
    rw [Cursor.pos_advance, List.length_take, Nat.min_eq_left hle]
  rw [consume, moveTo, hpos, ← List.drop_drop, ← hrest]

/-- One step of a scan by calls: it steps over a comment if there is one, and else takes the token,
unless the source is at its end. -/
theorem step_eq (hrest : s.rest = source.drop s.cursor.pos) : step t s =
    match t.skipComment? source s.cursor with
    | some behind => .pass (s.moveTo source behind)
    | none =>
      if source.length ≤ s.cursor.pos then .finish
      else
        let (token, behind) := t.nextToken source s.cursor
        if token.isError then .fail (faultAt s.cursor behind (source.drop behind.pos)) behind
        else if t.isIgnored token.symbol || (token.symbol == t.newline && s.afterNewline) then
          .pass (s.moveTo source behind)
        else .emit token { s.moveTo source behind with afterNewline := token.symbol == t.newline }
    := by
  rw [step, skipComment?, ← hrest]
  cases hcomment : t.commentLength s.rest with
  | some length => simp only [consume_eq hrest (commentLength_bounds hcomment).2, Option.map_some]
  | none =>
    have hend : s.rest.isEmpty = true ↔ source.length ≤ s.cursor.pos := by
      rw [hrest, List.isEmpty_iff, List.drop_eq_nil_iff]
    by_cases hempty : s.rest.isEmpty = true
    · simp only [hempty, hend.1 hempty, if_true, Option.map_none]
    · simp only [hempty, mt hend.2 hempty, if_false, Option.map_none]
      cases hmatch : t.matchAt s.rest with
      | none =>
        rw [nextToken_of_stuck (hrest ▸ hmatch), ← hrest]
        rfl
      | some found =>
        obtain ⟨length, symbol⟩ := found
        simp only [take, consume_eq hrest (matchAt_le hmatch)]
        rw [nextToken_of_match (hrest ▸ hmatch), ← hrest]
        rfl

/-- What is passed over is a comment or a token that is left out. -/
theorem step_pass (hrest : s.rest = source.drop s.cursor.pos) (h : step t s = .pass next) :
    ∃ call, next = s.moveTo source (t.call source s.cursor call) := by
  rw [step_eq hrest] at h
  split at h
  · rename_i behind hskip
    cases h
    exact ⟨.comment, by rw [call, hskip, Option.getD_some]⟩
  · split at h
    · cases h
    · split at h
      rename_i token behind hnext
      split at h
      · cases h
      · split at h
        · cases h
          exact ⟨.token, by rw [call, hnext]⟩
        · cases h

/-- What is put out is the token at the cursor. -/
theorem step_emit (hrest : s.rest = source.drop s.cursor.pos) (h : step t s = .emit token next) :
    t.Looks source s.cursor ∧ t.report source s.cursor = .ok token ∧
      next = { s.moveTo source (t.call source s.cursor .token) with
        afterNewline := token.symbol == t.newline } := by
  rw [step_eq hrest] at h
  split at h
  · cases h
  · rename_i hskip
    split at h
    · cases h
    · rename_i hinside
      refine ⟨⟨Option.map_eq_none_iff.1 hskip, Nat.lt_of_not_le hinside⟩, ?_⟩
      rw [report, call]
      split at h
      rename_i found behind hnext
      split at h
      · cases h
      · rename_i herror
        split at h
        · cases h
        · cases h
          rw [hnext]
          exact ⟨if_neg herror, rfl⟩

/-- A fault is that of the token at the cursor. -/
theorem step_fail (hrest : s.rest = source.drop s.cursor.pos)
    (h : step t s = .fail fault position) : t.Looks source s.cursor ∧
      t.report source s.cursor = .error fault ∧ position = t.call source s.cursor .token := by
  rw [step_eq hrest] at h
  split at h
  · cases h
  · rename_i hskip
    split at h
    · cases h
    · rename_i hinside
      refine ⟨⟨Option.map_eq_none_iff.1 hskip, Nat.lt_of_not_le hinside⟩, ?_⟩
      rw [report, call]
      split at h
      rename_i found behind hnext
      split at h
      · rename_i herror
        cases h
        rw [hnext]
        exact ⟨if_pos herror, rfl⟩
      · split at h <;> cases h

/-- A scan whose cursor calls have led to where it is. Once it has reported a fault or the end, what
is left of the source does not matter any more. -/
structure Follows (t : Tokenizer) (source : Bytes) (s : Scan) : Prop where
  reaches : t.Reaches source s.cursor
  rest : s.finished = false → s.rest = source.drop s.cursor.pos

theorem Follows.start (t : Tokenizer) (source : Bytes) : Follows t source (t.scan source) :=
  ⟨Reaches.start t source, fun _ => rfl⟩

theorem Follows.moveTo (h : Follows t source s) (call : Call) :
    Follows t source (s.moveTo source (t.call source s.cursor call)) :=
  ⟨h.reaches.call call, fun _ => rfl⟩

/-- What a call of `next` reports is what stands at a place that calls on the cursor lead to. -/
theorem next_follows (h : Follows t source s) : Follows t source (s.next t).2 ∧
    ∀ found, (s.next t).1 = some found →
      ∃ c, t.Reaches source c ∧ t.Looks source c ∧ found = t.report source c := by
  fun_induction next t s with
  | case1 s hfinished => exact ⟨h, fun _ hnone => nomatch hnone⟩
  | case2 s hrunning hstep =>
    exact ⟨⟨h.reaches, fun hfalse => nomatch hfalse⟩, fun _ hnone => nomatch hnone⟩
  | case3 s hrunning fault position hstep =>
    obtain ⟨hlooks, hreport, rfl⟩ := step_fail (h.rest (by simpa using hrunning)) hstep
    refine ⟨⟨h.reaches.call .token, fun hfalse => nomatch hfalse⟩, ?_⟩
    rintro _ ⟨⟩
    exact ⟨s.cursor, h.reaches, hlooks, hreport.symm⟩
  | case4 s hrunning next hstep ih =>
    obtain ⟨call, rfl⟩ := step_pass (h.rest (by simpa using hrunning)) hstep
    exact ih (h.moveTo call)
  | case5 s hrunning token next hstep =>
    obtain ⟨hlooks, hreport, rfl⟩ := step_emit (h.rest (by simpa using hrunning)) hstep
    refine ⟨⟨h.reaches.call .token, fun _ => rfl⟩, ?_⟩
    rintro _ ⟨⟩
    exact ⟨s.cursor, h.reaches, hlooks, hreport.symm⟩

/-- What `next` reports when it has been called before so many times. -/
def item (t : Tokenizer) (s : Scan) : Nat → Option (Except Fault Token)
  | 0 => (s.next t).1
  | n + 1 => item t (s.next t).2 n

theorem item_reports (h : Follows t source s) (hitem : s.item t n = some found) :
    ∃ c, t.Reaches source c ∧ t.Looks source c ∧ found = t.report source c := by
  induction n generalizing s with
  | zero => exact (next_follows h).2 found hitem
  | succ n ih => exact ih (next_follows h).1 hitem

/-- What ends lexing is reported of such a place as well. -/
theorem collect_follows (h : Follows t source s) (hrunning : s.finished = false)
    (hcollect : s.collect t = .error fault) :
    ∃ c, t.Reaches source c ∧ t.Looks source c ∧ t.report source c = .error fault := by
  fun_induction collect t s with
  | case1 s hstep => cases hcollect
  | case2 s fault' position hstep =>
    obtain ⟨hlooks, hreport, _⟩ := step_fail (h.rest hrunning) hstep
    cases hcollect
    exact ⟨s.cursor, h.reaches, hlooks, hreport⟩
  | case3 s next hstep ih =>
    obtain ⟨call, rfl⟩ := step_pass (h.rest hrunning) hstep
    exact ih (h.moveTo call) hrunning hcollect
  | case4 s token next hstep ih =>
    obtain ⟨_, _, rfl⟩ := step_emit (h.rest hrunning) hstep
    cases htail : collect t { s.moveTo source (t.call source s.cursor .token) with
        afterNewline := token.symbol == t.newline } with
    | ok tokens =>
      rw [htail] at hcollect
      cases hcollect
    | error fault' =>
      rw [htail] at hcollect
      cases hcollect
      exact ih ⟨h.reaches.call .token, fun _ => rfl⟩ hrunning htail

end Scan

/-! ## Tokenizers that were built -/

namespace Tokenizer

variable {t : Tokenizer} {source rest : Bytes} {c : Cursor} {length : Nat} {symbol : Symbol}
  {patterns : List (String × Symbol)} {fault : Scan.Fault}

/-- A match is the longest one of a pattern, with the symbol of this pattern. -/
theorem Recognizes.exists_longest (r : t.Recognizes patterns)
    (h : t.matchAt rest = some (length, symbol)) : ∃ index p,
      IsLongest 1 (CompiledPatterns.leastMatch (patterns.map (·.1))) rest (some (length, index)) ∧
        patterns[index]? = some p ∧ symbol = p.2 := by
  have hlongest := r.longest rest
  rw [r.matchAt, Option.map_eq_some_iff] at h
  obtain ⟨found, hfound, heq⟩ := h
  cases heq
  rw [hfound] at hlongest
  obtain ⟨p, hp⟩ := exists_pattern hlongest
  exact ⟨found.2, p, hlongest, hp, symbol_of_pattern hp⟩

/-- Where no pattern matches, or where no pattern has the error symbol, a fault is reported with the
position and the byte of the cursor. -/
theorem fault_of_no_error_match (h : t.report source c = .error fault) (hlt : c.pos < source.length)
    (hsymbol : ∀ length symbol, t.matchAt (source.drop c.pos) = some (length, symbol) →
      (symbol == .error) = false) :
    t.matchAt (source.drop c.pos) = none ∧
      fault = .unexpected ⟨c.row, c.column, c.pos, source[c.pos]⟩ := by
  cases hmatch : t.matchAt (source.drop c.pos) with
  | none =>
    rw [report_of_stuck hmatch hlt] at h
    cases h
    exact ⟨rfl, rfl⟩
  | some found =>
    rw [report_of_match hmatch, hsymbol _ _ hmatch] at h
    cases h

/-- However calls are mixed, the cursor stays within the source, on the row that the line feeds
before it give, and knows where this row begins. So each token that a call or a scan gives, and each
fault that a scan reports where no pattern has the error symbol, bears the position of its first
byte. -/
theorem positions_of_calls (t : Tokenizer) (source : Bytes) :
    (∀ calls, let c := t.cursorAfter source calls
      c.Locates t.firstRow source ∧ c.column = UInt64.ofNat (c.pos - c.rowStart) ∧
        let token := (t.nextToken source c).1
        IsPosition t.firstRow source c.pos token.row token.column) ∧
    (∀ n token, (t.scan source).item t n = some (.ok token) →
      ∃ calls, let c := t.cursorAfter source calls
        c.pos < source.length ∧ token = (t.nextToken source c).1 ∧
          IsPosition t.firstRow source c.pos token.row token.column) ∧
    ∀ b patterns, (TokenizerBuilder.withPatterns b patterns).build = .ok t →
      (∀ p ∈ patterns, p.2.id ≠ Symbol.error.id) →
      ∀ n fault, (t.scan source).item t n = some (.error fault) →
        ∃ e : LexError, fault = .unexpected e ∧ source[e.offset]? = some e.byte ∧
          IsPosition t.firstRow source e.offset e.row e.column := by
  have htoken : ∀ {c}, c.Locates t.firstRow source →
      let token := (t.nextToken source c).1
      IsPosition t.firstRow source c.pos token.row token.column := by
    intro c hc token
    obtain ⟨hrow, hcolumn⟩ := nextToken_position t source c
    rw [hrow, hcolumn]
    exact hc.isPosition
  refine ⟨fun calls => ?_, fun n token hitem => ?_,
    fun b patterns hbuild herror n fault hitem => ?_⟩
  · have hc := cursorAfter_locates t source calls
    exact ⟨hc, hc.column, htoken hc⟩
  · obtain ⟨c, ⟨calls, rfl⟩, hlooks, hreport⟩ := Scan.item_reports (.start t source) hitem
    obtain rfl := report_ok hreport.symm
    exact ⟨calls, hlooks.inside, rfl, htoken (cursorAfter_locates t source calls)⟩
  · obtain ⟨c, hreaches, hlooks, hreport⟩ := Scan.item_reports (.start t source) hitem
    have r := TokenizerBuilder.build_recognizes hbuild
    obtain ⟨_, rfl⟩ := fault_of_no_error_match hreport.symm hlooks.inside fun _ _ hmatch => by
      obtain ⟨_, p, _, hp, rfl⟩ := r.exists_longest hmatch
      exact Symbol.beq_eq_false_iff.2 (herror p (List.mem_of_getElem? hp))
    exact ⟨_, rfl, List.getElem?_eq_getElem hlooks.inside, hreaches.locates.isPosition⟩

end Tokenizer

end MaximalMunch
