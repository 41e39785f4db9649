import MaximalMunch.Proofs.Faults

/-! Lexing up to a fault. A scan reports tokens, then the fault, and then nothing more. What it has
done by then is decided by the bytes before the fault, unless these end in a piece of a delimiter of
line comments. -/

namespace MaximalMunch

/-! ## Cutting off a source -/

section Cutting

variable {rest source wanted : Bytes} {n i length opening : Nat} {d : Delimiter}

/-- The longest match is still the longest one when something behind it is cut off. -/
theorem IsLongest.take {α : Type} {least m : Nat} {answers : Bytes → Option α} {p : α}
    (h : IsLongest least answers rest (some (n, p))) (hle : n ≤ m) :
    IsLongest least answers (rest.take m) (some (n, p)) := by
  obtain ⟨hleast, hlength, hp, hlonger⟩ := h
  refine ⟨hleast, ?_, ?_, fun k hk hkle => ?_⟩
  · rw [List.length_take]
    exact Nat.le_min.2 ⟨hle, hlength⟩
  · rwa [List.take_take, Nat.min_eq_left hle]
  · rw [List.length_take, Nat.le_min] at hkle
    rw [List.take_take, Nat.min_eq_left hkle.1]
    exact hlonger k hk hkle.2

theorem Delimiter.begins_take_of_le (h : d.begins rest = true) (hle : d.bytes.length ≤ n) :
    d.begins (rest.take n) = true := by
  rw [begins, List.isPrefixOf_iff_prefix] at h ⊢
  exact List.prefix_take_iff.2 ⟨h, hle⟩

theorem findBytes_take (h : findBytes wanted source = some i) (hle : i + wanted.length ≤ n) :
    findBytes wanted (source.take n) = some i := by
  induction source generalizing i n with
  | nil => rwa [List.take_nil]
  | cons b source ih =>
    cases n with
    | zero =>
      obtain ⟨rfl, hlength⟩ : i = 0 ∧ wanted.length = 0 := by omega
      rw [List.length_eq_zero_iff.1 hlength]
      rfl
    | succ n =>
      have hfront : wanted.isPrefixOf ((b :: source).take (n + 1)) =
          (wanted.isPrefixOf (b :: source) && decide (wanted.length ≤ n + 1)) := by
        rw [Bool.eq_iff_iff, List.isPrefixOf_iff_prefix, List.prefix_take_iff]
        simp
      have hlength : wanted.length ≤ n + 1 := by omega
      rw [List.take_succ_cons] at hfront ⊢
      rw [findBytes] at h
      rw [findBytes, hfront, decide_eq_true hlength, Bool.and_true]
      split at h
      · rename_i hbegins
        cases h
        exact if_pos hbegins
      · rename_i hbegins
        obtain ⟨j, hj, rfl⟩ := Option.map_eq_some_iff.1 h
        rw [if_neg hbegins, ih hj (by omega), Option.map_some]

namespace Tokenizer

variable {t : Tokenizer} {texts : List String} {patterns : List (String × Symbol)}
  {symbols : List Symbol} {symbol : Symbol} {s : Segment} {segments : List Segment}
  {offset stop : Nat}

theorem lineLength_take (hle : lineLength rest ≤ n) (hlt : n < rest.length) :
    lineLength (rest.take n) = lineLength rest := by
  unfold lineLength at hle ⊢
  cases hfeed : rest.idxOf? 10 with
  | none =>
    rw [hfeed] at hle
    exact absurd hle (Nat.not_le_of_lt hlt)
  | some i =>
    rw [hfeed] at hle
    have htake : (rest.take n).idxOf? 10 = some i := by
      rw [List.idxOf?] at hfeed ⊢
      rw [List.findIdx?_take, hfeed, Option.bind_some, Option.guard_eq_some_iff]
      exact ⟨rfl, decide_eq_true hle⟩
    rw [htake]

theorem le_blockLength (closing : Bytes) (hle : opening ≤ rest.length) :
    opening ≤ blockLength opening closing rest := by
  unfold blockLength
  split
  · omega
  · exact hle

theorem blockLength_take {closing : Bytes} (hle : blockLength opening closing rest ≤ n)
    (hlt : n < rest.length) :
    blockLength opening closing (rest.take n) = blockLength opening closing rest := by
  unfold blockLength at hle ⊢
  cases hclosing : findBytes closing (rest.drop opening) with
  | none =>
    rw [hclosing] at hle
    exact absurd hle (Nat.not_le_of_lt hlt)
  | some i =>
    rw [hclosing] at hle
    have htake : findBytes closing ((rest.take n).drop opening) = some i := by
      rw [List.drop_take]
      exact findBytes_take hclosing (by dsimp only at hle; omega)
    rw [htake]

/-- A comment is still there when something behind it is cut off, unless it is a line comment and
its delimiter is not kept. -/
theorem commentLength_take_of_le (h : t.commentLength rest = some length) (hle : length ≤ n)
    (hlt : n < rest.length)
    (hkept : ∀ d, t.lineComment = some d → d.begins rest = true → lineLength rest ≤ n →
      d.bytes.length ≤ n) : t.commentLength (rest.take n) = some length := by
  unfold commentLength at h
  split at h
  · rename_i d hd
    cases h
    obtain ⟨hline, hbegins⟩ := Option.filter_eq_some_iff.1 hd
    have htake : t.lineComment.filter (·.begins (rest.take n)) = some d :=
      Option.filter_eq_some_iff.2
        ⟨hline, Delimiter.begins_take_of_le hbegins (hkept d hline hbegins hle)⟩
    rw [commentLength, htake]
    exact congrArg some (lineLength_take hle hlt)
  · rename_i d closing hnone hd
    cases h
    obtain ⟨hblock, hbegins⟩ := Option.filter_eq_some_iff.1 hd
    have hline : t.lineComment.filter (·.begins (rest.take n)) = none := by
      rw [Option.filter_eq_none_iff] at hnone ⊢
      intro d hd
      rw [Delimiter.begins_take (Bool.eq_false_of_not_eq_true (hnone d hd)) n]
      exact Bool.false_ne_true
    have hopening := le_blockLength closing (Delimiter.begins_bounds hbegins).2
    have htake : t.blockComment.filter (·.1.begins (rest.take n)) = some (d, closing) :=
      Option.filter_eq_some_iff.2
        ⟨hblock, Delimiter.begins_take_of_le hbegins (Nat.le_trans hopening hle)⟩
    rw [commentLength, hline, htake]
    exact congrArg some (blockLength_take hle hlt)
  · cases h

/-- An offset lies within a delimiter of line comments, behind a line feed that belongs to it. -/
def CutsDelimiter (t : Tokenizer) (source : Bytes) (offset : Nat) : Prop :=
  ∃ d k n, t.lineComment = some d ∧ d.begins (source.drop k) = true ∧ offset = k + n ∧
    n < d.bytes.length ∧ 10 ∈ d.bytes.take n

/-- Only a delimiter with a line feed before its last byte can be cut. -/
theorem CutsDelimiter.mem_dropLast (h : t.CutsDelimiter source offset) :
    ∃ d, t.lineComment = some d ∧ 10 ∈ d.bytes.dropLast := by
  obtain ⟨d, k, n, hline, -, -, hlt, hmem⟩ := h
  refine ⟨d, hline, ?_⟩
  rw [List.dropLast_eq_take]
  exact List.take_subset_take_left d.bytes (Nat.le_sub_one_of_lt hlt) hmem

/-- A line comment that is shorter than its delimiter ends behind a line feed of the delimiter. -/
theorem mem_of_lineLength_le (h : d.begins rest = true) (hle : lineLength rest ≤ n)
    (hlt : n < d.bytes.length) : 10 ∈ d.bytes.take n := by
  obtain ⟨behind, rfl⟩ := List.isPrefixOf_iff_prefix.1 h
  unfold lineLength at hle
  split at hle
  · rename_i i hfeed
    obtain ⟨hi, hbyte, -⟩ := List.findIdx?_eq_some_iff_getElem.1 hfeed
    have hin : i < d.bytes.length := Nat.lt_trans hle hlt
    rw [List.getElem_append_left hin, beq_iff_eq] at hbyte
    exact List.mem_take_iff_getElem.2 ⟨i, Nat.lt_min.2 ⟨hle, hin⟩, hbyte⟩
  · rw [List.length_append] at hle
    omega

theorem Begins.take (h : t.Begins texts (source.drop offset) s) (hle : offset + s.length ≤ stop)
    (hlt : stop < source.length) (hcuts : ¬ t.CutsDelimiter source stop) :
    t.Begins texts ((source.take stop).drop offset) s := by
  have hfits : s.length ≤ stop - offset := Nat.le_sub_of_add_le' hle
  have hinside : stop - offset < (source.drop offset).length := by
    rw [List.length_drop]
    omega
  rw [List.drop_take]
  cases s with
  | comment length =>
    refine commentLength_take_of_le h hfits hinside fun d hline hbegins hlength => ?_
    by_contra hshort
    -- The comment ends before its delimiter does, by a line feed of the delimiter.
    have hshort := Nat.lt_of_not_le hshort
    exact hcuts ⟨d, offset, stop - offset, hline, hbegins, by omega, hshort,
      mem_of_lineLength_le hbegins hlength hshort⟩
  | token length index => exact ⟨commentLength_take h.1 _, h.2.take hfits⟩

/-- What is cut off behind the last segment does not change the segments. -/
theorem Cut.take (h : t.Cut texts source offset segments stop) (hlt : stop < source.length)
    (hcuts : ¬ t.CutsDelimiter source stop) :
    t.Cut texts (source.take stop) offset segments stop := by
  induction h with
  | @stop offset hstuck =>
    refine .stop ?_
    rw [List.drop_take, Nat.sub_self]
    refine ⟨commentLength_take hstuck.1 0, fun n hn hle => ?_⟩
    rw [List.take_zero] at hle
    exact absurd (Nat.le_trans hn hle) (by decide)
  | segment hbegins hrest ih =>
    have hle := Nat.le_of_add_right_le (Nat.le_of_eq hrest.sum_length)
    exact .segment (hbegins.take hle hlt hcuts) (ih hlt hcuts)

/-! ## Tokens before a cut -/

theorem cursorAt_take (hle : offset ≤ stop) :
    t.cursorAt (source.take stop) offset = t.cursorAt source offset := by
  rw [cursorAt, cursorAt, List.take_take, Nat.min_eq_left hle]

theorem tokenAt_take (hle : offset + length ≤ stop) :
    t.tokenAt (source.take stop) offset length symbol = t.tokenAt source offset length symbol := by
  have hbytes : ((source.take stop).drop offset).take length =
      (source.drop offset).take length := by
    rw [List.drop_take, List.take_take, Nat.min_eq_left (Nat.le_sub_of_add_le' hle)]
  rw [tokenAt, tokenAt, hbytes, cursorAt_take (Nat.le_of_add_right_le hle)]

theorem segmentTokens_take (hle : offset + (segments.map Segment.length).sum ≤ stop) :
    t.segmentTokens symbols (source.take stop) offset segments =
      t.segmentTokens symbols source offset segments := by
  induction segments generalizing offset with
  | nil => rfl
  | cons s segments ih =>
    rw [List.map_cons, List.sum_cons, ← Nat.add_assoc] at hle
    cases s with
    | comment length => exact ih hle
    | token length index =>
      have hfits : offset + length ≤ stop := Nat.le_of_add_right_le hle
      rw [segmentTokens, segmentTokens, tokenAt_take hfits]
      exact congrArg _ (ih hle)

/-- Up to where the segments stop, lexing gives their tokens. -/
theorem analyze_take (r : t.Recognizes patterns) (herror : ∀ p ∈ patterns, p.2.id ≠ Symbol.error.id)
    (hcut : t.Cut (patterns.map (·.1)) source 0 segments stop) (hlt : stop < source.length)
    (hcuts : ¬ t.CutsDelimiter source stop) : t.analyze (source.take stop) =
      .ok ((t.segmentTokens (patterns.map (·.2)) source 0 segments).foldl t.putOut []) := by
  have hend : (source.take stop)[stop]? = none := by
    rw [List.getElem?_eq_none_iff, List.length_take]
    exact Nat.min_le_left _ _
  rw [Scan.analyze_of_cut r herror (hcut.take hlt hcuts), Scan.outcome, hend,
    segmentTokens_take (Nat.le_of_eq (hcut.sum_length))]

end Tokenizer

end Cutting

/-! ## What a scan reports -/

namespace Scan

open Tokenizer

variable {t : Tokenizer} {patterns : List (String × Symbol)} {source : Bytes} {s next : Scan}
  {c position : Cursor} {offset stop n : Nat} {segments : List Segment} {out tokens : List Token}
  {token : Token} {fault : Fault}

theorem next_finished (h : s.finished = true) : s.next t = (none, s) := by
  rw [Scan.next, if_pos h]

theorem next_pass (hrunning : s.finished = false) (h : step t s = .pass next) :
    s.next t = next.next t := by
  rw [Scan.next, if_neg (Bool.eq_false_iff.1 hrunning)]
  split <;> simp_all

theorem next_emit (hrunning : s.finished = false) (h : step t s = .emit token next) :
    s.next t = (some (.ok token), next) := by
  rw [Scan.next, if_neg (Bool.eq_false_iff.1 hrunning)]
  split <;> simp_all

theorem next_fail (hrunning : s.finished = false) (h : step t s = .fail fault position) :
    s.next t = (some (.error fault), { s with cursor := position, finished := true }) := by
  rw [Scan.next, if_neg (Bool.eq_false_iff.1 hrunning)]
  split <;> simp_all

/-- The scan behind so many calls of `next`. -/
def after (t : Tokenizer) (s : Scan) : Nat → Scan
  | 0 => s
  | n + 1 => after t (s.next t).2 n

theorem item_finished (h : s.finished = true) (n : Nat) : s.item t n = none := by
  induction n with
  | zero => rw [item, next_finished h]
  | succ n ih => rw [item, next_finished h, ih]

theorem after_finished (h : s.finished = true) (n : Nat) : s.after t n = s := by
  induction n with
  | zero => rfl
  | succ n ih => rw [after, next_finished h, ih]

/-- Calls of `next` report some tokens and then a fault, with which the scan is finished, and its
cursor is left where it is. -/
inductive Reports (t : Tokenizer) (fault : Fault) (c : Cursor) : Scan → List Token → Prop
  | fault {s next : Scan} : s.next t = (some (.error fault), next) → next.finished = true →
      next.cursor = c → Reports t fault c s []
  | token {s next : Scan} {token : Token} {tokens : List Token} :
      s.next t = (some (.ok token), next) → Reports t fault c next tokens →
      Reports t fault c s (token :: tokens)

namespace Reports

theorem pass (h : Reports t fault c next tokens) (hrunning : s.finished = false)
    (hstep : step t s = .pass next) : Reports t fault c s tokens := by
  have hnext := next_pass hrunning hstep
  cases h with
  | fault hreport hfinished hcursor => exact .fault (hnext.trans hreport) hfinished hcursor
  | token hreport hrest => exact .token (hnext.trans hreport) hrest

theorem item (h : Reports t fault c s tokens) (n : Nat) :
    s.item t n = (tokens.map .ok ++ [.error fault])[n]? := by
  induction h generalizing n with
  | fault hreport hfinished _ =>
    cases n with
    | zero => rw [Scan.item, hreport]; rfl
    | succ n => rw [Scan.item, hreport, item_finished hfinished]; rfl
  | token hreport _ ih =>
    cases n with
    | zero => rw [Scan.item, hreport]; rfl
    | succ n => rw [Scan.item, hreport, ih]; rfl

theorem cursor_after (h : Reports t fault c s tokens) (hn : tokens.length < n) :
    (s.after t n).cursor = c := by
  induction h generalizing n with
  | fault hreport hfinished hcursor =>
    obtain ⟨n, rfl⟩ := Nat.exists_eq_succ_of_ne_zero (Nat.ne_of_gt hn)
    rw [after, hreport, after_finished hfinished, hcursor]
  | token hreport _ ih =>
    obtain ⟨n, rfl⟩ := Nat.exists_eq_succ_of_ne_zero (Nat.ne_of_gt (Nat.zero_lt_of_lt hn))
    rw [after, hreport]
    exact ih (Nat.lt_of_succ_lt_succ hn)

end Reports

/-- From any offset on, a scan reports the tokens of the segments that follow, and then the fault of
the byte at which they stop. -/
theorem reports_of_cut (r : t.Recognizes patterns)
    (herror : ∀ p ∈ patterns, p.2.id ≠ Symbol.error.id)
    (hcut : t.Cut (patterns.map (·.1)) source offset segments stop) {b : UInt8}
    (hbyte : source[stop]? = some b) (h : At t source offset out s)
    (hrunning : s.finished = false) :
    let c := t.cursorAt source stop
    ∃ tokens, Reports t (.unexpected ⟨c.row, c.column, stop, b⟩) c s tokens ∧ out ++ tokens =
      (t.segmentTokens (patterns.map (·.2)) source offset segments).foldl t.putOut out := by
  induction hcut generalizing s out with
  | stop hstuck =>
    have hstep := h.step_stuck hstuck.1 (r.matchAt_of_stuck hstuck) hbyte
    exact ⟨[], .fault (next_fail hrunning hstep) rfl rfl, out.append_nil⟩
  | @segment offset stop segment segments hbegins _ ih =>
    obtain ⟨hpos, hfits⟩ := hbegins.bounds
    have hrest : source.drop offset ≠ [] :=
      List.ne_nil_of_length_pos (Nat.lt_of_lt_of_le hpos hfits)
    cases segment with
    | comment length =>
      have hstep : step t s = .pass (s.consume length) := by
        rw [step, h.rest, hbegins]
      obtain ⟨tokens, hreports, htokens⟩ := ih hbyte (h.consume length) hrunning
      exact ⟨tokens, hreports.pass hrunning hstep, htokens⟩
    | token length index =>
      obtain ⟨hcomment, hlongest⟩ := hbegins
      have hsymbol := symbol_ne_error herror hlongest
      obtain ⟨next, hnext, hfinished, hstep⟩ :=
        h.token_step hcomment (r.matchAt_of_longest hlongest) hrest hsymbol
      obtain ⟨tokens, hreports, htokens⟩ := ih hbyte hnext (hfinished.trans hrunning)
      obtain ⟨hstep, hput⟩ | ⟨hstep, hput⟩ := hstep
      · refine ⟨tokens, hreports.pass hrunning hstep, Eq.trans ?_ htokens⟩
        rw [hput]
      · refine ⟨_ :: tokens, .token (next_emit hrunning hstep) hreports, Eq.trans ?_ htokens⟩
        rw [hput, List.append_assoc, List.singleton_append]

end Scan

namespace TokenizerBuilder

variable {b : TokenizerBuilder} {patterns : List (String × Symbol)} {t : Tokenizer}
  {source : Bytes} {fault : Scan.Fault}

/-- If lexing a source fails, a scan of it reports tokens, then the fault, and then nothing more,
with its cursor at the fault. The bytes before the fault are lexed to the same tokens, unless they
end within a delimiter of line comments, behind a line feed of it. -/
theorem tokens_before_fault (h : (b.withPatterns patterns).build = .ok t)
    (herror : ∀ p ∈ patterns, p.2.id ≠ Symbol.error.id) (hfault : t.analyze source = .error fault) :
    ∃ (e : LexError) (tokens : List Token), fault = .unexpected e ∧ e.offset < source.length ∧
      (∀ n, (t.scan source).item t n = (tokens.map .ok ++ [.error fault])[n]?) ∧
      (∀ n, tokens.length < n → ((t.scan source).after t n).cursor.pos = e.offset) ∧
      (t.analyze (source.take e.offset) = .ok tokens ∨ t.CutsDelimiter source e.offset) := by
  have r := build_recognizes h
  obtain ⟨segments, stop, hcut⟩ := r.exists_cut source 0
  have hanalyze := Scan.analyze_of_cut r herror hcut
  rw [hfault, Scan.outcome] at hanalyze
  cases hbyte : source[stop]? with
  | none =>
    rw [hbyte] at hanalyze
    cases hanalyze
  | some byte =>
    rw [hbyte] at hanalyze
    cases hanalyze
    have hlt := (List.getElem?_eq_some_iff.1 hbyte).1
    obtain ⟨tokens, hreports, htokens⟩ :=
      Scan.reports_of_cut r herror hcut hbyte (Scan.at_start t source) rfl
    refine ⟨_, tokens, rfl, hlt, hreports.item, fun n hn => ?_, ?_⟩
    · have hpos := Cursor.pos_advance t.cursor (source.take stop)
      rw [List.length_take, Nat.min_eq_left (Nat.le_of_lt hlt)] at hpos
      rw [hreports.cursor_after hn]
      exact hpos.trans (Nat.zero_add stop)
    · by_cases hcuts : t.CutsDelimiter source stop
      · exact Or.inr hcuts
      · rw [List.nil_append] at htokens
        rw [htokens]
        exact Or.inl (Tokenizer.analyze_take r herror hcut hlt hcuts)

theorem exists_build_blanks (b : TokenizerBuilder) :
    ∃ t, (b.withPatterns blanks).build = .ok t := by
  obtain ⟨compiled, hcompiled⟩ : ∃ compiled, CompiledPatterns.ofList blanks = .ok compiled :=
    exists_eq_ok (by decide +kernel)
  rw [build, withPatterns, hcompiled]
  exact ⟨_, rfl⟩

theorem commentLength_of_line {d : Delimiter} (h : (b.withPatterns patterns).build = .ok t)
    (hline : b.lineComment = some d) (hblock : b.blockComment = none) (rest : Bytes) :
    t.commentLength rest =
      if d.begins rest then some (Tokenizer.lineLength rest) else none := by
  obtain ⟨hline', hblock', -⟩ := build_settings h
  rw [Tokenizer.commentLength, hline'.trans hline, hblock'.trans hblock]
  cases hbegins : d.begins rest <;> simp [Option.filter, hbegins]

theorem isLongest_blanks_none {c : UInt8} (hfeed : c ≠ 10) (hspace : c ≠ 32) (rest : Bytes) :
    IsLongest 1 (CompiledPatterns.leastMatch (blanks.map (·.1))) (c :: rest) none := by
  intro n hn _
  obtain ⟨n, rfl⟩ := Nat.exists_eq_add_of_le' hn
  rw [leastMatch_blanks, List.take_succ_cons]
  simp [hfeed, hspace]

theorem tokens_before_fault_blanks :
    let source : Bytes := [10, 32, 47, 47, 120, 10, 63]
    ∃ t fault tokens, (remarks.withPatterns blanks).build = .ok t ∧
      (∀ p ∈ blanks, p.2.id ≠ Symbol.error.id) ∧ t.analyze source = .error fault ∧
      (t.scan source).item t (tokens.length + 1) = none ∧
      t.analyze [10, 32, 47, 47, 120, 10] = .ok tokens := by
  intro source
  obtain ⟨t, h⟩ := exists_build_blanks remarks
  have hcomment := commentLength_of_line h rfl rfl
  have herror : ∀ p ∈ blanks, p.2.id ≠ Symbol.error.id := by decide
  have hcut : t.Cut (blanks.map (·.1)) source 0 [.token 1 0, .token 1 1, .comment 4] 6 := by
    apply Tokenizer.Cut.segment (s := .token 1 0)
      ⟨hcomment _, isLongest_blanks _ (leastMatch_blanks [10])⟩
    apply Tokenizer.Cut.segment (s := .token 1 1)
      ⟨hcomment _, isLongest_blanks _ (leastMatch_blanks [32])⟩
    apply Tokenizer.Cut.segment (s := .comment 4) (show _ = some 4 from hcomment _)
    exact .stop ⟨hcomment _, isLongest_blanks_none (by decide) (by decide) []⟩
  have hfault := Scan.analyze_of_cut (build_recognizes h) herror hcut
  obtain ⟨e, tokens, he, -, hitem, -, htake⟩ := tokens_before_fault h herror hfault
  cases he
  refine ⟨t, _, tokens, h, herror, hfault, ?_, ?_⟩
  · rw [hitem, List.getElem?_eq_none_iff]
    simp
  · refine htake.resolve_right fun hcuts => ?_
    obtain ⟨d, hd, hmem⟩ := hcuts.mem_dropLast
    rw [(build_settings h).1] at hd
    cases hd
    exact absurd hmem (by decide)

/-- The comment that begins with `#`, a line feed and `b` ends behind the line feed already. Before
the fault at `b` there is no token, and yet the first two bytes are not lexed: they do not begin a
comment any more. -/
theorem cut_delimiter_blanks :
    let b : TokenizerBuilder := { lineComment := some ⟨[35, 10, 98], by decide⟩ }
    ∃ t, (b.withPatterns blanks).build = .ok t ∧ (∀ p ∈ blanks, p.2.id ≠ Symbol.error.id) ∧
      t.analyze [35, 10, 98] = .error (.unexpected ⟨2, 0, 2, 98⟩) ∧
      t.analyze ([35, 10, 98].take 2) = .error (.unexpected ⟨1, 0, 0, 35⟩) := by
  intro b
  obtain ⟨t, h⟩ := exists_build_blanks b
  have hcomment := commentLength_of_line h rfl rfl
  have herror : ∀ p ∈ blanks, p.2.id ≠ Symbol.error.id := by decide
  have hrow : t.firstRow = 1 := (build_settings h).2.2
  have hwhole : t.Cut (blanks.map (·.1)) [35, 10, 98] 0 [.comment 2] 2 := by
    apply Tokenizer.Cut.segment (s := .comment 2) (show _ = some 2 from hcomment _)
    exact .stop ⟨hcomment _, isLongest_blanks_none (by decide) (by decide) []⟩
  have hfront : t.Cut (blanks.map (·.1)) [35, 10] 0 [] 0 :=
    .stop ⟨hcomment _, isLongest_blanks_none (by decide) (by decide) [10]⟩
  refine ⟨t, h, herror, ?_, ?_⟩
  · rw [Scan.analyze_of_cut (build_recognizes h) herror hwhole, Scan.outcome]
    simp only [Tokenizer.cursorAt, Tokenizer.cursor, hrow]
    rfl
  · show t.analyze [35, 10] = _
    rw [Scan.analyze_of_cut (build_recognizes h) herror hfront, Scan.outcome]
    simp only [Tokenizer.cursorAt, Tokenizer.cursor, hrow]
    rfl

end TokenizerBuilder

end MaximalMunch
