import MaximalMunch.Proofs.Truncation

/-! Whole comments. A comment reaches from its first delimiter through the first occurrence of what
ends it, or to the end of the source. Such comments are stepped over, unless the delimiter of line
comments holds a line feed: then a line comment ends within its own delimiter. -/

namespace MaximalMunch

/-! ## First occurrences -/

/-- A place at which some bytes occur in a text, and before which they do not. -/
structure FirstAt (wanted text : Bytes) (i : Nat) : Prop where
  here : wanted <+: text.drop i
  before : ∀ j < i, ¬ wanted <+: text.drop j

/-- A length that reaches through the first occurrence of some bytes in a text, or to the end of a
text in which they do not occur. -/
inductive Through (wanted text : Bytes) : Nat → Prop
  | found {i : Nat} : FirstAt wanted text i → Through wanted text (i + wanted.length)
  | missing : (∀ i, ¬ wanted <+: text.drop i) → Through wanted text text.length

section Occurrences

variable {wanted text rest closing : Bytes} {i j n opening : Nat} {b : UInt8}

theorem FirstAt.unique (h : FirstAt wanted text i) (h' : FirstAt wanted text j) : i = j := by
  rcases Nat.lt_trichotomy i j with hlt | rfl | hlt
  · exact absurd h.here (h'.before i hlt)
  · rfl
  · exact absurd h'.here (h.before j hlt)

theorem findBytes_cons (wanted text : Bytes) (b : UInt8) : findBytes wanted (b :: text) =
    if wanted <+: b :: text then some 0 else (findBytes wanted text).map (· + 1) := by
  simp only [findBytes, List.isPrefixOf_iff_prefix]

/-- The place that is found is that of the first occurrence. -/
theorem findBytes_first (h : findBytes wanted text = some i) : FirstAt wanted text i := by
  induction text generalizing i with
  | nil =>
    rw [findBytes] at h
    split at h
    · rename_i hempty
      cases h
      rw [List.isEmpty_iff.1 hempty]
      exact ⟨List.nil_prefix, fun j hj => absurd hj (Nat.not_lt_zero j)⟩
    · cases h
  | cons b text ih =>
    rw [findBytes_cons] at h
    split at h
    · rename_i hhere
      cases h
      exact ⟨hhere, fun j hj => absurd hj (Nat.not_lt_zero j)⟩
    · rename_i hhere
      obtain ⟨i, hi, rfl⟩ := Option.map_eq_some_iff.1 h
      refine ⟨(ih hi).here, fun j hj => ?_⟩
      cases j with
      | zero => exact hhere
      | succ j => exact (ih hi).before j (Nat.lt_of_succ_lt_succ hj)

/-- Nothing is found only where there is no occurrence. -/
theorem not_prefix_drop_of_findBytes (h : findBytes wanted text = none) (i : Nat) :
    ¬ wanted <+: text.drop i := by
  induction text generalizing i with
  | nil =>
    rw [findBytes] at h
    split at h
    · cases h
    · rename_i hempty
      rw [List.drop_nil, List.prefix_nil]
      exact fun hnil => hempty (List.isEmpty_iff.2 hnil)
  | cons b text ih =>
    rw [findBytes_cons] at h
    split at h
    · cases h
    · rename_i hhere
      cases i with
      | zero => exact hhere
      | succ i => exact ih (Option.map_eq_none_iff.1 h) i

/-- A single byte is found where it is a member first. -/
theorem findBytes_singleton (b : UInt8) (text : Bytes) : findBytes [b] text = text.idxOf? b := by
  induction text with
  | nil => rfl
  | cons a text ih =>
    rw [findBytes_cons, List.idxOf?_cons, ih]
    by_cases h : a = b
    · subst h
      rw [if_pos (List.cons_prefix_cons.2 ⟨rfl, List.nil_prefix⟩), if_pos (beq_self_eq_true a)]
    · rw [if_neg, if_neg]
      · simpa using h
      · simpa using Ne.symm h

namespace Tokenizer

/-- The length of a block comment reaches through its end delimiter, behind the first one. -/
theorem through_iff (hle : opening ≤ rest.length) : Through closing (rest.drop opening) n ↔
    blockLength opening closing rest = opening + n := by
  unfold blockLength
  cases hfind : findBytes closing (rest.drop opening) with
  | some i =>
    have hfirst := findBytes_first hfind
    dsimp only
    constructor
    · rintro (hat | hnone)
      · rw [hat.unique hfirst, Nat.add_assoc]
      · exact absurd hfirst.here (hnone i)
    · intro hlength
      obtain rfl : n = i + closing.length := by omega
      exact .found hfirst
  | none =>
    have hnone := not_prefix_drop_of_findBytes hfind
    dsimp only
    constructor
    · rintro (hat | -)
      · exact absurd hat.here (hnone _)
      · rw [List.length_drop]
        omega
    · intro hlength
      obtain rfl : n = (rest.drop opening).length := by
        rw [List.length_drop]
        omega
      exact .missing hnone

/-- Behind bytes without a line feed, a line comment ends as a block comment with a line feed for an
end delimiter does. -/
theorem lineLength_append {front : Bytes} (h : 10 ∉ front) (behind : Bytes) :
    lineLength (front ++ behind) = blockLength front.length [10] (front ++ behind) := by
  have hfront : front.findIdx? (· == 10) = none :=
    List.findIdx?_eq_none_iff.2 fun b hb => beq_false_of_ne (ne_of_mem_of_not_mem hb h)
  have hfeed : (front ++ behind).idxOf? 10 = (behind.idxOf? 10).map (· + front.length) := by
    unfold List.idxOf?
    rw [List.findIdx?_append, hfront, Option.none_or]
  rw [lineLength, hfeed, blockLength, List.drop_left, findBytes_singleton]
  cases behind.idxOf? 10 with
  | none => rfl
  | some i => exact congrArg (· + 1) (Nat.add_comm i front.length)

/-- A line feed that stands in front ends the comment. -/
theorem lineLength_append_of_mem {front : Bytes} (h : 10 ∈ front) (behind : Bytes) :
    lineLength (front ++ behind) = front.idxOf 10 + 1 := by
  have hfront : front.findIdx? (· == 10) = some (front.idxOf 10) :=
    List.findIdx?_eq_some_of_exists ⟨10, h, rfl⟩
  have hfeed : (front ++ behind).idxOf? 10 = some (front.idxOf 10) := by
    unfold List.idxOf?
    rw [List.findIdx?_append, hfront, Option.some_or]
  rw [lineLength, hfeed]

end Tokenizer

end Occurrences

/-! ## Comments -/

namespace Tokenizer

/-- The comment at the front of what is left of a source: what it begins with and what ends it. A
line comment ends with a line feed, and it is looked for first. -/
inductive Opens (t : Tokenizer) (rest : Bytes) : Delimiter → Bytes → Prop
  | line {d : Delimiter} : t.lineComment = some d → d.begins rest = true → Opens t rest d [10]
  | block {d : Delimiter} {closing : Bytes} :
      (∀ line, t.lineComment = some line → line.begins rest = false) →
      t.blockComment = some (d, closing) → d.begins rest = true → Opens t rest d closing

/-- The length of a whole comment at the front: all of its first delimiter, and what follows through
the first occurrence of what ends it, or to the end of the source. -/
def WholeComment (t : Tokenizer) (rest : Bytes) (length : Nat) : Prop :=
  ∃ d closing n, t.Opens rest d closing ∧ Through closing (rest.drop d.bytes.length) n ∧
    length = d.bytes.length + n

/-- What is stepped over at a cursor is a whole comment, wherever there is one. -/
def SkipsWhole (t : Tokenizer) (source : Bytes) (c : Cursor) : Prop :=
  ∀ behind, t.skipComment? source c = some behind ↔
    ∃ length, t.WholeComment (source.drop c.pos) length ∧
      behind = c.advance ((source.drop c.pos).take length)

variable {t : Tokenizer} {source rest closing closing' : Bytes} {c : Cursor} {d d' : Delimiter}
  {length : Nat}

theorem Opens.begins (h : t.Opens rest d closing) : d.begins rest = true := by
  cases h <;> assumption

theorem Opens.unique (h : t.Opens rest d closing) (h' : t.Opens rest d' closing') :
    d = d' ∧ closing = closing' := by
  cases h with
  | line hd hbegins =>
    cases h' with
    | line hd' _ => exact ⟨Option.some.inj (hd.symm.trans hd'), rfl⟩
    | block hnone _ _ =>
      rw [hnone d hd] at hbegins
      cases hbegins
  | block hnone hd hbegins =>
    cases h' with
    | line hd' hbegins' =>
      rw [hnone d' hd'] at hbegins'
      cases hbegins'
    | block _ hd' _ =>
      obtain ⟨rfl, rfl⟩ := Prod.mk.inj (Option.some.inj (hd.symm.trans hd'))
      exact ⟨rfl, rfl⟩

theorem commentLength_line (hd : t.lineComment = some d) (hbegins : d.begins rest = true) :
    t.commentLength rest = some (lineLength rest) := by
  rw [commentLength, Option.filter_eq_some_iff.2 ⟨hd, hbegins⟩]

theorem commentLength_block (hnone : ∀ line, t.lineComment = some line → line.begins rest = false)
    (hd : t.blockComment = some (d, closing)) (hbegins : d.begins rest = true) :
    t.commentLength rest = some (blockLength d.bytes.length closing rest) := by
  have hline : t.lineComment.filter (·.begins rest) = none :=
    Option.filter_eq_none_iff.2 fun line hl => by simp [hnone line hl]
  have hblock : t.blockComment.filter (·.1.begins rest) = some (d, closing) :=
    Option.filter_eq_some_iff.2 ⟨hd, hbegins⟩
  rw [commentLength, hline, hblock]

/-- There is a comment to step over just where one opens. -/
theorem commentLength_isSome_iff :
    (t.commentLength rest).isSome = true ↔ ∃ d closing, t.Opens rest d closing := by
  constructor
  · intro hsome
    by_contra hno
    have hline : ∀ d, t.lineComment = some d → d.begins rest = false := fun d hd =>
      Bool.eq_false_iff.2 fun hbegins => hno ⟨d, [10], .line hd hbegins⟩
    have hblock : ∀ d closing, t.blockComment = some (d, closing) → d.begins rest = false :=
      fun d closing hd =>
        Bool.eq_false_iff.2 fun hbegins => hno ⟨d, closing, .block hline hd hbegins⟩
    rw [commentLength_eq_none_iff.2 ⟨hline, hblock⟩] at hsome
    cases hsome
  · rintro ⟨d, closing, hopens⟩
    cases hopens with
    | line hd hbegins => rw [commentLength_line hd hbegins, Option.isSome_some]
    | block hline hd hbegins => rw [commentLength_block hline hd hbegins, Option.isSome_some]

/-- A whole comment has one length only. -/
theorem wholeComment_iff (h : t.Opens rest d closing) :
    t.WholeComment rest length ↔ length = blockLength d.bytes.length closing rest := by
  have hle := (Delimiter.begins_bounds h.begins).2
  constructor
  · rintro ⟨d', closing', n, h', hthrough, rfl⟩
    obtain ⟨rfl, rfl⟩ := h.unique h'
    exact ((through_iff hle).1 hthrough).symm
  · rintro rfl
    obtain ⟨n, hn⟩ := Nat.exists_eq_add_of_le (le_blockLength closing hle)
    exact ⟨d, closing, n, h, (through_iff hle).2 hn, hn⟩

/-- The length of a comment is that of the whole comment, unless it begins with a delimiter of line
comments that holds a line feed. -/
theorem commentLength_of_opens (h : t.Opens rest d closing)
    (hfeed : ∀ line, t.lineComment = some line → line.begins rest = true → 10 ∉ line.bytes) :
    t.commentLength rest = some (blockLength d.bytes.length closing rest) := by
  cases h with
  | line hd hbegins =>
    rw [commentLength_line hd hbegins]
    obtain ⟨behind, rfl⟩ := List.isPrefixOf_iff_prefix.1 hbegins
    rw [lineLength_append (hfeed d hd hbegins)]
  | block hline hd hbegins => exact commentLength_block hline hd hbegins

/-- A line comment ends behind the first line feed of its delimiter. -/
theorem commentLength_of_mem (hd : t.lineComment = some d) (hbegins : d.begins rest = true)
    (hmem : 10 ∈ d.bytes) : t.commentLength rest = some (d.bytes.idxOf 10 + 1) := by
  rw [commentLength_line hd hbegins]
  obtain ⟨behind, rfl⟩ := List.isPrefixOf_iff_prefix.1 hbegins
  rw [lineLength_append_of_mem hmem]

theorem skipsWhole_of_not_mem (hfeed : ∀ line, t.lineComment = some line →
    line.begins (source.drop c.pos) = true → 10 ∉ line.bytes) : t.SkipsWhole source c := by
  intro behind
  by_cases hopens : ∃ d closing, t.Opens (source.drop c.pos) d closing
  · obtain ⟨d, closing, h⟩ := hopens
    rw [skipComment?, commentLength_of_opens h hfeed, Option.map_some, Option.some_inj]
    constructor
    · rintro rfl
      exact ⟨_, (wholeComment_iff h).2 rfl, rfl⟩
    · rintro ⟨length, hwhole, rfl⟩
      rw [(wholeComment_iff h).1 hwhole]
  · have hnone : t.commentLength (source.drop c.pos) = none := by
      rwa [← commentLength_isSome_iff, Option.not_isSome_iff_eq_none] at hopens
    rw [skipComment?, hnone, Option.map_none]
    constructor
    · intro h
      cases h
    · rintro ⟨length, ⟨d, closing, n, h, -⟩, -⟩
      exact absurd ⟨d, closing, h⟩ hopens

/-- The delimiter itself, with one more byte behind it, is not stepped over as a whole comment. -/
theorem not_skipsWhole (hd : t.lineComment = some d) (hmem : 10 ∈ d.bytes) :
    ¬ t.SkipsWhole (d.bytes ++ [97]) (.atStart t.firstRow) := by
  intro hwhole
  have hbegins : d.begins (d.bytes ++ [97]) = true :=
    List.isPrefixOf_iff_prefix.2 (List.prefix_append _ _)
  have hlength := commentLength_of_mem hd hbegins hmem
  obtain ⟨length, hlen, hbehind⟩ := (hwhole _).1 (congrArg (Option.map _) hlength)
  have hall : length = (d.bytes ++ [97]).length := by
    rw [(wholeComment_iff (.line hd hbegins)).1 hlen]
    show blockLength d.bytes.length [10] (d.bytes ++ [97]) = _
    rw [blockLength, List.drop_left]
    rfl
  -- The first line feed of the delimiter is in front of its end.
  have hpos := congrArg Cursor.pos hbehind
  have hlt := List.idxOf_lt_length_of_mem hmem
  rw [Cursor.pos_advance, Cursor.pos_advance, List.length_take, List.length_take, hall] at hpos
  simp only [Cursor.atStart, List.drop_zero, List.length_append, List.length_singleton] at hpos
  omega

/-- A comment is stepped over just where a delimiter begins, that of line comments or else that of
block comments. What is stepped over is the whole comment wherever no delimiter of line comments
that holds a line feed begins; so it is the whole comment everywhere only for tokenizers without
such a delimiter. Where such a delimiter begins, the comment ends behind its first line feed. -/
theorem whole_comments_skipped (t : Tokenizer) :
    (∀ source c, (t.skipComment? source c).isSome = true ↔
      ∃ d closing, t.Opens (source.drop c.pos) d closing) ∧
    (∀ source c, (∀ d, t.lineComment = some d → d.begins (source.drop c.pos) = true →
      10 ∉ d.bytes) → t.SkipsWhole source c) ∧
    ((∀ source c, c.pos ≤ source.length → t.SkipsWhole source c) ↔
      ∀ d, t.lineComment = some d → 10 ∉ d.bytes) ∧
    (∀ source c d, t.lineComment = some d → d.begins (source.drop c.pos) = true →
      10 ∈ d.bytes →
      t.skipComment? source c = some (c.advance (d.bytes.take (d.bytes.idxOf 10 + 1)))) := by
  refine ⟨fun source c => ?_, fun source c => skipsWhole_of_not_mem, ⟨fun h d hd hmem => ?_,
    fun h source c _ => skipsWhole_of_not_mem fun d hd _ => h d hd⟩,
    fun source c d hd hbegins hmem => ?_⟩
  · rw [skipComment?, Option.isSome_map, commentLength_isSome_iff]
  · exact not_skipsWhole hd hmem (h _ _ (Nat.zero_le _))
  · rw [skipComment?, commentLength_of_mem hd hbegins hmem, Option.map_some]
    obtain ⟨behind, hrest⟩ := List.isPrefixOf_iff_prefix.1 hbegins
    rw [← hrest, List.take_append_of_le_length (List.idxOf_lt_length_of_mem hmem)]

end Tokenizer

namespace TokenizerBuilder

/-- The comment that begins with `#`, a line feed and `b` goes on to the end of its row, but what is
stepped over is only what stands in front of the `b`. -/
theorem delimiter_not_whole_blanks :
    let b : TokenizerBuilder := { lineComment := some ⟨[35, 10, 98], by decide⟩ }
    let source : Bytes := [35, 10, 98, 120, 10, 121]
    ∃ t, (b.withPatterns blanks).build = .ok t ∧ t.WholeComment source 5 ∧
      t.skipComment? source t.cursor = some ⟨2, 2, 2⟩ ∧ ¬ t.SkipsWhole source t.cursor := by
  intro b source
  obtain ⟨t, h⟩ := exists_build_blanks b
  have hline : t.lineComment = b.lineComment := (build_settings h).1
  have hrow : t.cursor = .atStart 1 := congrArg Cursor.atStart (build_settings h).2.2
  have hwhole : t.WholeComment source 5 :=
    (Tokenizer.wholeComment_iff (.line hline (by decide))).2 (by decide)
  have hskip : t.skipComment? source (.atStart 1) = some ⟨2, 2, 2⟩ := by
    rw [Tokenizer.skipComment?, commentLength_of_line h rfl rfl]
    decide
  refine ⟨t, h, hwhole, hrow ▸ hskip, fun hskips => ?_⟩
  rw [hrow] at hskips
  have hother := (hskips _).2 ⟨5, hwhole, rfl⟩
  rw [hskip] at hother
  exact absurd hother (by decide)

end TokenizerBuilder

end MaximalMunch
