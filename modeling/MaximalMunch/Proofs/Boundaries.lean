import MaximalMunch.Proofs.Comments
import MaximalMunch.Proofs.Progress
import MaximalMunch.Proofs.Words

/-! Whole characters. Bytes in front of which a character begins and which end with an ASCII byte
are whole characters. All matches of the small language end with such a byte, and so do its comments
unless they reach to the end of the source. So no character is cut, though the patterns are matched
byte by byte. -/

namespace MaximalMunch

/-! ## Texts -/

/-- A place between two characters of a text, or at one of its ends, in bytes. -/
def IsBoundary (source : String) (n : Nat) : Prop :=
  ∃ front behind, source = front ++ behind ∧ (bytesOf front).length = n

/-- A text stands in another one from one place to another, in bytes. -/
def Spans (source text : String) (start stop : Nat) : Prop :=
  ∃ front behind, source = front ++ text ++ behind ∧ (bytesOf front).length = start ∧
    (bytesOf (front ++ text)).length = stop

/-- Bytes that end with an ASCII byte, if there are any. -/
def EndsPlain (w : Bytes) : Prop := ∀ b ∈ w.getLast?, b < 128

variable {source text : String} {chars : List Char} {u v w rest closing : Bytes} {b : UInt8}
  {n start stop opening : Nat}

theorem Spans.boundary (h : Spans source text start stop) :
    IsBoundary source start ∧ IsBoundary source stop := by
  obtain ⟨front, behind, hsource, hstart, hstop⟩ := h
  refine ⟨⟨front, text ++ behind, ?_, hstart⟩, front ++ text, behind, hsource, hstop⟩
  rw [hsource, String.append_assoc]

/-- Behind an ASCII byte, a character ends. The induction is on the characters: the byte is in the
first one, which then has no other, or behind it. -/
theorem exists_chars (h : chars.flatMap String.utf8EncodeChar = u ++ b :: v) (hb : b < 128) :
    ∃ front behind, chars = front ++ behind ∧
      front.flatMap String.utf8EncodeChar = u ++ [b] := by
  induction chars generalizing u with
  | nil => simp at h
  | cons c chars ih =>
    rw [List.flatMap_cons, List.append_eq_append_iff] at h
    rcases h with ⟨u', rfl, h⟩ | ⟨last, hfirst, h⟩
    · obtain ⟨front, behind, rfl, hfront⟩ := ih h
      refine ⟨c :: front, behind, rfl, ?_⟩
      rw [List.flatMap_cons, hfront, List.append_assoc]
    · cases last with
      | nil =>
        obtain ⟨front, behind, rfl, hfront⟩ := ih (u := []) h.symm
        refine ⟨c :: front, behind, rfl, ?_⟩
        rw [List.flatMap_cons, hfront, hfirst, List.append_nil, List.nil_append]
      | cons b' last =>
        obtain ⟨rfl, -⟩ := List.cons.inj h
        have hascii : c.toNat < 128 := by
          by_contra hge
          have hmem : b ∈ String.utf8EncodeChar c := by simp [hfirst]
          exact UInt8.not_lt.2 (le_of_mem_utf8EncodeChar (Nat.le_of_not_lt hge) hmem) hb
        rw [utf8EncodeChar_of_lt hascii, List.singleton_eq_append_iff] at hfirst
        simp only [List.cons_ne_nil, and_false, or_false, List.cons.injEq] at hfirst
        obtain ⟨rfl, rfl, rfl⟩ := hfirst
        refine ⟨[c], chars, rfl, ?_⟩
        rw [List.flatMap_singleton, utf8EncodeChar_of_lt hascii, List.nil_append]

/-- Bytes at the front of a text that end with an ASCII byte are a text themselves, and so is what
is left. -/
theorem exists_texts (h : bytesOf text = w ++ rest) (hw : EndsPlain w) :
    ∃ front behind, text = front ++ behind ∧ bytesOf front = w ∧ bytesOf behind = rest := by
  obtain ⟨front, behind, rfl, hfront⟩ :
      ∃ front behind, text = front ++ behind ∧ bytesOf front = w := by
    rcases List.eq_nil_or_concat w with rfl | ⟨u, b, rfl⟩
    · exact ⟨"", text, by rw [String.empty_append], bytesOf_eq_nil_iff.2 rfl⟩
    · rw [List.concat_eq_append] at h hw ⊢
      rw [List.append_assoc, List.singleton_append, bytesOf_eq_flatMap] at h
      obtain ⟨front, behind, hchars, hfront⟩ := exists_chars h (hw b (by simp))
      refine ⟨.ofList front, .ofList behind, ?_, by rw [bytesOf_ofList, hfront]⟩
      rw [← String.ofList_append, ← hchars, String.ofList_toList]
  rw [bytesOf_append, hfront, List.append_cancel_left_eq] at h
  exact ⟨front, behind, rfl, hfront, h⟩

namespace IsBoundary

theorem zero (source : String) : IsBoundary source 0 :=
  ⟨"", source, by rw [String.empty_append], by rw [bytesOf_eq_nil_iff.2 rfl, List.length_nil]⟩

theorem exists_behind (h : IsBoundary source n) : ∃ front behind, source = front ++ behind ∧
    (bytesOf front).length = n ∧ (bytesOf source).drop n = bytesOf behind := by
  obtain ⟨front, behind, rfl, rfl⟩ := h
  exact ⟨front, behind, rfl, rfl, by rw [bytesOf_append, List.drop_left]⟩

/-- From a boundary on, bytes that are all that is left or end with an ASCII byte are a text. -/
theorem exists_spans (h : IsBoundary source n) (hrest : rest = (bytesOf source).drop n)
    {length : Nat} (hlength : length = rest.length ∨ EndsPlain (rest.take length)) :
    ∃ text, bytesOf text = rest.take length ∧
      Spans source text n (n + (rest.take length).length) := by
  obtain ⟨front, behind, rfl, rfl, hbehind⟩ := h.exists_behind
  rw [hbehind] at hrest
  obtain ⟨text, rest', rfl, htext⟩ : ∃ text rest', behind = text ++ rest' ∧
      bytesOf text = rest.take length := by
    rcases hlength with rfl | hplain
    · exact ⟨behind, "", by rw [String.append_empty], by rw [List.take_length, hrest]⟩
    · have hparts : bytesOf behind = rest.take length ++ rest.drop length := by
        rw [List.take_append_drop, hrest]
      obtain ⟨text, rest', hsplit, htext, -⟩ := exists_texts hparts hplain
      exact ⟨text, rest', hsplit, htext⟩
  refine ⟨text, htext, front, rest', by rw [String.append_assoc], rfl, ?_⟩
  rw [bytesOf_append, List.length_append, htext]

/-- The byte at a boundary is the first one of a character. -/
theorem head (h : IsBoundary source n) (hb : (bytesOf source)[n]? = some b) :
    b < 128 ∨ 192 ≤ b := by
  obtain ⟨front, behind, -, -, hbehind⟩ := h.exists_behind
  rw [← List.head?_drop, hbehind, bytesOf_eq_flatMap] at hb
  cases hchars : behind.toList with
  | nil => simp [hchars] at hb
  | cons c chars =>
    obtain ⟨first, others, hfirst⟩ :=
      List.exists_cons_of_ne_nil (String.utf8EncodeChar_ne_nil (c := c))
    rw [hchars, List.flatMap_cons, hfirst, List.cons_append, List.head?_cons] at hb
    exact head_utf8EncodeChar (c := c) (by rw [hfirst, List.head?_cons, hb])

end IsBoundary

/-! ## Tokenizers -/

/-- What is found of some bytes ends with an occurrence of them. -/
theorem take_findBytes {wanted : Bytes} {i : Nat} (h : findBytes wanted rest = some i) :
    rest.take (i + wanted.length) = rest.take i ++ wanted := by
  rw [List.take_add, ← List.prefix_iff_eq_take.1 (findBytes_first h).here]

namespace Tokenizer

/-- A block comment reaches to the end of the source or ends with its end delimiter. -/
theorem blockLength_ends (hclosing : closing ≠ []) (hplain : EndsPlain closing) :
    blockLength opening closing rest = rest.length ∨
      EndsPlain (rest.take (blockLength opening closing rest)) := by
  unfold blockLength
  split
  · rename_i i hi
    refine Or.inr ?_
    rw [Nat.add_assoc, List.take_add, take_findBytes hi, ← List.append_assoc, EndsPlain,
      List.getLast?_append_of_ne_nil _ hclosing]
    exact hplain
  · exact Or.inl rfl

variable {t : Tokenizer} {c : Cursor} {length : Nat} {symbol : Symbol} {token : Token}

theorem commentLength_ends (hline : ∀ d, t.lineComment = some d → 10 ∉ d.bytes)
    (hblock : ∀ d closing, t.blockComment = some (d, closing) → closing ≠ [] ∧ EndsPlain closing)
    (h : t.commentLength rest = some length) :
    length = rest.length ∨ EndsPlain (rest.take length) := by
  obtain ⟨d, closing, hopens⟩ := commentLength_isSome_iff.1 (Option.isSome_of_eq_some h)
  have hlength := commentLength_of_opens hopens fun line hl _ => hline line hl
  rw [h, Option.some.injEq] at hlength
  subst hlength
  cases hopens with
  | line _ _ => exact blockLength_ends (List.cons_ne_nil 10 []) (by simp [EndsPlain])
  | block _ hd _ =>
    obtain ⟨hne, hplain⟩ := hblock d closing hd
    exact blockLength_ends hne hplain

/-- All matches end with ASCII bytes, and so do all comments that something follows. -/
structure CutsPlainly (t : Tokenizer) : Prop where
  matches_end : ∀ rest length symbol, t.matchAt rest = some (length, symbol) →
    EndsPlain (rest.take length)
  comments_end : ∀ rest length, t.commentLength rest = some length →
    length = rest.length ∨ EndsPlain (rest.take length)

namespace CutsPlainly

variable (k : t.CutsPlainly)

include k

theorem match_spans (hc : IsBoundary source c.pos)
    (h : t.matchAt ((bytesOf source).drop c.pos) = some (length, symbol)) :
    ∃ text, bytesOf text = ((bytesOf source).drop c.pos).take length ∧
      Spans source text c.pos (t.nextToken (bytesOf source) c).2.pos := by
  have hspans := hc.exists_spans rfl (Or.inr (k.matches_end _ _ _ h))
  rwa [nextToken_of_match h, Cursor.pos_advance]

/-- Calls lead from boundary to boundary. -/
theorem call_boundary (hc : IsBoundary source c.pos) (call : Call) :
    IsBoundary source (t.call (bytesOf source) c call).pos := by
  cases call with
  | token =>
    rw [Tokenizer.call]
    cases hmatch : t.matchAt ((bytesOf source).drop c.pos) with
    | none => rwa [nextToken_of_stuck hmatch]
    | some found =>
      obtain ⟨text, -, hspans⟩ := k.match_spans hc hmatch
      exact hspans.boundary.2
  | comment =>
    rw [Tokenizer.call, skipComment?]
    cases hcomment : t.commentLength ((bytesOf source).drop c.pos) with
    | none => exact hc
    | some length =>
      obtain ⟨text, -, hspans⟩ := hc.exists_spans rfl (k.comments_end _ _ hcomment)
      rw [Option.map_some, Option.getD_some, Cursor.pos_advance]
      exact hspans.boundary.2

theorem reaches_boundary (h : t.Reaches (bytesOf source) c) : IsBoundary source c.pos := by
  obtain ⟨calls, rfl⟩ := h
  have hrun : ∀ c : Cursor, IsBoundary source c.pos →
      IsBoundary source (calls.foldl (t.call (bytesOf source)) c).pos := by
    induction calls with
    | nil => exact fun c hc => hc
    | cons call calls ih => exact fun c hc => ih _ (k.call_boundary hc call)
  exact hrun t.cursor (.zero source)

/-- A token that is not a newline is what stands at the cursor. -/
theorem token_spans (hc : IsBoundary source c.pos)
    (h : t.report (bytesOf source) c = .ok token) (hlt : c.pos < (bytesOf source).length)
    (hnewline : (token.symbol == t.newline) = false) :
    Spans source token.text c.pos (t.nextToken (bytesOf source) c).2.pos := by
  cases hmatch : t.matchAt ((bytesOf source).drop c.pos) with
  | none =>
    rw [report_of_stuck hmatch hlt] at h
    cases h
  | some found =>
    obtain ⟨length, symbol⟩ := found
    obtain ⟨text, htext, hspans⟩ := k.match_spans hc hmatch
    obtain rfl := report_ok h
    have hfront := congrArg (·.1) (nextToken_of_match hmatch)
    simp only at hfront
    rw [hfront] at hnewline ⊢
    rwa [tokenText, hnewline, if_neg Bool.false_ne_true, ← htext, Utf8.decode_bytesOf]

end CutsPlainly

end Tokenizer

/-! ## Scans -/

namespace Scan

open Tokenizer

variable {t : Tokenizer} {source : Bytes} {s next : Scan} {token : Token} {n : Nat}

theorem Follows.after (h : Follows t source s) (n : Nat) : Follows t source (s.after t n) := by
  induction n generalizing s with
  | zero => exact h
  | succ n ih => exact ih (next_follows h).1

/-- No token is put out that is to be ignored. -/
theorem isIgnored_of_emit (h : step t s = .emit token next) :
    t.isIgnored token.symbol = false := by
  obtain ⟨-, _, -, hkept, -⟩ := step_eq_emit h
  exact (Bool.or_eq_false_iff.1 hkept).1

theorem isIgnored_of_next (h : (s.next t).1 = some (.ok token)) :
    t.isIgnored token.symbol = false := by
  fun_induction next t s with
  | case1 s hfinished => cases h
  | case2 s hrunning hstep => cases h
  | case3 s hrunning fault position hstep => cases h
  | case4 s hrunning next hstep ih => exact ih h
  | case5 s hrunning token' next hstep =>
    cases h
    exact isIgnored_of_emit hstep

theorem isIgnored_of_item (h : s.item t n = some (.ok token)) :
    t.isIgnored token.symbol = false := by
  induction n generalizing s with
  | zero => exact isIgnored_of_next h
  | succ n ih => exact ih h

end Scan

namespace Tokenizer

variable {t : Tokenizer} {source : Bytes} {token : Token}

/-- The tokens of a source: those that a scan reports, and those that lexing gives. -/
def Gives (t : Tokenizer) (source : Bytes) (token : Token) : Prop :=
  (∃ n, (t.scan source).item t n = some (.ok token)) ∨
    ∃ tokens, t.analyze source = .ok tokens ∧ token ∈ tokens

/-- Lexing gives what a scan reports. -/
theorem Gives.exists_item (h : t.Gives source token) :
    ∃ n, (t.scan source).item t n = some (.ok token) := by
  rcases h with hitem | ⟨tokens, hanalyze, hmem⟩
  · exact hitem
  · obtain ⟨tokens', fault?, -, hcollect, hitem⟩ :=
      Scan.exists_reports (t := t) (s := t.scan source) rfl
    cases fault? with
    | some fault =>
      cases hanalyze.symm.trans hcollect
    | none =>
      obtain rfl := Except.ok.inj (hanalyze.symm.trans hcollect)
      obtain ⟨n, hn⟩ := List.getElem?_of_mem hmem
      exact ⟨n, by simp [hitem, hn]⟩

end Tokenizer

/-! ## The small language -/

namespace CLike

variable {t : Tokenizer}

theorem settings (h : tokenizer = .ok t) :
    t.ignored = [.space, .lineFeed] ∧ t.newline = .lineFeed ∧
      t.lineComment = Delimiter.ofString? "//" ∧
      t.blockComment = (Delimiter.ofString? "/*").map (·, bytesOf "*/") := by
  obtain ⟨_, -, rfl⟩ := eq_ok_of_map h
  exact ⟨rfl, rfl, rfl, rfl⟩

theorem symbols_ne_error : ∀ p ∈ patterns, p.2.id ≠ Symbol.error.id := by
  decide +kernel

/-- The last byte of a match is an ASCII byte, whatever bytes a string or a character behind a
backslash may hold. -/
theorem textLast_plain : ∀ p ∈ patterns,
    Pattern.textLast p.1 ∪ .range 0 127 = .range 0 127 := by
  decide +kernel

theorem cutsPlainly (h : tokenizer = .ok t) : t.CutsPlainly where
  matches_end rest length symbol hmatch b hb := by
    have hlongest := (recognizes h).isLongest rest
    rw [hmatch] at hlongest
    obtain ⟨p, hp, htext, -⟩ := Tokenizer.exists_of_firstSymbol hlongest.2.2.1
    obtain ⟨u, hu⟩ := List.getLast?_eq_some_iff.1 hb
    rw [hu] at htext
    have hlast := ByteSet.mem_of_union_eq (textLast_plain p hp) (Pattern.mem_textLast htext)
    exact UInt8.lt_of_le_of_lt (ByteSet.mem_range.1 hlast).2 (by decide)
  comments_end rest length hcomment := by
    obtain ⟨-, -, hline, hblock⟩ := settings h
    have hslashes : (Delimiter.ofString? "//").map (·.bytes) = some [47, 47] := by decide +kernel
    have hclosing : bytesOf "*/" = [42, 47] := by decide +kernel
    refine Tokenizer.commentLength_ends (fun d hd => ?_) (fun d closing hd => ?_) hcomment
    · rw [← hline, hd, Option.map_some, Option.some.injEq] at hslashes
      simp [hslashes]
    · rw [hblock, Option.map_eq_some_iff] at hd
      obtain ⟨_, -, hd⟩ := hd
      obtain rfl : bytesOf "*/" = closing := (Prod.mk.inj hd).2
      simp [hclosing, EndsPlain]

/-- The tokenizer cuts no character, whatever text is lexed. However its calls are mixed, they lead
from boundary to boundary, and so does a scan. Each token is what stands in the source from its
position to the cursor behind it, and it is no space and no line feed. Each fault is reported of a
boundary, with the first byte of the character there. -/
theorem no_character_cut : ∃ t, tokenizer = .ok t ∧ ∀ source : String,
    (∀ calls, IsBoundary source (t.cursorAfter (bytesOf source) calls).pos) ∧
    (∀ n, IsBoundary source ((t.scan (bytesOf source)).after t n).cursor.pos) ∧
    (∀ token, t.Gives (bytesOf source) token → ∃ c, t.Reaches (bytesOf source) c ∧
      (t.nextToken (bytesOf source) c).1 = token ∧
      Spans source token.text c.pos (t.nextToken (bytesOf source) c).2.pos ∧
      IsPosition t.firstRow (bytesOf source) c.pos token.row token.column ∧
      token.symbol.id ≠ Symbol.space.id ∧ token.symbol.id ≠ Symbol.lineFeed.id) ∧
    ∀ fault, t.Faults (bytesOf source) fault → ∃ e : LexError, fault = .unexpected e ∧
      IsBoundary source e.offset ∧ (bytesOf source)[e.offset]? = some e.byte ∧
      IsPosition t.firstRow (bytesOf source) e.offset e.row e.column ∧
      ¬ (128 ≤ e.byte ∧ e.byte < 192) := by
  obtain ⟨t, h⟩ := exists_tokenizer
  have k := cutsPlainly h
  obtain ⟨hignored, hnewline, -⟩ := settings h
  refine ⟨t, h, fun source => ⟨fun calls => k.reaches_boundary ⟨calls, rfl⟩,
    fun n => k.reaches_boundary ((Scan.Follows.start t _).after n).reaches,
    fun token hgives => ?_, fun fault hfault => ?_⟩⟩
  · obtain ⟨n, hitem⟩ := hgives.exists_item
    obtain ⟨c, hreaches, hlooks, hreport⟩ := Scan.item_reports (.start t _) hitem
    have hsymbol := Scan.isIgnored_of_item hitem
    simp only [Tokenizer.isIgnored, hignored, List.contains_cons, List.contains_nil,
      Bool.or_false, Bool.or_eq_false_iff] at hsymbol
    obtain ⟨hspace, hlineFeed⟩ := hsymbol
    have hspans := k.token_spans (k.reaches_boundary hreaches) hreport.symm hlooks.inside
      (hnewline ▸ hlineFeed)
    obtain rfl := Tokenizer.report_ok hreport.symm
    obtain ⟨hrow, hcolumn⟩ := Tokenizer.nextToken_position t (bytesOf source) c
    refine ⟨c, hreaches, rfl, hspans, ?_, Symbol.beq_eq_false_iff.1 hspace,
      Symbol.beq_eq_false_iff.1 hlineFeed⟩
    rw [hrow, hcolumn]
    exact hreaches.locates.isPosition
  · obtain ⟨c, hreaches, hlooks, hreport⟩ := hfault.place
    obtain ⟨-, rfl⟩ := Tokenizer.fault_of_no_error_match hreport hlooks.inside fun _ _ hmatch => by
      obtain ⟨_, p, -, hp, rfl⟩ := (recognizes h).exists_longest hmatch
      exact Symbol.beq_eq_false_iff.2 (symbols_ne_error p (List.mem_of_getElem? hp))
    have hbyte := List.getElem?_eq_getElem hlooks.inside
    refine ⟨_, rfl, k.reaches_boundary hreaches, hbyte, hreaches.locates.isPosition, ?_⟩
    rintro ⟨hge, hlt⟩
    rcases (k.reaches_boundary hreaches).head hbyte with hascii | hlead
    · exact UInt8.not_lt.2 hge hascii
    · exact UInt8.not_lt.2 hlead hlt

end CLike

end MaximalMunch
