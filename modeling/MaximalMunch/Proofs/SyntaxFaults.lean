import MaximalMunch.Proofs.Parsing

/-! Where syntax errors point. Signs and lexemes carry the offsets they are written at, so each
fault names the place in the text that it is about. -/

namespace MaximalMunch

open Grammar

/-- What the text of a pattern has at the offset of a fault. -/
def SyntaxError.PointsAt (text : Bytes) : SyntaxError → Prop
  | emptyPattern => text = []
  | unexpectedEnd o => o = text.length
  | unmatchedOpenParen o => text[o]? = some 40
  | unmatchedCloseParen o => text[o]? = some 41
  | unterminatedSet o | emptySet o => text[o]? = some 91
  | danglingRange o => text[o]? = some 45
  | invalidRange o lo hi =>
    hi ≤ lo ∧ ∃ t u, SetByte t lo ∧ SetByte u hi ∧ t ++ 45 :: u <+: text.drop o
  | unknownEscape o b =>
    [92, b] <+: text.drop o ∧ (∀ s, ¬ ClassLetter b s) ∧ ∀ c, ¬ EscapedByte b c
  | nothingToRepeat o => ∃ b ∈ ([42, 43, 63, 124, 41] : Bytes), text[o]? = some b

namespace Grammar

variable {text t : Bytes} {b : UInt8} {x : Sign} {signs front back rest : List Sign}
  {ending : Ending} {e unclosed : SyntaxError} {lexemes : List Lexeme}
  {verdict : Except SyntaxError Nat} {members : ByteSet} {any : Bool} {o : Nat}

/-! ## Signs -/

theorem getElem?_of_begins (h : b :: t <+: text.drop o) : text[o]? = some b := by
  obtain ⟨u, hu⟩ := h
  rw [← List.head?_drop, ← hu]
  rfl

theorem readSigns_cons {offset : Nat} (h : Sign.readAll offset t = (x :: signs, ending)) :
    x.offset = offset ∧ ∃ u v, t = u ++ v ∧ Spelled [x.glyph] u ∧
      Sign.readAll (offset + u.length) v = (signs, ending) := by
  fun_cases Sign.readAll offset t with
  | case1 => cases h
  | case2 => cases h
  | case3 c rest hc =>
    rw [readSigns_unknown hc] at h
    cases h
  | case4 c rest g hg tail ending' hread =>
    rw [readSigns_escape hg hread] at h
    cases h
    exact ⟨rfl, [92, c], rest, rfl, .escape hg .nil, hread⟩
  | case5 b rest hb tail ending' hread =>
    rw [readSigns_raw hb hread] at h
    cases h
    exact ⟨rfl, [b], rest, rfl, .raw hb .nil, hread⟩

/-- Signs that are read one after the other are written one after the other. -/
theorem readSigns_split {offset : Nat} (h : Sign.readAll offset t = (front ++ back, ending)) :
    ∃ u v, t = u ++ v ∧ Spelled (front.map (·.glyph)) u ∧
      Sign.readAll (offset + u.length) v = (back, ending) := by
  induction front generalizing offset t with
  | nil => exact ⟨[], t, rfl, .nil, h⟩
  | cons x front ih =>
    obtain ⟨-, u, v, rfl, hx, hread⟩ := readSigns_cons h
    obtain ⟨u', v, rfl, hfront, hread⟩ := ih hread
    refine ⟨u ++ u', v, (List.append_assoc u u' v).symm, hx.append hfront, ?_⟩
    rwa [List.length_append, ← Nat.add_assoc]

/-- What is left to be read of a text: its signs from some offset on, and how it ends. -/
def Remains (text : Bytes) (signs : List Sign) (ending : Ending) : Prop :=
  ∃ offset ≤ text.length, Sign.readAll offset (text.drop offset) = (signs, ending)

/-- What the end of the signs says about the text. -/
def EndsSigns (text : Bytes) : Ending → Prop
  | .complete n | .loneBackslash n => n = text.length
  | .unknownEscape o b => (SyntaxError.unknownEscape o b).PointsAt text

namespace Remains

/-- The signs in front are written where the first one says, and the others remain. -/
theorem split (h : Remains text (x :: front ++ back) ending) :
    (∃ u, Spelled ((x :: front).map (·.glyph)) u ∧ u <+: text.drop x.offset) ∧
      Remains text back ending := by
  obtain ⟨offset, hle, hread⟩ := h
  obtain ⟨rfl, -⟩ := readSigns_cons hread
  obtain ⟨u, v, hdrop, hu, hread⟩ := readSigns_split hread
  have hlength := congrArg List.length hdrop
  rw [List.length_drop, List.length_append] at hlength
  refine ⟨⟨u, hu, v, hdrop.symm⟩, x.offset + u.length, by omega, ?_⟩
  rwa [← List.drop_drop, hdrop, List.drop_left]

theorem tail (h : Remains text (x :: signs) ending) : Remains text signs ending :=
  (split (show Remains text ([x] ++ signs) ending from h)).2

theorem suffix (h : Remains text signs ending) (hs : rest <:+ signs) :
    Remains text rest ending := by
  obtain ⟨front, rfl⟩ := hs
  cases front with
  | nil => exact h
  | cons x front => exact h.split.2

theorem head (h : Remains text (x :: signs) ending) :
    ∃ u, Spelled [x.glyph] u ∧ u <+: text.drop x.offset :=
  (split (show Remains text ([x] ++ signs) ending from h)).1

theorem raw (h : Remains text (x :: signs) ending) (hx : x.glyph = .raw b) :
    text[x.offset]? = some b := by
  obtain ⟨u, hu, hbegins⟩ := h.head
  rw [hx] at hu
  cases hu with
  | raw _ _ => exact getElem?_of_begins hbegins
  | escape hg _ => exact absurd hg ofEscape_ne_raw

theorem endsSigns (h : Remains text signs ending) : EndsSigns text ending := by
  obtain ⟨offset, hle, hread⟩ := h.suffix (List.nil_suffix)
  generalize hrest : text.drop offset = rest at hread
  have hlength := congrArg List.length hrest
  rw [List.length_drop] at hlength
  fun_cases Sign.readAll offset rest with
  | case1 =>
    cases hread
    rw [List.length_nil] at hlength
    exact Nat.le_antisymm hle (Nat.le_of_sub_eq_zero hlength)
  | case2 =>
    cases hread
    rw [List.length_singleton] at hlength
    show offset + 1 = text.length
    omega
  | case3 c rest hc =>
    rw [readSigns_unknown hc] at hread
    cases hread
    refine ⟨⟨rest, hrest.symm⟩, fun s hs => ?_, fun b hb => ?_⟩
    · obtain ⟨_, hg, -⟩ := ofEscape_named hs
      rw [hc] at hg
      cases hg
    · rw [ofEscape_quoted hb] at hc
      cases hc
  | case4 c rest g hg tail ending' hrest' =>
    rw [readSigns_escape hg hrest'] at hread
    cases hread
  | case5 b rest hb tail ending' hrest' =>
    rw [readSigns_raw hb hrest'] at hread
    cases hread

end Remains

/-! ## Sets -/

/-- The fault of an improper end points at the bracket of the set, or at the bad escape. -/
theorem inSet_pointsAt (h : EndsSigns text ending) (hopen : text[o]? = some 91) :
    (ending.inSet o).PointsAt text := by
  cases ending with
  | complete n => exact hopen
  | loneBackslash n => exact hopen
  | unknownEscape offset byte => exact h

/-- A range that goes down is written where its lower bound is. -/
theorem invalidRange_pointsAt {y z : Sign} {lo hi : UInt8}
    (h : Remains text (x :: y :: z :: signs) ending) (hlo : x.glyph.byte? = some lo)
    (hy : y.glyph = .raw 45) (hhi : z.glyph.byte? = some hi) (hlt : ¬ lo < hi) :
    (SyntaxError.invalidRange x.offset lo hi).PointsAt text := by
  obtain ⟨⟨u, hu, hbegins⟩, -⟩ :=
    Remains.split (show Remains text (x :: [y, z] ++ signs) ending from h)
  obtain ⟨t, v, rfl, ht, hv⟩ := hu.split_cons
  obtain ⟨d, w, rfl, hd, hw⟩ := hv.split_cons
  obtain rfl : d = [45] := hd.singleton_iff.2 ⟨by decide, hy⟩
  exact ⟨UInt8.not_lt.1 hlt, t, w, setByte_of_spelled ht hlo, setByte_of_spelled hw hhi, hbegins⟩

theorem readElements_pointsAt (h : Lexeme.readElements unclosed members any signs = .error e)
    (hunclosed : unclosed.PointsAt text) (hr : Remains text signs ending) : e.PointsAt text := by
  fun_induction Lexeme.readElements unclosed members any signs with
  | case1 | case4 | case6 =>
    cases h
    exact hunclosed
  | case2 members any x rest hclose => cases h
  | case3 members any x rest hclose hdash =>
    cases h
    exact hr.raw (isRaw_iff.1 hdash)
  | case5 members any x hclose hdash y beyond hrange hl =>
    cases h
    exact hr.tail.raw (isRaw_iff.1 hrange)
  | case7 members any x hclose hdash y hrange l z beyond hl hstop =>
    cases h
    exact hr.tail.raw (isRaw_iff.1 hrange)
  | case8 members any x hclose hdash y hrange l z beyond hl hstop hk =>
    cases h
    exact hr.tail.raw (isRaw_iff.1 hrange)
  | case9 members any x hclose hdash y hrange l z beyond hl hstop k hk hlt ih =>
    exact ih h hr.tail.tail.tail
  | case10 members any x hclose hdash y hrange l z beyond hl hstop k hk hlt =>
    cases h
    exact invalidRange_pointsAt hr hl (isRaw_iff.1 hrange) hk hlt
  | case11 members any x hclose hdash y beyond hrange ih => exact ih h hr.tail

theorem readSet_pointsAt (h : Lexeme.readSet ending o signs = .error e)
    (hopen : text[o]? = some 91) (hr : Remains text signs ending) : e.PointsAt text := by
  rw [readSet_eq] at h
  split at h
  · rename_i e' hread
    cases h
    have hbody := (hr.suffix (after?_suffix 94 signs)).suffix (after?_suffix 45 _)
    exact readElements_pointsAt hread (inSet_pointsAt hr.endsSigns hopen) hbody
  · cases h
    exact hopen
  · cases h

/-! ## Lexemes -/

/-- A lexeme has its text where it says it begins. -/
def WrittenIn (text : Bytes) (x : Lexeme) : Prop :=
  ∃ t, LexemeText t x.kind ∧ t <+: text.drop x.offset

/-- What the end of the lexemes says about the text. -/
def EndsLexemes (text : Bytes) : Except SyntaxError Nat → Prop
  | .ok length => length = text.length
  | .error e => e.PointsAt text

theorem outside_ends (h : EndsSigns text ending) : EndsLexemes text ending.outside := by
  cases ending with
  | complete n => exact h
  | loneBackslash n => exact h
  | unknownEscape offset byte => exact h

/-- The lexemes that are read stand in the text, and the fault behind them is one of the text. -/
theorem readLexemes_written (h : Lexeme.readAll ending signs = (lexemes, verdict))
    (hr : Remains text signs ending) :
    (∀ x ∈ lexemes, WrittenIn text x) ∧ EndsLexemes text verdict := by
  fun_induction Lexeme.readAll ending signs generalizing lexemes with
  | case1 =>
    cases h
    exact ⟨by simp, outside_ends hr.endsSigns⟩
  | case2 x rest hopen e he =>
    cases h
    have hopen := hr.raw (isRaw_iff.1 hopen)
    exact ⟨by simp, readSet_pointsAt he hopen hr.tail⟩
  | case3 x rest hopen bytes rest' hset lexemes' verdict' hread ih =>
    cases h
    obtain ⟨front, rfl, htext⟩ := readSet_text (isRaw_iff.1 hopen) hset
    obtain ⟨⟨u, hu, hbegins⟩, hr⟩ := hr.split
    obtain ⟨hwritten, hends⟩ := ih hread hr
    exact ⟨List.forall_mem_cons.2 ⟨⟨u, htext u hu, hbegins⟩, hwritten⟩, hends⟩
  | case4 x rest hopen lexemes' verdict' hread ih =>
    cases h
    obtain ⟨u, hu, hbegins⟩ := hr.head
    obtain ⟨hwritten, hends⟩ := ih hread hr.tail
    have htext := lexemeText_of_spelled hu (mt isRaw_iff.2 hopen)
    exact ⟨List.forall_mem_cons.2 ⟨⟨u, htext, hbegins⟩, hwritten⟩, hends⟩

end Grammar

/-! ## Patterns -/

namespace Pattern

variable {text : Bytes} {s s' : Stack} {x : Lexeme} {xs : List Lexeme} {f : Failure}
  {verdict : Except SyntaxError Nat} {length : Nat}

namespace Stack

/-- All groups that are open have their parenthesis in the text. -/
def OpenedIn (text : Bytes) (s : Stack) : Prop := ∀ o ∈ s.outer, text[o.1]? = some 40

theorem shift_openedIn (h : s.OpenedIn text) (hx : WrittenIn text x) (hshift : s.shift x = .ok s') :
    s'.OpenedIn text := by
  obtain ⟨t, ht, hbegins⟩ := hx
  generalize hkind : x.kind = kind at ht
  cases ht with
  | atom _ =>
    rw [shift_atom hkind] at hshift
    cases hshift
    exact h
  | quantifier q =>
    obtain ⟨_, _, rfl⟩ := (shift_quantifier hkind).1 hshift
    exact h
  | openGroup =>
    rw [shift_openGroup hkind] at hshift
    cases hshift
    exact List.forall_mem_cons.2 ⟨getElem?_of_begins hbegins, h⟩
  | bar =>
    obtain ⟨_, _, rfl⟩ := (shift_bar hkind).1 hshift
    exact h
  | closeGroup =>
    obtain ⟨_, offset, l, outer, _, houter, rfl⟩ := (shift_closeGroup hkind).1 hshift
    intro o ho
    exact h o (houter ▸ List.mem_cons_of_mem _ ho)

/-- A lexeme that cannot be shifted is the fault. -/
theorem shift_pointsAt (hx : WrittenIn text x) (hshift : s.shift x = .error f) :
    f.error.PointsAt text := by
  obtain ⟨t, ht, hbegins⟩ := hx
  generalize hkind : x.kind = kind at ht
  cases ht with
  | atom _ =>
    rw [shift_atom hkind] at hshift
    cases hshift
  | openGroup =>
    rw [shift_openGroup hkind] at hshift
    cases hshift
  | quantifier q =>
    simp only [shift, hkind] at hshift
    split at hshift
    · cases hshift
      exact ⟨mark q, by cases q <;> decide, getElem?_of_begins hbegins⟩
    · cases hshift
  | bar =>
    simp only [shift, hkind] at hshift
    split at hshift
    · cases hshift
      exact ⟨124, by decide, getElem?_of_begins hbegins⟩
    · cases hshift
  | closeGroup =>
    have hclose := getElem?_of_begins hbegins
    simp only [shift, hkind] at hshift
    split at hshift
    · cases hshift
      exact hclose
    · cases hshift
      exact ⟨41, by decide, hclose⟩
    · cases hshift
      exact hclose
    · cases hshift

theorem finish_pointsAt (h : s.OpenedIn text) (hfinish : s.finish length = .error f)
    (hlength : length = text.length) : f.error.PointsAt text := by
  simp only [finish] at hfinish
  split at hfinish
  · cases hfinish
    exact hlength
  · cases hfinish
  · rename_i p openAt level outer _ houter
    cases hfinish
    exact h (openAt, level) (houter ▸ List.mem_cons_self)

theorem run_pointsAt (h : s.OpenedIn text) (hxs : ∀ x ∈ xs, WrittenIn text x)
    (hends : EndsLexemes text verdict) (hrun : s.run verdict xs = .error f) :
    f.error.PointsAt text := by
  induction xs generalizing s with
  | nil =>
    cases verdict with
    | error e =>
      cases hrun
      exact hends
    | ok length => exact finish_pointsAt h hrun hends
  | cons x xs ih =>
    obtain ⟨hx, hxs⟩ := List.forall_mem_cons.1 hxs
    cases hshift : s.shift x with
    | error f' =>
      rw [run, hshift] at hrun
      cases hrun
      exact shift_pointsAt hx hshift
    | ok s' =>
      rw [run, hshift] at hrun
      exact ih (shift_openedIn h hx hshift) hxs hrun

end Stack

/-- The fault of a pattern is found where it points. -/
theorem pointsAt_of_read (h : read text = .error f) : f.error.PointsAt text := by
  cases text with
  | nil =>
    cases h
    rfl
  | cons b t =>
    unfold read at h
    cases hsigns : Sign.readAll 0 (b :: t) with
    | mk signs ending =>
      cases hlexemes : Lexeme.readAll ending signs with
      | mk lexemes verdict =>
        simp only [hsigns, hlexemes] at h
        have hremains : Remains (b :: t) signs ending := ⟨0, Nat.zero_le _, hsigns⟩
        obtain ⟨hwritten, hends⟩ := readLexemes_written hlexemes hremains
        exact Stack.run_pointsAt (by simp [Stack.OpenedIn]) hwritten hends h

end Pattern

end MaximalMunch
