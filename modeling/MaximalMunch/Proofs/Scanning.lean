import MaximalMunch.Proofs.BracketSets

/-! Scanning. The lexemes of a text are those that the grammar lets it be cut into. -/

namespace MaximalMunch.Grammar

variable {g : Glyph} {gs : List Glyph} {t u : Bytes} {signs : List Sign} {kind : Lexeme.Kind}
  {kinds : List Lexeme.Kind} {lexemes : List Lexeme} {n length : Nat} {ending : Ending}

/-- The text of a lexeme. -/
inductive LexemeText : Bytes → Lexeme.Kind → Prop
  | atom {t : Bytes} {s : ByteSet} (h : Atom t s.members) : LexemeText t (.atom s)
  | openGroup : LexemeText [40] .openGroup
  | closeGroup : LexemeText [41] .closeGroup
  | bar : LexemeText [124] .bar
  | quantifier (q : Quantifier) : LexemeText [mark q] (.quantifier q)

/-- A text that is cut into lexemes. -/
inductive Scans : Bytes → List Lexeme.Kind → Prop
  | nil : Scans [] []
  | cons {t u : Bytes} {kind : Lexeme.Kind} {kinds : List Lexeme.Kind} (h : LexemeText t kind)
    (h' : Scans u kinds) : Scans (t ++ u) (kind :: kinds)

/-- A byte without a meaning of its own is the lexeme of itself. -/
theorem ofGlyph_literal {b : UInt8} (h : b ∉ [40, 41, 91, 46, 92, 42, 43, 63, 124]) :
    Lexeme.ofGlyph (.raw b) = .atom (.singleton b) := by
  simp only [List.mem_cons, List.not_mem_nil, or_false, not_or] at h
  obtain ⟨h1, h2, _, h3, _, h4, h5, h6, h7⟩ := h
  rw [Lexeme.ofGlyph, if_neg h1, if_neg h2, if_neg h7, if_neg h4, if_neg h5, if_neg h6, if_neg h3]

/-- A glyph that does not open a set is the lexeme it is read as. -/
theorem lexemeText_of_spelled (h : Spelled [g] t) (hopen : g ≠ .raw 91) :
    LexemeText t (Lexeme.ofGlyph g) := by
  cases h with
  | escape hg h =>
    cases h
    cases ofEscape_sound hg with
    | named hc hs => exact .atom (.named (hs ▸ hc))
    | quoted hc => exact .atom (ByteSet.members_singleton ▸ .escaped hc)
  | @raw _ _ b hb h =>
    cases h
    by_cases hmark : b ∈ [40, 41, 91, 46, 92, 42, 43, 63, 124]
    · simp only [List.mem_cons, List.not_mem_nil, or_false] at hmark
      rcases hmark with rfl | rfl | rfl | rfl | rfl | rfl | rfl | rfl | rfl
      · exact .openGroup
      · exact .closeGroup
      · exact absurd rfl hopen
      · exact .atom (ByteSet.members_full ▸ .dot)
      · exact absurd rfl hb
      · exact .quantifier .star
      · exact .quantifier .plus
      · exact .quantifier .optional
      · exact .bar
    · rw [ofGlyph_literal hmark]
      exact .atom (ByteSet.members_singleton ▸ .literal b hmark)

/-- Lexemes are read to the end only if the signs were. -/
theorem ending_of_readLexemes (h : Lexeme.readAll ending signs = (lexemes, .ok length)) :
    ending = .complete length := by
  fun_induction Lexeme.readAll ending signs generalizing lexemes with
  | case1 =>
    simp only [Prod.mk.injEq] at h
    obtain ⟨_, hending⟩ := h
    cases ending with
    | complete n =>
      cases hending
      rfl
    | loneBackslash n => cases hending
    | unknownEscape offset byte => cases hending
  | case2 x rest hopen e he => cases h
  | case3 x rest hopen bytes rest' hset lexemes' verdict hread ih =>
    cases h
    exact ih hread
  | case4 x rest hopen lexemes' verdict hread ih =>
    cases h
    exact ih hread

/-- The signs of a set that is read are written as an atom. -/
theorem readSet_text {x : Sign} {openAt : Nat} {rest : List Sign} {members : ByteSet}
    (hopen : x.glyph = .raw 91) (h : Lexeme.readSet ending openAt signs = .ok (members, rest)) :
    ∃ front, signs = front ++ rest ∧
      ∀ t, Spelled ((x :: front).map (·.glyph)) t → LexemeText t (.atom members) := by
  obtain ⟨front, rfl⟩ := readSet_suffix h
  obtain ⟨gs, hgs, hbracketed⟩ := readSet_sound h
  rw [List.map_append, ← List.singleton_append, ← List.append_assoc, List.append_cancel_right_eq]
    at hgs
  refine ⟨front, rfl, fun t ht => ?_⟩
  rw [List.map_cons, hopen, hgs] at ht
  obtain ⟨before, w, rfl, hbefore, hw⟩ := ht.split_cons
  obtain ⟨body, behind, rfl, hbody, hbehind⟩ := hw.split
  obtain rfl : before = [91] := hbefore.singleton_iff.2 ⟨by decide, rfl⟩
  obtain rfl : behind = [93] := hbehind.singleton_iff.2 ⟨by decide, rfl⟩
  exact .atom (.bracketed (hbracketed body hbody))

/-- A text whose lexemes are read is cut into them. -/
theorem readLexemes_sound (h : Lexeme.readAll ending signs = (lexemes, .ok length))
    (ht : Spelled (signs.map (·.glyph)) t) : Scans t (lexemes.map (·.kind)) := by
  fun_induction Lexeme.readAll ending signs generalizing lexemes t with
  | case1 =>
    cases ht
    cases (Prod.mk.inj h).1
    exact .nil
  | case2 x rest hopen e he => cases h
  | case3 x rest hopen bytes rest' hset lexemes' verdict hread ih =>
    cases h
    obtain ⟨front, rfl, htext⟩ := readSet_text (isRaw_iff.1 hopen) hset
    rw [← List.cons_append, List.map_append] at ht
    obtain ⟨u, v, rfl, hu, hv⟩ := ht.split
    exact .cons (htext u hu) (ih hread hv)
  | case4 x rest hopen lexemes' verdict hread ih =>
    cases h
    obtain ⟨u, v, rfl, hu, hv⟩ := ht.split_cons
    exact .cons (lexemeText_of_spelled hu (mt isRaw_iff.2 hopen)) (ih hread hv)

theorem readAll_glyph {x : Sign} (hopen : x.glyph ≠ .raw 91) :
    Lexeme.readAll ending (x :: signs) = (⟨x.offset, Lexeme.ofGlyph x.glyph⟩ ::
      (Lexeme.readAll ending signs).1, (Lexeme.readAll ending signs).2) := by
  rw [Lexeme.readAll, if_neg (mt isRaw_iff.1 hopen)]

theorem readAll_set {x : Sign} {rest : List Sign} {bytes : ByteSet} (hopen : x.glyph = .raw 91)
    (hset : Lexeme.readSet ending x.offset signs = .ok (bytes, rest)) :
    Lexeme.readAll ending (x :: signs) = (⟨x.offset, .atom bytes⟩ ::
      (Lexeme.readAll ending rest).1, (Lexeme.readAll ending rest).2) := by
  rw [Lexeme.readAll, if_pos (isRaw_iff.2 hopen)]
  split
  · rename_i e he
    rw [hset] at he
    cases he
  · rename_i bytes' rest' he
    rw [hset] at he
    cases he
    rfl

theorem readAll_fault {x : Sign} {e : SyntaxError} (hopen : x.glyph = .raw 91)
    (hset : Lexeme.readSet ending x.offset signs = .error e) :
    Lexeme.readAll ending (x :: signs) = ([], .error e) := by
  rw [Lexeme.readAll, if_pos (isRaw_iff.2 hopen)]
  split
  · rename_i e' he
    rw [hset] at he
    cases he
    rfl
  · rename_i bytes rest he
    rw [hset] at he
    cases he

/-- Glyphs that are read as one lexeme, whatever follows them. -/
def ReadAs (gs : List Glyph) (kind : Lexeme.Kind) : Prop :=
  ∀ (ending : Ending) (signs rest : List Sign), signs.map (·.glyph) = gs →
    ∃ x : Lexeme, x.kind = kind ∧ Lexeme.readAll ending (signs ++ rest) =
      (x :: (Lexeme.readAll ending rest).1, (Lexeme.readAll ending rest).2)

theorem readAs_glyph (hopen : g ≠ .raw 91) : ReadAs [g] (Lexeme.ofGlyph g) := by
  intro ending signs rest hsigns
  obtain ⟨x, rfl, rfl⟩ := List.map_eq_singleton_iff.1 hsigns
  exact ⟨_, rfl, readAll_glyph hopen⟩

theorem Atom.spelled {s : ByteSet} (h : Atom t s.members) :
    ∃ gs, Spelled gs t ∧ ReadAs gs (.atom s) := by
  generalize hs : s.members = members at h
  cases h with
  | dot =>
    obtain rfl : s = .full := ByteSet.members_injective (hs.trans ByteSet.members_full.symm)
    exact ⟨[.raw 46], .raw (by decide) .nil, readAs_glyph (by decide)⟩
  | bracketed h =>
    obtain ⟨gs, t, rfl, hgs, hset⟩ := h.spelled
    have hspelled : Spelled (.raw 91 :: gs ++ [.raw 93]) (91 :: t ++ [93]) :=
      .append (.raw (by decide) hgs) (.raw (by decide) .nil)
    refine ⟨_, hspelled, fun ending signs rest hsigns => ?_⟩
    obtain ⟨front, back, rfl, hfront, hback⟩ := List.map_eq_append_iff.1 hsigns
    obtain ⟨x, front, rfl, hx, hfront⟩ := List.map_eq_cons_iff.1 hfront
    obtain ⟨close, rfl, hclose⟩ := List.map_eq_singleton_iff.1 hback
    obtain ⟨bytes, hread, hbytes⟩ := hset ending x.offset _ rest close hfront hclose
    obtain rfl : bytes = s := ByteSet.members_injective (hbytes.trans hs.symm)
    refine ⟨⟨x.offset, .atom bytes⟩, rfl, ?_⟩
    rw [List.append_assoc, List.cons_append, List.singleton_append]
    exact readAll_set hx hread
  | named hc =>
    obtain ⟨bytes, hescape, hbytes⟩ := ofEscape_named hc
    obtain rfl : bytes = s := ByteSet.members_injective (hbytes.trans hs.symm)
    exact ⟨[.named bytes], .escape hescape .nil, readAs_glyph (by simp)⟩
  | @escaped c b hc =>
    obtain rfl : s = .singleton b :=
      ByteSet.members_injective (hs.trans ByteSet.members_singleton.symm)
    exact ⟨[.quoted b], .escape (ofEscape_quoted hc) .nil, readAs_glyph (by simp)⟩
  | literal b hb =>
    obtain rfl : s = .singleton b :=
      ByteSet.members_injective (hs.trans ByteSet.members_singleton.symm)
    have hne : b ≠ 92 ∧ b ≠ 91 := ⟨fun h => hb (by simp [h]), fun h => hb (by simp [h])⟩
    rw [← ofGlyph_literal hb]
    exact ⟨[.raw b], .raw hne.1 .nil, readAs_glyph (by simpa using hne.2)⟩

theorem LexemeText.spelled (h : LexemeText t kind) : ∃ gs, Spelled gs t ∧ ReadAs gs kind := by
  cases h with
  | atom h => exact h.spelled
  | openGroup => exact ⟨[.raw 40], .raw (by decide) .nil, readAs_glyph (by decide)⟩
  | closeGroup => exact ⟨[.raw 41], .raw (by decide) .nil, readAs_glyph (by decide)⟩
  | bar => exact ⟨[.raw 124], .raw (by decide) .nil, readAs_glyph (by decide)⟩
  | quantifier q =>
    cases q with
    | star => exact ⟨[.raw 42], .raw (by decide) .nil, readAs_glyph (by decide)⟩
    | plus => exact ⟨[.raw 43], .raw (by decide) .nil, readAs_glyph (by decide)⟩
    | optional => exact ⟨[.raw 63], .raw (by decide) .nil, readAs_glyph (by decide)⟩

theorem Scans.append {kinds' : List Lexeme.Kind} (h : Scans t kinds) (h' : Scans u kinds') :
    Scans (t ++ u) (kinds ++ kinds') := by
  induction h with
  | nil => exact h'
  | cons h _ ih =>
    rw [List.append_assoc]
    exact .cons h ih

/-- The lexemes that a text is cut into are read. -/
theorem readLexemes_complete (h : Scans t kinds) : ∃ gs, Spelled gs t ∧
    ∀ (n : Nat) (signs : List Sign), signs.map (·.glyph) = gs → ∃ lexemes,
      Lexeme.readAll (.complete n) signs = (lexemes, .ok n) ∧ lexemes.map (·.kind) = kinds := by
  induction h with
  | nil =>
    refine ⟨[], .nil, fun n signs hsigns => ?_⟩
    obtain rfl := List.map_eq_nil_iff.1 hsigns
    exact ⟨[], by rw [Lexeme.readAll]; rfl, rfl⟩
  | cons h _ ih =>
    obtain ⟨gs, hgs, hread⟩ := h.spelled
    obtain ⟨gs', hgs', hrest⟩ := ih
    refine ⟨gs ++ gs', hgs.append hgs', fun n signs hsigns => ?_⟩
    obtain ⟨front, back, rfl, hfront, hback⟩ := List.map_eq_append_iff.1 hsigns
    obtain ⟨x, rfl, hx⟩ := hread (.complete n) front back hfront
    obtain ⟨lexemes, hlexemes, rfl⟩ := hrest n back hback
    exact ⟨x :: lexemes, by rw [hx, hlexemes], rfl⟩

end MaximalMunch.Grammar
