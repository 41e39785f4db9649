import MaximalMunch.Pattern.Sign
import MaximalMunch.Proofs.Grammar

/-! The spelling of glyphs. Signs read the raw bytes and the escapes of the grammar, and a text has
one reading. -/

namespace MaximalMunch.Grammar

/-! ## Glyphs -/

section Glyphs

variable {b c : UInt8} {g k : Glyph} {gs hs : List Glyph} {t u : Bytes} {s : Set UInt8}

theorem members_digits : Glyph.digits.members = between 48 57 :=
  Set.ext fun _ => ByteSet.mem_range

theorem members_blanks : Glyph.blanks.members = blanks := by
  ext b
  show b ∈ ByteSet.ofList _ ↔ _
  simp [blanks]

theorem members_wordBytes : Glyph.wordBytes.members = wordBytes := by
  ext b
  show b ∈ Glyph.wordBytes ↔ _
  simp only [Glyph.wordBytes, Glyph.digits, wordBytes, between, ByteSet.mem_union,
    ByteSet.mem_range, ByteSet.mem_singleton, Set.mem_union, Set.mem_ofPred_eq,
    Set.mem_singleton_iff]

/-- What the grammar makes of a byte behind a backslash, as a glyph. -/
inductive EscapeGlyph : UInt8 → Glyph → Prop
  | named {c : UInt8} {s : ByteSet} {r : Set UInt8} (h : ClassLetter c r) (hs : s.members = r) :
    EscapeGlyph c (.named s)
  | quoted {c b : UInt8} (h : EscapedByte c b) : EscapeGlyph c (.quoted b)

theorem some_of_ite {α : Type} {P : Prop} [Decidable P] {a x : α} {o : Option α}
    (h : (if P then some a else o) = some x) : (P ∧ a = x) ∨ o = some x := by
  by_cases hP : P
  · rw [if_pos hP] at h
    exact Or.inl ⟨hP, Option.some.inj h⟩
  · rw [if_neg hP] at h
    exact Or.inr h

/-- An escape that is read is one of the grammar. -/
theorem ofEscape_sound (h : Glyph.ofEscape c = some g) : EscapeGlyph c g := by
  rw [Glyph.ofEscape] at h
  rcases some_of_ite h with ⟨rfl, rfl⟩ | h
  · exact .named .digits members_digits
  rcases some_of_ite h with ⟨rfl, rfl⟩ | h
  · exact .named .nonDigits (by rw [ByteSet.members_complement, members_digits])
  rcases some_of_ite h with ⟨rfl, rfl⟩ | h
  · exact .named .blanks members_blanks
  rcases some_of_ite h with ⟨rfl, rfl⟩ | h
  · exact .named .nonBlanks (by rw [ByteSet.members_complement, members_blanks])
  rcases some_of_ite h with ⟨rfl, rfl⟩ | h
  · exact .named .word members_wordBytes
  rcases some_of_ite h with ⟨rfl, rfl⟩ | h
  · exact .named .nonWord (by rw [ByteSet.members_complement, members_wordBytes])
  rcases some_of_ite h with ⟨rfl, rfl⟩ | h
  · exact .quoted .lineFeed
  rcases some_of_ite h with ⟨rfl, rfl⟩ | h
  · exact .quoted .tab
  rcases some_of_ite h with ⟨rfl, rfl⟩ | h
  · exact .quoted .carriageReturn
  rcases some_of_ite h with ⟨rfl, rfl⟩ | h
  · exact .quoted .formFeed
  rcases some_of_ite h with ⟨rfl, rfl⟩ | h
  · exact .quoted .verticalTab
  rcases some_of_ite h with ⟨hc, rfl⟩ | h
  · exact .quoted (.special c (List.elem_iff.1 hc))
  · cases h

theorem ofEscape_named (h : ClassLetter c s) :
    ∃ bytes, Glyph.ofEscape c = some (.named bytes) ∧ bytes.members = s := by
  cases h with
  | digits => exact ⟨_, rfl, members_digits⟩
  | nonDigits => exact ⟨_, rfl, by rw [ByteSet.members_complement, members_digits]⟩
  | blanks => exact ⟨_, rfl, members_blanks⟩
  | nonBlanks => exact ⟨_, rfl, by rw [ByteSet.members_complement, members_blanks]⟩
  | word => exact ⟨_, rfl, members_wordBytes⟩
  | nonWord => exact ⟨_, rfl, by rw [ByteSet.members_complement, members_wordBytes]⟩

theorem ofEscape_quoted (h : EscapedByte c b) : Glyph.ofEscape c = some (.quoted b) := by
  cases h with
  | special b hb =>
    have hall : ∀ b ∈ Glyph.special, Glyph.ofEscape b = some (.quoted b) := by
      decide +kernel
    exact hall _ hb
  | _ => rfl

/-- Glyphs and the text they are written as. -/
inductive Spelled : List Glyph → Bytes → Prop
  | nil : Spelled [] []
  | raw {gs : List Glyph} {t : Bytes} {b : UInt8} (hb : b ≠ 92) (h : Spelled gs t) :
    Spelled (.raw b :: gs) (b :: t)
  | escape {gs : List Glyph} {t : Bytes} {c : UInt8} {g : Glyph} (hg : Glyph.ofEscape c = some g)
    (h : Spelled gs t) : Spelled (g :: gs) (92 :: c :: t)

namespace Spelled

theorem append (h : Spelled gs t) (h' : Spelled hs u) : Spelled (gs ++ hs) (t ++ u) := by
  induction h with
  | nil => exact h'
  | raw hb _ ih => exact .raw hb ih
  | escape hg _ ih => exact .escape hg ih

/-- The text of glyphs is cut where the glyphs are. -/
theorem split (h : Spelled (gs ++ hs) t) : ∃ u v, t = u ++ v ∧ Spelled gs u ∧ Spelled hs v := by
  induction gs generalizing t with
  | nil => exact ⟨[], t, rfl, .nil, h⟩
  | cons g gs ih =>
    cases h with
    | raw hb h =>
      obtain ⟨u, v, rfl, hu, hv⟩ := ih h
      exact ⟨_, v, rfl, .raw hb hu, hv⟩
    | escape hg h =>
      obtain ⟨u, v, rfl, hu, hv⟩ := ih h
      exact ⟨_, v, rfl, .escape hg hu, hv⟩

/-- The text of the first glyph stands in front. -/
theorem split_cons (h : Spelled (g :: gs) t) :
    ∃ u v, t = u ++ v ∧ Spelled [g] u ∧ Spelled gs v :=
  split (show Spelled ([g] ++ gs) t from h)

theorem ne_nil (h : Spelled (g :: gs) t) : t ≠ [] := by
  cases h <;> simp

end Spelled

/-- An escape is never a raw byte. -/
theorem ofEscape_ne_raw : Glyph.ofEscape c ≠ some (.raw b) := by
  intro h
  cases ofEscape_sound h

/-- A raw byte is the only glyph that is written as this byte. -/
theorem Spelled.singleton_iff (h : Spelled [g] t) : t = [b] ↔ b ≠ 92 ∧ g = .raw b := by
  cases h with
  | raw hb h =>
    cases h
    simp only [List.cons.injEq, and_true, Glyph.raw.injEq]
    exact ⟨fun h => ⟨h ▸ hb, h⟩, fun h => h.2⟩
  | escape hg h =>
    simp only [List.cons.injEq, reduceCtorEq, and_false, false_iff, not_and]
    rintro _ rfl
    exact ofEscape_ne_raw hg

/-- A text begins with a byte that is no backslash where its glyphs begin with the raw one. -/
theorem Spelled.head?_eq_iff (h : Spelled gs t) (hb : b ≠ 92) :
    t.head? = some b ↔ gs.head? = some (.raw b) := by
  cases h with
  | nil => simp
  | raw _ _ => simp
  | escape hg _ =>
    simp only [List.head?_cons, Option.some.injEq]
    exact iff_of_false hb.symm fun heq => ofEscape_ne_raw (heq ▸ hg)

theorem setByte_of_spelled (h : Spelled [g] t) (hb : g.byte? = some b) : SetByte t b := by
  cases h with
  | raw hne h =>
    cases h
    cases hb
    exact .plain _ hne
  | escape hg h =>
    cases h
    cases ofEscape_sound hg with
    | named _ _ => cases hb
    | quoted hc =>
      cases hb
      exact .escaped hc

theorem SetByte.spelled (h : SetByte t b) :
    ∃ g, Spelled [g] t ∧ g.byte? = some b ∧ g.bytes = .singleton b := by
  cases h with
  | plain _ hb => exact ⟨.raw b, .raw hb .nil, rfl, rfl⟩
  | escaped hc => exact ⟨.quoted b, .escape (ofEscape_quoted hc) .nil, rfl, rfl⟩

end Glyphs

/-! ## Signs -/

section Signs

variable {gs : List Glyph} {g : Glyph} {t : Bytes} {b : UInt8} {n offset : Nat}
  {signs : List Sign} {ending : Ending}

theorem readSigns_unknown (hb : Glyph.ofEscape b = none) :
    Sign.readAll offset (92 :: b :: t) = ([], .unknownEscape offset b) := by
  rw [Sign.readAll, if_pos rfl]
  simp only [hb]

theorem readSigns_escape (hg : Glyph.ofEscape b = some g)
    (hread : Sign.readAll (offset + 2) t = (signs, ending)) :
    Sign.readAll offset (92 :: b :: t) = (⟨offset, g⟩ :: signs, ending) := by
  rw [Sign.readAll, if_pos rfl]
  simp only [hg, hread]

theorem readSigns_raw (hb : b ≠ 92) (hread : Sign.readAll (offset + 1) t = (signs, ending)) :
    Sign.readAll offset (b :: t) = (⟨offset, .raw b⟩ :: signs, ending) := by
  rw [Sign.readAll.eq_def]
  simp only [if_neg hb, hread]

/-- A text that is read to its end is spelled by its glyphs. -/
theorem readSigns_sound (h : Sign.readAll offset t = (signs, .complete n)) :
    Spelled (signs.map (·.glyph)) t := by
  fun_induction Sign.readAll offset t generalizing signs with
  | case1 offset =>
    cases h
    exact .nil
  | case2 offset => cases h
  | case3 offset c rest hc => cases h
  | case4 offset c rest g hg tail ending' hread ih =>
    cases h
    exact .escape hg (ih hread)
  | case5 offset b rest hb tail ending' hread ih =>
    cases h
    exact .raw hb (ih hread)

/-- A text that is spelled by glyphs is read to its end. -/
theorem readSigns_complete (h : Spelled gs t) (offset : Nat) :
    ∃ signs, Sign.readAll offset t = (signs, .complete (offset + t.length)) ∧
      signs.map (·.glyph) = gs := by
  induction h generalizing offset with
  | nil => exact ⟨[], rfl, rfl⟩
  | raw hb _ ih =>
    obtain ⟨signs, hread, rfl⟩ := ih (offset + 1)
    refine ⟨⟨offset, .raw _⟩ :: signs, ?_, rfl⟩
    rw [readSigns_raw hb hread, List.length_cons, Nat.add_right_comm, Nat.add_assoc]
  | escape hg _ ih =>
    obtain ⟨signs, hread, rfl⟩ := ih (offset + 2)
    refine ⟨⟨offset, _⟩ :: signs, ?_, rfl⟩
    rw [readSigns_escape hg hread, List.length_cons, List.length_cons, Nat.add_right_comm,
      Nat.add_assoc]

end Signs

end MaximalMunch.Grammar
