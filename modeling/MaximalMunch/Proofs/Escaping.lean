import MaximalMunch.Proofs.Compile
import MaximalMunch.Proofs.Encoding
import MaximalMunch.Proofs.Parsing

/-! Escaped texts. A text with its special bytes behind backslashes is a pattern of its bytes one
after the other, so it matches these bytes and nothing else, and its automaton is a chain. -/

namespace MaximalMunch

/-! ## Escaped bytes -/

/-- A byte that stands for itself in a pattern: behind a backslash if it is special. -/
def escapedByte (b : UInt8) : Bytes := if b ∈ Glyph.special then [92, b] else [b]

def escapedBytes (t : Bytes) : Bytes := t.flatMap escapedByte

theorem lt_of_special : ∀ b ∈ Glyph.special, b < 128 := by decide +kernel

/-- A character is escaped as its bytes are. Of a character beyond ASCII, no byte is special. -/
theorem escapeChar_bytes (c : Char) :
    (if c.toNat < 128 ∧ Glyph.special.contains c.toUInt8 then ['\\', c] else [c]).flatMap
      String.utf8EncodeChar = escapedBytes (String.utf8EncodeChar c) := by
  by_cases hascii : c.toNat < 128
  · have hbyte := utf8EncodeChar_of_lt hascii
    have hslash : String.utf8EncodeChar '\\' = [92] := by decide
    by_cases hspecial : c.toUInt8 ∈ Glyph.special
    · rw [if_pos ⟨hascii, List.contains_iff_mem.2 hspecial⟩]
      simp [escapedBytes, escapedByte, hbyte, hslash, hspecial]
    · rw [if_neg fun h => hspecial (List.contains_iff_mem.1 h.2)]
      simp [escapedBytes, escapedByte, hbyte, hspecial]
  · have hplain : ∀ b ∈ String.utf8EncodeChar c, escapedByte b = [b] := by
      intro b hb
      refine if_neg fun hspecial => ?_
      have hle := le_of_mem_utf8EncodeChar (Nat.le_of_not_lt hascii) hb
      exact UInt8.not_lt.2 hle (lt_of_special b hspecial)
    rw [if_neg fun h => hascii h.1, List.flatMap_singleton, escapedBytes,
      List.flatMap_congr hplain, List.flatMap_singleton']

theorem bytesOf_escapePattern (text : String) :
    bytesOf (escapePattern text) = escapedBytes (bytesOf text) := by
  rw [escapePattern, bytesOf_ofList, bytesOf_eq_flatMap, escapedBytes, List.flatMap_assoc,
    List.flatMap_assoc]
  exact List.flatMap_congr fun c _ => escapeChar_bytes c

/-! ## The pattern of an escaped text -/

namespace Pattern

open Grammar

variable {t w : Bytes} {p : Pattern}

/-- A text derives the pattern, whose atoms have bytes and which denotes just one word. -/
structure Spells (t w : Bytes) (p : Pattern) : Prop where
  derives : Derives .concatenation t p
  nonempty : ∀ s ∈ p.atoms, s ≠ ∅
  words : ∀ v, v ∈ p.language ↔ v = w

theorem derives_escapedByte (b : UInt8) :
    Derives .basic (escapedByte b) (.atom (.singleton b)) := by
  refine .bare (.atom ?_)
  rw [ByteSet.members_singleton, escapedByte]
  split
  · rename_i hspecial
    exact .escaped (.special b hspecial)
  · rename_i hplain
    refine .literal b fun hmark => hplain ?_
    have hall : ∀ c ∈ ([40, 41, 91, 46, 92, 42, 43, 63, 124] : Bytes), c ∈ Glyph.special := by
      decide +kernel
    exact hall b hmark

theorem singleton_ne_empty (b : UInt8) : ByteSet.singleton b ≠ ∅ := by
  intro h
  have hb : b ∈ ByteSet.singleton b := ByteSet.mem_singleton.2 rfl
  exact ByteSet.not_mem_empty (h ▸ hb)

theorem spells_escapedByte (b : UInt8) :
    Spells (escapedByte b) [b] (.atom (.singleton b)) where
  derives := .single (derives_escapedByte b)
  nonempty := by simpa [atoms] using singleton_ne_empty b
  words v := by
    show (∃ c ∈ ByteSet.singleton b, v = [c]) ↔ v = [b]
    simp

/-- One more byte is put behind. -/
theorem Spells.snoc (h : Spells t w p) (b : UInt8) :
    Spells (t ++ escapedByte b) (w ++ [b]) (.seq p (.atom (.singleton b))) where
  derives := .seq h.derives (derives_escapedByte b)
  nonempty s hs := by
    rcases List.mem_append.1 hs with hs | hs
    · exact h.nonempty s hs
    · exact (spells_escapedByte b).nonempty s hs
  words v := by
    show v ∈ p.language * (Pattern.atom (.singleton b)).language ↔ v = w ++ [b]
    simp only [Language.mem_mul, h.words, (spells_escapedByte b).words, exists_eq_left]
    exact eq_comm

/-- An escaped text spells itself. The induction is from the right, as sequences are read. -/
theorem exists_spells (ht : t ≠ []) : ∃ p, Spells (escapedBytes t) t p := by
  induction t using List.reverseRecOn with
  | nil => exact absurd rfl ht
  | append_singleton t b ih =>
    have hbytes : escapedBytes (t ++ [b]) = escapedBytes t ++ escapedByte b := by
      rw [escapedBytes, List.flatMap_append, List.flatMap_singleton]
      rfl
    rw [hbytes]
    by_cases hempty : t = []
    · subst hempty
      exact ⟨_, spells_escapedByte b⟩
    · obtain ⟨p, hp⟩ := ih hempty
      exact ⟨_, hp.snoc b⟩

end Pattern

/-! ## Automata of one word -/

/-- The states of a canonical automaton that accepts one word only are the places between the bytes
of this word. -/
theorem Dfa.Canonical.size_of_one_word {d : Dfa} (h : d.Canonical) {v : Bytes}
    (hv : ∀ w, d.isMatch w = true ↔ w = v) : d.size = v.length + 1 := by
  have hanswer : ∀ w, d.answer w ≠ none ↔ w = v := by
    intro w
    rw [← hv, isMatch_eq_isSome, Option.isSome_iff_ne_none]
  have hstate : ∀ i : Fin (v.length + 1), ∃ q : Fin d.size, d.walk? 0 (v.take i) = some q.val := by
    intro i
    cases hq : d.walk? 0 (v.take i) with
    | some q => exact ⟨⟨q, h.walk?_lt hq⟩, rfl⟩
    | none =>
      have hnone := h.walk?_eq_none_iff.1 hq (v.drop i)
      rw [List.take_append_drop] at hnone
      exact absurd hnone ((hanswer v).2 rfl)
  choose state hstate using hstate
  have hinjective : Function.Injective state := by
    intro i j hij
    have heq : d.answer (v.take i ++ v.drop i) = d.answer (v.take j ++ v.drop i) := by
      rw [h.answer_eq, h.answer_eq, answerFrom_append (hstate i), answerFrom_append (hstate j), hij]
    rw [List.take_append_drop] at heq
    have hword : v.take j ++ v.drop i = v := (hanswer _).1 (heq ▸ (hanswer v).2 rfl)
    have hlength := congrArg List.length hword
    rw [List.length_append, List.length_take, List.length_drop] at hlength
    omega
  have hsurjective : Function.Surjective state := by
    intro q
    obtain ⟨w, hw⟩ := h.reached q q.isLt
    obtain ⟨x, hx⟩ := h.live q q.isLt
    rw [← answerFrom_append hw, ← h.answer_eq, hanswer] at hx
    have hle : w.length < v.length + 1 := by
      rw [← hx, List.length_append]
      omega
    have htake : v.take w.length = w := by rw [← hx, List.take_left]
    have hsame : d.walk? 0 (v.take w.length) = some (state ⟨w.length, hle⟩).val :=
      hstate ⟨w.length, hle⟩
    rw [htake, hw] at hsame
    exact ⟨⟨w.length, hle⟩, Fin.ext (Option.some.inj hsame).symm⟩
  have hcard := Fintype.card_of_bijective ⟨hinjective, hsurjective⟩
  rw [Fintype.card_fin, Fintype.card_fin] at hcard
  exact hcard.symm

/-- An escaped text that is not empty is accepted as a pattern in every graph. Its automata match
the bytes of the text and nothing else, and the minimal one has one state more than there are
bytes. -/
theorem Graph.escapePattern_isMatch (g : Graph) (text : String) (hne : text ≠ "") : ∃ h c d,
    g.addWritten (escapePattern text) = (h, .ok c) ∧
      g.compileWritten (escapePattern text) = (h, .ok d) ∧
      (∀ w, ((Nfa.ofGraph h c).isMatch w = true ↔ w = bytesOf text) ∧
        ((Dfa.ofNfa (.ofGraph h c)).isMatch w = true ↔ w = bytesOf text) ∧
        (d.isMatch w = true ↔ w = bytesOf text)) ∧
      d.size = (bytesOf text).length + 1 := by
  obtain ⟨p, hp⟩ := Pattern.exists_spells (mt bytesOf_eq_nil_iff.1 hne)
  rw [← bytesOf_escapePattern] at hp
  have hread := Pattern.read_iff_derives.2 (.choice hp.derives)
  obtain ⟨S, a⟩ := g.addPattern_adds p
  have hadd : g.addWritten (escapePattern text) =
      ((g.addPattern p).1, .ok (g.addPattern p).2) := by
    rw [addWritten, hread]
  have hnfa : ∀ w, (Nfa.ofGraph (g.addPattern p).1 (g.addPattern p).2).isMatch w = true ↔
      w = bytesOf text := by
    intro w
    rw [a.nfa_isMatch_iff, p.reading_eq_language hp.nonempty, hp.words]
  have hdfa := fun w => isMatch_eq (g.addPattern p).1 (g.addPattern p).2 w
  have hminimal : ∀ w, ((g.addPattern p).1.automaton (g.addPattern p).2).isMatch w = true ↔
      w = bytesOf text := fun w => by rw [(hdfa w).2, hnfa]
  refine ⟨_, _, (g.addPattern p).1.automaton (g.addPattern p).2, hadd, ?_, fun w => ?_, ?_⟩
  · rw [compileWritten, hadd]
    rfl
  · exact ⟨hnfa w, by rw [(hdfa w).1, hnfa], hminimal w⟩
  · exact (automaton_canonical a.region).size_of_one_word hminimal

theorem Graph.escapePattern_isMatch_euro : ∃ h c d, ("1.€" : String) ≠ "" ∧
    Graph.empty.addWritten (escapePattern "1.€") = (h, .ok c) ∧
      Graph.empty.compileWritten (escapePattern "1.€") = (h, .ok d) ∧
      (Nfa.ofGraph h c).isMatch [49, 46, 226, 130, 172] = true ∧
      d.isMatch [49, 120, 226, 130, 172] = false ∧ d.size = 6 := by
  have hbytes : bytesOf "1.€" = [49, 46, 226, 130, 172] := by decide +kernel
  obtain ⟨h, c, d, hadd, hcompile, hmatch, hsize⟩ :=
    escapePattern_isMatch Graph.empty "1.€" (by decide)
  rw [hbytes] at hmatch hsize
  refine ⟨h, c, d, by decide, hadd, hcompile, (hmatch _).1.2 rfl, ?_, hsize⟩
  rw [Bool.eq_false_iff, ne_eq, (hmatch _).2.2]
  decide

end MaximalMunch
