import Mathlib.Tactic.TFAE
import MaximalMunch.Proofs.Compile
import MaximalMunch.Proofs.Parsing

/-! What written patterns denote. The automata of a pattern accept the words of the pattern that
its text derives. A single atom matches one byte of its set and nothing else, unless the set has no
byte: then its edge is taken for a silent one, and the pattern matches the empty word. This happens
to complements of all bytes only. -/

namespace MaximalMunch

open Grammar

/-- A pattern that is accepted derives from its text in one way only. If each of its atoms has a
byte, its automata accept just the words that it denotes. -/
theorem Graph.isMatch_iff_denoted (g h : Graph) (text : String) (c : Component)
    (hadd : g.addWritten text = (h, .ok c)) :
    (∃! p, Derives .union (bytesOf text) p) ∧ ∃ d, g.compileWritten text = (h, .ok d) ∧
      ∀ p, Derives .union (bytesOf text) p → (∀ s ∈ p.atoms, s.members.Nonempty) → ∀ w,
        ((Nfa.ofGraph h c).isMatch w = true ↔ w ∈ p.language) ∧
        ((Dfa.ofNfa (.ofGraph h c)).isMatch w = true ↔ w ∈ p.language) ∧
        (d.isMatch w = true ↔ w ∈ p.language) := by
  obtain ⟨p, hread, hpattern⟩ := addWritten_ok hadd
  obtain ⟨S, a⟩ : ∃ S, g.Adds h c S p.reading := by simpa [hpattern] using addPattern_adds g p
  have hunique : ∀ q, Derives .union (bytesOf text) q → q = p := by
    intro q hq
    have heq := (Pattern.read_iff_derives.2 hq).symm.trans hread
    exact Except.ok.inj heq
  refine ⟨⟨p, Pattern.read_iff_derives.1 hread, hunique⟩, h.automaton c, ?_, ?_⟩
  · rw [compileWritten, hadd]
    rfl
  · intro q hq hatoms w
    obtain rfl := hunique q hq
    have hlanguage : q.reading = q.language := by
      refine q.reading_eq_language fun s hs hempty => ?_
      obtain ⟨b, hb⟩ := hatoms s hs
      exact ByteSet.not_mem_empty (hempty ▸ hb)
    obtain ⟨hdfa, hminimal⟩ := isMatch_eq h c w
    have hnfa : (Nfa.ofGraph h c).isMatch w = true ↔ w ∈ q.language := by
      rw [a.nfa_isMatch_iff, hlanguage]
    exact ⟨hnfa, by rw [hdfa, hnfa], by rw [hminimal, hnfa]⟩

theorem Graph.isMatch_iff_denoted_complement :
    let p : Pattern := .seq (.quantified .star (.atom (.complement (∅ ∪ .singleton 97))))
      (.atom (.singleton 98))
    ∃ h c d, Graph.empty.addWritten "[^a]*b" = (h, .ok c) ∧
      Derives .union (bytesOf "[^a]*b") p ∧ (∀ s ∈ p.atoms, s.members.Nonempty) ∧
      Graph.empty.compileWritten "[^a]*b" = (h, .ok d) ∧
      ∀ w, (Nfa.ofGraph h c).isMatch w = true ↔ w ∈ p.language := by
  intro p
  have hread : Pattern.read (bytesOf "[^a]*b") = .ok p := by decide +kernel
  have hderives := Pattern.read_iff_derives.1 hread
  have hatoms : ∀ s ∈ p.atoms, s.members.Nonempty := by
    intro s hs
    simp only [p, Pattern.atoms, List.cons_append, List.nil_append, List.mem_cons,
      List.not_mem_nil, or_false] at hs
    rcases hs with rfl | rfl
    · exact ⟨98, by simp⟩
    · exact ⟨98, by simp⟩
  have hadd : ∃ h c, Graph.empty.addWritten "[^a]*b" = (h, .ok c) := by
    rw [addWritten, hread]
    exact ⟨_, _, rfl⟩
  obtain ⟨h, c, hadd⟩ := hadd
  obtain ⟨_, d, hcompile, haccepts⟩ := isMatch_iff_denoted _ h _ c hadd
  exact ⟨h, c, d, hadd, hderives, hatoms, hcompile, fun w => (haccepts p hderives hatoms w).1⟩

/-! ## Single atoms -/

namespace Grammar

variable {t : Bytes} {s : Set UInt8} {c : UInt8}

theorem ClassLetter.nonempty (h : ClassLetter c s) : s.Nonempty := by
  cases h with
  | digits => exact ⟨48, by simp [between]⟩
  | nonDigits => exact ⟨0, by simp [between]⟩
  | blanks => exact ⟨32, by simp [Grammar.blanks]⟩
  | nonBlanks => exact ⟨0, by simp [Grammar.blanks]⟩
  | word => exact ⟨95, by simp [wordBytes]⟩
  | nonWord => exact ⟨0, by simp [wordBytes, between]⟩

theorem Element.nonempty (h : Element t s) : s.Nonempty := by
  cases h with
  | byte ht hdash hclose => exact Set.singleton_nonempty _
  | named h => exact h.nonempty
  | @range t u lo hi ht hdash hclose hu hstop hlt =>
    exact ⟨lo, UInt8.le_refl lo, UInt8.le_of_lt hlt⟩

theorem Elements.nonempty (h : Elements t s) (hne : t ≠ []) : s.Nonempty := by
  cases h with
  | nil => exact absurd rfl hne
  | cons ht hu => exact ht.nonempty.inl

theorem SetBody.nonempty (h : SetBody t s) : s.Nonempty := by
  cases h with
  | dash h => exact (Set.singleton_nonempty 45).inl
  | plain h hne => exact h.nonempty hne

/-- Only the complement of all bytes is written without denoting a byte. -/
theorem Atom.nonempty_or_complement (h : Atom t s) :
    s.Nonempty ∨ ∃ body, t = 91 :: 94 :: body ++ [93] ∧ SetBody body Set.univ := by
  cases h with
  | dot => exact Or.inl Set.univ_nonempty
  | named h => exact Or.inl h.nonempty
  | escaped h => exact Or.inl (Set.singleton_nonempty _)
  | literal b hb => exact Or.inl (Set.singleton_nonempty _)
  | bracketed h =>
    cases h with
    | plain h hcaret => exact Or.inl h.nonempty
    | @negated body s h =>
      rcases sᶜ.eq_empty_or_nonempty with hempty | hne
      · rw [Set.compl_empty_iff] at hempty
        exact Or.inr ⟨body, rfl, hempty ▸ h⟩
      · exact Or.inl hne

end Grammar

namespace Graph

open Grammar

variable {g : Graph} {text : String} {s : ByteSet} {w : Bytes}

/-- An atom is added as one edge between two fresh nodes. -/
theorem addWritten_atom (g : Graph) (h : Atom (bytesOf text) s.members) :
    g.addWritten text = ((g.ofSet s).1, .ok (g.ofSet s).2) := by
  have hread := Pattern.read_iff_derives.2 (.choice (.single (.bare (.atom h))))
  rw [addWritten, hread]
  rfl

theorem compileWritten_atom (g : Graph) (h : Atom (bytesOf text) s.members) :
    g.compileWritten text = ((g.ofSet s).1, .ok ((g.ofSet s).1.automaton (g.ofSet s).2)) := by
  rw [compileWritten, addWritten_atom g h]
  rfl

theorem ofSet_isMatch_iff :
    (Nfa.ofGraph (g.ofSet s).1 (g.ofSet s).2).isMatch w = true ↔ w ∈ s.labelWords :=
  (adds_ofSet g s).nfa_isMatch_iff

/-- A set with a byte is matched one byte at a time. -/
theorem ofSet_isMatch_iff_of_nonempty (hs : s.members.Nonempty) :
    (Nfa.ofGraph (g.ofSet s).1 (g.ofSet s).2).isMatch w = true ↔ ∃ b ∈ s.members, w = [b] := by
  have hne : s ≠ ∅ := fun h => hs.ne_empty (h ▸ ByteSet.members_empty)
  have hwords : s.labelWords = {w | ∃ b ∈ s, w = [b]} := if_neg hne
  rw [ofSet_isMatch_iff, hwords]
  rfl

/-- A set without bytes is matched by the empty word. -/
theorem ofSet_isMatch_iff_of_empty (hs : s.members = ∅) :
    (Nfa.ofGraph (g.ofSet s).1 (g.ofSet s).2).isMatch w = true ↔ w = [] := by
  have hempty : s = ∅ := ByteSet.members_injective (hs.trans ByteSet.members_empty.symm)
  have hwords : s.labelWords = 1 := if_pos hempty
  rw [ofSet_isMatch_iff, hwords]
  exact Language.mem_one w

/-- The only edge out of a node that a set adds is labelled with the set. -/
theorem label_of_mem_edges_ofSet {i : Nat} {e : Edge} (hi : g.size ≤ i)
    (he : e ∈ (g.ofSet s).1.edges i) : e.label = s := by
  rw [edges_ofSet] at he
  split at he
  · rw [List.mem_singleton.1 he]
  · rw [edges_of_size_le hi] at he
    cases he

/-- For a pattern of one atom these are the same: it matches just the words of one byte of its set;
it does not match the empty word; no silent edge is added for it; its set has a byte. Where the set
has none, it is written as the complement of all bytes, and only the empty word is matched. -/
theorem single_byte_tfae (g : Graph) (text : String) (s : Set UInt8)
    (hatom : Atom (bytesOf text) s) : ∃ h c d,
      g.addWritten text = (h, .ok c) ∧ g.compileWritten text = (h, .ok d) ∧
      (∀ w, d.isMatch w = (Nfa.ofGraph h c).isMatch w) ∧
      List.TFAE [
        ∀ w, (Nfa.ofGraph h c).isMatch w = true ↔ ∃ b ∈ s, w = [b],
        (Nfa.ofGraph h c).isMatch [] = false,
        ∀ i, g.size ≤ i → ∀ e ∈ h.edges i, e.isSilent = false,
        s.Nonempty] ∧
      (s = ∅ → (∀ w, (Nfa.ofGraph h c).isMatch w = true ↔ w = []) ∧
        ∃ body, bytesOf text = 91 :: 94 :: body ++ [93] ∧ SetBody body Set.univ) := by
  obtain ⟨s, rfl⟩ := ByteSet.members_surjective s
  refine ⟨_, _, _, addWritten_atom g hatom, compileWritten_atom g hatom,
    fun w => (isMatch_eq _ _ w).2, ?_, ?_⟩
  · tfae_have 4 → 1 := fun hs w => ofSet_isMatch_iff_of_nonempty hs
    tfae_have 1 → 2 := by
      intro hwords
      rw [Bool.eq_false_iff, ne_eq, hwords]
      rintro ⟨b, _, hb⟩
      cases hb
    tfae_have 2 → 4 := by
      intro hnil
      by_contra hs
      rw [Set.not_nonempty_iff_eq_empty] at hs
      rw [(ofSet_isMatch_iff_of_empty hs).2 rfl] at hnil
      cases hnil
    tfae_have 4 → 3 := by
      rintro ⟨b, hb⟩ i hi e he
      rw [Edge.isSilent, label_of_mem_edges_ofSet hi he, Bool.eq_false_iff, ne_eq,
        ByteSet.isEmpty_iff]
      rintro rfl
      exact ByteSet.not_mem_empty hb
    tfae_have 3 → 4 := by
      intro hedges
      have he : ⟨s, g.size + 1⟩ ∈ (g.ofSet s).1.edges g.size := by
        rw [edges_ofSet, if_pos rfl]
        exact List.mem_singleton_self _
      exact ByteSet.exists_mem_of_isEmpty_eq_false (hedges g.size le_rfl _ he)
    tfae_finish
  · intro hempty
    exact ⟨fun w => ofSet_isMatch_iff_of_empty hempty,
      hatom.nonempty_or_complement.resolve_left (Set.not_nonempty_iff_eq_empty.2 hempty)⟩

theorem single_byte_tfae_negated : ∃ h c,
    Atom (bytesOf "[^a]") ({97} ∪ ∅)ᶜ ∧ Graph.empty.addWritten "[^a]" = (h, .ok c) ∧
      ∀ w, (Nfa.ofGraph h c).isMatch w = true ↔ ∃ b, b ≠ 97 ∧ w = [b] := by
  have hbody : SetBody [97] ({97} ∪ ∅) :=
    .plain (.cons (.byte (.plain 97 (by decide)) (by decide) (by decide)) .nil) (by decide)
  have htext : bytesOf "[^a]" = 91 :: 94 :: [97] ++ [93] := by decide +kernel
  have hatom : Atom (bytesOf "[^a]") ({97} ∪ ∅)ᶜ := htext ▸ .bracketed (.negated hbody)
  obtain ⟨h, c, _, hadd, _, _, htfae, _⟩ := single_byte_tfae Graph.empty "[^a]" _ hatom
  have hother : (({97} ∪ ∅)ᶜ : Set UInt8).Nonempty := ⟨98, by simp⟩
  have hwords := (htfae.out 3 0).1 hother
  refine ⟨h, c, hatom, hadd, fun w => ?_⟩
  rw [hwords, Set.union_empty]
  rfl

/-- The complement of the digits and of all other bytes denotes no byte, and it matches the empty
word. -/
theorem complement_of_all_matches_nil : ∃ h c d,
    Atom (bytesOf "[^\\d\\D]") ∅ ∧ Graph.empty.addWritten "[^\\d\\D]" = (h, .ok c) ∧
      Graph.empty.compileWritten "[^\\d\\D]" = (h, .ok d) ∧
      (Nfa.ofGraph h c).isMatch [] = true ∧ d.isMatch [] = true := by
  have hbody : SetBody [92, 100, 92, 68] (between 48 57 ∪ ((between 48 57)ᶜ ∪ ∅)) :=
    .plain (.cons (.named .digits) (.cons (.named .nonDigits) .nil)) (by decide)
  have hall : between 48 57 ∪ ((between 48 57)ᶜ ∪ ∅) = Set.univ := by
    rw [Set.union_empty, Set.union_compl_self]
  have htext : bytesOf "[^\\d\\D]" = 91 :: 94 :: [92, 100, 92, 68] ++ [93] := by decide +kernel
  have hatom : Atom (bytesOf "[^\\d\\D]") ∅ := by
    rw [htext, ← Set.compl_univ, ← hall]
    exact .bracketed (.negated hbody)
  have hset := ByteSet.members_empty.symm ▸ hatom
  have hnil := (ofSet_isMatch_iff_of_empty (g := Graph.empty) ByteSet.members_empty).2 rfl
  exact ⟨_, _, _, hatom, addWritten_atom _ hset, compileWritten_atom _ hset, hnil,
    (isMatch_eq _ _ []).2.trans hnil⟩

end Graph

end MaximalMunch
