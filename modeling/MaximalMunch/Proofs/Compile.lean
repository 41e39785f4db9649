import MaximalMunch.Pattern.Parse
import MaximalMunch.Proofs.Minimal
import MaximalMunch.Proofs.PatternGraph
import MaximalMunch.Proofs.Subset

/-! From a region of a graph to its minimal automaton: all automata on the way answer what is read
on the way to the exits of the region, and the last one is in canonical form. -/

namespace MaximalMunch

namespace Graph

variable {g : Graph} {c : Component} {S T : Set Nat} {w : Bytes} {p : Priority}

theorem automaton_answer (g : Graph) (c : Component) (w : Bytes) :
    (g.automaton c).answer w = (Dfa.ofNfa (.ofGraph g c)).answer w :=
  Dfa.minimize_answer (Dfa.ofNfa_numbered (Nfa.ofGraph_valid g c)) w

/-- All automata of a component accept the same words. -/
theorem isMatch_eq (g : Graph) (c : Component) (w : Bytes) :
    (Dfa.ofNfa (.ofGraph g c)).isMatch w = (Nfa.ofGraph g c).isMatch w ∧
      (g.automaton c).isMatch w = (Nfa.ofGraph g c).isMatch w := by
  have hvalid := Nfa.ofGraph_valid g c
  have hdfa : (Dfa.ofNfa (.ofGraph g c)).isMatch w = (Nfa.ofGraph g c).isMatch w := by
    rw [Bool.eq_iff_iff, Dfa.isMatch_eq_isSome, Dfa.ofNfa_answer_isSome hvalid,
      Nfa.isMatch_iff hvalid]
  refine ⟨hdfa, ?_⟩
  rw [← hdfa, Dfa.isMatch_eq_isSome, automaton_answer, Dfa.isMatch_eq_isSome]

/-- The priorities of the exits that reading a word leads to. -/
def Exits (g : Graph) (s : Nat) (T : Set Nat) (w : Bytes) (p : Priority) : Prop :=
  ∃ t ∈ T, Path g.edges s w t ∧ g.priority t = p

section Region

variable (r : g.Region S c.start T)

include r

theorem automaton_canonical : (g.automaton c).Canonical := by
  have hvalid := Nfa.ofGraph_valid g c
  have hlive := Dfa.ofNfa_live hvalid (Nfa.ofGraph_size_pos r) (Nfa.ofGraph_live r)
  exact Dfa.minimize_canonical (Dfa.ofNfa_numbered hvalid) hlive

theorem automaton_answer_iff :
    (g.automaton c).answer w = some p ↔ Priority.IsBest (g.Exits c.start T w) p := by
  rw [automaton_answer, Dfa.ofNfa_answer_iff (Nfa.ofGraph_valid g c)]
  exact Priority.IsBest.congr fun p => Nfa.ofGraph_ends r

theorem nfa_isMatch_iff : (Nfa.ofGraph g c).isMatch w = true ↔ ∃ p, g.Exits c.start T w p := by
  rw [Nfa.isMatch_iff (Nfa.ofGraph_valid g c)]
  exact exists_congr fun p => Nfa.ofGraph_ends r

end Region

/-- The automaton of a component accepts the words read on the way from its start to its stop. -/
theorem nfa_isMatch_iff_reads (r : g.Region S c.start {c.stop}) :
    (Nfa.ofGraph g c).isMatch w = true ↔ w ∈ words g.edges c.start c.stop := by
  rw [nfa_isMatch_iff r, mem_words]
  constructor
  · rintro ⟨_, t, rfl, path, _⟩
    exact path
  · intro path
    exact ⟨_, c.stop, rfl, path, rfl⟩

/-! ## Single patterns -/

theorem addWritten_ok {h : Graph} {text : String} (hadd : g.addWritten text = (h, .ok c)) :
    ∃ p, Pattern.read (bytesOf text) = .ok p ∧ g.addPattern p = (h, c) := by
  unfold addWritten at hadd
  split at hadd
  · simp at hadd
  · rename_i p hp
    simp only [Prod.mk.injEq, Except.ok.injEq] at hadd
    exact ⟨p, hp, Prod.ext hadd.1 hadd.2⟩

/-- The automaton of a component that was added for a language accepts just this language. -/
theorem Adds.nfa_isMatch_iff {h : Graph} {L : Language UInt8} (a : g.Adds h c S L) :
    (Nfa.ofGraph h c).isMatch w = true ↔ w ∈ L := by
  rw [nfa_isMatch_iff_reads a.region, a.reads]

theorem Adds.automaton_answer {h : Graph} {L : Language UInt8} (a : g.Adds h c S L) :
    (h.automaton c).answer w = if (Nfa.ofGraph h c).isMatch w then some none else none := by
  cases hmatch : (Nfa.ofGraph h c).isMatch w with
  | true =>
    obtain ⟨p, t, rfl, path, _⟩ := (Graph.nfa_isMatch_iff a.region).1 hmatch
    rw [if_pos rfl, automaton_answer_iff a.region]
    refine ⟨⟨c.stop, rfl, path, a.unset⟩, ?_⟩
    rintro n ⟨t, rfl, _, hn⟩
    rw [a.unset] at hn
    cases hn
  | false =>
    have hnone := (isMatch_eq h c w).2
    rw [hmatch, Dfa.isMatch_eq_isSome, Option.isSome_eq_false_iff, Option.isNone_iff_eq_none]
      at hnone
    rw [hnone]
    rfl

end Graph

namespace Pattern

variable {text : String} {w : Bytes}

/-- The own automata of a pattern accept what its component reads. -/
theorem nfa_isMatch_iff (p : Pattern) : p.nfa.isMatch w = true ↔ w ∈ p.reading := by
  obtain ⟨S, a⟩ := Graph.empty.addPattern_adds p
  exact a.nfa_isMatch_iff

theorem dfa_isMatch (p : Pattern) (w : Bytes) : p.dfa.isMatch w = p.nfa.isMatch w := by
  exact (Graph.isMatch_eq _ _ w).2

theorem compile_of_read {p : Pattern} (h : read (bytesOf text) = .ok p) :
    compile text = .ok p.dfa := by
  rw [compile, Graph.compileWritten, Graph.addWritten, h]
  rfl

/-- Whether a written pattern matches a word, by its own nondeterministic automaton. A faulty one
matches nothing. -/
def textMatches (text : String) (w : Bytes) : Bool :=
  match parse text with
  | .ok p => p.nfa.isMatch w
  | .error _ => false

theorem textMatches_of_read {p : Pattern} (h : read (bytesOf text) = .ok p) (w : Bytes) :
    textMatches text w = p.nfa.isMatch w := by
  rw [textMatches, parse, h]
  rfl

/-- A pattern that is written as one byte matches this byte only. -/
theorem textMatches_byte {b : UInt8} (h : read (bytesOf text) = .ok (.atom (.singleton b)))
    (w : Bytes) : textMatches text w = decide (w = [b]) := by
  have hne : ByteSet.singleton b ≠ ∅ := by
    intro he
    exact ByteSet.not_mem_empty (he ▸ ByteSet.mem_singleton.2 rfl : b ∈ (∅ : ByteSet))
  rw [textMatches_of_read h, Bool.eq_iff_iff, nfa_isMatch_iff,
    reading_eq_language _ (by simpa [atoms] using hne), decide_eq_true_eq]
  show (∃ c ∈ ByteSet.singleton b, w = [c]) ↔ w = [b]
  simp

end Pattern

/-- In any graph, a written pattern is compiled to the automaton of a fresh component, which accepts
what the pattern matches. -/
theorem Graph.compileWritten_ok {g h : Graph} {text : String} {d : Dfa}
    (hcompile : g.compileWritten text = (h, .ok d)) : ∃ p c S,
      Pattern.read (bytesOf text) = .ok p ∧ g.Adds h c S p.reading ∧ d = h.automaton c ∧
        ∀ w, (Nfa.ofGraph h c).isMatch w = Pattern.textMatches text w := by
  unfold compileWritten at hcompile
  cases hadd : g.addWritten text with
  | mk k component =>
    rw [hadd] at hcompile
    cases component with
    | error e => simp [Except.map] at hcompile
    | ok c =>
      simp only [Except.map, Prod.mk.injEq, Except.ok.injEq] at hcompile
      obtain ⟨rfl, rfl⟩ := hcompile
      obtain ⟨p, hp, hpattern⟩ := addWritten_ok hadd
      obtain ⟨S, a⟩ : ∃ S, g.Adds k c S p.reading := by simpa [hpattern] using addPattern_adds g p
      refine ⟨p, c, S, hp, a, rfl, fun w => ?_⟩
      rw [Pattern.textMatches_of_read hp, Bool.eq_iff_iff, a.nfa_isMatch_iff, p.nfa_isMatch_iff]

end MaximalMunch
