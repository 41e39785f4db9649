import MaximalMunch.Proofs.Compile
import MaximalMunch.Proofs.Longest

/-! The automata of a component answer alike. This holds in any graph and for any component of it,
also where nodes lead nowhere or have no priority: determinizing keeps what is accepted and answers
the best priority, and minimizing keeps all answers. -/

namespace MaximalMunch

namespace Dfa

variable {d : Dfa} {w : Bytes}

/-- An accepted word leads to a state, which answers with its priority. -/
theorem exists_of_isMatch (h : d.isMatch w = true) :
    ∃ q, d.walk? d.start w = some q ∧ d.answer w = some (d.priority q) := by
  obtain ⟨q, hq, hacc⟩ := (Option.any_eq_true _ _).1 h
  refine ⟨q, hq, ?_⟩
  rw [answer, answerFrom, hq, Option.bind_some, if_pos hacc]

/-- The deterministic automaton of a component accepts what the nondeterministic one does. An
accepted word leads to a state with the least of the priorities that are set at the accepting nodes
the word leads to, and without priority just if none is set there. -/
theorem ofNfa_isMatch_priority (g : Graph) (c : Component) (w : Bytes) :
    let a := Nfa.ofGraph g c
    let d := ofNfa a
    d.isMatch w = a.isMatch w ∧ (d.isMatch w = true → ∃ q, d.walk? d.start w = some q ∧
      (∀ n, d.priority q = some n ↔ a.Ends w (some n) ∧ ∀ m, a.Ends w (some m) → n ≤ m) ∧
      (d.priority q = none ↔ ∀ n, ¬ a.Ends w (some n))) := by
  intro a d
  refine ⟨(Graph.isMatch_eq g c w).1, fun h => ?_⟩
  obtain ⟨q, hq, hanswer⟩ := exists_of_isMatch h
  have hbest := (ofNfa_answer_iff (Nfa.ofGraph_valid g c)).1 hanswer
  exact ⟨q, hq, fun n => hbest.eq_some_iff, hbest.eq_none_iff⟩

/-- One byte leads to three accepting nodes, of which two have a priority, and to a node from which
no accepting one is reached. A silent cycle goes through the start. -/
def overlap : Graph := ⟨#[
  { tag := .start,
    edges := [⟨.singleton 97, 1⟩, ⟨.singleton 97, 2⟩, ⟨.singleton 97, 3⟩, .silent 4] },
  { tag := .accept, priority := some 7 },
  { tag := .accept, priority := some 4 },
  { tag := .accept },
  { tag := .normal, edges := [.silent 0, ⟨.singleton 97, 5⟩] },
  { tag := .normal, edges := [⟨.singleton 98, 5⟩] }]⟩

theorem ofNfa_isMatch_priority_overlap :
    let a := Nfa.ofGraph overlap ⟨0, 3⟩
    let d := ofNfa a
    d.isMatch [97] = true ∧ a.Ends [97] none ∧ a.Ends [97] (some 7) ∧
      ∃ q, d.walk? d.start [97] = some q ∧ d.priority q = some 4 := by
  intro a d
  have ha : a = ⟨overlap.nodes⟩ := by
    have horder : overlap.preorder 0 = [0, 1, 2, 3, 4, 5] := by cbv
    simp only [a, Nfa.ofGraph, horder]
    decide +kernel
  have hends : ∀ k ∈ [1, 2, 3], a.Ends [97] (a.priority k) := by
    rw [ha]
    intro k hk
    refine ⟨k, Path.edge (e := ⟨.singleton 97, k⟩) ?_ ?_, ?_, rfl⟩
    · revert k
      decide
    · exact Or.inr ⟨97, ByteSet.mem_singleton.2 rfl, rfl⟩
    · revert k
      decide
  have hleast : ∀ m, a.Ends [97] (some m) → 4 ≤ m := by
    rw [ha]
    rintro m ⟨q, _, hacc, hq⟩
    have hlt : q < 6 := Nfa.lt_of_isAccept hacc
    have hall : ∀ q < 6, ∀ m ∈ Nfa.priority ⟨overlap.nodes⟩ q, 4 ≤ m := by decide
    exact hall q hlt m hq
  have hp : a.priority 1 = some 7 ∧ a.priority 2 = some 4 ∧ a.priority 3 = none := by
    rw [ha]
    decide
  obtain ⟨h7, h4, hnone⟩ := hp
  have hends7 := h7 ▸ hends 1 (by simp)
  have hends4 := h4 ▸ hends 2 (by simp)
  have hendsNone := hnone ▸ hends 3 (by simp)
  obtain ⟨heq, hpriority⟩ := ofNfa_isMatch_priority overlap ⟨0, 3⟩ [97]
  have hmatch : d.isMatch [97] = true :=
    heq.trans ((Nfa.isMatch_iff (Nfa.ofGraph_valid overlap ⟨0, 3⟩)).2 ⟨_, hends4⟩)
  obtain ⟨q, hq, hset, _⟩ := hpriority hmatch
  exact ⟨hmatch, hendsNone, hends7, q, hq, (hset 4).2 ⟨hends4, hleast⟩⟩

/-! ## Minimization -/

theorem size_quotient_le (d : Dfa) (colors : Coloring) : (d.quotient colors).size ≤ d.size := by
  have hle := List.length_filterMap_le (fun x : State × Nat =>
    if colors.toList.idxOf? (colors.getD x.2 0) = some x.2 then some x.1 else none)
    d.states.toList.zipIdx
  simpa [quotient, size, representatives] using hle

theorem size_minimize_le (d : Dfa) : d.minimize.size ≤ d.size := by
  unfold minimize
  split
  · exact Nat.le_refl d.size
  · exact d.size_quotient_le d.stableColoring

theorem longestMatch_congr {e : Dfa} (h : ∀ w, d.answer w = e.answer w) (input : Bytes) :
    d.longestMatch input = e.longestMatch input := by
  have hd := d.longestMatch_spec input
  rw [funext h] at hd
  exact hd.unique (e.longestMatch_spec input)

/-- Minimizing the deterministic automaton of a component keeps what is accepted and the longest
matches, in length and in priority, and adds no state. -/
theorem minimize_isMatch_longestMatch (g : Graph) (c : Component) (w : Bytes) :
    let d := ofNfa (.ofGraph g c)
    d.minimize.isMatch w = d.isMatch w ∧ d.minimize.longestMatch w = d.longestMatch w ∧
      d.minimize.size ≤ d.size := by
  intro d
  have hanswer := minimize_answer (ofNfa_numbered (Nfa.ofGraph_valid g c))
  refine ⟨?_, longestMatch_congr hanswer w, d.size_minimize_le⟩
  rw [isMatch_eq_isSome, hanswer, isMatch_eq_isSome]

end Dfa

end MaximalMunch
