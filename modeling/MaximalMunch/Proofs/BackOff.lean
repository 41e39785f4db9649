import MaximalMunch.Proofs.FixedPoint
import MaximalMunch.Proofs.Longest

/-! The longest match beside acceptance. The one walk stops where no transition is left and goes
back to the last accepting state; the other reads a beginning of the input to its end. -/

namespace MaximalMunch.Dfa

variable {d : Dfa} {w input : Bytes} {n : Nat} {p : Priority}

/-- The automata that come about: those of components, and what minimizing makes of them. -/
inductive Made : Dfa → Prop
  | ofNfa (g : Graph) (c : Component) : Made (ofNfa (.ofGraph g c))
  | minimize {d : Dfa} (h : Made d) : Made d.minimize

theorem Made.numbered (h : d.Made) : d.Numbered := by
  induction h with
  | ofNfa g c => exact ofNfa_numbered (Nfa.ofGraph_valid g c)
  | minimize _ ih => exact minimize_numbered ih

/-- A walk never leaves the states of the automaton. -/
theorem Made.exists_state (h : d.Made) {q : Nat} (hq : d.walk? d.start w = some q) :
    ∃ s, d.state? q = some s := by
  rw [h.numbered.start] at hq
  exact ⟨_, Array.getElem?_eq_getElem (h.numbered.walk?_lt hq)⟩

/-! ## Answers -/

theorem answer_eq_none_iff : d.answer w = none ↔ d.isMatch w = false := by
  rw [isMatch_eq_isSome, Option.isSome_eq_false_iff, Option.isNone_iff_eq_none]

/-- An accepted word is answered with the priority of the state it leads to. -/
theorem answer_eq_some_iff : d.answer w = some p ↔ d.isMatch w = true ∧
    ∃ q s, d.walk? d.start w = some q ∧ d.state? q = some s ∧ s.priority = p := by
  rw [answer, answerFrom, isMatch, Option.any_eq_true, Option.bind_eq_some_iff]
  constructor
  · rintro ⟨q, hq, hanswer⟩
    have hacc : d.isAccept q = true := by
      by_contra hacc
      rw [if_neg hacc] at hanswer
      cases hanswer
    rw [if_pos hacc, Option.some.injEq] at hanswer
    cases hs : d.state? q with
    | none =>
      rw [isAccept, hs] at hacc
      cases hacc
    | some s =>
      rw [priority, hs] at hanswer
      exact ⟨⟨q, hq, hacc⟩, q, s, hq, hs, hanswer⟩
  · rintro ⟨⟨q, hq, hacc⟩, r, s, hr, hs, rfl⟩
    obtain rfl : q = r := Option.some.inj (hq.symm.trans hr)
    refine ⟨q, hq, ?_⟩
    rw [if_pos hacc, priority, hs]
    rfl

/-! ## Beginnings of the input -/

theorem longestMatch_eq_none_iff :
    d.longestMatch input = none ↔ ∀ v, v <+: input → d.isMatch v = false := by
  have hspec := d.longestMatch_spec input
  constructor
  · intro hnone v hv
    rw [hnone] at hspec
    rw [List.prefix_iff_eq_take.1 hv]
    exact answer_eq_none_iff.1 (hspec v.length (Nat.zero_le _) hv.length_le)
  · intro hall
    refine hspec.unique fun m _ _ => ?_
    exact answer_eq_none_iff.2 (hall _ (List.take_prefix m input))

theorem longestMatch_eq_some_iff : d.longestMatch input = some (n, p) ↔
    IsGreatest {m | m ≤ input.length ∧ d.isMatch (input.take m) = true} n ∧
      ∃ q s, d.walk? d.start (input.take n) = some q ∧ d.state? q = some s ∧ s.priority = p := by
  have hspec := d.longestMatch_spec input
  constructor
  · intro hsome
    rw [hsome] at hspec
    obtain ⟨_, hle, hanswer, hlonger⟩ := hspec
    obtain ⟨hmatch, hleads⟩ := answer_eq_some_iff.1 hanswer
    refine ⟨⟨⟨hle, hmatch⟩, fun m hm => ?_⟩, hleads⟩
    by_contra hlt
    have hnot := answer_eq_none_iff.1 (hlonger m (Nat.lt_of_not_le hlt) hm.1)
    rw [hm.2] at hnot
    cases hnot
  · rintro ⟨⟨⟨hle, hmatch⟩, hgreatest⟩, hleads⟩
    refine hspec.unique ⟨Nat.zero_le n, hle, answer_eq_some_iff.2 ⟨hmatch, hleads⟩, ?_⟩
    intro m hlt hm
    refine answer_eq_none_iff.2 (Bool.eq_false_iff.2 fun hmatch => ?_)
    exact Nat.not_le_of_lt hlt (hgreatest ⟨hm, hmatch⟩)

/-- In an automaton that comes about, all that is read leads to its states. There is no longest
match just if no beginning of the input is accepted; otherwise it is as long as the longest one that
is, with the priority of the state this leads to. -/
theorem longestMatch_greatest (h : d.Made) (input : Bytes) :
    (∀ v q, d.walk? d.start v = some q → ∃ s, d.state? q = some s) ∧
      (d.longestMatch input = none ↔ ∀ v, v <+: input → d.isMatch v = false) ∧
      ∀ n p, d.longestMatch input = some (n, p) ↔
        IsGreatest {m | m ≤ input.length ∧ d.isMatch (input.take m) = true} n ∧
          ∃ q s, d.walk? d.start (input.take n) = some q ∧ d.state? q = some s ∧ s.priority = p :=
  ⟨fun _ _ hq => h.exists_state hq, longestMatch_eq_none_iff, fun _ _ => longestMatch_eq_some_iff⟩

/-- Accepts `<` and `<==`, but not `<=`. -/
def arrows : Graph := ⟨#[
  { tag := .start, edges := [⟨.singleton 60, 1⟩, ⟨.singleton 60, 2⟩] },
  { tag := .accept, priority := some 0 },
  { tag := .normal, edges := [⟨.singleton 61, 3⟩] },
  { tag := .normal, edges := [⟨.singleton 61, 4⟩] },
  { tag := .accept, priority := some 1 }]⟩

theorem longestMatch_greatest_arrows :
    let d := ofNfa (.ofGraph arrows ⟨0, 1⟩)
    d.Made ∧ ∃ q s, d.walk? d.start [60] = some q ∧ d.state? q = some s ∧
      d.longestMatch [60, 61, 120] = some (1, s.priority) := by
  intro d
  have hmade : d.Made := .ofNfa arrows ⟨0, 1⟩
  obtain ⟨hstates, _, hsome⟩ := longestMatch_greatest hmade [60, 61, 120]
  have hless : d.isMatch [60] = true := (Graph.isMatch_eq arrows ⟨0, 1⟩ [60]).1.trans (by cbv)
  have hequals : d.isMatch [60, 61] = false :=
    (Graph.isMatch_eq arrows ⟨0, 1⟩ [60, 61]).1.trans (by cbv)
  have hletter : d.isMatch [60, 61, 120] = false :=
    (Graph.isMatch_eq arrows ⟨0, 1⟩ [60, 61, 120]).1.trans (by cbv)
  obtain ⟨q, hq, _⟩ := (Option.any_eq_true _ _).1 hless
  obtain ⟨s, hs⟩ := hstates [60] q hq
  refine ⟨hmade, q, s, hq, hs, (hsome 1 s.priority).2 ⟨⟨⟨by decide, hless⟩, ?_⟩, q, s, hq, hs, rfl⟩⟩
  rintro m ⟨hm, hmatch⟩
  by_contra hlong
  obtain rfl | rfl : m = 2 ∨ m = 3 := by
    simp only [List.length_cons, List.length_nil] at hm
    omega
  · exact Bool.false_ne_true (hequals.symm.trans hmatch)
  · exact Bool.false_ne_true (hletter.symm.trans hmatch)

end MaximalMunch.Dfa
