import MaximalMunch.Proofs.Compile

/-! Minimizing again. What is observed of words tells apart all states of an automaton that has been
minimized, also where no accepting state can be reached any more. So each state has a colour of its
own, the colours are the numbers of the states, and merging changes nothing. -/

namespace MaximalMunch.Dfa

variable {d : Dfa} {colors : Coloring} {q r : Nat}

/-- Any two states are told apart by what is observed of some word. -/
def Discerned (d : Dfa) : Prop :=
  ∀ q < d.size, ∀ r < d.size, (∀ w, d.observe q w = d.observe r w) → q = r

namespace Mergeable

variable (m : d.Mergeable colors)

include m

theorem observe_quotient (hq : q < d.size) (w : Bytes) :
    (d.quotient colors).observe (colorOf colors q) w = d.observe q w := by
  rw [observe, observe, m.walk?_quotient hq]
  cases hr : d.walk? q w with
  | none => rfl
  | some r =>
    have hlt := m.base.walk?_lt_of_lt hq hr
    rw [Option.map_some, Option.map_some, Option.map_some, m.isAccept_quotient hlt,
      m.priority_quotient hlt]

theorem discerned_quotient : (d.quotient colors).Discerned := by
  intro c hc c' hc' h
  obtain ⟨q, hq, rfl⟩ := m.lt_size_iff.1 hc
  obtain ⟨r, hr, rfl⟩ := m.lt_size_iff.1 hc'
  simp only [m.observe_quotient hq, m.observe_quotient hr] at h
  exact m.merges q hq r hr h

/-- States of one colour are observed alike, as they become one state. -/
theorem observe_eq (hq : q < d.size) (hr : r < d.size) (h : colorOf colors q = colorOf colors r)
    (w : Bytes) : d.observe q w = d.observe r w := by
  rw [← m.observe_quotient hq, h, m.observe_quotient hr]

section Discerned

variable (hd : d.Discerned)

include hd

/-- The colour of a state is its number. The induction is on the state: the states before it have
the colours below its number, and colours are handed out in ascending order. -/
theorem colorOf_eq_self (hq : q < d.size) : colorOf colors q = q := by
  induction q using Nat.strongRecOn with
  | ind q ih =>
    rcases Nat.lt_trichotomy (colorOf colors q) q with hlt | heq | hgt
    · have hcolor := ih _ hlt (Nat.lt_trans hlt hq)
      exact hd _ (Nat.lt_trans hlt hq) q hq (m.observe_eq (Nat.lt_trans hlt hq) hq hcolor)
    · exact heq
    · have hsize : q < colors.size := m.size.symm ▸ hq
      obtain ⟨j, hj, hcolor⟩ := m.growing q _ (getElem?_toList hsize) q hgt
      rw [getElem?_toList (Nat.lt_trans hj hsize), ih j hj (Nat.lt_trans hj hq),
        Option.some.injEq] at hcolor
      omega

theorem idxOf?_eq_self (hq : q < d.size) : colors.toList.idxOf? q = some q := by
  refine idxOf?_iff.2 ⟨m.size.symm ▸ hq, m.colorOf_eq_self hd hq, fun r hr => ?_⟩
  rw [m.colorOf_eq_self hd (Nat.lt_trans hr hq)]
  exact Nat.ne_of_lt hr

/-- The transitions of a state lead where they led. -/
theorem map_row_eq_self {s : State} (hs : d.state? q = some s) :
    s.row.map (colorOf colors) = s.row := by
  refine Row.ext_get? fun b => ?_
  have hstep : d.step? q b = s.row.get? b := by rw [step?, hs, Option.bind_some]
  rw [Row.get?_map, ← hstep]
  cases hr : d.step? q b with
  | none => rfl
  | some r => rw [Option.map_some, m.colorOf_eq_self hd (m.base.target q b r hr)]

theorem quotient_eq_self : d.quotient colors = d := by
  refine Dfa.ext (m.numbered.start.trans m.base.start.symm) (Array.ext_getElem? fun q => ?_)
  show (d.quotient colors).state? q = d.state? q
  rw [m.state?_quotient]
  by_cases hq : q < d.size
  · rw [m.idxOf?_eq_self hd hq, Option.bind_some]
    cases hs : d.state? q with
    | none => rfl
    | some s => rw [Option.map_some, m.map_row_eq_self hd hs]
  · have hnone : d.state? q = none := Array.getElem?_eq_none (Nat.le_of_not_lt hq)
    cases hidx : colors.toList.idxOf? q with
    | none => rw [hnone, Option.bind_none]
    | some r =>
      obtain ⟨hr, hcolor, _⟩ := idxOf?_iff.1 hidx
      rw [m.size] at hr
      rw [m.colorOf_eq_self hd hr] at hcolor
      exact absurd (hcolor ▸ hr) hq

end Discerned

end Mergeable

theorem minimize_numbered (hn : d.Numbered) : d.minimize.Numbered := by
  unfold minimize
  split
  · exact hn
  · exact (stableColoring_mergeable hn).numbered

theorem minimize_discerned (hn : d.Numbered) : d.minimize.Discerned := by
  unfold minimize
  split
  · intro q hq r hr _
    omega
  · exact (stableColoring_mergeable hn).discerned_quotient

/-- An automaton whose states are all told apart is not changed. -/
theorem minimize_eq_self (hn : d.Numbered) (hd : d.Discerned) : d.minimize = d := by
  rw [minimize]
  split
  · rfl
  · exact (stableColoring_mergeable hn).quotient_eq_self hd

/-- The deterministic automaton of any component of any graph is minimized by minimizing it once:
the result has the same answers, its states are told apart by what is observed of words, and
minimizing it again gives the very same automaton. -/
theorem minimize_minimize_ofNfa (g : Graph) (c : Component) :
    let d := ofNfa (.ofGraph g c)
    let m := d.minimize
    (∀ w, m.answer w = d.answer w) ∧ m.Discerned ∧ m.minimize = m := by
  intro d m
  have hn : d.Numbered := ofNfa_numbered (Nfa.ofGraph_valid g c)
  have hd := minimize_discerned hn
  exact ⟨minimize_answer hn, hd, minimize_eq_self (minimize_numbered hn) hd⟩

end MaximalMunch.Dfa
