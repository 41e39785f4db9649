import MaximalMunch.Proofs.FixedPoint

/-! The states of a deterministic automaton are numbered in breadth-first order: each has a least
word that leads to it, and the states stand in the order of these words. Automata are built in this
order, and merging states keeps it. -/

namespace MaximalMunch.Dfa

variable {d : Dfa} {i j q : Nat} {v w : Bytes}

/-! ## Least words -/

/-- Shorter words come before longer ones, words of one length in the order of their bytes. -/
abbrev Before (v w : Bytes) : Prop := List.Shortlex (· < ·) v w

instance before_isWellOrder : IsWellOrder Bytes Before where
  wf := List.Shortlex.wf byte_lt_wf

/-- A word leads to a state, and no word before it does. -/
structure LeastWord (d : Dfa) (q : Nat) (w : Bytes) : Prop where
  leads : d.walk? d.start w = some q
  least : ∀ v, Before v w → d.walk? d.start v ≠ some q

namespace LeastWord

theorem unique (hv : d.LeastWord q v) (hw : d.LeastWord q w) : v = w := by
  rcases trichotomous_of Before v w with hlt | heq | hgt
  · exact absurd hv.leads (hw.least v hlt)
  · exact heq
  · exact absurd hw.leads (hv.least w hgt)

/-- Among the words that lead to a state there is a least one. -/
theorem exists_of_leads (h : d.walk? d.start w = some q) : ∃ v, d.LeastWord q v := by
  obtain ⟨v, hv, hleast⟩ :=
    before_isWellOrder.wf.has_min (Set.ofPred fun w => d.walk? d.start w = some q) ⟨w, h⟩
  exact ⟨v, hv, fun x hx hlead => hleast x hlead hx⟩

/-- The least word of a state comes before all others that lead to it. -/
theorem eq_or_before (hv : d.LeastWord q v) (hw : d.walk? d.start w = some q) :
    v = w ∨ Before v w := by
  rcases trichotomous_of Before v w with hlt | heq | hgt
  · exact .inr hlt
  · exact .inl heq
  · exact absurd hw (hv.least w hgt)

end LeastWord

theorem Numbered.before_of_lt (h : d.Numbered) (hv : d.LeastWord i v) (hw : d.LeastWord j w)
    (hij : i < j) : Before v w := by
  obtain ⟨x, hxw, hx⟩ := h.shortlex w j i (h.start ▸ hw.leads) hij
  rcases hv.eq_or_before (h.start.symm ▸ hx) with rfl | hvx
  · exact hxw
  · exact trans_of Before hvx hxw

/-- States stand in the order of their least words. -/
theorem Numbered.lt_iff_before (h : d.Numbered) (hv : d.LeastWord i v) (hw : d.LeastWord j w) :
    i < j ↔ Before v w := by
  refine ⟨h.before_of_lt hv hw, fun hvw => ?_⟩
  rcases Nat.lt_trichotomy i j with hlt | rfl | hgt
  · exact hlt
  · exact absurd hv.leads (hw.least v hvw)
  · exact absurd (h.before_of_lt hw hv hgt) (asymm_of Before hvw)

/-! ## Well-formed automata -/

/-- States are named by their index, from the start state on in breadth-first order. All are
reached, edges lead to states, the accepting states are listed in ascending order, and no other
state has a priority. -/
structure WellFormed (d : Dfa) : Prop where
  start : d.start = 0
  mark : ∀ q < d.size, ∃ s, d.state? q = some s ∧ (s.tag.isStart = true ↔ q = 0)
  nonempty : 0 < d.size
  target : ∀ q b r, d.step? q b = some r → r < d.size
  mem_ends : ∀ q, q ∈ d.ends ↔ q < d.size ∧ d.isAccept q = true
  ascending : d.ends.Pairwise (· < ·)
  unset : ∀ q, d.isAccept q = false → d.priority q = none
  access : ∀ q < d.size, ∃! w, d.LeastWord q w
  order : ∀ i j v w, d.LeastWord i v → d.LeastWord j w → (i < j ↔ Before v w)

theorem mem_ends_iff : q ∈ d.ends ↔ q < d.size ∧ d.isAccept q = true := by
  rw [ends, List.mem_filter, List.mem_range]

theorem ends_pairwise (d : Dfa) : d.ends.Pairwise (· < ·) := List.pairwise_lt_range.filter _

theorem Numbered.wellFormed (h : d.Numbered) : d.WellFormed where
  start := h.start
  mark q hq := by
    have hs : d.state? q = some d.states[q] := Array.getElem?_eq_getElem hq
    exact ⟨_, hs, by rw [h.mark q _ hs, beq_iff_eq]⟩
  nonempty := h.nonempty
  target := h.target
  mem_ends _ := mem_ends_iff
  ascending := d.ends_pairwise
  unset := h.unset
  access q hq := by
    obtain ⟨w, hw⟩ := h.reached q hq
    obtain ⟨v, hv⟩ := LeastWord.exists_of_leads (h.start.symm ▸ hw : d.walk? d.start w = some q)
    exact ⟨v, hv, fun x hx => hx.unique hv⟩
  order _ _ _ _ hv hw := h.lt_iff_before hv hw

/-- The deterministic automaton of any component of any graph is well formed, and so is the minimal
one. -/
theorem ofNfa_minimize_wellFormed (g : Graph) (c : Component) :
    (ofNfa (.ofGraph g c)).WellFormed ∧ (ofNfa (.ofGraph g c)).minimize.WellFormed := by
  have h : (ofNfa (.ofGraph g c)).Numbered := ofNfa_numbered (Nfa.ofGraph_valid g c)
  exact ⟨h.wellFormed, (minimize_numbered h).wellFormed⟩

end MaximalMunch.Dfa
