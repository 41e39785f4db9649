import MaximalMunch.Proofs.Coloring

/-! Minimization: merging the states of each colour keeps what is answered and brings the automaton
into canonical form. -/

namespace MaximalMunch.Dfa

variable {d : Dfa} {colors : Coloring} {q r c : Nat} {b : UInt8} {w : Bytes}

/-! ## Representatives -/

/-- The first states of all colours, ascending. -/
def origins (colors : Coloring) : List Nat :=
  (List.range colors.size).filter fun q => colors.toList.idxOf? (colorOf colors q) = some q

/-- The first state of a colour has it, and no state before it does. -/
theorem idxOf?_iff : colors.toList.idxOf? c = some q ↔
    q < colors.size ∧ colorOf colors q = c ∧ ∀ r < q, colorOf colors r ≠ c := by
  rw [List.idxOf?, List.findIdx?_eq_some_iff_getElem]
  constructor
  · rintro ⟨hq, hc, hfirst⟩
    have hq' : q < colors.size := by simpa using hq
    refine ⟨hq', by simpa [colorOf, hq'] using hc, fun r hr => ?_⟩
    have hr' : r < colors.size := by omega
    simpa [colorOf, hr'] using hfirst r hr
  · rintro ⟨hq, hc, hfirst⟩
    refine ⟨by simpa using hq, by simpa [colorOf, hq] using hc, fun r hr => ?_⟩
    have hr' : r < colors.size := by omega
    simpa [colorOf, hr'] using hfirst r hr

theorem mem_origins : q ∈ origins colors ↔ q < colors.size ∧
    ∀ r < q, colorOf colors r ≠ colorOf colors q := by
  simp only [origins, List.mem_filter, List.mem_range, decide_eq_true_eq, idxOf?_iff]
  tauto

/-- The colours of the first states ascend. -/
theorem origins_ascending (hg : Growing colors.toList) :
    ((origins colors).map (colorOf colors)).Pairwise (· < ·) := by
  rw [List.pairwise_map]
  have hasc : (origins colors).Pairwise (· < ·) := List.pairwise_lt_range.filter _
  refine hasc.imp_of_mem fun {q r} hq hr hqr => ?_
  obtain ⟨hqsize, _⟩ := mem_origins.1 hq
  obtain ⟨_, hfirst⟩ := mem_origins.1 hr
  rcases Nat.lt_trichotomy (colorOf colors q) (colorOf colors r) with hlt | heq | hgt
  · exact hlt
  · exact absurd heq (hfirst q hqr)
  · obtain ⟨j, hj, hcolor⟩ := hg q _ (getElem?_toList hqsize) _ hgt
    have hj' := getElem?_toList (show j < colors.size by omega)
    exact absurd (Option.some.inj (hj'.symm.trans hcolor)) (hfirst j (by omega))

theorem exists_origin (hq : q < colors.size) :
    ∃ r ≤ q, colorOf colors r = colorOf colors q ∧
      colors.toList.idxOf? (colorOf colors q) = some r := by
  have hmem : colorOf colors q ∈ colors.toList := List.mem_of_getElem? (getElem?_toList hq)
  cases h : colors.toList.idxOf? (colorOf colors q) with
  | none => exact absurd hmem (List.idxOf?_eq_none_iff.1 h)
  | some r =>
    obtain ⟨_, hcolor, hfirst⟩ := idxOf?_iff.1 h
    refine ⟨r, ?_, hcolor, rfl⟩
    by_contra hlt
    exact hfirst q (by omega) rfl

/-- The first state of a colour stands at the place the colour names. -/
theorem getElem?_origins (hg : Growing colors.toList) (c : Nat) :
    (origins colors)[c]? = colors.toList.idxOf? c := by
  have hplace : ∀ k q : Nat, (origins colors)[k]? = some q → colorOf colors q = k := by
    intro k q hk
    refine eq_of_getElem?_of_ascending (origins_ascending hg) ?_
      (by rw [List.getElem?_map, hk, Option.map_some])
    intro n hn m hm
    obtain ⟨x, hx, rfl⟩ := List.mem_map.1 hn
    have hxsize := (mem_origins.1 hx).1
    obtain ⟨j, hj, hcolor⟩ := hg x _ (getElem?_toList hxsize) m hm
    have hj' : j < colors.size := by omega
    have hjm : colorOf colors j = m := Option.some.inj ((getElem?_toList hj').symm.trans hcolor)
    obtain ⟨y, _, hy, hidx⟩ := exists_origin hj'
    refine List.mem_map.2 ⟨y, ?_, hy.trans hjm⟩
    rw [← hy] at hidx
    exact mem_origins.2 ⟨(idxOf?_iff.1 hidx).1, (idxOf?_iff.1 hidx).2.2⟩
  refine Option.ext fun q => ?_
  rw [idxOf?_iff]
  constructor
  · intro hq
    have hc := hplace c q hq
    obtain ⟨hsize, hfirst⟩ := mem_origins.1 (List.mem_of_getElem? hq)
    exact ⟨hsize, hc, hc ▸ hfirst⟩
  · rintro ⟨hsize, hc, hfirst⟩
    obtain ⟨k, hk⟩ := List.getElem?_of_mem (mem_origins.2 ⟨hsize, hc ▸ hfirst⟩)
    rw [← hc, hplace k q hk, hk]

theorem representatives_eq (hsize : colors.size = d.size) :
    d.representatives colors = (origins colors).filterMap d.state? := by
  have hzip : d.states.toList.zipIdx =
      (List.range d.size).filterMap fun q => (d.state? q).map (·, q) := by
    refine List.ext_getElem? fun q => ?_
    rw [getElem?_filterMap_of_isSome]
    · by_cases hq : q < d.size
      · have hq' : q < d.states.toList.length := by simpa [size] using hq
        rw [List.getElem?_range hq, Option.bind_some, state?_of_lt hq, Option.map_some,
          List.getElem?_zipIdx, Array.getElem?_toList, Nat.zero_add]
        exact congrArg (Option.map (·, q)) (state?_of_lt hq)
      · have hge : d.states.toList.zipIdx.length ≤ q := by simpa [size] using hq
        rw [List.getElem?_eq_none hge, List.getElem?_eq_none (by simpa using hq)]
        rfl
    · intro q hq
      simp [state?_of_lt (List.mem_range.1 hq)]
  rw [representatives, hzip, origins, List.filterMap_filter, List.filterMap_filterMap, hsize]
  refine List.filterMap_congr fun q hq => ?_
  rw [state?_of_lt (List.mem_range.1 hq)]
  simp [colorOf]

/-! ## Merging -/

/-- The states of one colour are taken to states of one colour. -/
structure Mergeable (d : Dfa) (colors : Coloring) : Prop extends d.Colors colors where
  base : d.Numbered
  stable : ∀ q < d.size, ∀ r < d.size, colorOf colors q = colorOf colors r →
    ∀ b, (d.step? q b).map (colorOf colors) = (d.step? r b).map (colorOf colors)

namespace Mergeable

/-- The merged states are the first states of the colours. -/
theorem state?_quotient (m : d.Mergeable colors) (c : Nat) : (d.quotient colors).state? c =
    (colors.toList.idxOf? c).bind fun q => (d.state? q).map fun s =>
      { s with row := s.row.map (colorOf colors) } := by
  have hsome : ∀ q ∈ origins colors, (d.state? q).isSome = true := by
    intro q hq
    have hlt : q < d.size := m.size ▸ (mem_origins.1 hq).1
    rw [state?_of_lt hlt]
    rfl
  rw [quotient, state?, representatives_eq m.size, List.getElem?_toArray, List.getElem?_map,
    getElem?_filterMap_of_isSome hsome, getElem?_origins m.growing]
  cases colors.toList.idxOf? c <;> rfl

/-- A merged state is the merged state of each state of its colour. -/
theorem exists_state (m : d.Mergeable colors) (hq : q < d.size) :
    ∃ r s, r < d.size ∧ colorOf colors r = colorOf colors q ∧ d.state? r = some s ∧
      (d.quotient colors).state? (colorOf colors q) =
        some { s with row := s.row.map (colorOf colors) } := by
  have hq' : q < colors.size := m.size.symm ▸ hq
  obtain ⟨r, hle, hcolor, hidx⟩ := exists_origin hq'
  have hr : r < d.size := by omega
  refine ⟨r, _, hr, hcolor, state?_of_lt hr, ?_⟩
  rw [m.state?_quotient, hidx, Option.bind_some, state?_of_lt hr, Option.map_some]

theorem exists_of_state? (m : d.Mergeable colors) {s : State}
    (h : (d.quotient colors).state? c = some s) : ∃ q < d.size, colorOf colors q = c := by
  rw [m.state?_quotient, Option.bind_eq_some_iff] at h
  obtain ⟨q, hq, _⟩ := h
  obtain ⟨hlt, hcolor, _⟩ := idxOf?_iff.1 hq
  exact ⟨q, m.size ▸ hlt, hcolor⟩

theorem lt_size_iff (m : d.Mergeable colors) :
    c < (d.quotient colors).size ↔ ∃ q < d.size, colorOf colors q = c := by
  constructor
  · intro hc
    exact m.exists_of_state? (state?_of_lt hc)
  · rintro ⟨q, hq, rfl⟩
    obtain ⟨_, _, _, _, _, hs⟩ := m.exists_state hq
    exact (Array.getElem?_eq_some_iff.1 hs).1

theorem isAccept_quotient (m : d.Mergeable colors) (hq : q < d.size) :
    (d.quotient colors).isAccept (colorOf colors q) = d.isAccept q := by
  obtain ⟨r, s, hr, hcolor, hs, hmerged⟩ := m.exists_state hq
  rw [← (m.tells r hr q hq hcolor).1, isAccept, hmerged, isAccept, hs]
  rfl

theorem priority_quotient (m : d.Mergeable colors) (hq : q < d.size) :
    (d.quotient colors).priority (colorOf colors q) = d.priority q := by
  obtain ⟨r, s, hr, hcolor, hs, hmerged⟩ := m.exists_state hq
  rw [← (m.tells r hr q hq hcolor).2, priority, hmerged, priority, hs]
  rfl

theorem step?_quotient (m : d.Mergeable colors) (hq : q < d.size) (b : UInt8) :
    (d.quotient colors).step? (colorOf colors q) b = (d.step? q b).map (colorOf colors) := by
  obtain ⟨r, s, hr, hcolor, hs, hmerged⟩ := m.exists_state hq
  rw [← m.stable r hr q hq hcolor b, step?, hmerged, step?, hs, Option.bind_some, Option.bind_some]
  exact Row.get?_map s.row _ b

theorem walk?_quotient (m : d.Mergeable colors) (hq : q < d.size) (w : Bytes) :
    (d.quotient colors).walk? (colorOf colors q) w = (d.walk? q w).map (colorOf colors) := by
  induction w generalizing q with
  | nil => rfl
  | cons b w ih =>
    rw [walk?, walk?, m.step?_quotient hq]
    cases hr : d.step? q b with
    | none => rfl
    | some r => exact ih (m.base.target q b r hr)

theorem answerFrom_quotient (m : d.Mergeable colors) (hq : q < d.size) (w : Bytes) :
    (d.quotient colors).answerFrom (colorOf colors q) w = d.answerFrom q w := by
  rw [answerFrom, answerFrom, m.walk?_quotient hq]
  cases hr : d.walk? q w with
  | none => rfl
  | some r =>
    have hlt := m.base.walk?_lt_of_lt hq hr
    rw [Option.map_some, Option.bind_some, Option.bind_some, m.isAccept_quotient hlt,
      m.priority_quotient hlt]

/-- The first state has the first colour. -/
theorem colorOf_zero (m : d.Mergeable colors) : colorOf colors 0 = 0 := by
  by_contra hne
  have hpos : 0 < colors.size := m.size.symm ▸ m.base.nonempty
  obtain ⟨j, hj, _⟩ := m.growing 0 _ (getElem?_toList hpos) 0 (Nat.pos_of_ne_zero hne)
  omega

theorem walk?_zero (m : d.Mergeable colors) (w : Bytes) :
    (d.quotient colors).walk? 0 w = (d.walk? 0 w).map (colorOf colors) := by
  have hwalk := m.walk?_quotient m.base.nonempty w
  rwa [m.colorOf_zero] at hwalk

theorem mark_quotient (m : d.Mergeable colors) {s : State}
    (hs : (d.quotient colors).state? c = some s) : s.tag.isStart = (c == 0) := by
  rw [m.state?_quotient, Option.bind_eq_some_iff] at hs
  obtain ⟨q, hq, hs⟩ := hs
  obtain ⟨s', hs', rfl⟩ := Option.map_eq_some_iff.1 hs
  obtain ⟨_, hcolor, hfirst⟩ := idxOf?_iff.1 hq
  have hzero := m.colorOf_zero
  rw [m.base.mark q s' hs', Bool.eq_iff_iff, beq_iff_eq, beq_iff_eq]
  constructor
  · rintro rfl
    rw [← hcolor, hzero]
  · rintro rfl
    by_contra hne
    exact hfirst 0 (Nat.pos_of_ne_zero hne) hzero

/-- A lower colour is that of a lower state, to which a smaller word leads. -/
theorem shortlex_quotient (m : d.Mergeable colors) {w : Bytes} {i j : Nat}
    (hw : (d.quotient colors).walk? 0 w = some j) (hij : i < j) :
    ∃ v, List.Shortlex (· < ·) v w ∧ (d.quotient colors).walk? 0 v = some i := by
  rw [m.walk?_zero, Option.map_eq_some_iff] at hw
  obtain ⟨q, hq, rfl⟩ := hw
  have hlt := m.base.walk?_lt hq
  obtain ⟨r, hr, hcolor⟩ := m.growing q _ (getElem?_toList (m.size.symm ▸ hlt)) i hij
  have hr' : r < colors.size := by
    rw [m.size]
    omega
  obtain ⟨v, hvw, hv⟩ := m.base.shortlex w q r hq hr
  refine ⟨v, hvw, ?_⟩
  rw [m.walk?_zero, hv, Option.map_some, Option.some.inj ((getElem?_toList hr').symm.trans hcolor)]

theorem numbered (m : d.Mergeable colors) : (d.quotient colors).Numbered where
  start := by
    show colorOf colors d.start = 0
    rw [m.base.start, m.colorOf_zero]
  nonempty := m.lt_size_iff.2 ⟨0, m.base.nonempty, m.colorOf_zero⟩
  target c b x hx := by
    obtain ⟨s, hs, _⟩ := Option.bind_eq_some_iff.1 hx
    obtain ⟨q, hq, rfl⟩ := m.exists_of_state? hs
    rw [m.step?_quotient hq, Option.map_eq_some_iff] at hx
    obtain ⟨r, hr, rfl⟩ := hx
    exact m.lt_size_iff.2 ⟨r, m.base.target q b r hr, rfl⟩
  mark _ _ hs := m.mark_quotient hs
  unset c hc := by
    by_cases hlt : c < (d.quotient colors).size
    · obtain ⟨q, hq, rfl⟩ := m.lt_size_iff.1 hlt
      rw [m.isAccept_quotient hq] at hc
      rw [m.priority_quotient hq, m.base.unset q hc]
    · have hnone : (d.quotient colors).state? c = none := Array.getElem?_eq_none (by
        simpa [size] using hlt)
      rw [priority, hnone]
      rfl
  reached c hc := by
    obtain ⟨q, hq, rfl⟩ := m.lt_size_iff.1 hc
    obtain ⟨w, hw⟩ := m.base.reached q hq
    exact ⟨w, by rw [m.walk?_zero, hw, Option.map_some]⟩
  shortlex _ _ _ hw hij := m.shortlex_quotient hw hij

theorem live (m : d.Mergeable colors) (hlive : d.Live) : (d.quotient colors).Live := by
  intro c hc
  obtain ⟨q, hq, rfl⟩ := m.lt_size_iff.1 hc
  obtain ⟨w, hw⟩ := hlive q hq
  exact ⟨w, by rwa [m.answerFrom_quotient hq]⟩

end Mergeable

/-- When accepting states are reached from everywhere, a missing transition is noticed: what is
answered to words tells what is observed of them. -/
theorem observe_eq_of_answers (hn : d.Numbered) (hlive : d.Live) (hq : q < d.size) (hr : r < d.size)
    (h : ∀ w, d.answerFrom q w = d.answerFrom r w) (w : Bytes) :
    d.observe q w = d.observe r w := by
  have hmissing : ∀ {q r}, r < d.size → (∀ w, d.answerFrom q w = d.answerFrom r w) →
      d.walk? q w = none → d.walk? r w = none := by
    intro q r hr h hnone
    cases hx : d.walk? r w with
    | none => rfl
    | some x =>
      obtain ⟨v, hv⟩ := hlive x (hn.walk?_lt_of_lt hr hx)
      rw [← answerFrom_append hx, ← h, answerFrom_eq_none_of_walk? hnone] at hv
      exact absurd rfl hv
  have hw := h w
  unfold observe
  unfold answerFrom at hw
  cases hx : d.walk? q w with
  | none => rw [hmissing hr h hx]
  | some x =>
    cases hy : d.walk? r w with
    | none =>
      rw [hmissing hq (fun w => (h w).symm) hy] at hx
      cases hx
    | some y =>
      rw [hx, hy, Option.bind_some, Option.bind_some] at hw
      have hux := hn.unset x
      have huy := hn.unset y
      cases hax : d.isAccept x <;> cases hay : d.isAccept y <;> simp_all

theorem stableColoring_mergeable (hn : d.Numbered) : d.Mergeable d.stableColoring := by
  obtain ⟨c, hstable⟩ := stableColoring_spec hn.nonempty hn.target
  exact { c with base := hn, stable := hstable }

/-- Minimizing keeps what is answered to every word. -/
theorem minimize_answer (hn : d.Numbered) (w : Bytes) : d.minimize.answer w = d.answer w := by
  unfold minimize
  split
  · rfl
  · have m := stableColoring_mergeable hn
    have h := m.answerFrom_quotient hn.nonempty w
    rw [m.colorOf_zero] at h
    rw [m.numbered.answer_eq, hn.answer_eq, h]

/-- Minimizing gives the canonical form. -/
theorem minimize_canonical (hn : d.Numbered) (hlive : d.Live) : d.minimize.Canonical := by
  unfold minimize
  split
  · refine { hn with live := hlive, reduced := fun q hq r hr _ => ?_ }
    omega
  · have m := stableColoring_mergeable hn
    refine { m.numbered with live := m.live hlive, reduced := fun c hc c' hc' h => ?_ }
    obtain ⟨q, hq, rfl⟩ := m.lt_size_iff.1 hc
    obtain ⟨r, hr, rfl⟩ := m.lt_size_iff.1 hc'
    simp only [m.answerFrom_quotient hq, m.answerFrom_quotient hr] at h
    exact m.merges q hq r hr (observe_eq_of_answers hn hlive hq hr h)

end MaximalMunch.Dfa
