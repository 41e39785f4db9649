import MaximalMunch.Dfa.Subset
import MaximalMunch.Proofs.Canonical
import MaximalMunch.Proofs.Interning
import MaximalMunch.Proofs.Priority
import MaximalMunch.Proofs.Run

/-! Determinization: the states are the sets of nodes that runs may be in, in the order of the
shortlex-least words that lead to them. -/

namespace MaximalMunch

theorem NodeSet.isEmpty_iff {s : NodeSet} : s.isEmpty = true ↔ ∀ i, ¬ i ∈ s := by
  rw [isEmpty, beq_iff_eq]
  constructor
  · intro h i hi
    have hbit : s.bits.testBit i = true := hi
    rw [h, Nat.zero_testBit] at hbit
    cases hbit
  · intro h
    refine Nat.eq_of_testBit_eq fun i => ?_
    rw [Nat.zero_testBit]
    exact Bool.eq_false_iff.2 (h i)

/-- The set itself, unless it is empty. -/
def NodeSet.occupied? (s : NodeSet) : Option NodeSet := if s.isEmpty then none else some s

theorem NodeSet.occupied?_eq_some {s t : NodeSet} :
    s.occupied? = some t ↔ s = t ∧ ∃ i, i ∈ s := by
  unfold occupied?
  split
  · rename_i h
    simp [isEmpty_iff.1 h]
  · rename_i h
    rw [isEmpty_iff] at h
    simpa using fun _ => h

theorem NodeSet.occupied?_eq_none {s : NodeSet} : s.occupied? = none ↔ ∀ i, ¬ i ∈ s := by
  unfold occupied?
  split
  · rename_i h
    simpa using isEmpty_iff.1 h
  · rename_i h
    rw [isEmpty_iff] at h
    simpa using h

theorem Row.get?_ofFn (f : UInt8 → Option Nat) (b : UInt8) : (Row.ofFn f).get? b = f b := by
  simp [get?, ofFn]

theorem Row.get?_empty (b : UInt8) : Row.empty.get? b = none := Row.get?_ofFn (fun _ => none) b

theorem numberSets_numbers (known : Array NodeSet) (sets : List NodeSet) :
    Numbers known (numberSets known sets).2 (sets.map NodeSet.occupied?)
      (numberSets known sets).1 := by
  induction sets generalizing known with
  | nil => exact Numbers.nil known
  | cons set sets ih =>
    rw [List.map_cons, numberSets, NodeSet.occupied?]
    split
    · exact Numbers.none (ih known)
    · exact Numbers.some (ih (intern known set).2)

namespace Nfa

variable {a : Nfa} {known : Array NodeSet} {rows : Array Row} {set : NodeSet}

/-! ## One row -/

/-- Bytes of one class lead to the same nodes. -/
theorem follow_eq_of_key (closures : Array NodeSet) (set : NodeSet) {b c : UInt8}
    (h : a.labels.map (·.contains b) = a.labels.map (·.contains c)) :
    follow closures (a.edgesOf set) b = follow closures (a.edgesOf set) c := by
  unfold follow
  congr 1
  refine List.filter_congr fun e he => ?_
  obtain ⟨u, _, heu⟩ := mem_edgesOf.1 he
  have hlabel : e.label ∈ a.labels := by
    unfold Nfa.edges at heu
    cases hn : a.node? u with
    | none => simp [hn] at heu
    | some n =>
      have hmem : n ∈ a.nodes.toList := Array.mem_toList_iff.2 (Array.mem_of_getElem? hn)
      rw [hn] at heu
      rw [labels, List.mem_eraseDups, List.mem_flatMap]
      exact ⟨n, hmem, List.mem_map_of_mem heu⟩
  exact List.map_inj_left.1 h e.label hlabel

/-- The row of a set names the sets that bytes lead to, and numbers new ones in the order of the
bytes. -/
structure RowOf (a : Nfa) (known known' : Array NodeSet) (set : NodeSet) (row : Row) : Prop where
  grows : Extends known known'
  distinct : Distinct known → Distinct known'
  leads : ∀ b, Option.Rel (fun s i => known'[i]? = some s)
    (a.move a.closures set b).occupied? (row.get? b)
  new : ∀ i, known.size ≤ i → i < known'.size → ∃ b, row.get? b = some i
  ordered : ∀ b i, row.get? b = some i → ∀ d, known.size ≤ d → d < i →
    ∃ c < b, row.get? c = some d

section Columns

variable {classes : ByteClasses} {known' : Array NodeSet} {numbers : List (Option Nat)}
  (hc : classes.Represents fun b => a.labels.map (·.contains b))
  (h : Numbers known known'
    ((classes.smallest.map (follow a.closures (a.edgesOf set))).map NodeSet.occupied?) numbers)

include h

private theorem length_columns : numbers.length = classes.smallest.length := by
  simpa using h.names.length_eq.symm

include hc

/-- The number of a class stands in the column of its smallest byte. -/
private theorem exists_column {k : Nat} {n : Option Nat} (hk : numbers[k]? = some n) :
    ∃ c, classes.smallest[k]? = some c ∧ classes.get c = k := by
  have hlt : k < classes.smallest.length :=
    length_columns h ▸ (List.getElem?_eq_some_iff.1 hk).1
  have hget := List.getElem?_eq_getElem hlt
  exact ⟨_, hget, hc.get k _ hget⟩

private theorem rowOf_columns :
    RowOf a known known' set (Row.ofFn fun b => (numbers[classes.get b]?).getD none) := by
  constructor
  · exact h.grows
  · exact h.distinct
  · intro b
    obtain ⟨c, hsmallest, hkey, _⟩ := hc.smallest b
    obtain ⟨hlt, hget⟩ := List.getElem?_eq_some_iff.1 hsmallest
    have hlt' := hlt
    rw [← length_columns h] at hlt'
    have hrel := h.names.get (by simpa using hlt) hlt'
    rw [Row.get?_ofFn, List.getElem?_eq_getElem hlt', Option.getD_some, move,
      follow_eq_of_key a.closures set hkey.symm]
    simpa [hget] using hrel
  · intro i hi hlt
    obtain ⟨k, hk⟩ := List.getElem?_of_mem (h.new i hi hlt)
    obtain ⟨c, _, hget⟩ := exists_column hc h hk
    exact ⟨c, by rw [Row.get?_ofFn, hget, hk, Option.getD_some]⟩
  · intro b i hb d hd hlt
    rw [Row.get?_ofFn, Option.getD_eq_iff] at hb
    obtain ⟨j, hj, hjd⟩ := h.ordered _ i (hb.resolve_right (by simp)) d hd hlt
    obtain ⟨c, hc₁, _, hle⟩ := hc.smallest b
    obtain ⟨c', hc₂, hget⟩ := exists_column hc h hjd
    obtain ⟨hj', rfl⟩ := List.getElem?_eq_some_iff.1 hc₂
    obtain ⟨hb', rfl⟩ := List.getElem?_eq_some_iff.1 hc₁
    have hlt := List.pairwise_iff_getElem.1 hc.ascending j _ hj' hb' hj
    exact ⟨_, UInt8.lt_of_lt_of_le hlt hle, by rw [Row.get?_ofFn, hget, hjd, Option.getD_some]⟩

end Columns

theorem rowOf_spec (a : Nfa) (known : Array NodeSet) (set : NodeSet) :
    RowOf a known (a.rowOf a.closures a.byteClasses known set).2 set
      (a.rowOf a.closures a.byteClasses known set).1 := by
  have hc : a.byteClasses.Represents fun b => a.labels.map (·.contains b) := by
    unfold byteClasses
    exact ByteClasses.ofKey_represents _
  simpa [rowOf] using rowOf_columns hc (numberSets_numbers known _)

/-! ## All rows -/

/-- The set a byte leads to, as far as the rows tell. -/
def rowStep (rows : Array Row) (q : Nat) (b : UInt8) : Option Nat :=
  rows[q]?.bind fun row => row.get? b

/-- What holds in the course of the exploration. The sets known are different sets of nodes, each
found from one before it; each row names the sets its bytes lead to; and what is numbered lower has
been found from a lower set, or from the same one by a lower byte. -/
structure Exploring (a : Nfa) (known : Array NodeSet) (rows : Array Row) : Prop where
  first : known[0]? = some (a.initial a.closures)
  distinct : Distinct known
  nodes : ∀ (q : Nat) set, known[q]? = some set → (∃ u, u ∈ set) ∧ ∀ u ∈ set, u < a.size
  rows_le : rows.size ≤ known.size
  leads : ∀ q < rows.size, ∀ set, known[q]? = some set → ∀ b,
    Option.Rel (fun s i => known[i]? = some s) (a.move a.closures set b).occupied?
      (rowStep rows q b)
  found : ∀ r, 0 < r → r < known.size → ∃ q b, q < r ∧ rowStep rows q b = some r
  ordered : ∀ q b r, rowStep rows q b = some r → ∀ s, 0 < s → s < r →
    ∃ q' b', rowStep rows q' b' = some s ∧ (q' < q ∨ q' = q ∧ b' < b)

/-- A move leads to nodes of the automaton. -/
theorem lt_of_mem_move (ha : a.Valid) {b : UInt8} {v : Nat} (hv : v ∈ a.move a.closures set b) :
    v < a.size := by
  obtain ⟨u, _, e, he, _, p⟩ := (mem_move ha).1 hv
  exact ha.path_lt (ha u e he) p

theorem rowStep_push_of_lt {row : Row} {q : Nat} (hq : q < rows.size) (b : UInt8) :
    rowStep (rows.push row) q b = rowStep rows q b := by
  rw [rowStep, rowStep, Array.getElem?_push_lt hq, Array.getElem?_eq_getElem hq]

theorem rowStep_push_size {row : Row} (b : UInt8) :
    rowStep (rows.push row) rows.size b = row.get? b := by
  rw [rowStep, Array.getElem?_push_size, Option.bind_some]

theorem lt_of_rowStep {q r : Nat} {b : UInt8} (h : rowStep rows q b = some r) : q < rows.size := by
  obtain ⟨row, hrow, _⟩ := Option.bind_eq_some_iff.1 h
  exact (Array.getElem?_eq_some_iff.1 hrow).1

namespace Exploring

theorem start (ha : a.Valid) (hsize : 0 < a.size) :
    Exploring a #[a.initial a.closures] #[] where
  first := rfl
  distinct i j v hi hj := by
    have hi := (Array.getElem?_eq_some_iff.1 hi).1
    have hj := (Array.getElem?_eq_some_iff.1 hj).1
    simp only [List.size_toArray, List.length_singleton] at hi hj
    omega
  nodes q set hq := by
    obtain ⟨hlt, rfl⟩ := Array.getElem?_eq_some_iff.1 hq
    have hq : q = 0 := by simpa using hlt
    subst hq
    refine ⟨⟨0, (mem_closures ha hsize).2 (Path.refl 0)⟩, fun u hu => ?_⟩
    exact ha.path_lt hsize ((mem_closures ha hsize).1 hu)
  rows_le := by simp
  leads q hq := by simp at hq
  found r h0 hlt := by
    simp only [List.size_toArray, List.length_singleton] at hlt
    omega
  ordered q b r h := by simp [rowStep] at h

section Push

variable {known' : Array NodeSet} {row : Row} (ha : a.Valid) (h : Exploring a known rows)
  (hset : known[rows.size]? = some set) (hrow : RowOf a known known' set row)

include hrow in
theorem old_of_lt {i : Nat} {s : NodeSet} (hi : i < known.size) (hs : known'[i]? = some s) :
    known[i]? = some s := by
  have hi' := Array.getElem?_eq_getElem hi
  rw [hi', ← hs, hrow.grows i _ hi']

include h hrow

include ha in
/-- New sets are not empty and consist of nodes. -/
theorem push_nodes {q : Nat} {s : NodeSet} (hs : known'[q]? = some s) :
    (∃ u, u ∈ s) ∧ ∀ u ∈ s, u < a.size := by
  by_cases hq : q < known.size
  · exact h.nodes q s (old_of_lt hrow hq hs)
  · have hq' : q < known'.size := (Array.getElem?_eq_some_iff.1 hs).1
    obtain ⟨b, hb⟩ := hrow.new q (by omega) hq'
    have hrel := hrow.leads b
    rw [hb] at hrel
    obtain ⟨t, ht, hnum⟩ := rel_some_right.1 hrel
    obtain ⟨rfl, hocc⟩ := NodeSet.occupied?_eq_some.1 ht
    rw [hnum, Option.some.injEq] at hs
    subst hs
    exact ⟨hocc, fun u hu => lt_of_mem_move ha hu⟩

include hset

theorem push_leads {q : Nat} {s : NodeSet} (hq : q < (rows.push row).size)
    (hs : known'[q]? = some s) (b : UInt8) :
    Option.Rel (fun s i => known'[i]? = some s) (a.move a.closures s b).occupied?
      (rowStep (rows.push row) q b) := by
  have hlt : rows.size < known.size := (Array.getElem?_eq_some_iff.1 hset).1
  rw [Array.size_push] at hq
  by_cases hqr : q < rows.size
  · have hrel := h.leads q hqr s (old_of_lt hrow (by omega) hs) b
    rw [rowStep_push_of_lt hqr]
    exact rel_mono (fun t i hi => hrow.grows i t hi) hrel
  · have hqr : q = rows.size := by omega
    subst hqr
    rw [rowStep_push_size]
    have hs := old_of_lt hrow hlt hs
    rw [hset, Option.some.injEq] at hs
    exact hs ▸ hrow.leads b

theorem push_found {r : Nat} (h0 : 0 < r) (hr : r < known'.size) :
    ∃ q b, q < r ∧ rowStep (rows.push row) q b = some r := by
  have hlt : rows.size < known.size := (Array.getElem?_eq_some_iff.1 hset).1
  by_cases hrk : r < known.size
  · obtain ⟨q, b, hq, hstep⟩ := h.found r h0 hrk
    exact ⟨q, b, hq, by rw [rowStep_push_of_lt (lt_of_rowStep hstep), hstep]⟩
  · obtain ⟨b, hb⟩ := hrow.new r (by omega) hr
    exact ⟨rows.size, b, by omega, by rw [rowStep_push_size, hb]⟩

omit hset in
theorem push_ordered {q r s : Nat} {b : UInt8} (hstep : rowStep (rows.push row) q b = some r)
    (h0 : 0 < s) (hsr : s < r) : ∃ q' b', rowStep (rows.push row) q' b' = some s ∧
      (q' < q ∨ q' = q ∧ b' < b) := by
  have hq := lt_of_rowStep hstep
  rw [Array.size_push] at hq
  by_cases hqr : q < rows.size
  · rw [rowStep_push_of_lt hqr] at hstep
    obtain ⟨q', b', hstep', hle⟩ := h.ordered q b r hstep s h0 hsr
    exact ⟨q', b', by rw [rowStep_push_of_lt (lt_of_rowStep hstep'), hstep'], hle⟩
  · have hqr : q = rows.size := by omega
    subst hqr
    rw [rowStep_push_size] at hstep
    by_cases hsk : s < known.size
    · obtain ⟨q', b', _, hstep'⟩ := h.found s h0 hsk
      have hq' := lt_of_rowStep hstep'
      exact ⟨q', b', by rw [rowStep_push_of_lt hq', hstep'], Or.inl hq'⟩
    · obtain ⟨c, hc, hget⟩ := hrow.ordered b r hstep s (by omega) hsr
      exact ⟨rows.size, c, by rw [rowStep_push_size, hget], Or.inr ⟨rfl, hc⟩⟩

include ha in
/-- The next set gets its row. -/
theorem push : Exploring a known' (rows.push row) where
  first := hrow.grows 0 _ h.first
  distinct := hrow.distinct h.distinct
  nodes _ _ hs := h.push_nodes ha hrow hs
  rows_le := by
    have hlt : rows.size < known.size := (Array.getElem?_eq_some_iff.1 hset).1
    have hle := hrow.grows.size_le
    rw [Array.size_push]
    omega
  leads _ hq _ hs b := h.push_leads hset hrow hq hs b
  found _ h0 hr := h.push_found hset hrow h0 hr
  ordered _ _ _ hstep _ h0 hsr := h.push_ordered hrow hstep h0 hsr

end Push

/-- There are not more sets known than there are sets of nodes. -/
theorem size_le (h : Exploring a known rows) : known.size ≤ 2 ^ a.size := by
  have hlt : ∀ q : Fin known.size, known[q].bits < 2 ^ a.size := by
    intro q
    refine Nat.lt_pow_two_of_testBit _ fun i hi => ?_
    by_contra hbit
    have hmem : known[q].bits.testBit i = true := by simpa using hbit
    have := (h.nodes q _ (Array.getElem?_eq_getElem q.isLt)).2 i hmem
    omega
  have hinj : Function.Injective fun q : Fin known.size =>
      (⟨known[q].bits, hlt q⟩ : Fin (2 ^ a.size)) := by
    intro q r hqr
    have hset : known[q] = known[r] := NodeSet.ext (Fin.mk.inj hqr)
    have hq := Array.getElem?_eq_getElem q.isLt
    have hr := Array.getElem?_eq_getElem r.isLt
    exact Fin.ext (h.distinct q r _ hq (hr.trans (congrArg some hset.symm)))
  simpa using Fintype.card_le_of_injective _ hinj

/-- With enough fuel, every set gets its row. -/
theorem explore (ha : a.Valid) {fuel : Nat} (h : Exploring a known rows)
    (hfuel : 2 ^ a.size ≤ fuel + rows.size) :
    Exploring a (a.explore a.closures a.byteClasses fuel known rows).1
        (a.explore a.closures a.byteClasses fuel known rows).2 ∧
      (a.explore a.closures a.byteClasses fuel known rows).1.size ≤
        (a.explore a.closures a.byteClasses fuel known rows).2.size := by
  induction fuel generalizing known rows with
  | zero =>
    have := h.size_le
    exact ⟨h, by simp only [Nfa.explore]; omega⟩
  | succ fuel ih =>
    unfold Nfa.explore
    split
    · rename_i hnone
      exact ⟨h, by simpa using hnone⟩
    · rename_i set hset
      have hrow := rowOf_spec a known set
      generalize a.rowOf a.closures a.byteClasses known set = next at hrow
      refine ih (h.push ha hset hrow) ?_
      rw [Array.size_push]
      omega

end Exploring

end Nfa

namespace Dfa

variable {a : Nfa} {d : Dfa} {sets : Array NodeSet} {q : Nat} {w : Bytes}

/-! ## The automaton -/

/-- The states of an automaton are sets of nodes of another one: the first is the set before
reading, and transitions are moves to sets that are not empty. -/
structure Tracks (d : Dfa) (a : Nfa) (sets : Array NodeSet) : Prop where
  start : d.start = 0
  size : d.size = sets.size
  first : sets[0]? = some (a.initial a.closures)
  nodes : ∀ (q : Nat) set, sets[q]? = some set → (∃ u, u ∈ set) ∧ ∀ u ∈ set, u < a.size
  mark : ∀ q s, d.state? q = some s → s.tag.isStart = (q == 0)
  isAccept : ∀ (q : Nat) set, sets[q]? = some set → d.isAccept q = set.toList.any a.isAccept
  priority : ∀ (q : Nat) set, sets[q]? = some set → d.priority q = a.bestPriority set
  leads : ∀ (q : Nat) set, sets[q]? = some set → ∀ b,
    Option.Rel (fun s i => sets[i]? = some s) (a.move a.closures set b).occupied? (d.step? q b)
  found : ∀ r, 0 < r → r < d.size → ∃ q b, q < r ∧ d.step? q b = some r
  ordered : ∀ q b r, d.step? q b = some r → ∀ s, 0 < s → s < r →
    ∃ q' b', d.step? q' b' = some s ∧ (q' < q ∨ q' = q ∧ b' < b)

/-- The states of an automaton carry the sets and the rows of an exploration. -/
structure Carries (d : Dfa) (a : Nfa) (sets : Array NodeSet) (rows : Array Row) : Prop where
  start : d.start = 0
  size : d.size = min sets.size rows.size
  state : ∀ q, d.state? q = sets[q]?.bind fun set => rows[q]?.map fun row =>
    ⟨⟨q == 0, set.toList.any a.isAccept⟩, a.bestPriority set, row⟩

theorem ofNfa_carries (a : Nfa) : (ofNfa a).Carries a
    (a.explore a.closures a.byteClasses (Nat.pow 2 a.size) #[a.initial a.closures] #[]).1
    (a.explore a.closures a.byteClasses (Nat.pow 2 a.size) #[a.initial a.closures] #[]).2 where
  start := rfl
  size := by simp [ofNfa, size]
  state q := by
    simp only [ofNfa, state?]
    generalize a.explore a.closures a.byteClasses (Nat.pow 2 a.size) #[a.initial a.closures] #[] = r
    simp only [List.getElem?_toArray, List.getElem?_map, List.getElem?_zipIdx, List.zip,
      List.getElem?_zipWith, Array.getElem?_toList]
    cases r.1[q]? <;> cases r.2[q]? <;> simp

namespace Carries

variable {rows : Array Row} (c : d.Carries a sets rows) (hle : sets.size ≤ rows.size)

include c hle

theorem state_eq {set : NodeSet} (hset : sets[q]? = some set) : ∃ row, rows[q]? = some row ∧
    d.state? q = some ⟨⟨q == 0, set.toList.any a.isAccept⟩, a.bestPriority set, row⟩ := by
  have hlt : q < rows.size := by
    have := (Array.getElem?_eq_some_iff.1 hset).1
    omega
  have hrow := Array.getElem?_eq_getElem hlt
  exact ⟨_, hrow, by rw [c.state, hset, hrow]; rfl⟩

theorem step?_eq (h : a.Exploring sets rows) (b : UInt8) : d.step? q b = Nfa.rowStep rows q b := by
  have hrows := h.rows_le
  cases hset : sets[q]? with
  | some set =>
    obtain ⟨row, hrow, hq⟩ := c.state_eq hle hset
    rw [step?, hq, Nfa.rowStep, hrow]
    rfl
  | none =>
    have hnone : rows[q]? = none := by
      rw [Array.getElem?_eq_none_iff] at hset ⊢
      omega
    rw [step?, c.state, hset, Nfa.rowStep, hnone]
    rfl

/-- When all sets have their rows, the states track them. -/
theorem tracks (h : a.Exploring sets rows) : d.Tracks a sets where
  start := c.start
  size := by
    rw [c.size]
    omega
  first := h.first
  nodes := h.nodes
  mark q s hs := by
    rw [c.state] at hs
    obtain ⟨set, _, hs⟩ := Option.bind_eq_some_iff.1 hs
    obtain ⟨row, _, rfl⟩ := Option.map_eq_some_iff.1 hs
    rfl
  isAccept q set hset := by
    obtain ⟨row, _, hq⟩ := c.state_eq hle hset
    rw [Dfa.isAccept, hq]
    rfl
  priority q set hset := by
    obtain ⟨row, _, hq⟩ := c.state_eq hle hset
    rw [Dfa.priority, hq]
    rfl
  leads q set hset b := by
    have hlt := (Array.getElem?_eq_some_iff.1 hset).1
    rw [c.step?_eq hle h]
    exact h.leads q (by omega) set hset b
  found r h0 hr := by
    rw [c.size] at hr
    obtain ⟨q, b, hq, hrow⟩ := h.found r h0 (by omega)
    exact ⟨q, b, hq, by rw [c.step?_eq hle h, hrow]⟩
  ordered q b r hqr s h0 hs := by
    rw [c.step?_eq hle h] at hqr
    obtain ⟨q', b', hrow, hlt⟩ := h.ordered q b r hqr s h0 hs
    exact ⟨q', b', by rw [c.step?_eq hle h, hrow], hlt⟩

end Carries

theorem ofNfa_tracks (ha : a.Valid) (hsize : 0 < a.size) : ∃ sets, (ofNfa a).Tracks a sets := by
  have hfuel : 2 ^ a.size ≤ Nat.pow 2 a.size + (#[] : Array Row).size := Nat.le_add_right _ _
  obtain ⟨h, hle⟩ := (Nfa.Exploring.start ha hsize).explore ha hfuel
  exact ⟨_, (ofNfa_carries a).tracks hle h⟩

namespace Tracks

/-- A word leads to the set of nodes that runs may be in after it. -/
theorem walk? (t : d.Tracks a sets) (ha : a.Valid) (w : Bytes) :
    Option.Rel (fun s q => sets[q]? = some s) (a.after w).occupied? (d.walk? 0 w) := by
  induction w using List.reverseRecOn with
  | nil =>
    have hocc : (a.after []).occupied? = some (a.after []) :=
      NodeSet.occupied?_eq_some.2 ⟨rfl, (t.nodes 0 _ t.first).1⟩
    rw [hocc]
    exact Option.Rel.some t.first
  | append_singleton w b ih =>
    rw [walk?_snoc, Nfa.after_append]
    cases hq : d.walk? 0 w with
    | none =>
      rw [hq, rel_none_right, NodeSet.occupied?_eq_none] at ih
      rw [Option.bind_none, rel_none_right, NodeSet.occupied?_eq_none]
      intro v hv
      obtain ⟨u, hu, _⟩ := (Nfa.mem_move ha).1 hv
      exact ih u hu
    | some q =>
      rw [hq] at ih
      obtain ⟨s, hs, hset⟩ := rel_some_right.1 ih
      obtain ⟨rfl, _⟩ := NodeSet.occupied?_eq_some.1 hs
      exact t.leads q _ hset b

theorem walk?_some (t : d.Tracks a sets) (ha : a.Valid) (hq : d.walk? 0 w = some q) :
    sets[q]? = some (a.after w) ∧ ∃ u, u ∈ a.after w := by
  have h := t.walk? ha w
  rw [hq] at h
  obtain ⟨s, hs, hset⟩ := rel_some_right.1 h
  obtain ⟨rfl, hocc⟩ := NodeSet.occupied?_eq_some.1 hs
  exact ⟨hset, hocc⟩

theorem walk?_none (t : d.Tracks a sets) (ha : a.Valid) (hq : d.walk? 0 w = none) :
    ∀ u, ¬ u ∈ a.after w := by
  have h := t.walk? ha w
  rwa [hq, rel_none_right, NodeSet.occupied?_eq_none] at h

theorem answer_eq (t : d.Tracks a sets) (ha : a.Valid) (w : Bytes) : d.answer w =
    if (a.after w).toList.any a.isAccept then some (a.bestPriority (a.after w)) else none := by
  rw [answer, answerFrom, t.start]
  cases hq : d.walk? 0 w with
  | none =>
    have hempty := t.walk?_none ha hq
    have hany : (a.after w).toList.any a.isAccept = false := by
      rw [List.any_eq_false]
      intro u hu
      exact absurd (NodeSet.mem_toList.1 hu) (hempty u)
    simp [hany]
  | some q =>
    obtain ⟨hset, _⟩ := t.walk?_some ha hq
    rw [Option.bind_some, t.isAccept q _ hset, t.priority q _ hset]

theorem numbered (t : d.Tracks a sets) : d.Numbered where
  start := t.start
  nonempty := t.size ▸ (Array.getElem?_eq_some_iff.1 t.first).1
  target q b r hr := by
    have hq : ∃ set, sets[q]? = some set := by
      by_contra hno
      have hge : d.size ≤ q := by
        rw [t.size]
        by_contra hlt
        exact hno ⟨_, Array.getElem?_eq_getElem (by omega)⟩
      have hnone : d.state? q = none := Array.getElem?_eq_none hge
      simp [step?, hnone] at hr
    obtain ⟨set, hset⟩ := hq
    have h := t.leads q set hset b
    rw [hr] at h
    obtain ⟨s, _, hr⟩ := rel_some_right.1 h
    rw [t.size]
    exact (Array.getElem?_eq_some_iff.1 hr).1
  mark := t.mark
  unset q hq := by
    cases hs : sets[q]? with
    | some set =>
      rw [t.isAccept q set hs, List.any_eq_false] at hq
      rw [t.priority q set hs, Nfa.bestPriority, List.filter_eq_nil_iff.2 hq]
      rfl
    | none =>
      have hnone : d.state? q = none := by
        rw [Array.getElem?_eq_none_iff, ← t.size] at hs
        exact Array.getElem?_eq_none hs
      rw [Dfa.priority, hnone]
      rfl
  reached q hq := reached_of_found t.found hq
  shortlex w j i hw hij := shortlex_of_ordered t.ordered hw hij

end Tracks

end Dfa

namespace Nfa

variable {a : Nfa} {w : Bytes}

/-- The best priority among the nodes a run ends in. -/
theorem bestPriority_isBest (ha : a.Valid) (h : (a.after w).toList.any a.isAccept = true) :
    Priority.IsBest (a.Ends w) (a.bestPriority (a.after w)) := by
  obtain ⟨u, hu, hacc⟩ := List.any_eq_true.1 h
  have hsize : 0 < a.size := Nat.zero_lt_of_lt (lt_of_isAccept hacc)
  have hne : ((a.after w).toList.filter a.isAccept).map
      (fun u => (a.node? u).bind (·.priority)) ≠ [] :=
    List.ne_nil_of_mem (List.mem_map_of_mem (List.mem_filter.2 ⟨hu, hacc⟩))
  refine (Priority.IsBest.congr fun p => ?_).1 (Priority.bestOf_isBest hne)
  simp only [List.mem_map, List.mem_filter, NodeSet.mem_toList, mem_after ha hsize, Ends,
    and_assoc]
  rfl

end Nfa

namespace Dfa

variable {a : Nfa} {w : Bytes}

/-! ## Without nodes -/

/-- Without nodes, no byte leads anywhere. -/
theorem rowOf_empty : (Nfa.rowOf ⟨#[]⟩ (Nfa.closures ⟨#[]⟩) (Nfa.byteClasses ⟨#[]⟩) #[∅] ∅).1 =
    .empty := by
  have hrow := Nfa.rowOf_spec ⟨#[]⟩ #[∅] ∅
  generalize Nfa.rowOf ⟨#[]⟩ (Nfa.closures ⟨#[]⟩) (Nfa.byteClasses ⟨#[]⟩) #[∅] ∅ = next at hrow
  refine Row.ext_get? fun b => ?_
  have hleads := hrow.leads b
  have hmove : (Nfa.move ⟨#[]⟩ (Nfa.closures ⟨#[]⟩) ∅ b).occupied? = none := rfl
  rw [hmove] at hleads
  rw [Row.get?_empty]
  generalize next.1.get? b = target at hleads
  cases hleads
  rfl

/-- The automaton of one state that rejects every word. -/
def lone : Dfa := ⟨0, #[⟨.start, none, .empty⟩]⟩

theorem ofNfa_empty : ofNfa ⟨#[]⟩ = lone := by
  have hgrows := (Nfa.rowOf_spec ⟨#[]⟩ #[∅] ∅).grows 0 ∅ rfl
  have c := ofNfa_carries ⟨#[]⟩
  have hfuel : Nat.pow 2 (Nfa.size ⟨#[]⟩) = 1 := rfl
  have hfirst : Nfa.initial ⟨#[]⟩ (Nfa.closures ⟨#[]⟩) = ∅ := rfl
  rw [hfuel, hfirst, Nfa.explore, show (#[∅] : Array NodeSet)[(#[] : Array Row).size]? = some ∅
    from rfl] at c
  simp only [Nfa.explore, rowOf_empty] at c
  generalize (Nfa.rowOf ⟨#[]⟩ (Nfa.closures ⟨#[]⟩) (Nfa.byteClasses ⟨#[]⟩) #[∅] ∅).2 = sets
    at c hgrows
  generalize ofNfa ⟨#[]⟩ = d at c
  have hsize : d.size = 1 := by
    have hlt := (Array.getElem?_eq_some_iff.1 hgrows).1
    exact c.size.trans (Nat.min_eq_right hlt)
  refine Dfa.ext c.start (Array.ext hsize fun q hq hq' => ?_)
  obtain rfl : q = 0 := Nat.lt_one_iff.1 hq'
  have hstate := c.state 0
  rw [hgrows, state?, Array.getElem?_eq_getElem hq] at hstate
  exact Option.some.inj hstate

theorem isAccept_lone (q : Nat) : lone.isAccept q = false := by
  cases q with
  | zero => rfl
  | succ q => simp [isAccept, state?, lone]

theorem step?_lone (q : Nat) (b : UInt8) : lone.step? q b = none := by
  cases q with
  | zero => exact Row.get?_empty b
  | succ q => simp [step?, state?, lone]

theorem answer_lone (w : Bytes) : lone.answer w = none := by
  simp [answer, answerFrom, isAccept_lone]

theorem numbered_lone : lone.Numbered where
  start := rfl
  nonempty := Nat.one_pos
  target q b r hr := by
    rw [step?_lone] at hr
    cases hr
  mark q s hs := by
    cases q with
    | zero =>
      cases hs
      rfl
    | succ q => simp [state?, lone] at hs
  unset q _ := by
    cases q with
    | zero => rfl
    | succ q => simp [priority, state?, lone]
  reached q hq := by
    obtain rfl : q = 0 := Nat.lt_one_iff.1 hq
    exact ⟨[], rfl⟩
  shortlex w j i hw hij := by
    cases w with
    | nil =>
      cases hw
      omega
    | cons b w => simp [walk?, step?_lone] at hw

/-! ## Any valid automaton -/

theorem eq_empty_or_size_pos (a : Nfa) : a = ⟨#[]⟩ ∨ 0 < a.size := by
  refine (Nat.eq_zero_or_pos a.size).imp_left fun h => ?_
  exact Nfa.ext (Array.eq_empty_of_size_eq_zero h)

/-- A word is answered by the set of nodes that runs may be in after it. -/
theorem ofNfa_answer (ha : a.Valid) (w : Bytes) : (ofNfa a).answer w =
    if (a.after w).toList.any a.isAccept then some (a.bestPriority (a.after w)) else none := by
  rcases eq_empty_or_size_pos a with rfl | hsize
  · have hany : ¬ ((⟨#[]⟩ : Nfa).after w).toList.any (⟨#[]⟩ : Nfa).isAccept = true := by
      rw [Nfa.any_isAccept_iff ha]
      rintro ⟨_, q, _, hq, _⟩
      exact Nat.not_lt_zero q (Nfa.lt_of_isAccept hq)
    rw [ofNfa_empty, answer_lone, if_neg hany]
  · obtain ⟨sets, t⟩ := ofNfa_tracks ha hsize
    exact t.answer_eq ha w

/-- A word is accepted with the best priority among the nodes it ends in. -/
theorem ofNfa_answer_iff (ha : a.Valid) {p : Priority} :
    (ofNfa a).answer w = some p ↔ Priority.IsBest (a.Ends w) p := by
  rw [ofNfa_answer ha]
  cases hany : (a.after w).toList.any a.isAccept with
  | true =>
    have hbest := Nfa.bestPriority_isBest ha hany
    rw [if_pos rfl, Option.some.injEq]
    exact ⟨fun h => h ▸ hbest, hbest.unique⟩
  | false =>
    refine iff_of_false (by simp) fun h => ?_
    rw [(Nfa.any_isAccept_iff ha).2 ⟨p, h.among⟩] at hany
    cases hany

theorem ofNfa_answer_isSome (ha : a.Valid) :
    ((ofNfa a).answer w).isSome = true ↔ ∃ p, a.Ends w p := by
  rw [ofNfa_answer ha, ← Nfa.any_isAccept_iff ha]
  cases (a.after w).toList.any a.isAccept <;> simp

theorem ofNfa_numbered (ha : a.Valid) : (ofNfa a).Numbered := by
  rcases eq_empty_or_size_pos a with rfl | hsize
  · rw [ofNfa_empty]
    exact numbered_lone
  · obtain ⟨sets, t⟩ := ofNfa_tracks ha hsize
    exact t.numbered

/-- If accepting nodes are reached from all nodes, then accepting states are from all states. -/
theorem ofNfa_live (ha : a.Valid) (hsize : 0 < a.size) (hlive : a.Live) : (ofNfa a).Live := by
  intro q hq
  obtain ⟨sets, t⟩ := ofNfa_tracks ha hsize
  obtain ⟨v, hv⟩ := t.numbered.reached q hq
  obtain ⟨hset, u, hu⟩ := t.walk?_some ha hv
  obtain ⟨w, r, p, hacc⟩ := hlive u ((t.nodes q _ hset).2 u hu)
  have hends : a.Ends (v ++ w) (a.priority r) :=
    ⟨r, ((Nfa.mem_after ha hsize).1 hu).trans p, hacc, rfl⟩
  have hsome := (ofNfa_answer_isSome ha).2 ⟨_, hends⟩
  refine ⟨w, fun hnone => ?_⟩
  rw [t.numbered.answer_eq, answerFrom_append hv, hnone] at hsome
  cases hsome

end Dfa

end MaximalMunch
