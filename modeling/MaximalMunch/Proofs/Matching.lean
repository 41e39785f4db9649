import MaximalMunch.Proofs.Run

/-! Matching. A word is matched just if edges lead from the start to an accepting node, one behind
the other, of which those that are not silent accept the bytes of the word. The closures that this
takes may be found in any order, all at once or each when a run first needs it. -/

namespace MaximalMunch

theorem NodeSet.ext_mem {s t : NodeSet} (h : ∀ i, i ∈ s ↔ i ∈ t) : s = t :=
  NodeSet.ext (Nat.eq_of_testBit_eq fun i => Bool.eq_iff_iff.2 (h i))

/-! ## Trails -/

/-- The edges lead one behind the other from one node to another. -/
inductive Trail (E : Wiring) : Nat → List Edge → Nat → Prop
  | nil (i : Nat) : Trail E i [] i
  | cons {i j : Nat} {e : Edge} {es : List Edge} :
      e ∈ E i → Trail E e.target es j → Trail E i (e :: es) j

/-- The edges that are not silent accept the bytes of a word, in order and one byte each. -/
def Spells (es : List Edge) (w : Bytes) : Prop :=
  List.Forall₂ (fun e b => e.accepts b = true) (es.filter fun e => !e.isSilent) w

section Trails

variable {E : Wiring} {i j : Nat} {e : Edge} {es : List Edge} {b : UInt8} {w : Bytes}

theorem Edge.isSilent_eq_false (h : e.accepts b = true) : e.isSilent = false := by
  rw [Bool.eq_false_iff]
  intro hsilent
  rw [show e = .silent e.target from
    congrArg (Edge.mk · e.target) (ByteSet.isEmpty_iff.1 hsilent), Edge.accepts_silent] at h
  cases h

theorem spells_cons_silent (h : e.isSilent = true) : Spells (e :: es) w ↔ Spells es w := by
  rw [Spells, List.filter_cons_of_neg (by simp [h]), Spells]

theorem spells_cons (h : e.isSilent = false) :
    Spells (e :: es) w ↔ ∃ b v, e.accepts b = true ∧ Spells es v ∧ w = b :: v := by
  rw [Spells, List.filter_cons_of_pos (by simp [h]), List.forall₂_cons_left_iff]
  rfl

/-- A path is a trail that spells the word read on the way. -/
theorem path_iff_trail : Path E i w j ↔ ∃ es, Trail E i es j ∧ Spells es w := by
  constructor
  · intro p
    induction p with
    | refl i => exact ⟨[], .nil i, .nil⟩
    | step e he hu _ ih =>
      obtain ⟨es, htrail, hspells⟩ := ih
      refine ⟨e :: es, .cons he htrail, ?_⟩
      rcases hu with ⟨hsilent, rfl⟩ | ⟨b, hb, rfl⟩
      · exact (spells_cons_silent hsilent).2 hspells
      · exact (spells_cons (Edge.isSilent_eq_false hb)).2 ⟨b, _, hb, hspells, rfl⟩
  · rintro ⟨es, htrail, hspells⟩
    induction htrail generalizing w with
    | nil i =>
      cases hspells
      exact .refl i
    | @cons i j e es he htrail ih =>
      cases hsilent : e.isSilent with
      | true => exact .step e he (.inl ⟨hsilent, rfl⟩) (ih ((spells_cons_silent hsilent).1 hspells))
      | false =>
        obtain ⟨b, v, hb, hv, rfl⟩ := (spells_cons hsilent).1 hspells
        exact .step e he (.inr ⟨b, hb, rfl⟩) (ih hv)

end Trails

/-! ## Closures on demand -/

namespace Nfa

/-- The nodes that edges reading a byte lead to. -/
def successors (a : Nfa) (current : NodeSet) (b : UInt8) : List Nat :=
  ((a.edgesOf current).filter (·.accepts b)).map (·.target)

/-- The nodes reached by reading a byte from some node of the set, and the closures known then.
Only those of the nodes that edges lead to are asked. -/
def advance (a : Nfa) (cache : ClosureCache) (current : NodeSet) (b : UInt8) :
    NodeSet × ClosureCache :=
  let (closures, cache) := cache.askAll a (a.successors current b)
  (closures.foldl (· ∪ ·) ∅, cache)

/-- Whether the rest of the input is accepted from some node of the set. The run gives up as soon
as there is no node that it may be in. -/
def simulate (a : Nfa) (cache : ClosureCache) (current : NodeSet) : Bytes → Bool
  | [] => current.toList.any a.isAccept
  | b :: w =>
    let (next, cache) := a.advance cache current b
    if next.isEmpty then false else a.simulate cache next w

/-- Whether the whole input is accepted, where no closure is known at first. -/
def matchOnDemand (a : Nfa) (input : Bytes) : Bool :=
  if a.isEmpty then false
  else
    let (first, cache) := ClosureCache.ask a (.new a) a.start
    a.simulate cache first input

end Nfa

namespace ClosureCache

variable {a : Nfa} {cache : ClosureCache} {v : Nat} {us : List Nat}

theorem askAll_known (ha : a.Valid) (hcache : Correct a cache) (hus : ∀ u ∈ us, u < a.size) :
    Correct a (cache.askAll a us).2 := by
  induction us generalizing cache with
  | nil => exact hcache
  | cons u us ih =>
    exact ih (ask_correct ha hcache (hus u (List.mem_cons_self ..))).2
      fun i hi => hus i (List.mem_cons_of_mem u hi)

/-- What is known already has no influence on the answers. -/
theorem exists_mem_askAll (ha : a.Valid) (hcache : Correct a cache) (hus : ∀ u ∈ us, u < a.size) :
    (∃ closure ∈ (cache.askAll a us).1, v ∈ closure) ↔ ∃ u ∈ us, Path a.edges u [] v := by
  have h := askAll_correct ha hcache hus
  generalize (cache.askAll a us).1 = closures at h
  clear hus
  induction h with
  | nil => simp
  | cons hclosure _ ih =>
    rw [List.exists_mem_cons_iff, List.exists_mem_cons_iff]
    exact or_congr (hclosure v) ih

end ClosureCache

namespace Nfa

open ClosureCache

variable {a : Nfa} {cache : ClosureCache} {current : NodeSet} {q : Nat} {b : UInt8} {w : Bytes}

theorem successors_lt (ha : a.Valid) : ∀ u ∈ a.successors current b, u < a.size := by
  intro u hu
  obtain ⟨e, he, rfl⟩ := List.mem_map.1 hu
  obtain ⟨i, -, hi⟩ := mem_edgesOf.1 (List.mem_filter.1 he).1
  exact ha i e hi

theorem advance_known (ha : a.Valid) (hcache : Correct a cache) :
    Correct a (a.advance cache current b).2 :=
  askAll_known ha hcache (successors_lt ha)

/-- With closures found on demand, a byte leads to the same nodes as with all closures at hand. -/
theorem advance_eq_move (ha : a.Valid) (hcache : Correct a cache) :
    (a.advance cache current b).1 = a.move a.closures current b := by
  refine NodeSet.ext_mem fun v => ?_
  have hclosures : v ∈ (a.advance cache current b).1 ↔
      ∃ closure ∈ (cache.askAll a (a.successors current b)).1, v ∈ closure := by
    refine (mem_foldl_union (f := fun closure => closure)).trans ?_
    rw [or_iff_right (NodeSet.not_mem_empty v)]
  rw [hclosures, exists_mem_askAll ha hcache (successors_lt ha), mem_move ha]
  simp only [successors, List.mem_map, List.mem_filter, mem_edgesOf]
  constructor
  · rintro ⟨_, ⟨e, ⟨⟨u, hu, he⟩, hb⟩, rfl⟩, p⟩
    exact ⟨u, hu, e, he, hb, p⟩
  · rintro ⟨u, hu, e, he, hb, p⟩
    exact ⟨_, ⟨e, ⟨⟨u, hu, he⟩, hb⟩, rfl⟩, p⟩

/-- A run that is nowhere stays nowhere. -/
theorem foldl_move_empty (a : Nfa) (w : Bytes) : w.foldl (a.move a.closures) ∅ = ∅ := by
  induction w with
  | nil => rfl
  | cons b w ih =>
    have hmove : a.move a.closures ∅ b = ∅ := rfl
    rw [List.foldl_cons, hmove, ih]

theorem simulate_eq (ha : a.Valid) (hcache : Correct a cache) :
    a.simulate cache current w = (w.foldl (a.move a.closures) current).toList.any a.isAccept := by
  induction w generalizing cache current with
  | nil => rfl
  | cons b w ih =>
    have hnext : (a.advance cache current b).1 = a.move a.closures current b :=
      advance_eq_move ha hcache
    have hknown : Correct a (a.advance cache current b).2 := advance_known ha hcache
    rw [List.foldl_cons, ← hnext, ← ih hknown]
    show (if (a.advance cache current b).1.isEmpty then false else _) = _
    -- A run that has given up would not accept later either.
    split
    · rename_i hempty
      have hnowhere : (a.advance cache current b).1 = ∅ := NodeSet.ext (beq_iff_eq.1 hempty)
      rw [ih hknown, hnowhere, foldl_move_empty]
      rfl
    · rfl

/-- Finding the closures on demand gives the same answers. -/
theorem matchOnDemand_eq (ha : a.Valid) : a.matchOnDemand w = a.isMatch w := by
  unfold matchOnDemand
  split
  · rename_i hempty
    refine (Bool.eq_false_iff.2 fun hmatch => ?_).symm
    obtain ⟨_, q, -, haccept, -⟩ := (isMatch_iff ha).1 hmatch
    have hlt : q < a.nodes.size := lt_of_isAccept haccept
    rw [Array.isEmpty_iff_size_eq_zero.1 hempty] at hlt
    exact absurd hlt (Nat.not_lt_zero q)
  · rename_i hempty
    have hsize : 0 < a.size := Nat.pos_of_ne_zero (mt Array.isEmpty_iff_size_eq_zero.2 hempty)
    obtain ⟨hfirst, hcache⟩ := ask_correct ha (new_correct a) hsize
    have hinitial : (ask a (new a) 0).1 = a.initial a.closures :=
      NodeSet.ext_mem fun v => (hfirst v).trans (mem_closures ha hsize).symm
    show a.simulate (ask a (new a) 0).2 (ask a (new a) 0).1 w = _
    rw [simulate_eq ha hcache, hinitial]
    rfl

/-- The automaton of a component matches a word just if a trail from its start to an accepting node
spells the word. Whether all closures are found first or each on demand does not matter. -/
theorem isMatch_iff_trail (g : Graph) (c : Component) (w : Bytes) :
    let a := ofGraph g c
    (a.isMatch w = true ↔
      ∃ es q, Trail a.edges 0 es q ∧ Spells es w ∧ a.isAccept q = true) ∧
    a.matchOnDemand w = a.isMatch w := by
  intro a
  have ha : a.Valid := ofGraph_valid g c
  refine ⟨?_, matchOnDemand_eq ha⟩
  rw [isMatch_iff ha]
  constructor
  · rintro ⟨_, q, p, haccept, -⟩
    obtain ⟨es, htrail, hspells⟩ := path_iff_trail.1 p
    exact ⟨es, q, htrail, hspells, haccept⟩
  · rintro ⟨es, q, htrail, hspells, haccept⟩
    exact ⟨_, q, path_iff_trail.2 ⟨es, htrail, hspells⟩, haccept, rfl⟩

end Nfa

end MaximalMunch
