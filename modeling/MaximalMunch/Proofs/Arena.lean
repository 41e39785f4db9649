import MaximalMunch.Proofs.DepthFirst
import MaximalMunch.Proofs.Program

/-! Arenas. Components are made in a graph by one operation after the other, and any of them may be
used again, also one that has been made part of another. Then components may share nodes and need
not read what they were made for, but edges never lead out of the graph, and so each component can
be copied out of it. -/

namespace MaximalMunch

/-- What can be done with the components made in a graph. -/
inductive Operation
  | make (i : Instruction)
  | unionKeepingStops (l r : Component)
  | unionAllKeepingStops (cs : List Component)
  | setPriority (node priority : Nat)

namespace Operation

/-- The components that are used. -/
def operands : Operation → List Component
  | make i => i.operands
  | unionKeepingStops l r => [l, r]
  | unionAllKeepingStops cs => cs
  | setPriority _ _ => []

/-- The graph afterwards, and the component made in it. Without a priority to keep, none is made. -/
def perform (g : Graph) : Operation → Graph × Option Component
  | make i => i.execute g
  | unionKeepingStops l r =>
    match g.unionKeepingStops l r with
    | .ok (h, c) => (h, some c)
    | .error _ => (g, none)
  | unionAllKeepingStops cs =>
    let (h, made) := g.unionAllKeepingStops cs
    (h, made.toOption.join)
  | setPriority i p => (g.setPriority i p, none)

end Operation

/-- A graph with all components ever made in it. -/
structure Arena where
  graph : Graph
  made : List Component

namespace Arena

def empty : Arena := ⟨.empty, []⟩

/-- Performs an operation on components that have been made, no matter what has become of them. -/
def step? (b : Arena) (o : Operation) : Option Arena :=
  if o.operands ⊆ b.made then
    let (g, c) := o.perform b.graph
    some ⟨g, c.toList ++ b.made⟩
  else none

/-- Performs operations one after the other. -/
def run? (b : Arena) (program : List Operation) : Option Arena := program.foldlM step? b

end Arena

/-- Both ends of a component are nodes of the graph. -/
structure Component.Within (c : Component) (g : Graph) : Prop where
  start : c.start < g.size
  stop : c.stop < g.size

namespace Graph

/-- From `g` to `h`, no node has been taken away, the edges still lead to nodes, and a component
that has been made is within the graph. -/
structure Grown (g h : Graph) (made : Option Component) : Prop where
  grows : g.size ≤ h.size
  valid : h.Valid
  within : ∀ c, made = some c → c.Within h

variable {g h k : Graph} {c d l r : Component} {made made' : Option Component}
  {cs : List Component} {i j : Nat}

/-! ## Edges stay within the graph -/

/-- Edges may be moved to other nodes, and new ones may be added that lead to nodes. -/
theorem Valid.of_edges (hg : g.Valid) (hsize : g.size ≤ h.size)
    (he : ∀ i, ∀ e ∈ h.edges i, (∃ j, e ∈ g.edges j) ∨ e.target < h.size) : h.Valid := by
  intro i e hmem
  rcases he i e hmem with ⟨j, hj⟩ | hlt
  · exact Nat.lt_of_lt_of_le (hg j e hj) hsize
  · exact hlt

theorem valid_empty : Graph.empty.Valid := fun _ _ he => absurd he List.not_mem_nil

theorem Valid.addNode (hg : g.Valid) (tag : Tag) : (g.addNode tag).Valid := by
  refine hg.of_edges (by simp) fun i e he => Or.inl ⟨i, ?_⟩
  rwa [edges_addNode] at he

theorem Valid.mark (hg : g.Valid) (i : Nat) (tag : Tag) : (g.mark i tag).Valid := by
  refine hg.of_edges (by simp) fun k e he => Or.inl ⟨k, ?_⟩
  rwa [edges_mark] at he

theorem Valid.setPriority (hg : g.Valid) (i p : Nat) : (g.setPriority i p).Valid := by
  refine hg.of_edges (by simp) fun k e he => Or.inl ⟨k, ?_⟩
  rwa [edges_setPriority] at he

theorem Valid.addEdge (hg : g.Valid) {e : Edge} (hi : i < g.size) (he : e.target < g.size) :
    (g.addEdge i e).Valid := by
  have hsize : (g.addEdge i e).size = g.size := size_modify _
  refine hg.of_edges hsize.ge fun k e' hmem => ?_
  rw [edges_addEdge hi] at hmem
  split at hmem
  · rcases List.mem_append.1 hmem with hold | hnew
    · exact Or.inl ⟨i, hold⟩
    · rw [List.mem_singleton.1 hnew, hsize]
      exact Or.inr he
  · exact Or.inl ⟨k, hmem⟩

theorem Valid.link (hg : g.Valid) (hi : i < g.size) (hj : j < g.size) : (g.link i j).Valid :=
  hg.addEdge hi hj

/-- Edges that are moved from a node to itself stay as they are. -/
theorem edges_moveEdges_self {v : Nat} : (g.moveEdges i i).edges v = g.edges v := by
  by_cases hv : i = v
  · subst hv
    cases hn : g.node? i <;> simp [edges, moveEdges, node?_modify, hn]
  · simp [edges, moveEdges, node?_modify, hv]

theorem Valid.moveEdges (hg : g.Valid) (i : Nat) (hj : j < g.size) : (g.moveEdges i j).Valid := by
  refine hg.of_edges (by simp) fun v e he => Or.inl ?_
  -- A component may be combined with itself, so that both nodes are the same.
  by_cases hij : i = j
  · subst hij
    rw [edges_moveEdges_self] at he
    exact ⟨v, he⟩
  · rw [edges_moveEdges hj hij] at he
    split at he
    · rcases List.mem_append.1 he with he | he
      · exact ⟨j, he⟩
      · exact ⟨i, he⟩
    · split at he
      · cases he
      · exact ⟨v, he⟩

/-! ## The operations -/

namespace Grown

theorem refl (hg : g.Valid) : g.Grown g none where
  grows := Nat.le_refl g.size
  valid := hg
  within _ hc := by cases hc

theorem made_some (h : g.Valid) (hc : c.Within g) : g.Grown g (some c) where
  grows := Nat.le_refl g.size
  valid := h
  within _ he := Option.some.inj he ▸ hc

theorem trans (t : g.Grown h made) (t' : h.Grown k made') : g.Grown k made' where
  grows := Nat.le_trans t.grows t'.grows
  valid := t'.valid
  within := t'.within

theorem keeps (t : g.Grown h made) (hc : c.Within g) : c.Within h where
  start := Nat.lt_of_lt_of_le hc.start t.grows
  stop := Nat.lt_of_lt_of_le hc.stop t.grows

end Grown

theorem grown_ofSet (hg : g.Valid) (label : ByteSet) :
    g.Grown (g.ofSet label).1 (some (g.ofSet label).2) where
  grows := by simp
  valid := ((hg.addNode _).addNode _).addEdge (by simp) (by simp)
  within := by
    rintro _ ⟨⟩
    constructor <;> simp [ofSet, addEdge]

theorem grown_concatenate (hg : g.Valid) (hl : l.Within g) (hr : r.Within g) :
    g.Grown (g.concatenate l r).1 (some (g.concatenate l r).2) where
  grows := size_concatenate.ge
  valid := ((hg.moveEdges r.start hl.stop).mark _ _).mark _ _
  within := by
    rintro _ ⟨⟩
    constructor
    · rw [size_concatenate]
      exact hl.start
    · rw [size_concatenate]
      exact hr.stop

theorem grown_union (hg : g.Valid) (hl : l.Within g) (hr : r.Within g) :
    g.Grown (g.union l r).1 (some (g.union l r).2) where
  grows := size_union.ge.trans' (Nat.le_succ _)
  valid := by
    have hlstop := hl.stop
    have hrstop := hr.stop
    have hjoined := (hg.moveEdges r.start hl.start).mark r.start .normal
    refine ((((hjoined.addNode _).link ?_ ?_).link ?_ ?_).mark _ _).mark _ _ <;>
      simp only [size_link, size_addNode, size_mark, size_moveEdges] <;> omega
  within := by
    rintro _ ⟨⟩
    constructor
    · rw [size_union]
      exact Nat.lt_succ_of_lt hl.start
    · rw [size_union]
      exact Nat.lt_succ_self _

theorem Valid.surround (hg : g.Valid) (c : Component) : (g.surround c).Valid :=
  (((hg.addNode _).addNode _).mark _ _).mark _ _

/-- The fresh nodes around a component. -/
theorem within_fresh (hsize : h.size = g.size + 2) : Component.Within ⟨g.size, g.size + 1⟩ h where
  start := by
    rw [hsize]
    exact Nat.lt_add_of_pos_right Nat.two_pos
  stop := by
    rw [hsize]
    exact Nat.lt_succ_self _

theorem grown_star (hg : g.Valid) (hc : c.Within g) :
    g.Grown (g.star c).1 (some (g.star c).2) where
  grows := size_star.ge.trans' (Nat.le_add_right _ _)
  valid := by
    obtain ⟨hstart, hstop⟩ := hc
    refine (((hg.surround c).link ?_ ?_).link ?_ ?_).link ?_ ?_ <;>
      simp only [size_link, size_surround] <;> omega
  within := by
    rintro _ ⟨⟩
    exact within_fresh size_star

theorem grown_plus (hg : g.Valid) (hc : c.Within g) :
    g.Grown (g.plus c).1 (some (g.plus c).2) where
  grows := size_plus.ge.trans' (Nat.le_add_right _ _)
  valid := by
    obtain ⟨hstart, hstop⟩ := hc
    refine (((hg.surround c).link ?_ ?_).link ?_ ?_).link ?_ ?_ <;>
      simp only [size_link, size_surround] <;> omega
  within := by
    rintro _ ⟨⟩
    exact within_fresh size_plus

theorem grown_optional (hg : g.Valid) (hc : c.Within g) :
    g.Grown (g.optional c).1 (some (g.optional c).2) where
  grows := size_optional.ge
  valid := hg.link hc.start hc.stop
  within := by
    rintro _ ⟨⟩
    constructor
    · rw [size_optional]
      exact hc.start
    · rw [size_optional]
      exact hc.stop

/-- A union that keeps the stops makes its first operand anew. -/
theorem grown_unionKeepingStops (hg : g.Valid) (hl : l.Within g)
    (h : g.unionKeepingStops l r = .ok (k, d)) : g.Grown k (some d) := by
  unfold unionKeepingStops at h
  split at h
  · cases h
  · split at h
    · cases h
    · rw [Except.ok.injEq, Prod.mk.injEq] at h
      rw [← h.1, ← h.2]
      have hgrown : g.Grown ((g.moveEdges r.start l.start).mark r.start .normal) none :=
        ⟨by simp, (hg.moveEdges _ hl.start).mark _ _, fun _ hc => by cases hc⟩
      exact hgrown.trans (.made_some hgrown.valid (hgrown.keeps hl))

/-! ## Folds -/

theorem grown_combineAll {op : Graph → Component → Component → Graph × Component}
    (hop : ∀ {g : Graph} {l r : Component}, g.Valid → l.Within g → r.Within g →
      g.Grown (op g l r).1 (some (op g l r).2))
    (hg : g.Valid) (hcs : ∀ c ∈ cs, c.Within g) :
    g.Grown (combineAll op g cs).1 (combineAll op g cs).2 := by
  induction cs with
  | nil => exact .refl hg
  | cons c cs ih =>
    have t := ih fun d hd => hcs d (List.mem_cons_of_mem c hd)
    have hc := t.keeps (hcs c (List.mem_cons_self ..))
    rw [combineAll]
    split
    · rename_i k hfold
      rw [hfold] at t hc
      exact t.trans (.made_some t.valid hc)
    · rename_i k acc hfold
      rw [hfold] at t hc
      exact t.trans (hop t.valid hc (t.within acc rfl))

theorem grown_unionAllKeepingStops (hg : g.Valid) (hcs : ∀ c ∈ cs, c.Within g) :
    g.Grown (g.unionAllKeepingStops cs).1 (g.unionAllKeepingStops cs).2.toOption.join := by
  induction cs with
  | nil => exact .refl hg
  | cons c cs ih =>
    have t := ih fun d hd => hcs d (List.mem_cons_of_mem c hd)
    have hc := t.keeps (hcs c (List.mem_cons_self ..))
    rw [unionAllKeepingStops]
    split
    · rename_i k e hfold
      rw [hfold] at t
      exact t
    · rename_i k hfold
      rw [hfold] at t hc
      exact t.trans (.made_some t.valid hc)
    · rename_i k acc hfold
      rw [hfold] at t hc
      split
      · exact t.trans (.refl t.valid)
      · rename_i k' d hunion
        exact t.trans (grown_unionKeepingStops t.valid hc hunion)

/-- What one operation does. -/
theorem grown_perform (o : Operation) (hg : g.Valid) (ho : ∀ c ∈ o.operands, c.Within g) :
    g.Grown (o.perform g).1 (o.perform g).2 := by
  cases o with
  | make i =>
    cases i with
    | ofSet label => exact grown_ofSet hg label
    | concatenate l r =>
      exact grown_concatenate hg (ho l (List.mem_cons_self ..)) (ho r (List.mem_pair.2 (.inr rfl)))
    | union l r =>
      exact grown_union hg (ho l (List.mem_cons_self ..)) (ho r (List.mem_pair.2 (.inr rfl)))
    | star c => exact grown_star hg (ho c (List.mem_cons_self ..))
    | plus c => exact grown_plus hg (ho c (List.mem_cons_self ..))
    | optional c => exact grown_optional hg (ho c (List.mem_cons_self ..))
    | concatenateAll cs => exact grown_combineAll grown_concatenate hg ho
    | unionAll cs => exact grown_combineAll grown_union hg ho
  | unionKeepingStops l r =>
    rw [Operation.perform]
    split
    · rename_i k d hunion
      exact grown_unionKeepingStops hg (ho l (List.mem_cons_self ..)) hunion
    · exact .refl hg
  | unionAllKeepingStops cs => exact grown_unionAllKeepingStops hg ho
  | setPriority i p => exact ⟨(size_setPriority p).ge, hg.setPriority i p, fun _ hc => by cases hc⟩

end Graph

namespace Arena

variable {b b' : Arena} {o : Operation} {program : List Operation} {c : Component}

/-- The edges of the graph lead to its nodes, and the components that have been made are within
it. -/
structure Sound (b : Arena) : Prop where
  valid : b.graph.Valid
  within : ∀ c ∈ b.made, c.Within b.graph

theorem sound_empty : empty.Sound := ⟨Graph.valid_empty, fun _ hc => absurd hc List.not_mem_nil⟩

theorem Sound.step (hb : b.Sound) (hstep : b.step? o = some b') : b'.Sound := by
  unfold step? at hstep
  split at hstep
  · rename_i hmade
    have t := Graph.grown_perform o hb.valid fun c hc => hb.within c (hmade hc)
    cases hstep
    refine ⟨t.valid, fun c hc => ?_⟩
    rcases List.mem_append.1 hc with hnew | hold
    · exact t.within c (Option.mem_toList.1 hnew)
    · exact t.keeps (hb.within c hold)
  · cases hstep

theorem Sound.run (hb : b.Sound) (hrun : b.run? program = some b') : b'.Sound :=
  foldlM_some_keeps (fun _ _ _ hb hstep => hb.step hstep) hb hrun

/-- After any operations, a component that has ever been made is copied as it is. There is one order
in which the recursive depth-first traversal lists nodes from its start, and in this order the
nodes are copied: just those that can be reached, each once, the start first. The search that
keeps only new nodes waiting finds the same order. -/
theorem component_copyOf (hrun : empty.run? program = some b) (hc : c ∈ b.made) :
    ∃ order, (∀ listed, b.graph.DepthFirst [] [c.start] listed ↔ listed = order) ∧
      (b.graph.visitNew [] [c.start]).reverse = order ∧ order.Nodup ∧
      (∀ i, i ∈ order ↔ b.graph.Reaches c.start i) ∧ order[0]? = some c.start ∧
      (Nfa.ofGraph b.graph c).CopyOf b.graph order := by
  have hb := sound_empty.run hrun
  have hstart := (hb.within c hc).start
  have l := hb.valid.listing hstart
  refine ⟨b.graph.preorder c.start, fun listed => Graph.depthFirst_iff hb.valid hstart, ?_,
    l.nodup, fun i => Graph.mem_preorder_iff hb.valid hstart, l.head, Nfa.ofGraph_copyOf l⟩
  rw [Graph.visitNew_eq, Graph.preorder]

/-- The component of `a` is bypassed although it has become part of a star already, and the star is
united with itself. In between, a union fails, since there is no priority at the stop of `a`. -/
def reuse : List Operation :=
  [.make (.ofByte 97), .make (.star ⟨0, 1⟩), .make (.optional ⟨0, 1⟩), .setPriority 3 0,
    .unionKeepingStops ⟨2, 3⟩ ⟨0, 1⟩, .make (.union ⟨2, 3⟩ ⟨2, 3⟩)]

theorem component_copyOf_reuse : ∃ b, empty.run? reuse = some b ∧
    b.made = [⟨2, 4⟩, ⟨0, 1⟩, ⟨2, 3⟩, ⟨0, 1⟩] ∧
    (∀ listed, b.graph.DepthFirst [] [2] listed ↔ listed = [2, 0, 1, 3, 4]) ∧
    (Nfa.ofGraph b.graph ⟨2, 4⟩).CopyOf b.graph [2, 0, 1, 3, 4] := by
  obtain ⟨b, hb⟩ : ∃ b, empty.run? reuse = some b := Option.isSome_iff_exists.1 (by decide +kernel)
  have hrun : (empty.run? reuse).map
      (fun b => (b.made, b.graph.size, [0, 1, 2, 3, 4].map b.graph.targets)) =
      some ([⟨2, 4⟩, ⟨0, 1⟩, ⟨2, 3⟩, ⟨0, 1⟩], 5, [[1, 3, 1], [0], [0], [4, 4], []]) := by
    decide +kernel
  rw [hb] at hrun
  simp only [Option.map_some, Option.some.injEq, Prod.mk.injEq, List.map_cons, List.cons.injEq]
    at hrun
  obtain ⟨hmade, hsize, h0, h1, h2, h3, h4, -⟩ := hrun
  obtain ⟨order, hfirst, hnew, -, -, -, hcopy⟩ :=
    component_copyOf (c := ⟨2, 4⟩) hb (by rw [hmade]; exact List.mem_cons_self ..)
  obtain rfl : order = [2, 0, 1, 3, 4] := by
    rw [← hnew]
    simp [Graph.visitNew, hsize, h0, h1, h2, h3, h4]
  exact ⟨b, hb, hmade, hfirst, hcopy⟩

end Arena

end MaximalMunch
