import MaximalMunch.Pattern.Parse
import MaximalMunch.Proofs.Graph

/-! Graphs put behind others. What is built in a graph does not depend on the nodes that are there
already, and it leaves them alone: it is the same as in the empty graph, behind them. -/

namespace MaximalMunch

/-- The edge, with so many nodes put in front of the graph. -/
def Edge.shift (k : Nat) (e : Edge) : Edge := { e with target := k + e.target }

def Node.shift (k : Nat) (n : Node) : Node := { n with edges := n.edges.map (·.shift k) }

def Component.shift (k : Nat) (c : Component) : Component := ⟨k + c.start, k + c.stop⟩

namespace Graph

/-- The nodes of the second graph behind those of the first. -/
instance : Append Graph := ⟨fun g h => ⟨g.nodes ++ h.nodes.map (·.shift g.size)⟩⟩

variable {f : Node → Node} {g h : Graph} {i j : Nat} {l r c : Component}

/-! ## Nodes -/

@[simp]
theorem size_append : (g ++ h).size = g.size + h.size := by
  show (g.nodes ++ h.nodes.map (·.shift g.size)).size = _
  rw [Array.size_append, Array.size_map]
  rfl

@[simp]
theorem append_empty : g ++ empty = g := by
  have hnodes : g.nodes ++ (#[] : Array Node).map (·.shift g.size) = g.nodes := by simp
  exact Graph.ext hnodes

theorem node?_append_left (hi : i < g.size) : (g ++ h).node? i = g.node? i := by
  exact Array.getElem?_append_left hi

@[simp]
theorem node?_append_right : (g ++ h).node? (g.size + i) = (h.node? i).map (·.shift g.size) := by
  show (g.nodes ++ h.nodes.map (·.shift g.size))[g.nodes.size + i]? = _
  rw [Array.getElem?_append_right (Nat.le_add_right _ _), Nat.add_sub_cancel_left,
    Array.getElem?_map]
  rfl

/-- Graphs with the same nodes are equal. -/
theorem ext_node? (hn : ∀ i, g.node? i = h.node? i) : g = h := Graph.ext (Array.ext_getElem? hn)

/-- A graph that keeps all nodes of `g`, and then has those of `h`, is `g` with `h` behind it. -/
theorem eq_append {k : Graph} (hfront : ∀ i < g.size, k.node? i = g.node? i)
    (hback : ∀ i, k.node? (g.size + i) = (h.node? i).map (·.shift g.size)) : k = g ++ h := by
  apply ext_node?
  intro i
  rcases Nat.lt_or_ge i g.size with hi | hi
  · rw [hfront i hi, node?_append_left hi]
  · obtain ⟨j, rfl⟩ := Nat.exists_eq_add_of_le hi
    rw [hback, node?_append_right]

@[simp]
theorem edges_append_right : (g ++ h).edges (g.size + i) = (h.edges i).map (·.shift g.size) := by
  rw [edges, node?_append_right, edges]
  cases h.node? i with
  | none => rfl
  | some n => rfl

/-! ## Single steps -/

theorem addNode_append (tag : Tag) : (g ++ h).addNode tag = g ++ h.addNode tag := by
  apply eq_append
  · intro i hi
    rw [node?_addNode_of_lt tag (by simp; omega), node?_append_left hi]
  · intro i
    rw [node?_addNode, node?_addNode, size_append, node?_append_right]
    by_cases hi : i = h.size
    · rw [if_pos (congrArg _ hi), if_pos hi]
      rfl
    · rw [if_neg (mt Nat.add_left_cancel hi), if_neg hi]

/-- Changes behind `g` that do the same to a node and to its copy. -/
theorem modify_append {f' : Node → Node}
    (hf : ∀ n : Node, f' (n.shift g.size) = (f n).shift g.size) :
    (g ++ h).modify (g.size + i) f' = g ++ h.modify i f := by
  apply eq_append
  · intro j hj
    rw [node?_modify_of_ne _ (by omega), node?_append_left hj]
  · intro j
    rw [node?_modify, node?_modify, node?_append_right]
    by_cases hij : i = j
    · rw [if_pos (congrArg _ hij), if_pos hij, Option.map_map, Option.map_map]
      exact congrArg (Option.map · _) (funext hf)
    · rw [if_neg (mt Nat.add_left_cancel hij), if_neg hij]

theorem addEdge_append (e : Edge) :
    (g ++ h).addEdge (g.size + i) (e.shift g.size) = g ++ h.addEdge i e :=
  modify_append fun n => by simp [Node.shift]

@[simp]
theorem link_append : (g ++ h).link (g.size + i) (g.size + j) = g ++ h.link i j :=
  addEdge_append (.silent j)

@[simp]
theorem mark_append (tag : Tag) : (g ++ h).mark (g.size + i) tag = g ++ h.mark i tag :=
  modify_append fun _ => rfl

@[simp]
theorem moveEdges_append :
    (g ++ h).moveEdges (g.size + i) (g.size + j) = g ++ h.moveEdges i j := by
  simp only [moveEdges, edges_append_right]
  rw [modify_append (f := fun n => { n with edges := [] }) fun _ => rfl]
  exact modify_append fun n => by simp [Node.shift]

/-! ## Operations on components -/

/-- A graph and a component of it, behind the nodes of another graph. -/
def behind (g : Graph) (x : Graph × Component) : Graph × Component := (g ++ x.1, x.2.shift g.size)

theorem ofSet_append (label : ByteSet) : (g ++ h).ofSet label = g.behind (h.ofSet label) := by
  have hedge : ∀ k : Graph, (g ++ k).addEdge (g.size + h.size) ⟨label, g.size + h.size + 1⟩ =
      g ++ k.addEdge h.size ⟨label, h.size + 1⟩ := fun k => addEdge_append ⟨label, h.size + 1⟩
  rw [ofSet, ofSet, addNode_append, addNode_append, size_append, hedge]
  rfl

theorem concatenate_append :
    (g ++ h).concatenate (l.shift g.size) (r.shift g.size) = g.behind (h.concatenate l r) := by
  simp only [concatenate, Component.shift, moveEdges_append, mark_append]
  rfl

theorem union_append :
    (g ++ h).union (l.shift g.size) (r.shift g.size) = g.behind (h.union l r) := by
  simp only [union, Component.shift, moveEdges_append, mark_append, addNode_append, size_append,
    link_append]
  rfl

theorem surround_append : (g ++ h).surround (c.shift g.size) = g ++ h.surround c := by
  simp only [surround, Component.shift, addNode_append, mark_append]

theorem star_append : (g ++ h).star (c.shift g.size) = g.behind (h.star c) := by
  rw [star, surround_append]
  simp only [Component.shift, size_append, Nat.add_assoc, link_append]
  rfl

theorem plus_append : (g ++ h).plus (c.shift g.size) = g.behind (h.plus c) := by
  rw [plus, surround_append]
  simp only [Component.shift, size_append, Nat.add_assoc, link_append]
  rfl

theorem optional_append : (g ++ h).optional (c.shift g.size) = g.behind (h.optional c) := by
  simp only [optional, Component.shift, link_append]
  rfl

theorem quantify_append (q : Quantifier) :
    (g ++ h).quantify q (c.shift g.size) = g.behind (h.quantify q c) := by
  cases q with
  | star => exact star_append
  | plus => exact plus_append
  | optional => exact optional_append

/-! ## Patterns -/

/-- The component of a pattern is the same behind other nodes. -/
theorem addPattern_append (p : Pattern) : (g ++ h).addPattern p = g.behind (h.addPattern p) := by
  induction p generalizing h with
  | atom s => exact ofSet_append s
  | seq l r ihl ihr =>
    simp only [addPattern, ihl, behind, ihr, concatenate_append]
  | alt l r ihl ihr =>
    simp only [addPattern, ihl, behind, ihr, union_append]
  | quantified q p ih =>
    simp only [addPattern, ih, behind, quantify_append]

theorem addFragments_append (ps : List Pattern) :
    (g ++ h).addFragments ps = g ++ h.addFragments ps := by
  induction ps generalizing h with
  | nil => rfl
  | cons p ps ih =>
    rw [addFragments, List.foldl_cons, addPattern_append]
    exact ih

/-- A written pattern is accepted or refused as in the back graph alone, and the nodes that are left
behind are the same. -/
theorem addWritten_append (text : String) : (g ++ h).addWritten text =
    (g ++ (h.addWritten text).1, (h.addWritten text).2.map (·.shift g.size)) := by
  unfold addWritten
  cases Pattern.read (bytesOf text) with
  | error failure =>
    simp only [addFragments_append]
    rfl
  | ok p =>
    simp only [addPattern_append]
    rfl

/-- Adding a written pattern to a graph has the verdict that it has in the empty graph, and the same
fault. The nodes of the graph stay as they are. Behind them come those that are made in the empty
graph, moved by the number of the former, and so is the component; no edge leads from the new nodes
to the old ones. -/
theorem addWritten_behind (g : Graph) (text : String) :
    let built := g.addWritten text
    let fresh := empty.addWritten text
    built.2 = fresh.2.map (·.shift g.size) ∧ built.1.size = g.size + fresh.1.size ∧
      (∀ i < g.size, built.1.node? i = g.node? i) ∧
      (∀ i, built.1.node? (g.size + i) = (fresh.1.node? i).map (·.shift g.size)) ∧
      ∀ i, g.size ≤ i → ∀ e ∈ built.1.edges i, g.size ≤ e.target := by
  intro built fresh
  have heq : built = (g ++ fresh.1, fresh.2.map (·.shift g.size)) := by
    rw [← addWritten_append, append_empty]
  rw [heq]
  refine ⟨rfl, size_append, fun i hi => node?_append_left hi, fun i => node?_append_right, ?_⟩
  intro i hi e he
  obtain ⟨j, rfl⟩ := Nat.exists_eq_add_of_le hi
  rw [edges_append_right] at he
  obtain ⟨e', _, rfl⟩ := List.mem_map.1 he
  exact Nat.le_add_right g.size e'.target

/-- A pattern that is refused behind another leaves its parts there. -/
theorem addWritten_behind_refused :
    let g := (empty.addWritten "a").1
    let h := (g.addWritten "b(c").1
    (g.addWritten "b(c").2 = .error (.unmatchedOpenParen 1) ∧ h.size = 6 ∧
      h.node? 0 = g.node? 0 ∧ h.node? 1 = g.node? 1 ∧ ∀ e ∈ h.edges 2, 2 ≤ e.target := by
  intro g h
  have hg : g.size = 2 := by decide +kernel
  have hrefused : (empty.addWritten "b(c").2 = .error (.unmatchedOpenParen 1) := by decide +kernel
  have hfresh : (empty.addWritten "b(c").1.size = 4 := by decide +kernel
  obtain ⟨hverdict, hsize, hfront, -, htargets⟩ := addWritten_behind g "b(c"
  rw [hrefused] at hverdict
  rw [hg, hfresh] at hsize
  rw [hg] at hfront htargets
  exact ⟨hverdict, hsize, hfront 0 (by decide), hfront 1 (by decide), htargets 2 (Nat.le_refl 2)⟩

end Graph

end MaximalMunch
