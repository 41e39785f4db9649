import MaximalMunch.Graph
import MaximalMunch.Proofs.Fragment

/-! What the operations on graphs do to nodes, and the regions of a graph that components stand
for. -/

namespace MaximalMunch.Graph

open Computability

/-- Whether a node accepts. -/
def isAccept (g : Graph) (i : Nat) : Bool := ((g.node? i).map (·.tag.isAccept)).getD false

variable {g h : Graph} {i j k : Nat}

/-! ## Nodes after each step -/

theorem node?_isSome : (g.node? i).isSome = true ↔ i < g.size := by
  simp [node?, size]

theorem edges_congr (hn : h.node? i = g.node? i) : h.edges i = g.edges i := by
  rw [edges, hn, edges]

theorem isAccept_congr (hn : h.node? i = g.node? i) : h.isAccept i = g.isAccept i := by
  rw [isAccept, hn, isAccept]

theorem priority_congr (hn : h.node? i = g.node? i) : h.priority i = g.priority i := by
  rw [priority, hn, priority]

theorem edges_of_size_le (hi : g.size ≤ i) : g.edges i = [] := by
  have : g.node? i = none := by simpa [node?, size] using hi
  simp [edges, this]

@[simp]
theorem size_addNode (tag : Tag) : (g.addNode tag).size = g.size + 1 := by simp [addNode, size]

@[simp]
theorem size_modify (f : Node → Node) : (g.modify i f).size = g.size := by simp [modify, size]

@[simp]
theorem size_link : (g.link i j).size = g.size := size_modify _

@[simp]
theorem size_mark (tag : Tag) : (g.mark i tag).size = g.size := size_modify _

@[simp]
theorem size_moveEdges : (g.moveEdges i j).size = g.size := by simp [moveEdges]

@[simp]
theorem size_setPriority (p : Nat) : (g.setPriority i p).size = g.size := size_modify _

theorem node?_addNode (tag : Tag) :
    (g.addNode tag).node? k = if k = g.size then some { tag } else g.node? k := by
  show (g.nodes.push { tag })[k]? = _
  rw [Array.getElem?_push]
  rfl

theorem node?_modify (f : Node → Node) :
    (g.modify i f).node? k = if i = k then (g.node? k).map f else g.node? k := by
  simp [modify, node?, Array.getElem?_modify]

theorem node?_addNode_of_lt (tag : Tag) (hk : k < g.size) :
    (g.addNode tag).node? k = g.node? k := by
  rw [node?_addNode, if_neg (Nat.ne_of_lt hk)]

theorem node?_modify_of_ne (f : Node → Node) (hk : k ≠ i) : (g.modify i f).node? k = g.node? k := by
  rw [node?_modify, if_neg hk.symm]

@[simp]
theorem edges_addNode (tag : Tag) : (g.addNode tag).edges k = g.edges k := by
  by_cases hk : k = g.size
  · subst hk
    rw [edges_of_size_le (Nat.le_refl g.size)]
    simp [edges, node?_addNode]
  · simp [edges, node?_addNode, hk]

theorem edges_addEdge (hi : i < g.size) (e : Edge) :
    (g.addEdge i e).edges k = if k = i then g.edges i ++ [e] else g.edges k := by
  obtain ⟨n, hn⟩ := Option.isSome_iff_exists.1 (node?_isSome.2 hi)
  by_cases hk : k = i
  · subst hk
    simp [edges, addEdge, node?_modify, hn]
  · simp [edges, addEdge, node?_modify, hk, Ne.symm hk]

theorem edges_link (hi : i < g.size) :
    (g.link i j).edges k = if k = i then g.edges i ++ [.silent j] else g.edges k :=
  edges_addEdge hi _

@[simp]
theorem edges_mark (tag : Tag) : (g.mark i tag).edges k = g.edges k := by
  by_cases hk : i = k
  · subst hk
    cases hn : g.node? i <;> simp [edges, mark, node?_modify, hn]
  · simp [edges, mark, node?_modify, hk]

@[simp]
theorem edges_setPriority (p : Nat) : (g.setPriority i p).edges k = g.edges k := by
  by_cases hk : i = k
  · subst hk
    cases hn : g.node? i <;> simp [edges, setPriority, node?_modify, hn]
  · simp [edges, setPriority, node?_modify, hk]

theorem edges_moveEdges (hj : j < g.size) (hij : i ≠ j) :
    (g.moveEdges i j).edges k =
      if k = j then g.edges j ++ g.edges i else if k = i then [] else g.edges k := by
  obtain ⟨n, hn⟩ := Option.isSome_iff_exists.1 (node?_isSome.2 hj)
  by_cases hkj : k = j
  · subst hkj
    simp [edges, moveEdges, node?_modify, hn, hij]
  · by_cases hki : k = i
    · subst hki
      cases hm : g.node? k <;> simp [edges, moveEdges, node?_modify, hm, hkj, Ne.symm hkj]
    · simp [edges, moveEdges, node?_modify, hkj, hki, Ne.symm hkj, Ne.symm hki]

theorem isAccept_addNode (tag : Tag) :
    (g.addNode tag).isAccept k = if k = g.size then tag.isAccept else g.isAccept k := by
  by_cases hk : k = g.size <;> simp [isAccept, node?_addNode, hk]

/-- Changing the edges or the priority of a node does not change whether it accepts. -/
theorem isAccept_modify (f : Node → Node) (hf : ∀ n, (f n).tag = n.tag) :
    (g.modify i f).isAccept k = g.isAccept k := by
  by_cases hk : i = k
  · subst hk
    cases hn : g.node? i <;> simp [isAccept, node?_modify, hn, hf]
  · simp [isAccept, node?_modify, hk]

@[simp]
theorem isAccept_addEdge (e : Edge) : (g.addEdge i e).isAccept k = g.isAccept k :=
  isAccept_modify _ fun _ => rfl

@[simp]
theorem isAccept_link : (g.link i j).isAccept k = g.isAccept k := isAccept_addEdge _

@[simp]
theorem isAccept_setPriority (p : Nat) : (g.setPriority i p).isAccept k = g.isAccept k :=
  isAccept_modify _ fun _ => rfl

@[simp]
theorem isAccept_moveEdges : (g.moveEdges i j).isAccept k = g.isAccept k := by
  simp only [moveEdges]
  rw [isAccept_modify, isAccept_modify]
  · exact fun _ => rfl
  · exact fun _ => rfl

theorem isAccept_mark_normal :
    (g.mark i .normal).isAccept k = (decide (k ≠ i) && g.isAccept k) := by
  by_cases hk : i = k
  · subst hk
    cases hn : g.node? i <;> simp [isAccept, mark, node?_modify, hn, Tag.attach, Tag.normal]
  · simp [isAccept, mark, node?_modify, hk, Ne.symm hk]

/-- Changing the edges or the mark of a node does not change its priority. -/
theorem priority_modify (f : Node → Node) (hf : ∀ n, (f n).priority = n.priority) :
    (g.modify i f).priority k = g.priority k := by
  by_cases hk : i = k
  · subst hk
    cases hn : g.node? i <;> simp [priority, node?_modify, hn, hf]
  · simp [priority, node?_modify, hk]

@[simp]
theorem priority_addNode (tag : Tag) : (g.addNode tag).priority k = g.priority k := by
  by_cases hk : k = g.size
  · have : g.node? g.size = none := by simp [node?, size]
    simp [priority, node?_addNode, hk, this]
  · simp [priority, node?_addNode, hk]

@[simp]
theorem priority_addEdge (e : Edge) : (g.addEdge i e).priority k = g.priority k :=
  priority_modify _ fun _ => rfl

@[simp]
theorem priority_link : (g.link i j).priority k = g.priority k := priority_addEdge _

@[simp]
theorem priority_mark (tag : Tag) : (g.mark i tag).priority k = g.priority k :=
  priority_modify _ fun _ => rfl

@[simp]
theorem priority_moveEdges : (g.moveEdges i j).priority k = g.priority k := by
  simp only [moveEdges]
  rw [priority_modify, priority_modify]
  · exact fun _ => rfl
  · exact fun _ => rfl

theorem priority_setPriority (hi : i < g.size) (p : Nat) :
    (g.setPriority i p).priority k = if k = i then some p else g.priority k := by
  obtain ⟨n, hn⟩ := Option.isSome_iff_exists.1 (node?_isSome.2 hi)
  by_cases hk : k = i
  · subst hk
    simp [priority, setPriority, node?_modify, hn]
  · simp [priority, setPriority, node?_modify, hk, Ne.symm hk]

end MaximalMunch.Graph
