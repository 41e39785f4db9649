import MaximalMunch.Proofs.Traversal

/-! Depth-first order. The recursive traversal lists a node that is new and then what its edges lead
to, one target after the other. The order in which a component is copied is the one of this
traversal, no matter whether the targets that are listed already wait for a visit as well. -/

namespace MaximalMunch

namespace Graph

/-- The recursive depth-first traversal of some nodes one after the other: from the nodes listed
before to those listed after. A node that is not listed yet is listed, and the targets of its edges
are traversed in their order, before the next one. -/
inductive DepthFirst (g : Graph) : List Nat → List Nat → List Nat → Prop
  | done (listed : List Nat) : DepthFirst g listed [] listed
  | known {u : Nat} {listed nodes after : List Nat} :
      u ∈ listed → DepthFirst g listed nodes after → DepthFirst g listed (u :: nodes) after
  | visit {u : Nat} {listed nodes between after : List Nat} :
      u ∉ listed → DepthFirst g (listed ++ [u]) (g.targets u) between →
      DepthFirst g between nodes after → DepthFirst g listed (u :: nodes) after

/-- Every edge leads to a node of the graph. -/
def Valid (g : Graph) : Prop := ∀ i, ∀ e ∈ g.edges i, e.target < g.size

variable {g : Graph} {listed nodes after after' seen waiting xs ys : List Nat} {s u v i : Nat}

namespace DepthFirst

theorem unique (h : g.DepthFirst listed nodes after) (h' : g.DepthFirst listed nodes after') :
    after = after' := by
  induction h generalizing after' with
  | done =>
    cases h'
    rfl
  | known hu _ ih =>
    cases h' with
    | known _ hrest => exact ih hrest
    | visit hnew => exact absurd hu hnew
  | visit hnew _ _ ih ihrest =>
    cases h' with
    | known hu => exact absurd hu hnew
    | visit _ htargets hrest =>
      cases ih htargets
      exact ihrest hrest

/-- A traversal of some nodes and then others can be split behind the former. -/
theorem split (h : g.DepthFirst listed (xs ++ ys) after) :
    ∃ between, g.DepthFirst listed xs between ∧ g.DepthFirst between ys after := by
  induction xs generalizing listed with
  | nil => exact ⟨listed, .done listed, h⟩
  | cons u xs ih =>
    cases h with
    | known hu hrest =>
      obtain ⟨between, hxs, hys⟩ := ih hrest
      exact ⟨between, .known hu hxs, hys⟩
    | visit hnew htargets hrest =>
      obtain ⟨between, hxs, hys⟩ := ih hrest
      exact ⟨between, .visit hnew htargets hxs, hys⟩

end DepthFirst

theorem Valid.targets_lt (hg : g.Valid) (hv : v ∈ g.targets u) : v < g.size := by
  obtain ⟨e, he, rfl⟩ := List.mem_map.1 hv
  exact hg u e he

/-! ## The search and the recursion -/

/-- The nodes wait in the order in which the recursion comes to them. -/
theorem depthFirst_visit (hg : g.Valid) (hwaiting : ∀ v ∈ waiting, v < g.size) :
    g.DepthFirst seen.reverse waiting (g.visit seen waiting).reverse := by
  fun_induction Graph.visit g seen waiting with
  | case1 seen => exact .done _
  | case2 seen u waiting hu ih =>
    have hnew : u ∉ seen.reverse := by simpa using hu.2
    have hall : ∀ v ∈ g.targets u ++ waiting, v < g.size := fun v hv =>
      (List.mem_append.1 hv).elim hg.targets_lt fun hv => hwaiting v (List.mem_cons_of_mem u hv)
    -- The targets wait in front of the rest, and the recursion is done with them first.
    obtain ⟨between, htargets, hrest⟩ := (ih hall).split
    rw [List.reverse_cons] at htargets
    exact .visit hnew htargets hrest
  | case3 seen u waiting hu ih =>
    have hlt := hwaiting u (List.mem_cons_self ..)
    have hseen : u ∈ seen.reverse := by simpa [hlt] using hu
    exact .known hseen (ih fun v hv => hwaiting v (List.mem_cons_of_mem u hv))

/-- The search from one node lists what the recursive traversal lists, and nothing else does. -/
theorem depthFirst_iff (hg : g.Valid) (hs : s < g.size) :
    g.DepthFirst [] [s] after ↔ after = g.preorder s := by
  have hwaiting : ∀ v ∈ [s], v < g.size := by simpa using hs
  have h : g.DepthFirst [].reverse [s] (g.preorder s) := depthFirst_visit hg hwaiting
  constructor
  · exact fun h' => h'.unique h
  · rintro rfl
    exact h

/-! ## Waiting only for what is new -/

theorem visit_append : g.visit seen (xs ++ ys) = g.visit (g.visit seen xs) ys := by
  fun_induction Graph.visit g seen xs with
  | case1 seen => rfl
  | case2 seen u xs hu ih =>
    rw [List.cons_append, Graph.visit, dif_pos hu, ← List.append_assoc, ih]
  | case3 seen u xs hu ih => rw [List.cons_append, Graph.visit, dif_neg hu, ih]

theorem visit_cons_of_mem (hu : u ∈ seen) : g.visit seen (u :: waiting) = g.visit seen waiting := by
  rw [Graph.visit, dif_neg]
  simpa using fun _ => hu

/-- Nodes seen already need not wait. -/
theorem visit_filter (hsub : xs ⊆ seen) :
    g.visit seen (waiting.filter (· ∉ xs)) = g.visit seen waiting := by
  induction waiting generalizing seen with
  | nil => rfl
  | cons u waiting ih =>
    by_cases hu : u ∈ xs
    · rw [List.filter_cons_of_neg (by simpa using hu), ih hsub, visit_cons_of_mem (hsub hu)]
    · have hmono : xs ⊆ g.visit seen [u] := fun v hv => suffix_visit.subset (hsub hv)
      calc g.visit seen ((u :: waiting).filter (· ∉ xs))
          = g.visit seen ([u] ++ waiting.filter (· ∉ xs)) := by
            rw [List.filter_cons_of_pos (by simpa using hu)]
            rfl
        _ = g.visit (g.visit seen [u]) (waiting.filter (· ∉ xs)) := visit_append
        _ = g.visit (g.visit seen [u]) waiting := ih hmono
        _ = g.visit seen (u :: waiting) := visit_append.symm

/-- The search with a stack, onto which of the targets of a node only those are put that have not
been seen. A node may still be on it several times. -/
def visitNew (g : Graph) (seen : List Nat) : (stack : List Nat) → List Nat
  | [] => seen
  | u :: stack =>
    if _h : u < g.size ∧ seen.contains u = false then
      visitNew g (u :: seen) ((g.targets u).filter (· ∉ u :: seen) ++ stack)
    else visitNew g seen stack
termination_by stack => (unseen g.size seen.contains, stack.length)
decreasing_by
  · exact Prod.Lex.left _ _ (unseen_lt _h.1 _h.2 (by simp) fun i hi => by simp_all)
  · exact Prod.Lex.right _ (by simp)

theorem visitNew_eq (g : Graph) (seen stack : List Nat) :
    g.visitNew seen stack = g.visit seen stack := by
  fun_induction Graph.visitNew g seen stack with
  | case1 seen => rw [Graph.visit]
  | case2 seen u stack hu ih =>
    rw [ih, visit_append, visit_filter (List.Subset.refl _), ← visit_append, Graph.visit,
      dif_pos hu]
  | case3 seen u stack hu ih => rw [ih, Graph.visit, dif_neg hu]

/-! ## What is listed -/

/-- One or more edges in a row lead from one node to another, or both are the same. -/
def Reaches (g : Graph) : Nat → Nat → Prop := Relation.ReflTransGen fun u v => v ∈ g.targets u

theorem reaches_of_path {w : Bytes} (p : Path g.edges s w i) : g.Reaches s i := by
  induction p with
  | refl => exact .refl
  | step e he _ _ ih => exact .head (List.mem_map_of_mem he) ih

theorem Valid.listing (hg : g.Valid) (hs : s < g.size) : g.Listing s (g.preorder s) :=
  preorder_listing_of_lt hs fun _ i _ => hg i

/-- Depth-first order lists just the nodes that edges lead to. -/
theorem mem_preorder_iff (hg : g.Valid) (hs : s < g.size) : i ∈ g.preorder s ↔ g.Reaches s i := by
  have l := hg.listing hs
  constructor
  · intro hi
    obtain ⟨w, p⟩ := l.reached i hi
    exact reaches_of_path p
  · intro h
    induction h with
    | refl => exact List.mem_of_getElem? l.head
    | tail _ hv ih =>
      obtain ⟨e, he, rfl⟩ := List.mem_map.1 hv
      exact l.closed _ ih e he

end Graph

/-! ## What is copied -/

/-- One node is a copy of another, which is among those listed: their tags and their priorities are
the same, and the edges have the same labels in the same order. The targets are named by their
places in the list. -/
structure Node.CopyOf (m n : Node) (order : List Nat) : Prop where
  tag : m.tag = n.tag
  priority : m.priority = n.priority
  edges : List.Forall₂ (fun e f => e.label = f.label ∧ order[e.target]? = some f.target)
    m.edges n.edges

namespace Nfa

/-- The nodes of an automaton are copies of the listed nodes of a graph, in the order of the
list. -/
structure CopyOf (a : Nfa) (g : Graph) (order : List Nat) : Prop where
  size : a.size = order.length
  node : ∀ k u, order[k]? = some u →
    ∃ m n, a.node? k = some m ∧ g.node? u = some n ∧ m.CopyOf n order

variable {g : Graph} {c : Component} {order : List Nat} {n : Node}

theorem renumber_copyOf (hnodup : order.Nodup) (h : ∀ e ∈ n.edges, e.target ∈ order) :
    (renumber order n).CopyOf n order where
  tag := rfl
  priority := rfl
  edges := by
    refine forall₂_filterMap fun e he => ?_
    obtain ⟨t, ht⟩ := List.getElem?_of_mem (h e he)
    have hplace : order.idxOf? e.target = some t := (idxOf?_eq_some_iff_getElem? hnodup).2 ht
    exact ⟨⟨e.label, t⟩, by rw [hplace, Option.map_some], rfl, ht⟩

/-- A component that is copied out of its graph is copied as it is. -/
theorem ofGraph_copyOf (l : g.Listing c.start (g.preorder c.start)) :
    (ofGraph g c).CopyOf g (g.preorder c.start) where
  size := ofGraph_size g c
  node k u hu := by
    have hmem := List.mem_of_getElem? hu
    obtain ⟨n, hn⟩ := Option.isSome_iff_exists.1 (Graph.node?_isSome.2 (l.bounded u hmem))
    have hedges : g.edges u = n.edges := by rw [Graph.edges, hn, Option.map_some, Option.getD_some]
    refine ⟨_, n, (ofGraph_node? hu).trans (congrArg _ hn), hn, renumber_copyOf l.nodup ?_⟩
    rw [← hedges]
    exact l.closed u hmem

end Nfa

end MaximalMunch
