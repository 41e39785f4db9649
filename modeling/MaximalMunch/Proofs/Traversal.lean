import MaximalMunch.Nfa
import MaximalMunch.Proofs.Component
import MaximalMunch.Proofs.Lists

/-! Copying a component out of its graph. The depth-first search lists the nodes that the start
leads to, each once, and the automaton made of them has the paths of the graph under other names. -/

namespace MaximalMunch

namespace Graph

variable {g : Graph} {seen waiting : List Nat} {i s u : Nat}

/-- What holds in the course of a search from `s`: the nodes seen are different nodes of the graph,
their edges lead to nodes that are seen or waiting, and all of these can be reached. -/
structure Searching (g : Graph) (s : Nat) (seen waiting : List Nat) : Prop where
  nodup : seen.Nodup
  bounded : ∀ i ∈ seen, i < g.size
  closed : ∀ i ∈ seen, ∀ e ∈ g.edges i, e.target < g.size → e.target ∈ seen ∨ e.target ∈ waiting
  reached : ∀ i, i ∈ seen ∨ i ∈ waiting → ∃ w, Path g.edges s w i

namespace Searching

theorem start (g : Graph) (s : Nat) : g.Searching s [] [s] where
  nodup := List.nodup_nil
  bounded := by simp
  closed := by simp
  reached i hi := by
    have hi : i = s := by simpa using hi
    subst hi
    exact ⟨[], Path.refl i⟩

/-- Seeing a node makes the targets of its edges wait. -/
theorem see (h : g.Searching s seen (u :: waiting)) (hu : u < g.size) (hnew : u ∉ seen) :
    g.Searching s (u :: seen) (g.targets u ++ waiting) where
  nodup := List.nodup_cons.2 ⟨hnew, h.nodup⟩
  bounded i hi := by
    rcases List.mem_cons.1 hi with rfl | hi
    · exact hu
    · exact h.bounded i hi
  closed i hi e he ht := by
    rcases List.mem_cons.1 hi with rfl | hi
    · exact Or.inr (List.mem_append_left _ (List.mem_map_of_mem he))
    · rcases h.closed i hi e he ht with hs | hw
      · exact Or.inl (List.mem_cons_of_mem u hs)
      · rcases List.mem_cons.1 hw with hw | hw
        · exact Or.inl (hw ▸ List.mem_cons_self ..)
        · exact Or.inr (List.mem_append_right _ hw)
  reached i hi := by
    rw [List.mem_cons, List.mem_append, or_assoc] at hi
    rcases hi with rfl | hi | hi | hi
    · exact h.reached i (Or.inr (List.mem_cons_self ..))
    · exact h.reached i (Or.inl hi)
    · obtain ⟨e, he, rfl⟩ := List.mem_map.1 hi
      obtain ⟨w, p⟩ := h.reached u (Or.inr (List.mem_cons_self ..))
      obtain ⟨v, hv⟩ := e.exists_reads
      exact ⟨w ++ v, p.trans (Path.edge he hv)⟩
    · exact h.reached i (Or.inr (List.mem_cons_of_mem u hi))

/-- A waiting node that is seen already, or that is none of the graph, can be passed over. -/
theorem skip (h : g.Searching s seen (u :: waiting)) (hu : ¬(u < g.size ∧ u ∉ seen)) :
    g.Searching s seen waiting where
  nodup := h.nodup
  bounded := h.bounded
  closed i hi e he ht := by
    rcases h.closed i hi e he ht with hs | hw
    · exact Or.inl hs
    · rcases List.mem_cons.1 hw with hw | hw
      · by_contra hno
        exact hu ⟨hw ▸ ht, fun hs => hno (Or.inl (hw.symm ▸ hs))⟩
      · exact Or.inr hw
  reached i hi := h.reached i (hi.imp_right (List.mem_cons_of_mem u))

/-- When no node waits any more, the search is complete. -/
theorem visit (h : g.Searching s seen waiting) : g.Searching s (g.visit seen waiting) [] := by
  fun_induction Graph.visit g seen waiting with
  | case1 seen => exact h
  | case2 seen u waiting hu ih => exact ih (h.see hu.1 (by simpa using hu.2))
  | case3 seen u waiting hu ih => exact ih (h.skip (by simpa using hu))

end Searching

theorem suffix_visit : seen <:+ g.visit seen waiting := by
  fun_induction Graph.visit g seen waiting with
  | case1 seen => exact List.suffix_refl seen
  | case2 seen u waiting _ ih => exact (List.suffix_cons u seen).trans ih
  | case3 seen u waiting _ ih => exact ih

theorem lt_of_mem_preorder (hi : i ∈ g.preorder s) : i < g.size :=
  (Searching.start g s).visit.bounded i (List.mem_reverse.1 hi)

/-- The nodes of `order` are copied from `g`: they are different, the first is `s`, all of them
are reached from it, and no edge leads out of them. -/
structure Listing (g : Graph) (s : Nat) (order : List Nat) : Prop where
  nodup : order.Nodup
  bounded : ∀ i ∈ order, i < g.size
  closed : ∀ i ∈ order, ∀ e ∈ g.edges i, e.target ∈ order
  reached : ∀ i ∈ order, ∃ w, Path g.edges s w i
  head : order[0]? = some s

/-- Depth-first order lists what a node leads to, if that is within the graph. -/
theorem preorder_listing_of_lt (hs : s < g.size)
    (hlt : ∀ w i, Path g.edges s w i → ∀ e ∈ g.edges i, e.target < g.size) :
    g.Listing s (g.preorder s) := by
  have h := (Searching.start g s).visit
  constructor
  · exact List.nodup_reverse.2 h.nodup
  · exact fun i hi => lt_of_mem_preorder hi
  · intro i hi e he
    obtain ⟨w, p⟩ := h.reached i (Or.inl (List.mem_reverse.1 hi))
    have hmem := h.closed i (List.mem_reverse.1 hi) e he (hlt w i p e he)
    exact List.mem_reverse.2 (hmem.resolve_right (List.not_mem_nil))
  · exact fun i hi => h.reached i (Or.inl (List.mem_reverse.1 hi))
  · have hfirst : g.visit [] [s] = g.visit [s] (g.targets s ++ []) := by
      rw [Graph.visit, dif_pos ⟨hs, rfl⟩]
    have hsuffix : [s] <:+ g.visit [] [s] := hfirst ▸ suffix_visit
    obtain ⟨before, hb⟩ := hsuffix
    rw [preorder, ← hb]
    simp

theorem preorder_listing {S T : Set Nat} (r : g.Region S s T) : g.Listing s (g.preorder s) := by
  refine preorder_listing_of_lt (r.bounded s r.fragment.entry_mem) fun w i p e he => ?_
  have hi := r.fragment.path_mem r.fragment.entry_mem p
  exact r.bounded _ (r.fragment.inner i hi e he).1

end Graph

namespace Nfa

def priority (a : Nfa) (i : Nat) : Priority := (a.node? i).bind (·.priority)

/-- Every edge leads to a node of the automaton. -/
def Valid (a : Nfa) : Prop := ∀ i, ∀ e ∈ a.edges i, e.target < a.size

/-- The nodes of an automaton are copies of the listed nodes of a graph. -/
structure Copies (a : Nfa) (g : Graph) (order : List Nat) : Prop where
  size : a.size = order.length
  edges : ∀ {k u : Nat}, order[k]? = some u → ∀ e,
    e ∈ a.edges k ↔ ∃ e' ∈ g.edges u, e.label = e'.label ∧ order[e.target]? = some e'.target
  isAccept : ∀ {k u : Nat}, order[k]? = some u → a.isAccept k = g.isAccept u
  priority : ∀ {k u : Nat}, order[k]? = some u → a.priority k = g.priority u

/-- Each node listed is copied. -/
theorem ofGraph_size (g : Graph) (c : Component) :
    (ofGraph g c).size = (g.preorder c.start).length := by
  simp only [ofGraph, Nfa.size, List.size_toArray, List.length_map]
  exact List.filterMap_length_eq_length.2 fun i hi =>
    Graph.node?_isSome.2 (Graph.lt_of_mem_preorder hi)

/-- Edges that leave the nodes listed are not copied. -/
theorem ofGraph_valid (g : Graph) (c : Component) : (ofGraph g c).Valid := by
  intro i e he
  cases hn : (ofGraph g c).node? i with
  | none => simp [Nfa.edges, hn] at he
  | some n =>
    simp only [Nfa.edges, hn, Option.map_some, Option.getD_some] at he
    simp only [ofGraph, node?, List.getElem?_toArray, List.getElem?_map] at hn
    obtain ⟨m, _, rfl⟩ := Option.map_eq_some_iff.1 hn
    obtain ⟨e', _, he'⟩ := List.mem_filterMap.1 he
    obtain ⟨t, ht, rfl⟩ := Option.map_eq_some_iff.1 he'
    rw [ofGraph_size]
    exact (List.findIdx?_eq_some_iff_getElem.1 ht).1

/-- The nodes are copied in the order in which they are listed. -/
theorem ofGraph_node? {g : Graph} {c : Component} {k u : Nat}
    (hu : (g.preorder c.start)[k]? = some u) :
    (ofGraph g c).node? k = (g.node? u).map (renumber (g.preorder c.start)) := by
  have hsome : ∀ i ∈ g.preorder c.start, (g.node? i).isSome = true :=
    fun i hi => Graph.node?_isSome.2 (Graph.lt_of_mem_preorder hi)
  simp only [ofGraph, node?, List.getElem?_toArray, List.getElem?_map,
    getElem?_filterMap_of_isSome hsome, hu, Option.bind_some]

theorem ofGraph_copies {g : Graph} {c : Component} (l : g.Listing c.start (g.preorder c.start)) :
    (ofGraph g c).Copies g (g.preorder c.start) := by
  refine ⟨?_, ?_, ?_, ?_⟩
  · exact ofGraph_size g c
  · intro k u hu e
    have hlt := l.bounded u (List.mem_of_getElem? hu)
    obtain ⟨n, hn⟩ := Option.isSome_iff_exists.1 (Graph.node?_isSome.2 hlt)
    have hedges : (ofGraph g c).edges k = (g.edges u).filterMap fun e =>
        ((g.preorder c.start).idxOf? e.target).map (⟨e.label, ·⟩) := by
      simp only [Nfa.edges, Graph.edges, ofGraph_node? hu, hn, renumber, Option.map_some,
        Option.getD_some]
    simp only [hedges, List.mem_filterMap, Option.map_eq_some_iff,
      idxOf?_eq_some_iff_getElem? l.nodup]
    constructor
    · rintro ⟨e', he', t, ht, rfl⟩
      exact ⟨e', he', rfl, ht⟩
    · rintro ⟨e', he', hl, ht⟩
      exact ⟨e', he', e.target, ht, by rw [← hl]⟩
  · intro k u hu
    rw [Nfa.isAccept, ofGraph_node? hu, Graph.isAccept, Option.map_map]
    rfl
  · intro k u hu
    rw [Nfa.priority, ofGraph_node? hu, Graph.priority]
    cases g.node? u <;> rfl

namespace Copies

variable {a : Nfa} {g : Graph} {order : List Nat} {s k l u v : Nat} {w : Bytes}

theorem path (c : a.Copies g order) (hk : order[k]? = some u) (p : Path a.edges k w l) :
    ∃ v, order[l]? = some v ∧ Path g.edges u w v := by
  induction p generalizing u with
  | refl => exact ⟨u, hk, Path.refl u⟩
  | step e he hu _ ih =>
    obtain ⟨e', he', hlabel, ht⟩ := (c.edges hk e).1 he
    obtain ⟨v, hv, q⟩ := ih ht
    rw [Edge.reads_iff, hlabel, ← Edge.reads_iff] at hu
    exact ⟨v, hv, Path.step e' he' hu q⟩

theorem path_back (c : a.Copies g order) (o : g.Listing s order) (hk : order[k]? = some u)
    (p : Path g.edges u w v) : ∃ l, order[l]? = some v ∧ Path a.edges k w l := by
  induction p generalizing k with
  | refl => exact ⟨k, hk, Path.refl k⟩
  | step e he hu _ ih =>
    obtain ⟨t, ht⟩ := List.getElem?_of_mem (o.closed _ (List.mem_of_getElem? hk) e he)
    obtain ⟨l, hl, q⟩ := ih ht
    have he' : ⟨e.label, t⟩ ∈ a.edges k := (c.edges hk _).2 ⟨e, he, rfl, ht⟩
    exact ⟨l, hl, Path.step ⟨e.label, t⟩ he' hu q⟩

end Copies

/-- Some accepting node with the given priority can be reached by reading a word. -/
def Ends (a : Nfa) (w : Bytes) (p : Priority) : Prop :=
  ∃ q, Path a.edges 0 w q ∧ a.isAccept q = true ∧ a.priority q = p

/-- An accepting node can be reached from every node. -/
def Live (a : Nfa) : Prop := ∀ k < a.size, ∃ w q, Path a.edges k w q ∧ a.isAccept q = true

section OfGraph

variable {g : Graph} {c : Component} {S T : Set Nat}

/-- The automaton of a component ends where the component does. -/
theorem ofGraph_ends (r : g.Region S c.start T) {w : Bytes} {p : Priority} :
    (ofGraph g c).Ends w p ↔ ∃ t ∈ T, Path g.edges c.start w t ∧ g.priority t = p := by
  have o := Graph.preorder_listing r
  have copies := ofGraph_copies o
  constructor
  · rintro ⟨q, hq, hacc, hp⟩
    obtain ⟨t, ht, path⟩ := copies.path o.head hq
    have htS := r.fragment.path_mem r.fragment.entry_mem path
    rw [copies.isAccept ht, r.accepts t htS] at hacc
    rw [copies.priority ht] at hp
    exact ⟨t, hacc, path, hp⟩
  · rintro ⟨t, htT, path, hp⟩
    obtain ⟨q, hq, path'⟩ := copies.path_back o o.head path
    refine ⟨q, path', ?_, ?_⟩
    · rw [copies.isAccept hq, r.accepts t (r.fragment.exits_sub htT)]
      exact htT
    · rw [copies.priority hq, hp]

theorem ofGraph_live (r : g.Region S c.start T) : (ofGraph g c).Live := by
  have o := Graph.preorder_listing r
  have copies := ofGraph_copies o
  intro k hk
  rw [copies.size] at hk
  have hu := List.getElem?_eq_getElem hk
  obtain ⟨_, reach⟩ := o.reached _ (List.mem_of_getElem? hu)
  obtain ⟨t, htT, w, path⟩ := r.fragment.live _ (r.fragment.path_mem r.fragment.entry_mem reach)
  obtain ⟨q, hq, path'⟩ := copies.path_back o hu path
  refine ⟨w, q, path', ?_⟩
  rw [copies.isAccept hq, r.accepts t (r.fragment.exits_sub htT)]
  exact htT

/-- The automaton has a start node. -/
theorem ofGraph_size_pos (r : g.Region S c.start T) : 0 < (ofGraph g c).size := by
  have o := Graph.preorder_listing r
  rw [(ofGraph_copies o).size]
  exact (List.getElem?_eq_some_iff.1 o.head).1

end OfGraph

end Nfa

end MaximalMunch
