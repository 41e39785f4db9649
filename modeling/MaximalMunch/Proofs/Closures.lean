import MaximalMunch.Proofs.Lists
import MaximalMunch.Proofs.Run

/-! Asking for closures. Whatever has been asked before, each answer is the set of nodes that silent
edges lead to, and the walk that finds it takes no more rounds than there are silent edges, and one
more for the node itself. -/

namespace MaximalMunch

namespace Nfa

variable {a : Nfa} {i j u : Nat} {seen : NodeSet}

/-! ## Silent edges -/

/-- A silent edge leads from one node to another. -/
def SilentStep (a : Nfa) (i j : Nat) : Prop := ∃ e ∈ a.edges i, e.isSilent = true ∧ e.target = j

/-- The silent paths are those along silent edges. -/
theorem path_nil_iff : Path a.edges i [] j ↔ Relation.ReflTransGen a.SilentStep i j := by
  constructor
  · intro p
    have hclosed : ∀ k ∈ {k | Relation.ReflTransGen a.SilentStep i k}, ∀ e ∈ a.edges k,
        e.isSilent = true → e.target ∈ {k | Relation.ReflTransGen a.SilentStep i k} := by
      intro k hk e he hsilent
      exact Relation.ReflTransGen.tail hk ⟨e, he, hsilent, rfl⟩
    exact p.mem_of_silent hclosed Relation.ReflTransGen.refl
  · intro h
    induction h with
    | refl => exact .refl i
    | tail _ hstep ih =>
      obtain ⟨e, he, hsilent, rfl⟩ := hstep
      exact ih.trans (.edge he (Or.inl ⟨hsilent, rfl⟩))

/-- How many silent edges leave the nodes that have not been seen. -/
def pendingEdges (a : Nfa) (seen : NodeSet) : Nat :=
  ∑ i ∈ (Finset.range a.size).filter (¬ · ∈ seen), (a.silentTargets i).length

/-- How many silent edges there are. -/
def silentEdges (a : Nfa) : Nat := ∑ i ∈ Finset.range a.size, (a.silentTargets i).length

theorem pendingEdges_empty (a : Nfa) : a.pendingEdges ∅ = a.silentEdges := by
  simp [pendingEdges, silentEdges]

/-- When a node is seen, with others perhaps, its edges are not pending any more. -/
theorem pendingEdges_add_le {seen' : NodeSet} (hu : u < a.size) (hnew : ¬ u ∈ seen)
    (hseen : ∀ i ∈ seen.insert u, i ∈ seen') :
    a.pendingEdges seen' + (a.silentTargets u).length ≤ a.pendingEdges seen := by
  have hmem : u ∈ (Finset.range a.size).filter (¬ · ∈ seen) := by simp [hu, hnew]
  have hsub : (Finset.range a.size).filter (¬ · ∈ seen') ⊆
      ((Finset.range a.size).filter (¬ · ∈ seen)).erase u := by
    intro i hi
    rw [Finset.mem_filter] at hi
    rw [Finset.mem_erase, Finset.mem_filter]
    have hother := mt (hseen i) hi.2
    rw [NodeSet.mem_insert, not_or] at hother
    exact ⟨hother.2, hi.1, hother.1⟩
  have hle := Finset.sum_le_sum_of_subset (f := fun i => (a.silentTargets i).length) hsub
  have hsum := Finset.sum_erase_add _ (fun i => (a.silentTargets i).length) hmem
  unfold pendingEdges
  omega

end Nfa

namespace ClosureCache

variable {a : Nfa} {cache : ClosureCache} {s last : NodeSet × List Nat} {n u : Nat}

/-! ## The walk as a loop -/

/-- One round of a walk. The node in front is passed over if it has been seen; else it is seen, and
so is its closure if that is known, or else the targets of its silent edges wait in front. -/
def round? (a : Nfa) (cache : ClosureCache) : NodeSet × List Nat → Option (NodeSet × List Nat)
  | (_, []) => none
  | (seen, u :: waiting) =>
    some <|
      if u < a.size ∧ seen.contains u = false then
        match cache.known? u with
        | some closure => (seen.insert u ∪ closure, waiting)
        | none => (seen.insert u, a.silentTargets u ++ waiting)
      else (seen, waiting)

/-- A round passes over one waiting node, and those that it adds are no more than the edges that it
makes not pending. -/
theorem round?_shrinks {next : NodeSet × List Nat} (h : round? a cache s = some next) :
    next.2.length + a.pendingEdges next.1 < s.2.length + a.pendingEdges s.1 := by
  obtain ⟨seen, waiting⟩ := s
  cases waiting with
  | nil => cases h
  | cons u waiting =>
    rw [round?, Option.some.injEq] at h
    split at h
    · rename_i hu
      obtain ⟨hsize, hnew⟩ := hu
      have hnew : ¬ u ∈ seen := by simp [← NodeSet.contains_iff, hnew]
      have hseen : ∀ i ∈ seen.insert u, i ∈ next.1 := by
        intro i hi
        subst h
        split
        · exact NodeSet.mem_union.2 (.inl hi)
        · exact hi
      have hle := Nfa.pendingEdges_add_le hsize hnew hseen
      have hwaiting : next.2.length ≤ waiting.length + (a.silentTargets u).length := by
        subst h
        split <;> simp [Nat.add_comm]
      simp only [List.length_cons]
      omega
    · simp [← h]

/-- The rounds of a walk find what the walk gives. -/
theorem walk_of_runsOut (h : RunsOut (round? a cache) n s last) :
    last = (walk a cache s.1 s.2, []) := by
  induction h with
  | @stop s hstop =>
    obtain ⟨seen, waiting⟩ := s
    cases waiting with
    | nil => rw [walk]
    | cons u waiting => cases hstop
  | @step s next last n hstep _ ih =>
    obtain ⟨seen, waiting⟩ := s
    cases waiting with
    | nil => cases hstep
    | cons u waiting =>
      rw [ih, walk]
      rw [round?, Option.some.injEq] at hstep
      subst hstep
      split
      · cases cache.known? u <;> rfl
      · rfl

/-- A walk ends, whatever closures are known and whatever cycles the silent edges form. -/
theorem exists_rounds (a : Nfa) (cache : ClosureCache) (u : Nat) : ∃ n,
    RunsOut (round? a cache) n (∅, [u]) (walk a cache ∅ [u], []) ∧ n ≤ a.silentEdges + 1 := by
  obtain ⟨n, last, hrun, -, hle⟩ := RunsOut.exists_of_shrinks
    (P := fun _ => True) (fun s : NodeSet × List Nat => s.2.length + a.pendingEdges s.1)
    (fun s next _ h => ⟨trivial, round?_shrinks h⟩) (s := (∅, [u])) trivial
  refine ⟨n, walk_of_runsOut hrun ▸ hrun, ?_⟩
  simp only [List.length_singleton, Nfa.pendingEdges_empty] at hle
  omega

/-- The closures of any nodes of a component's automaton, asked one after the other in any order and
as often as one likes, are the nodes that silent edges lead to from them. Whatever is known by then,
a walk for a further node ends after at most one round more than there are silent edges. -/
theorem askAll_exact (g : Graph) (c : Component) :
    let a := Nfa.ofGraph g c
    ∀ asked : List (Fin a.size),
      let answers := askAll a (.new a) (asked.map (·.val))
      List.Forall₂ (fun (u : Fin a.size) closure =>
        ∀ v, v ∈ closure ↔ Relation.ReflTransGen a.SilentStep u v) asked answers.1 ∧
      ∀ u : Fin a.size, ∃ n,
        RunsOut (round? a answers.2) n (∅, [u.val]) (walk a answers.2 ∅ [u.val], []) ∧
          n ≤ a.silentEdges + 1 := by
  intro a asked answers
  refine ⟨?_, fun u => exists_rounds a answers.2 u⟩
  have hbounded : ∀ u ∈ asked.map (·.val), u < a.size := by simp
  have hanswers := askAll_correct (Nfa.ofGraph_valid g c) (new_correct a) hbounded
  rw [List.forall₂_map_left_iff] at hanswers
  exact hanswers.imp fun u closure h v => (h v).trans Nfa.path_nil_iff

end ClosureCache

end MaximalMunch
