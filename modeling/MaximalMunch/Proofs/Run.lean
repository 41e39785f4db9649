import MaximalMunch.Nfa
import MaximalMunch.Proofs.Traversal

/-! Runs of nondeterministic automata: the closures are the silent paths, and the nodes a run may be
in after a word are those that paths reading the word lead to. -/

namespace MaximalMunch

namespace ClosureCache

variable {a : Nfa} {cache : ClosureCache} {s u v : Nat} {seen : NodeSet} {waiting : List Nat}

/-- The closures that are known are the nodes silent paths lead to. -/
def Correct (a : Nfa) (cache : ClosureCache) : Prop :=
  ∀ u closure, cache.known? u = some closure → ∀ v, v ∈ closure ↔ Path a.edges u [] v

/-- What holds in the course of a walk from `s`: silent edges of the nodes seen lead to nodes that
are seen or waiting, and silent paths lead to all of these. -/
structure Walking (a : Nfa) (s : Nat) (seen : NodeSet) (waiting : List Nat) : Prop where
  origin : s ∈ seen ∨ s ∈ waiting
  closed : ∀ i ∈ seen, ∀ e ∈ a.edges i, e.isSilent = true → e.target ∈ seen ∨ e.target ∈ waiting
  reached : ∀ i, i ∈ seen ∨ i ∈ waiting → Path a.edges s [] i
  bounded : ∀ i ∈ waiting, i < a.size

namespace Walking

theorem start (hs : s < a.size) : Walking a s ∅ [s] where
  origin := Or.inr (List.mem_singleton.2 rfl)
  closed i hi := absurd hi (NodeSet.not_mem_empty i)
  reached i hi := by
    have hi : i = s := by simpa using hi
    subst hi
    exact Path.refl i
  bounded := by simpa using hs

/-- Seeing a node makes the targets of its silent edges wait. -/
theorem see (ha : a.Valid) (h : Walking a s seen (u :: waiting)) :
    Walking a s (seen.insert u) (a.silentTargets u ++ waiting) where
  origin := by
    rcases h.origin with hs | hs
    · exact Or.inl (NodeSet.mem_insert.2 (Or.inl hs))
    · rcases List.mem_cons.1 hs with hs | hs
      · exact Or.inl (NodeSet.mem_insert.2 (Or.inr hs))
      · exact Or.inr (List.mem_append_right _ hs)
  closed i hi e he hsilent := by
    rcases NodeSet.mem_insert.1 hi with hi | rfl
    · rcases h.closed i hi e he hsilent with ht | ht
      · exact Or.inl (NodeSet.mem_insert.2 (Or.inl ht))
      · rcases List.mem_cons.1 ht with ht | ht
        · exact Or.inl (NodeSet.mem_insert.2 (Or.inr ht))
        · exact Or.inr (List.mem_append_right _ ht)
    · have ht : e.target ∈ a.silentTargets i :=
        List.mem_map_of_mem (List.mem_filter.2 ⟨he, hsilent⟩)
      exact Or.inr (List.mem_append_left _ ht)
  reached i hi := by
    rw [NodeSet.mem_insert, List.mem_append] at hi
    rcases hi with (hi | rfl) | hi | hi
    · exact h.reached i (Or.inl hi)
    · exact h.reached i (Or.inr (List.mem_cons_self ..))
    · obtain ⟨e, he, rfl⟩ := List.mem_map.1 hi
      obtain ⟨he, hsilent⟩ := List.mem_filter.1 he
      have p := h.reached u (Or.inr (List.mem_cons_self ..))
      exact p.trans (Path.edge he (Or.inl ⟨hsilent, rfl⟩))
    · exact h.reached i (Or.inr (List.mem_cons_of_mem u hi))
  bounded i hi := by
    rcases List.mem_append.1 hi with hi | hi
    · obtain ⟨e, he, rfl⟩ := List.mem_map.1 hi
      exact ha u e (List.mem_filter.1 he).1
    · exact h.bounded i (List.mem_cons_of_mem u hi)

/-- A node whose closure is known brings its closure along and makes no node wait. -/
theorem see_known {closure : NodeSet} (h : Walking a s seen (u :: waiting))
    (hc : ∀ v, v ∈ closure ↔ Path a.edges u [] v) :
    Walking a s (seen.insert u ∪ closure) waiting where
  origin := by
    rw [NodeSet.mem_union, NodeSet.mem_insert]
    rcases h.origin with hs | hs
    · exact Or.inl (Or.inl (Or.inl hs))
    · rcases List.mem_cons.1 hs with hs | hs
      · exact Or.inl (Or.inl (Or.inr hs))
      · exact Or.inr hs
  closed i hi e he hsilent := by
    have hclosure : Path a.edges u [] i → e.target ∈ closure := by
      intro p
      exact (hc e.target).2 (p.trans (Path.edge he (Or.inl ⟨hsilent, rfl⟩)))
    rw [NodeSet.mem_union, NodeSet.mem_insert] at hi ⊢
    rcases hi with (hi | rfl) | hi
    · rcases h.closed i hi e he hsilent with ht | ht
      · exact Or.inl (Or.inl (Or.inl ht))
      · rcases List.mem_cons.1 ht with ht | ht
        · exact Or.inl (Or.inl (Or.inr ht))
        · exact Or.inr ht
    · exact Or.inl (Or.inr (hclosure (Path.refl i)))
    · exact Or.inl (Or.inr (hclosure ((hc i).1 hi)))
  reached i hi := by
    have p := h.reached u (Or.inr (List.mem_cons_self ..))
    rw [NodeSet.mem_union, NodeSet.mem_insert] at hi
    rcases hi with ((hi | rfl) | hi) | hi
    · exact h.reached i (Or.inl hi)
    · exact p
    · exact p.trans ((hc i).1 hi)
    · exact h.reached i (Or.inr (List.mem_cons_of_mem u hi))
  bounded i hi := h.bounded i (List.mem_cons_of_mem u hi)

/-- A waiting node that is seen already can be passed over. -/
theorem skip (h : Walking a s seen (u :: waiting)) (hu : u ∈ seen) : Walking a s seen waiting where
  origin := by
    rcases h.origin with hs | hs
    · exact Or.inl hs
    · rcases List.mem_cons.1 hs with rfl | hs
      · exact Or.inl hu
      · exact Or.inr hs
  closed i hi e he hsilent := by
    rcases h.closed i hi e he hsilent with ht | ht
    · exact Or.inl ht
    · rcases List.mem_cons.1 ht with ht | ht
      · exact Or.inl (ht.symm ▸ hu)
      · exact Or.inr ht
  reached i hi := h.reached i (hi.imp_right (List.mem_cons_of_mem u))
  bounded i hi := h.bounded i (List.mem_cons_of_mem u hi)

/-- When no node waits any more, the closure is complete. -/
theorem walk (ha : a.Valid) (hcache : Correct a cache) (h : Walking a s seen waiting) :
    Walking a s (cache.walk a seen waiting) [] := by
  fun_induction ClosureCache.walk a cache seen waiting with
  | case1 seen => exact h
  | case2 seen u waiting hu closure hknown ih =>
    exact ih (h.see_known (hcache u closure hknown))
  | case3 seen u waiting hu hknown ih => exact ih (h.see ha)
  | case4 seen u waiting hu ih =>
    have hlt := h.bounded u (List.mem_cons_self ..)
    have hseen : seen.contains u = true := by simpa [hlt] using hu
    exact ih (h.skip hseen)

theorem mem_iff (h : Walking a s seen []) : v ∈ seen ↔ Path a.edges s [] v := by
  constructor
  · intro hv
    exact h.reached v (Or.inl hv)
  · intro p
    have hclosed : ∀ i ∈ {i | i ∈ seen}, ∀ e ∈ a.edges i, e.isSilent = true →
        e.target ∈ {i | i ∈ seen} := fun i hi e he hs =>
      (h.closed i hi e he hs).resolve_right List.not_mem_nil
    exact p.mem_of_silent hclosed (h.origin.resolve_right List.not_mem_nil)

end Walking

theorem new_correct (a : Nfa) : Correct a (.new a) := by
  intro u closure h
  simp only [known?, new, Array.getElem?_replicate] at h
  split at h <;> simp at h

/-- Asking gives the closure of a node, and all that is known afterwards is right. -/
theorem ask_correct (ha : a.Valid) (hcache : Correct a cache) (hu : u < a.size) :
    (∀ v, v ∈ (cache.ask a u).1 ↔ Path a.edges u [] v) ∧ Correct a (cache.ask a u).2 := by
  unfold ask
  split
  · rename_i closure hknown
    exact ⟨hcache u closure hknown, hcache⟩
  · have hwalk : ∀ v, v ∈ cache.walk a ∅ [u] ↔ Path a.edges u [] v :=
      fun v => ((Walking.start hu).walk ha hcache).mem_iff
    refine ⟨hwalk, ?_⟩
    intro i closure h
    simp only [known?, Array.getElem?_setIfInBounds] at h
    split at h
    · rename_i hi
      subst hi
      split at h
      · simp only [Option.join_some, Option.some.injEq] at h
        exact h ▸ hwalk
      · simp at h
    · exact hcache i closure h

theorem askAll_correct (ha : a.Valid) {us : List Nat} (hcache : Correct a cache)
    (hus : ∀ u ∈ us, u < a.size) :
    List.Forall₂ (fun u closure => ∀ v, v ∈ closure ↔ Path a.edges u [] v) us
      (cache.askAll a us).1 := by
  induction us generalizing cache with
  | nil => exact List.Forall₂.nil
  | cons u us ih =>
    obtain ⟨hclosure, hnext⟩ := ask_correct ha hcache (hus u (List.mem_cons_self ..))
    exact List.Forall₂.cons hclosure (ih hnext fun i hi => hus i (List.mem_cons_of_mem u hi))

end ClosureCache

namespace Nfa

variable {a : Nfa} {q u v : Nat} {w : Bytes} {b : UInt8}

theorem mem_closures (ha : a.Valid) (hu : u < a.size) :
    v ∈ a.closures.getD u ∅ ↔ Path a.edges u [] v := by
  have h : List.Forall₂ (fun u closure => ∀ v, v ∈ closure ↔ Path a.edges u [] v)
      (List.range a.size) (ClosureCache.askAll a (.new a) (List.range a.size)).1 :=
    ClosureCache.askAll_correct ha (ClosureCache.new_correct a) (by simp)
  have hlen : u < (ClosureCache.askAll a (.new a) (List.range a.size)).1.length := by
    rw [← h.length_eq, List.length_range]
    exact hu
  have hget := h.get (by simpa using hu) hlen v
  simp only [List.get_eq_getElem, List.getElem_range] at hget
  rw [← hget, closures, Array.getD_eq_getD_getElem?, List.getElem?_toArray,
    List.getElem?_eq_getElem hlen, Option.getD_some]

/-- Paths stay within the automaton. -/
theorem Valid.path_lt (ha : a.Valid) (hu : u < a.size) (p : Path a.edges u w v) : v < a.size := by
  induction p with
  | refl => exact hu
  | step e he _ _ ih => exact ih (ha _ e he)

theorem mem_foldl_union {ι : Type} {f : ι → NodeSet} {l : List ι} {s : NodeSet} :
    v ∈ l.foldl (fun s i => s ∪ f i) s ↔ v ∈ s ∨ ∃ i ∈ l, v ∈ f i := by
  induction l generalizing s with
  | nil => simp
  | cons i l ih => simp [ih, or_assoc]

theorem mem_edgesOf {current : NodeSet} {e : Edge} :
    e ∈ a.edgesOf current ↔ ∃ u ∈ current, e ∈ a.edges u := by
  simp [edgesOf]

theorem mem_move (ha : a.Valid) {current : NodeSet} :
    v ∈ a.move a.closures current b ↔
      ∃ u ∈ current, ∃ e ∈ a.edges u, e.accepts b = true ∧ Path a.edges e.target [] v := by
  rw [move, follow, mem_foldl_union]
  simp only [NodeSet.not_mem_empty, false_or, List.mem_filter, mem_edgesOf]
  constructor
  · rintro ⟨e, ⟨⟨u, hu, he⟩, hb⟩, hv⟩
    exact ⟨u, hu, e, he, hb, (mem_closures ha (ha u e he)).1 hv⟩
  · rintro ⟨u, hu, e, he, hb, p⟩
    exact ⟨e, ⟨⟨u, hu, he⟩, hb⟩, (mem_closures ha (ha u e he)).2 p⟩

/-- The nodes the automaton may be in after reading a word. -/
def after (a : Nfa) (w : Bytes) : NodeSet := w.foldl (a.move a.closures) (a.initial a.closures)

theorem after_append (a : Nfa) (w : Bytes) (b : UInt8) :
    a.after (w ++ [b]) = a.move a.closures (a.after w) b := by
  simp [after]

/-- A run may be just in the nodes that the paths lead to. -/
theorem mem_after (ha : a.Valid) (hsize : 0 < a.size) : q ∈ a.after w ↔ Path a.edges 0 w q := by
  induction w using List.reverseRecOn generalizing q with
  | nil => exact mem_closures ha hsize
  | append_singleton w b ih =>
    rw [after_append, mem_move ha, Path.snoc_iff]
    simp only [ih]

theorem lt_of_isAccept (hq : a.isAccept q = true) : q < a.size := by
  by_contra hge
  have hnone : a.node? q = none := by simpa [node?, Nfa.size] using hge
  simp [isAccept, hnone] at hq

theorem any_isAccept_iff (ha : a.Valid) :
    (a.after w).toList.any a.isAccept = true ↔ ∃ p, a.Ends w p := by
  simp only [List.any_eq_true, NodeSet.mem_toList]
  constructor
  · rintro ⟨q, hq, hacc⟩
    have hsize : 0 < a.size := Nat.zero_lt_of_lt (lt_of_isAccept hacc)
    exact ⟨_, q, (mem_after ha hsize).1 hq, hacc, rfl⟩
  · rintro ⟨_, q, path, hacc, _⟩
    have hsize : 0 < a.size := Nat.zero_lt_of_lt (lt_of_isAccept hacc)
    exact ⟨q, (mem_after ha hsize).2 path, hacc⟩

/-- A word is accepted just if a path reading it leads to an accepting node. -/
theorem isMatch_iff (ha : a.Valid) : a.isMatch w = true ↔ ∃ p, a.Ends w p := any_isAccept_iff ha

end Nfa

end MaximalMunch
