import MaximalMunch.Graph
import MaximalMunch.Proofs.ByteSet

/-! Paths along edges. They are stated for any assignment of edges to nodes, so that graphs,
finished automata and graphs under construction share them. -/

namespace MaximalMunch

/-- The words an edge reads: the empty one if it is silent, one byte of its label otherwise. -/
def Edge.Reads (e : Edge) (w : Bytes) : Prop :=
  (e.isSilent = true ∧ w = []) ∨ ∃ b, e.accepts b = true ∧ w = [b]

/-- The outgoing edges of every node. -/
abbrev Wiring := Nat → List Edge

/-- The edges lead from one node to another, and a word is read on the way. -/
inductive Path (E : Wiring) : Nat → Bytes → Nat → Prop
  | refl (i : Nat) : Path E i [] i
  | step {i j : Nat} {u w : Bytes} (e : Edge) :
      e ∈ E i → e.Reads u → Path E e.target w j → Path E i (u ++ w) j

theorem Edge.reads_silent (j : Nat) : (Edge.silent j).Reads [] := Or.inl ⟨rfl, rfl⟩

theorem Edge.accepts_silent (j : Nat) (b : UInt8) : (Edge.silent j).accepts b = false :=
  Bool.eq_false_iff.2 ByteSet.not_mem_empty

theorem Edge.eq_nil_of_reads_silent {j : Nat} {u : Bytes} (h : (Edge.silent j).Reads u) :
    u = [] := by
  rcases h with ⟨_, hu⟩ | ⟨b, hb, _⟩
  · exact hu
  · rw [accepts_silent] at hb
    cases hb

namespace Path

variable {E E' : Wiring} {i j k : Nat} {u v w : Bytes}

theorem edge {e : Edge} (he : e ∈ E i) (hu : e.Reads u) : Path E i u e.target := by
  have h := step e he hu (refl e.target)
  rwa [List.append_nil] at h

theorem silent (he : Edge.silent j ∈ E i) : Path E i [] j := edge he (Edge.reads_silent j)

theorem trans (p : Path E i u j) (q : Path E j v k) : Path E i (u ++ v) k := by
  induction p with
  | refl => exact q
  | step e he hu _ ih =>
    rw [List.append_assoc]
    exact step e he hu (ih q)

/-- A node without edges is left by no path. -/
theorem eq_of_final (hi : E i = []) (p : Path E i w j) : w = [] ∧ j = i := by
  cases p with
  | refl => exact ⟨rfl, rfl⟩
  | step e he => simp [hi] at he

/-- A path within a region of nodes can be walked along other edges that have all edges of the
region. -/
theorem carry {R : Set Nat} (hR : ∀ i ∈ R, ∀ e ∈ E i, e ∈ E' i ∧ e.target ∈ R) (hi : i ∈ R)
    (p : Path E i w j) : Path E' i w j ∧ j ∈ R := by
  induction p with
  | refl => exact ⟨refl _, hi⟩
  | step e he hu _ ih =>
    obtain ⟨he', ht⟩ := hR _ hi e he
    obtain ⟨q, hj⟩ := ih ht
    exact ⟨step e he' hu q, hj⟩

/-- Edges outside of a region that is never left do not matter. -/
theorem congr {R : Set Nat} (hE : ∀ i ∈ R, E' i = E i) (hR : ∀ i ∈ R, ∀ e ∈ E i, e.target ∈ R)
    (hi : i ∈ R) : Path E' i w j ↔ Path E i w j := by
  constructor
  · intro p
    exact (p.carry (fun m hm e he => ⟨hE m hm ▸ he, hR m hm e (hE m hm ▸ he)⟩) hi).1
  · intro p
    exact (p.carry (fun m hm e he => ⟨(hE m hm).symm ▸ he, hR m hm e he⟩) hi).1

/-- The last byte is read along one edge, which silent edges may follow. -/
theorem snoc_iff {b : UInt8} : Path E i (w ++ [b]) j ↔
    ∃ k, Path E i w k ∧ ∃ e ∈ E k, e.accepts b = true ∧ Path E e.target [] j := by
  constructor
  · intro p
    generalize hx : w ++ [b] = x at p
    induction p generalizing w with
    | refl => simp at hx
    | @step i j u x e he hu p ih =>
      rcases hu with ⟨hs, rfl⟩ | ⟨c, hc, rfl⟩
      · obtain ⟨k, q, hk⟩ := ih hx
        exact ⟨k, step e he (Or.inl ⟨hs, rfl⟩) q, hk⟩
      · cases w with
        | nil =>
          simp only [List.nil_append, List.singleton_append, List.cons.injEq] at hx
          obtain ⟨rfl, rfl⟩ := hx
          exact ⟨i, refl i, e, he, hc, p⟩
        | cons a w =>
          simp only [List.cons_append, List.cons.injEq] at hx
          obtain ⟨rfl, hx⟩ := hx
          obtain ⟨k, q, hk⟩ := ih hx
          exact ⟨k, step e he (Or.inr ⟨a, hc, rfl⟩) q, hk⟩
  · rintro ⟨k, p, e, he, hb, q⟩
    have hstep : Path E k [b] j := step e he (Or.inr ⟨b, hb, rfl⟩) q
    exact p.trans hstep

/-- Silent paths do not leave a set that silent edges do not leave. -/
theorem mem_of_silent {R : Set Nat}
    (hR : ∀ i ∈ R, ∀ e ∈ E i, e.isSilent = true → e.target ∈ R) (hi : i ∈ R)
    (p : Path E i [] j) : j ∈ R := by
  generalize hw : ([] : Bytes) = w at p
  induction p with
  | refl => exact hi
  | step e he hu p ih =>
    obtain ⟨rfl, rfl⟩ := List.append_eq_nil_iff.1 hw.symm
    rcases hu with ⟨hs, _⟩ | ⟨b, _, hb⟩
    · exact ih (hR _ hi e he hs) rfl
    · simp at hb

end Path

end MaximalMunch
