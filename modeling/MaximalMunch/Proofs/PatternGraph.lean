import MaximalMunch.Pattern.Parse
import MaximalMunch.Proofs.Operation

/-! The component of a pattern. It consists of fresh nodes, and it reads what the pattern denotes,
save that an atom without bytes is passed without reading. -/

namespace MaximalMunch

open Computability

namespace Pattern

/-- The words of a pattern, given the words of its atoms. -/
def languageOf (atoms : ByteSet → Language UInt8) : Pattern → Language UInt8
  | .atom s => atoms s
  | .seq l r => languageOf atoms l * languageOf atoms r
  | .alt l r => languageOf atoms l + languageOf atoms r
  | .quantified .star p => (languageOf atoms p)∗
  | .quantified .plus p => languageOf atoms p * (languageOf atoms p)∗
  | .quantified .optional p => 1 + languageOf atoms p

/-- What a pattern denotes: an atom stands for one byte of its set. -/
def language (p : Pattern) : Language UInt8 := p.languageOf fun s => {w | ∃ b ∈ s, w = [b]}

/-- What the component of a pattern reads. -/
def reading (p : Pattern) : Language UInt8 := p.languageOf ByteSet.labelWords

/-- The byte sets of a pattern. -/
def atoms : Pattern → List ByteSet
  | .atom s => [s]
  | .seq l r => atoms l ++ atoms r
  | .alt l r => atoms l ++ atoms r
  | .quantified _ p => atoms p

theorem languageOf_congr {f g : ByteSet → Language UInt8} (p : Pattern)
    (h : ∀ s ∈ p.atoms, f s = g s) : p.languageOf f = p.languageOf g := by
  induction p with
  | atom s => exact h s (by simp [atoms])
  | seq l r ihl ihr =>
    simp only [atoms, List.mem_append] at h
    simp only [languageOf, ihl fun s hs => h s (Or.inl hs), ihr fun s hs => h s (Or.inr hs)]
  | alt l r ihl ihr =>
    simp only [atoms, List.mem_append] at h
    simp only [languageOf, ihl fun s hs => h s (Or.inl hs), ihr fun s hs => h s (Or.inr hs)]
  | quantified q p ih => cases q <;> simp only [languageOf, ih h]

/-- Without empty atoms, the component reads what the pattern denotes. -/
theorem reading_eq_language (p : Pattern) (h : ∀ s ∈ p.atoms, s ≠ ∅) :
    p.reading = p.language :=
  p.languageOf_congr fun s hs => if_neg (h s hs)

end Pattern

namespace Graph

/-- From `g` to `h`, a component of fresh nodes has been added, which reads a language and has no
priority yet. -/
structure Adds (g h : Graph) (c : Component) (S : Set Nat) (L : Language UInt8) : Prop where
  grows : g.size ≤ h.size
  keeps : ∀ i < g.size, h.node? i = g.node? i
  fresh : ∀ i ∈ S, g.size ≤ i
  region : h.Region S c.start {c.stop}
  reads : words h.edges c.start c.stop = L
  unset : h.priority c.stop = none

variable {g h k : Graph} {c l r : Component} {S R : Set Nat} {L M : Language UInt8}

namespace Adds

theorem stop_mem (a : g.Adds h c S L) : c.stop ∈ S := a.region.exit_mem

theorem ne_of_lt (a : g.Adds h c S L) {i j : Nat} (hi : i < g.size) (hj : j ∈ S) : i ≠ j := by
  have := a.fresh j hj
  omega

theorem node?_region (a : g.Adds h l S L) (b : h.Adds k r R M) :
    ∀ i ∈ S, k.node? i = h.node? i := fun i hi => b.keeps i (a.region.bounded i hi)

theorem disjoint (a : g.Adds h l S L) (b : h.Adds k r R M) : Disjoint S R := by
  rw [Set.disjoint_left]
  intro i hi hr
  have := a.region.bounded i hi
  have := b.fresh i hr
  omega

end Adds

theorem priority_of_size_le {i : Nat} (hi : g.size ≤ i) : g.priority i = none := by
  have : g.node? i = none := by simpa [node?, size] using hi
  simp [priority, this]

theorem adds_ofSet (g : Graph) (s : ByteSet) :
    g.Adds (g.ofSet s).1 (g.ofSet s).2 {g.size, g.size + 1} s.labelWords := by
  have t := g.ofSet_turns s
  refine ⟨t.grows, fun i hi => t.keeps i hi (Set.notMem_empty i), ?_, t.region, t.reads, ?_⟩
  · intro i hi
    exact (t.within i hi).resolve_left (Set.notMem_empty i)
  · rw [priority_ofSet]
    exact priority_of_size_le (Nat.le_succ _)

/-- What was made of added components has been added. -/
theorem Adds.of_turns {U : Set Nat} {M : Language UInt8} (t : h.Turns U k c S M)
    (hgrows : g.size ≤ h.size) (hkeeps : ∀ i < g.size, h.node? i = g.node? i)
    (hfresh : ∀ i ∈ U, g.size ≤ i) (hunset : k.priority c.stop = none) : g.Adds k c S M where
  grows := Nat.le_trans hgrows t.grows
  keeps i hi := by
    have hiU : i ∉ U := fun hu => Nat.not_le_of_lt hi (hfresh i hu)
    rw [t.keeps i (Nat.lt_of_lt_of_le hi hgrows) hiU, hkeeps i hi]
  fresh i hi := by
    rcases t.within i hi with hu | hle
    · exact hfresh i hu
    · exact Nat.le_trans hgrows hle
  region := t.region
  reads := t.reads
  unset := hunset

/-- What was made of two components, of which one was added after the other, has been added. -/
theorem Adds.turns {m : Graph} {Q : Set Nat} {N : Language UInt8} (a : g.Adds h l S L)
    (b : h.Adds k r R M) (t : k.Turns (S ∪ R) m c Q N) (hunset : m.priority c.stop = none) :
    g.Adds m c Q N := by
  have hg := a.grows
  refine Adds.of_turns t (Nat.le_trans hg b.grows) ?_ ?_ hunset
  · intro i hi
    rw [b.keeps i (Nat.lt_of_lt_of_le hi hg), a.keeps i hi]
  · rintro i (hi | hi)
    · exact a.fresh i hi
    · exact Nat.le_trans hg (b.fresh i hi)

theorem Adds.concatenate (a : g.Adds h l S L) (b : h.Adds k r R M) :
    g.Adds (k.concatenate l r).1 (k.concatenate l r).2 (S ∪ R \ {r.start}) (L * M) := by
  have hn := a.node?_region b
  have t := concatenate_turns (a.region.keep hn) b.region (a.disjoint b)
  rw [a.region.words_keep hn, a.reads, b.reads] at t
  apply a.turns b t
  rw [priority_concatenate]
  exact b.unset

theorem Adds.union (a : g.Adds h l S L) (b : h.Adds k r R M) :
    g.Adds (k.union l r).1 (k.union l r).2 (insert k.size (S ∪ R \ {r.start})) (L + M) := by
  have hn := a.node?_region b
  have t := union_turns (a.region.keep hn) b.region (a.disjoint b)
  rw [a.region.words_keep hn, a.reads, b.reads] at t
  apply a.turns b t
  rw [priority_union]
  exact priority_of_size_le (Nat.le_refl k.size)

theorem Adds.star (a : g.Adds h c S L) :
    g.Adds (h.star c).1 (h.star c).2 (insert h.size (insert (h.size + 1) S)) L∗ := by
  have t := star_turns a.region
  rw [a.reads] at t
  apply Adds.of_turns t a.grows a.keeps a.fresh
  rw [priority_star]
  exact priority_of_size_le (Nat.le_succ _)

theorem Adds.plus (a : g.Adds h c S L) :
    g.Adds (h.plus c).1 (h.plus c).2 (insert h.size (insert (h.size + 1) S)) (L * L∗) := by
  have t := plus_turns a.region
  rw [a.reads] at t
  apply Adds.of_turns t a.grows a.keeps a.fresh
  rw [priority_plus]
  exact priority_of_size_le (Nat.le_succ _)

theorem Adds.optional (a : g.Adds h c S L) :
    g.Adds (h.optional c).1 (h.optional c).2 S (1 + L) := by
  have t := optional_turns a.region
  rw [a.reads] at t
  apply Adds.of_turns t a.grows a.keeps a.fresh
  rw [priority_optional]
  exact a.unset

/-- The component of a pattern reads what the pattern's automaton is to read. -/
theorem addPattern_adds (g : Graph) (p : Pattern) :
    ∃ S, g.Adds (g.addPattern p).1 (g.addPattern p).2 S p.reading := by
  induction p generalizing g with
  | atom s => exact ⟨_, adds_ofSet g s⟩
  | seq l r ihl ihr =>
    obtain ⟨S, a⟩ := ihl g
    obtain ⟨R, b⟩ := ihr (g.addPattern l).1
    exact ⟨_, a.concatenate b⟩
  | alt l r ihl ihr =>
    obtain ⟨S, a⟩ := ihl g
    obtain ⟨R, b⟩ := ihr (g.addPattern l).1
    exact ⟨_, a.union b⟩
  | quantified q p ih =>
    obtain ⟨S, a⟩ := ih g
    cases q with
    | star => exact ⟨_, a.star⟩
    | plus => exact ⟨_, a.plus⟩
    | optional => exact ⟨_, a.optional⟩

end Graph

end MaximalMunch
