import MaximalMunch.Proofs.Component

/-! One specification for each operation on components: what it may change, where the component it
makes lies, and what that component reads. Everything else in the graph stays as it is. -/

namespace MaximalMunch

open Computability

namespace Graph

/-- From `g` to `h`, the nodes in `U` have been turned into a component, which reads a language. No
node outside of `U` has changed, and the component consists of nodes in `U` and fresh ones. -/
structure Turns (g : Graph) (U : Set Nat) (h : Graph) (c : Component) (S : Set Nat)
    (L : Language UInt8) : Prop where
  grows : g.size ≤ h.size
  keeps : ∀ i < g.size, i ∉ U → h.node? i = g.node? i
  within : ∀ i ∈ S, i ∈ U ∨ g.size ≤ i
  region : h.Region S c.start {c.stop}
  reads : words h.edges c.start c.stop = L

variable {g h k : Graph} {c d l r : Component} {S R T U V W : Set Nat} {i : Nat}
  {L M : Language UInt8}

namespace Turns

/-- A component that stands already is turned into itself. -/
theorem refl (f : g.Region S c.start {c.stop}) :
    g.Turns S g c S (words g.edges c.start c.stop) where
  grows := Nat.le_refl g.size
  keeps _ _ _ := rfl
  within _ hi := Or.inl hi
  region := f
  reads := rfl

/-- What has been turned may be turned again, together with other nodes. -/
theorem trans (t : g.Turns U h c R L) (t' : h.Turns V k d S M) (hU : U ⊆ W)
    (hV : ∀ i ∈ V, i ∈ W ∨ g.size ≤ i) : g.Turns W k d S M where
  grows := Nat.le_trans t.grows t'.grows
  keeps i hi hW := by
    have hiV : i ∉ V := fun hv => (hV i hv).elim hW (Nat.not_le_of_lt hi)
    rw [t'.keeps i (Nat.lt_of_lt_of_le hi t.grows) hiV, t.keeps i hi fun hu => hW (hU hu)]
  within i hi := by
    rcases t'.within i hi with hv | hle
    · exact hV i hv
    · exact Or.inr (Nat.le_trans t.grows hle)
  region := t'.region
  reads := t'.reads

/-- A region apart from the nodes that are turned does not change. -/
theorem node?_region (t : g.Turns U h c S L) (f : g.Region R i T) (hd : Disjoint R U) :
    ∀ j ∈ R, h.node? j = g.node? j :=
  fun j hj => t.keeps j (f.bounded j hj) (Set.disjoint_left.1 hd hj)

/-- A region apart from the nodes that are turned is apart from the component made of them. -/
theorem disjoint (t : g.Turns U h c S L) (f : g.Region R i T) (hd : Disjoint R U) :
    Disjoint R S := by
  rw [Set.disjoint_left]
  intro j hj hS
  rcases t.within j hS with hU | hle
  · exact Set.disjoint_left.1 hd hj hU
  · exact Nat.not_le_of_lt (f.bounded j hj) hle

end Turns

/-! ## The single operations -/

/-- A node outside of a component is neither its start nor its stop. -/
theorem Region.ne_of_not_mem (f : g.Region S c.start {c.stop}) (hi : i ∉ S) :
    i ≠ c.start ∧ i ≠ c.stop := by
  constructor
  · rintro rfl
    exact hi f.fragment.entry_mem
  · rintro rfl
    exact hi f.exit_mem

theorem ofSet_turns (g : Graph) (label : ByteSet) :
    g.Turns ∅ (g.ofSet label).1 (g.ofSet label).2 {g.size, g.size + 1} label.labelWords := by
  obtain ⟨hregion, hreads⟩ := g.ofSet_region label
  refine ⟨?_, fun i hi _ => node?_ofSet label hi, ?_, hregion, hreads⟩
  · rw [size_ofSet]
    exact Nat.le_add_right g.size 2
  · rintro i (rfl | rfl)
    · exact Or.inr (Nat.le_refl g.size)
    · exact Or.inr (Nat.le_succ g.size)

section Two

variable (hl : g.Region S l.start {l.stop}) (hr : g.Region R r.start {r.stop})
  (hd : Disjoint S R)

include hl hr hd

theorem concatenate_turns :
    g.Turns (S ∪ R) (g.concatenate l r).1 (g.concatenate l r).2 (S ∪ R \ {r.start})
      (words g.edges l.start l.stop * words g.edges r.start r.stop) := by
  obtain ⟨hregion, hreads⟩ := concatenate_region hl hr hd
  refine ⟨?_, ?_, ?_, hregion, hreads⟩
  · rw [size_concatenate]
  · intro i _ hi
    have hil := hl.ne_of_not_mem fun h => hi (Or.inl h)
    have hir := hr.ne_of_not_mem fun h => hi (Or.inr h)
    exact node?_concatenate hil.2 hir.1
  · rintro i (hi | hi)
    · exact Or.inl (Or.inl hi)
    · exact Or.inl (Or.inr hi.1)

theorem union_turns :
    g.Turns (S ∪ R) (g.union l r).1 (g.union l r).2 (insert g.size (S ∪ R \ {r.start}))
      (words g.edges l.start l.stop + words g.edges r.start r.stop) := by
  obtain ⟨hregion, hreads⟩ := union_region hl hr hd
  refine ⟨?_, ?_, ?_, hregion, hreads⟩
  · rw [size_union]
    exact Nat.le_succ g.size
  · intro i hlt hi
    have hil := hl.ne_of_not_mem fun h => hi (Or.inl h)
    have hir := hr.ne_of_not_mem fun h => hi (Or.inr h)
    exact node?_union hlt hil.1 hil.2 hir.1 hir.2
  · rintro i (rfl | hi | hi)
    · exact Or.inr (Nat.le_refl g.size)
    · exact Or.inl (Or.inl hi)
    · exact Or.inl (Or.inr hi.1)

end Two

/-- Around a component lie two fresh nodes. -/
theorem within_surround (hi : i ∈ insert g.size (insert (g.size + 1) S)) : i ∈ S ∨ g.size ≤ i := by
  rcases hi with rfl | rfl | hi
  · exact Or.inr (Nat.le_refl g.size)
  · exact Or.inr (Nat.le_succ g.size)
  · exact Or.inl hi

section One

variable (f : g.Region S c.start {c.stop})

include f

theorem star_turns :
    g.Turns S (g.star c).1 (g.star c).2 (insert g.size (insert (g.size + 1) S))
      (words g.edges c.start c.stop)∗ := by
  obtain ⟨hregion, hreads⟩ := star_region f
  refine ⟨?_, ?_, fun _ => within_surround, hregion, hreads⟩
  · rw [size_star]
    exact Nat.le_add_right g.size 2
  · intro i hlt hi
    have hic := f.ne_of_not_mem hi
    exact node?_star hlt hic.1 hic.2

theorem plus_turns :
    g.Turns S (g.plus c).1 (g.plus c).2 (insert g.size (insert (g.size + 1) S))
      (words g.edges c.start c.stop * (words g.edges c.start c.stop)∗) := by
  obtain ⟨hregion, hreads⟩ := plus_region f
  refine ⟨?_, ?_, fun _ => within_surround, hregion, hreads⟩
  · rw [size_plus]
    exact Nat.le_add_right g.size 2
  · intro i hlt hi
    have hic := f.ne_of_not_mem hi
    exact node?_plus hlt hic.1 hic.2

theorem optional_turns :
    g.Turns S (g.optional c).1 (g.optional c).2 S (1 + words g.edges c.start c.stop) := by
  obtain ⟨hregion, hreads⟩ := optional_region f
  refine ⟨?_, ?_, fun _ hi => Or.inl hi, hregion, hreads⟩
  · rw [size_optional]
  · intro i _ hi
    exact node?_optional (f.ne_of_not_mem hi).1

end One

/-! ## Folds -/

/-- Components in regions of their own, no two of which meet. -/
structure Layout (g : Graph) (S : Component → Set Nat) (cs : List Component) : Prop where
  region : ∀ c ∈ cs, g.Region (S c) c.start {c.stop}
  disjoint : ∀ c ∈ cs, ∀ d ∈ cs, c ≠ d → Disjoint (S c) (S d)

/-- All nodes of some components. -/
def span (S : Component → Set Nat) (cs : List Component) : Set Nat := {i | ∃ c ∈ cs, i ∈ S c}

variable {S : Component → Set Nat} {cs ds : List Component}

theorem span_nil : span S [] = ∅ := by
  ext i
  simp [span]

theorem span_cons : span S (c :: cs) = S c ∪ span S cs := by
  ext i
  simp [span]

theorem span_singleton : span S [c] = S c := by rw [span_cons, span_nil, Set.union_empty]

theorem span_pair : span S [c, d] = S c ∪ S d := by rw [span_cons, span_singleton]

theorem Layout.mono (a : g.Layout S cs) (h : ds ⊆ cs) : g.Layout S ds where
  region c hc := a.region c (h hc)
  disjoint c hc d hd := a.disjoint c (h hc) d (h hd)

theorem Layout.single (a : g.Layout S [c]) : g.Region (S c) c.start {c.stop} :=
  a.region c (List.mem_singleton.2 rfl)

theorem Layout.pair (a : g.Layout S [c, d]) (hnodup : [c, d].Nodup) :
    g.Region (S c) c.start {c.stop} ∧ g.Region (S d) d.start {d.stop} ∧ Disjoint (S c) (S d) := by
  have hc : c ∈ [c, d] := List.mem_cons_self ..
  have hd : d ∈ [c, d] := List.mem_pair.2 (Or.inr rfl)
  have hne : c ≠ d := by simpa using hnodup
  exact ⟨a.region c hc, a.region d hd, a.disjoint c hc d hd hne⟩

theorem Layout.disjoint_span (a : g.Layout S cs) (hc : c ∈ cs) (hds : ds ⊆ cs) (hn : c ∉ ds) :
    Disjoint (S c) (span S ds) := by
  rw [Set.disjoint_left]
  rintro i hi ⟨d, hd, hid⟩
  have hne : c ≠ d := fun e => hn (e ▸ hd)
  exact Set.disjoint_left.1 (a.disjoint c hc d (hds hd) hne) hi hid

/-- One more component in front is combined with what came of the others. -/
theorem combineAll_cons {op : Graph → Component → Component → Graph × Component}
    (h : (combineAll op g cs).2 = some d) : combineAll op g (c :: cs) =
      ((op (combineAll op g cs).1 c d).1, some (op (combineAll op g cs).1 c d).2) := by
  rw [combineAll]
  cases hg : combineAll op g cs with
  | mk k made =>
    rw [hg] at h
    subst h
    rfl

/-- A fold of an operation on two components makes of several ones what the operation makes of two,
from the right. -/
theorem combineAll_turns {op : Graph → Component → Component → Graph × Component}
    {f : Language UInt8 → Language UInt8 → Language UInt8} {e : Language UInt8}
    (hunit : ∀ L, f L e = L)
    (hop : ∀ {g : Graph} {l r : Component} {S R : Set Nat}, g.Region S l.start {l.stop} →
      g.Region R r.start {r.stop} → Disjoint S R → ∃ Q, g.Turns (S ∪ R) (op g l r).1 (op g l r).2 Q
        (f (words g.edges l.start l.stop) (words g.edges r.start r.stop)))
    (a : g.Layout S cs) (hnodup : cs.Nodup) (hcs : cs ≠ []) :
    ∃ d Q, (combineAll op g cs).2 = some d ∧ g.Turns (span S cs) (combineAll op g cs).1 d Q
      ((cs.map fun c => words g.edges c.start c.stop).foldr f e) := by
  induction cs with
  | nil => exact absurd rfl hcs
  | cons c rest ih =>
    have hc := a.region c (List.mem_cons_self ..)
    obtain ⟨hn, hnodup⟩ := List.nodup_cons.1 hnodup
    by_cases hrest : rest = []
    · subst hrest
      refine ⟨c, S c, rfl, ?_⟩
      rw [span_singleton, List.map_cons, List.map_nil, List.foldr_cons, List.foldr_nil, hunit]
      exact Turns.refl hc
    · obtain ⟨acc, Q, hacc, t⟩ := ih (a.mono (List.subset_cons_self c rest)) hnodup hrest
      have hd := a.disjoint_span (List.mem_cons_self ..) (List.subset_cons_self c rest) hn
      have hkeep := t.node?_region hc hd
      obtain ⟨Q', t'⟩ := hop (hc.keep hkeep) t.region (t.disjoint hc hd)
      rw [hc.words_keep hkeep, t.reads] at t'
      rw [combineAll_cons hacc, span_cons]
      refine ⟨_, Q', rfl, t.trans t' Set.subset_union_right ?_⟩
      rintro i (hi | hi)
      · exact Or.inl (Or.inl hi)
      · exact (t.within i hi).imp_left Or.inr

end Graph

end MaximalMunch
