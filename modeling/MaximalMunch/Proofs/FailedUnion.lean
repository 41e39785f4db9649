import MaximalMunch.Proofs.Join
import MaximalMunch.Proofs.Program

/-! Unions that keep the stops, when they fail. The components of a list join from the right until
one has no priority at its stop, and those that have joined by then are not taken apart again: the
first of them accepts for all of them, and the others, which gave their edges away, accept
nothing. -/

namespace MaximalMunch.Graph

variable {g h k : Graph} {c d l r : Component} {cs rest : List Component} {Q R : Set Nat}
  {S T : Component → Set Nat} {made : Option Component} {e : MissingPriority} {w : Bytes}

/-- Components in regions of their own, no two of which meet. Each may be left at several exits. -/
structure Apart (g : Graph) (S T : Component → Set Nat) (cs : List Component) : Prop where
  region : ∀ c ∈ cs, g.Region (S c) c.start (T c)
  disjoint : cs.Pairwise fun c d => Disjoint (S c) (S d)

theorem Layout.apart (a : g.Layout S cs) (hnodup : cs.Nodup) :
    g.Apart S (fun c => {c.stop}) cs where
  region := a.region
  disjoint := hnodup.imp_of_mem fun hc hd hne => a.disjoint _ hc _ hd hne

theorem Apart.setPriority (a : g.Apart S T cs) (i p : Nat) : (g.setPriority i p).Apart S T cs where
  region c hc := (a.region c hc).setPriority
  disjoint := a.disjoint

theorem Apart.tail (a : g.Apart S T (c :: cs)) : g.Apart S T cs where
  region d hd := a.region d (List.mem_cons_of_mem c hd)
  disjoint := (List.pairwise_cons.1 a.disjoint).2

theorem Apart.right {front : List Component} (a : g.Apart S T (front ++ cs)) : g.Apart S T cs where
  region d hd := a.region d (List.mem_append_right front hd)
  disjoint := (List.pairwise_append.1 a.disjoint).2.1

/-- What lies in front of other components does not meet them. -/
theorem Apart.disjoint_span {front : List Component} (a : g.Apart S T (front ++ cs))
    (hc : c ∈ front) : Disjoint (S c) (span S cs) := by
  rw [Set.disjoint_left]
  rintro i hi ⟨d, hd, hid⟩
  exact Set.disjoint_left.1 ((List.pairwise_append.1 a.disjoint).2.2 c hc d hd) hi hid

theorem Apart.disjoint_tail (a : g.Apart S T (c :: cs)) : Disjoint (S c) (span S cs) :=
  Apart.disjoint_span (List.singleton_append ▸ a) (List.mem_singleton.2 rfl)

/-! ## What components accept -/

theorem Region.mem_accepted_iff (f : g.Region Q c.start R) :
    w ∈ g.accepted c ↔ ∃ t ∈ R, w ∈ words g.edges c.start t := by
  show (Nfa.ofGraph g c).isMatch w = true ↔ _
  rw [nfa_isMatch_iff f]
  constructor
  · rintro ⟨_, t, ht, path, _⟩
    exact ⟨t, ht, path⟩
  · rintro ⟨t, ht, path⟩
    exact ⟨_, t, ht, path, rfl⟩

/-- A component accepts what it did as long as its nodes stay as they are. -/
theorem Region.accepted_keep (f : g.Region Q c.start R) (hn : ∀ i ∈ Q, h.node? i = g.node? i) :
    h.accepted c = g.accepted c := by
  ext w
  rw [(f.keep hn).mem_accepted_iff, f.mem_accepted_iff]
  simp only [f.words_keep hn]

theorem Region.accepted_ne_zero (f : g.Region Q c.start R) : g.accepted c ≠ 0 := by
  obtain ⟨t, ht, w, path⟩ := f.fragment.live c.start f.fragment.entry_mem
  have hw : w ∈ g.accepted c := f.mem_accepted_iff.2 ⟨t, ht, path⟩
  intro hzero
  rw [hzero] at hw
  exact hw

/-- A component whose start has no edges, as they have been given away, and does not accept. -/
structure Drained (g : Graph) (c : Component) : Prop where
  bounded : c.start < g.size
  edges : g.edges c.start = []
  rejects : g.isAccept c.start = false

theorem Drained.keep (hd : g.Drained c) (hn : h.node? c.start = g.node? c.start) :
    h.Drained c where
  bounded := by
    rw [← node?_isSome, hn, node?_isSome]
    exact hd.bounded
  edges := by rw [edges_congr hn, hd.edges]
  rejects := by rw [isAccept_congr hn, hd.rejects]

theorem Drained.accepted_eq_zero (hd : g.Drained c) : g.accepted c = 0 := by
  have l : g.Listing c.start (g.preorder c.start) := by
    refine preorder_listing_of_lt hd.bounded fun w i path e he => ?_
    obtain ⟨_, rfl⟩ := path.eq_of_final hd.edges
    rw [hd.edges] at he
    cases he
  have copies := Nfa.ofGraph_copies l
  ext w
  refine iff_of_false (fun hw => ?_) id
  obtain ⟨_, q, path, hacc, _⟩ := (Nfa.isMatch_iff (Nfa.ofGraph_valid g c)).1 hw
  obtain ⟨i, hi, path⟩ := copies.path l.head path
  obtain ⟨_, rfl⟩ := path.eq_of_final hd.edges
  rw [copies.isAccept hi, hd.rejects] at hacc
  cases hacc

/-- Sharing the entry of another component drains a component. -/
theorem drained_share (hl : l.start < g.size) (hr : r.start < g.size) (hne : r.start ≠ l.start) :
    (g.share l r).Drained r where
  bounded := by rwa [size_share]
  edges := by simp [share, edges_moveEdges hl hne, hne]
  rejects := by simp [share, isAccept_mark_normal]

/-- The component that shares its entry accepts what either of the two did. -/
theorem accepted_share {Q' R' : Set Nat} (hl : g.Region Q l.start R) (hr : g.Region Q' r.start R')
    (hd : Disjoint Q Q') : (g.share l r).accepted l = g.accepted l + g.accepted r := by
  obtain ⟨hshared, hleft, hright⟩ := share_region hl hr hd
  ext w
  rw [hshared.mem_accepted_iff, Language.mem_add, hl.mem_accepted_iff, hr.mem_accepted_iff]
  constructor
  · rintro ⟨t, ht | ht, hw⟩
    · exact Or.inl ⟨t, ht, hleft t ht ▸ hw⟩
    · exact Or.inr ⟨t, ht, hright t ht ▸ hw⟩
  · rintro (⟨t, ht, hw⟩ | ⟨t, ht, hw⟩)
    · exact ⟨t, Or.inl ht, (hleft t ht).symm ▸ hw⟩
    · exact ⟨t, Or.inr ht, (hright t ht).symm ▸ hw⟩

/-! ## Joining one after the other -/

theorem unionKeepingStops_ok (h : g.unionKeepingStops l r = .ok (k, d)) :
    k = g.share l r ∧ d = l := by
  unfold unionKeepingStops at h
  split at h
  · cases h
  · split at h
    · cases h
    · cases h
      exact ⟨rfl, rfl⟩

theorem unionKeepingStops_error (h : g.unionKeepingStops l r = .error e) :
    (e.node = l.stop ∨ e.node = r.stop) ∧ g.priority e.node = none := by
  unfold unionKeepingStops at h
  split at h
  · rename_i hl
    cases h
    exact ⟨Or.inl rfl, Option.isNone_iff_eq_none.1 hl⟩
  · split at h
    · rename_i hr
      cases h
      exact ⟨Or.inr rfl, Option.isNone_iff_eq_none.1 hr⟩
    · cases h

/-- From `g` to `k`, components have joined the first of them, and nothing else has changed. -/
structure Merged (g k : Graph) (S : Component → Set Nat) (c : Component) (rest : List Component) :
    Prop where
  keeps : ∀ i ∉ span S (c :: rest), k.node? i = g.node? i
  priority : ∀ i, k.priority i = g.priority i
  region : ∃ Q ⊆ span S (c :: rest), ∃ R, k.Region Q c.start R
  accepted : k.accepted c = ((c :: rest).map g.accepted).sum
  drained : ∀ d ∈ rest, k.Drained d

theorem Merged.single (f : g.Region (S c) c.start R) : g.Merged g S c [] where
  keeps _ _ := rfl
  priority _ := rfl
  region := ⟨S c, by rw [span_singleton], R, f⟩
  accepted := by rw [List.map_singleton, List.sum_singleton]
  drained := by simp

/-- One more component in front shares its entry with those that have joined. -/
theorem Merged.share (m : g.Merged h S r rest) (a : g.Apart S T (l :: r :: rest)) :
    g.Merged (h.share l r) S l (r :: rest) := by
  have f := a.region l (List.mem_cons_self ..)
  have hspan : Disjoint (S l) (span S (r :: rest)) := a.disjoint_tail
  have hn : ∀ i ∈ S l, h.node? i = g.node? i :=
    fun i hi => m.keeps i (Set.disjoint_left.1 hspan hi)
  obtain ⟨Q, hQ, R, hregion⟩ := m.region
  have hdisjoint : Disjoint (S l) Q := hspan.mono_right hQ
  have hl := (f.keep hn).fragment.entry_mem
  have hr := hregion.fragment.entry_mem
  have hne : r.start ≠ l.start := fun heq => Set.disjoint_left.1 hdisjoint hl (heq ▸ hr)
  constructor
  · intro i hi
    rw [span_cons] at hi
    have hil : i ≠ l.start := fun heq => hi (Or.inl (heq ▸ hl))
    have hir : i ≠ r.start := fun heq => hi (Or.inr (hQ (heq ▸ hr)))
    rw [node?_share hil hir, m.keeps i fun hrest => hi (Or.inr hrest)]
  · intro i
    rw [priority_share, m.priority]
  · refine ⟨_, ?_, _, (share_region (f.keep hn) hregion hdisjoint).1⟩
    rw [span_cons (c := l)]
    exact Set.union_subset_union_right (S l) (Set.sdiff_subset.trans hQ)
  · rw [accepted_share (f.keep hn) hregion hdisjoint, f.accepted_keep hn, m.accepted,
      List.map_cons (l := r :: rest), List.sum_cons]
  · intro d hd
    rcases List.mem_cons.1 hd with rfl | hd
    · exact drained_share ((f.keep hn).bounded _ hl) (hregion.bounded _ hr) hne
    · -- The starts of the components that were drained before are not touched again.
      have hstart := (a.tail.region d (List.mem_cons_of_mem r hd)).fragment.entry_mem
      have hdl : d.start ≠ l.start := fun heq =>
        Set.disjoint_left.1 hspan hl ⟨d, List.mem_cons_of_mem r hd, heq ▸ hstart⟩
      have hdr : d.start ≠ r.start := fun heq =>
        Set.disjoint_left.1 ((List.pairwise_cons.1 a.tail.disjoint).1 d hd)
          (a.tail.region r (List.mem_cons_self ..)).fragment.entry_mem (heq ▸ hstart)
      exact (m.drained d hd).keep (node?_share hdl hdr)

/-- When components have joined, the first of them stands for all. -/
theorem unionAllKeepingStops_made (h : g.unionAllKeepingStops (c :: cs) = (k, .ok made)) :
    made = some c := by
  rw [unionAllKeepingStops] at h
  split at h
  · cases h
  · cases h
    rfl
  · split at h
    · cases h
    · rename_i hunion
      cases h
      rw [(unionKeepingStops_ok hunion).2]

theorem Apart.merged (a : g.Apart S T (c :: rest))
    (h : g.unionAllKeepingStops (c :: rest) = (k, .ok made)) : g.Merged k S c rest := by
  induction rest generalizing c k made with
  | nil =>
    cases h
    exact .single (a.region c (List.mem_cons_self ..))
  | cons r rest ih =>
    rw [unionAllKeepingStops] at h
    split at h
    · cases h
    · rename_i hfold
      cases unionAllKeepingStops_made hfold
    · rename_i hfold
      cases unionAllKeepingStops_made hfold
      split at h
      · cases h
      · rename_i hunion
        cases h
        rw [(unionKeepingStops_ok hunion).1]
        exact (ih a.tail hfold).share a

/-- A failure is that of one component to join those that have joined behind it. -/
theorem unionAllKeepingStops_error (h : g.unionAllKeepingStops cs = (k, .error e)) :
    ∃ front c r rest, cs = front ++ c :: r :: rest ∧
      g.unionAllKeepingStops (r :: rest) = (k, .ok (some r)) ∧
      k.unionKeepingStops c r = .error e := by
  induction cs with
  | nil => cases h
  | cons c cs ih =>
    rw [unionAllKeepingStops] at h
    split at h
    · rename_i hfold
      cases h
      obtain ⟨front, l, r, rest, rfl, hrest⟩ := ih hfold
      exact ⟨c :: front, l, r, rest, rfl, hrest⟩
    · cases h
    · rename_i hfold
      split at h
      · rename_i hunion
        cases h
        cases cs with
        | nil => cases hfold
        | cons r rest =>
          cases unionAllKeepingStops_made hfold
          exact ⟨[], c, _, rest, rfl, hfold, hunion⟩
      · cases h

/-- A failed union of components that lie apart names a stop without priority, of the two that did
not join. The components up to there accept what they did; the next one accepts for all behind it,
and these accept nothing. So the graph is the same, and so is what every component accepts, just if
the last two did not join. -/
theorem failed_union_tfae (a : g.Apart S T cs)
    (h : g.unionAllKeepingStops cs = (k, .error e)) :
    ∃ front c r rest, cs = front ++ c :: r :: rest ∧
      (e.node = c.stop ∨ e.node = r.stop) ∧ g.priority e.node = none ∧
      (∀ d ∈ front ++ [c], k.accepted d = g.accepted d) ∧
      k.accepted r = ((r :: rest).map g.accepted).sum ∧
      (∀ d ∈ rest, k.accepted d = 0) ∧
      [k = g, ∀ d ∈ cs, k.accepted d = g.accepted d, rest = []].TFAE := by
  obtain ⟨front, c, r, rest, rfl, hfold, hunion⟩ := unionAllKeepingStops_error h
  obtain ⟨hnode, hunset⟩ := unionKeepingStops_error hunion
  have hsplit : front ++ c :: r :: rest = (front ++ [c]) ++ r :: rest := by simp
  rw [hsplit] at a
  have m := a.right.merged hfold
  have hkeep : ∀ d ∈ front ++ [c], k.accepted d = g.accepted d := fun d hd =>
    (a.region d (List.mem_append_left _ hd)).accepted_keep
      fun i hi => m.keeps i (Set.disjoint_left.1 (a.disjoint_span hd) hi)
  have hdrained : ∀ d ∈ rest, k.accepted d = 0 := fun d hd => (m.drained d hd).accepted_eq_zero
  refine ⟨front, c, r, rest, rfl, hnode, m.priority _ ▸ hunset, hkeep, m.accepted, hdrained, ?_⟩
  rw [hsplit]
  tfae_have 1 → 2 := by
    rintro rfl d _
    rfl
  tfae_have 2 → 3 := by
    intro hall
    rw [List.eq_nil_iff_forall_not_mem]
    intro d hd
    have hmem : d ∈ (front ++ [c]) ++ r :: rest := by simp [hd]
    exact (a.region d hmem).accepted_ne_zero ((hall d hmem).symm.trans (hdrained d hd))
  tfae_have 3 → 1 := by
    rintro rfl
    cases hfold
    rfl
  tfae_finish

/-- Components of three bytes, of which only the last two have priorities. -/
def letters : List Component := [⟨0, 1⟩, ⟨2, 3⟩, ⟨4, 5⟩]

def lettersGraph : Graph :=
  let made := (((empty.ofSet (.singleton 97)).1.ofSet (.singleton 98)).1.ofSet (.singleton 99)).1
  (made.setPriority 3 0).setPriority 5 1

theorem letters_apart : ∃ S T, lettersGraph.Apart S T letters := by
  have hrun : (Workbench.mk empty []).run? [.ofByte 97, .ofByte 98, .ofByte 99] =
      some ⟨_, letters.reverse⟩ := rfl
  obtain ⟨S, a⟩ := (Workbench.sound_nil empty).run hrun
  have hsub : letters ⊆ letters.reverse := by simp
  have hletters := (a.mono hsub).apart (by decide)
  exact ⟨S, _, (hletters.setPriority 3 0).setPriority 5 1⟩

theorem failed_union_tfae_letters : ∃ k, (∃ S T, lettersGraph.Apart S T letters) ∧
    lettersGraph.unionAllKeepingStops letters = (k, .error ⟨1⟩) ∧
    k.accepted ⟨0, 1⟩ = lettersGraph.accepted ⟨0, 1⟩ ∧
    k.accepted ⟨2, 3⟩ = lettersGraph.accepted ⟨2, 3⟩ + lettersGraph.accepted ⟨4, 5⟩ ∧
    k.accepted ⟨4, 5⟩ = 0 ∧ k ≠ lettersGraph := by
  obtain ⟨S, T, a⟩ := letters_apart
  have hunion : lettersGraph.unionAllKeepingStops letters =
      ((lettersGraph.unionAllKeepingStops letters).1, .error ⟨1⟩) := rfl
  obtain ⟨front, c, r, rest, hletters, hnode, -, hkeep, hfirst, hdrained, htfae⟩ :=
    failed_union_tfae a hunion
  cases front with
  | nil =>
    simp only [letters, List.nil_append, List.cons.injEq] at hletters
    obtain ⟨rfl, rfl, rfl⟩ := hletters
    refine ⟨_, ⟨S, T, a⟩, hunion, hkeep _ (by simp), by simpa using hfirst, hdrained _ (by simp),
      fun hsame => ?_⟩
    cases (htfae.out 0 2).1 hsame
  | cons d front =>
    simp only [letters, List.cons_append, List.cons.injEq] at hletters
    obtain ⟨-, hletters⟩ := hletters
    cases front with
    | nil =>
      simp only [List.nil_append, List.cons.injEq] at hletters
      obtain ⟨rfl, rfl, -⟩ := hletters
      simp at hnode
    | cons d front =>
      have hlength := congrArg List.length hletters
      simp only [List.length_append, List.length_cons, List.length_nil] at hlength
      omega

/-- The two bytes with priorities join before the first one fails to, and the last one accepts
nothing afterwards. -/
theorem failed_union_changes : ∃ S T k e, lettersGraph.Apart S T letters ∧
    lettersGraph.unionAllKeepingStops letters = (k, .error e) ∧
    k ≠ lettersGraph ∧ ∃ c ∈ letters, k.accepted c ≠ lettersGraph.accepted c := by
  obtain ⟨S, T, a⟩ := letters_apart
  have hunion : lettersGraph.unionAllKeepingStops letters =
      ((lettersGraph.unionAllKeepingStops letters).1, .error ⟨1⟩) := rfl
  have hdrained : (lettersGraph.unionAllKeepingStops letters).1.Drained ⟨4, 5⟩ :=
    ⟨by decide +kernel, by decide +kernel, by decide +kernel⟩
  refine ⟨S, T, _, _, a, hunion, by decide +kernel, ⟨4, 5⟩, by decide, ?_⟩
  rw [hdrained.accepted_eq_zero]
  exact (a.region ⟨4, 5⟩ (by decide)).accepted_ne_zero.symm

end MaximalMunch.Graph
