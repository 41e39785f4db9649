import MaximalMunch.Proofs.Compile
import MaximalMunch.Tokenizer.Builder

/-! Joining the components of several patterns. Each keeps its stop, and the numbers at the stops
tell the patterns that match. -/

namespace MaximalMunch

namespace Graph

variable {g h : Graph} {c l r : Component} {S R T U : Set Nat} {index : Nat}
  {cs : List Component} {Ls : List (Language UInt8)}

/-- Components in disjoint regions, which read the given languages. Their stops carry the numbers
from an index on. -/
inductive Placed (g : Graph) : Nat → Set Nat → List Component → List (Language UInt8) → Prop
  | nil (index : Nat) : Placed g index ∅ [] []
  | cons {index : Nat} {S R : Set Nat} {c : Component} {cs : List Component}
      {Ls : List (Language UInt8)} :
      g.Region S c.start {c.stop} → g.priority c.stop = some index → Disjoint S R →
      Placed g (index + 1) R cs Ls →
      Placed g index (S ∪ R) (c :: cs) (words g.edges c.start c.stop :: Ls)

/-! ## Placing -/

/-- Setting the priority of a node leaves a region as it is. -/
theorem Region.setPriority {s j p : Nat} (region : g.Region S s T) :
    (g.setPriority j p).Region S s T where
  fragment := region.fragment.congr fun _ _ => edges_setPriority p
  bounded i hi := by
    rw [size_setPriority]
    exact region.bounded i hi
  accepts i hi := by
    rw [isAccept_setPriority]
    exact region.accepts i hi

/-- An added component gets a number, and others, which lie behind it, are in place already. -/
theorem Adds.place {k : Graph} {L : Language UInt8} (a : g.Adds k c S L)
    (hkeep : ∀ i < k.size, h.node? i = (k.setPriority c.stop index).node? i)
    (hbehind : ∀ i ∈ R, k.size ≤ i) (placed : h.Placed (index + 1) R cs Ls) :
    h.Placed index (S ∪ R) (c :: cs) (L :: Ls) ∧ ∀ i < g.size, h.node? i = g.node? i := by
  have hsame : ∀ i ∈ S, h.node? i = (k.setPriority c.stop index).node? i :=
    fun i hi => hkeep i (a.region.bounded i hi)
  have region := a.region.setPriority (j := c.stop) (p := index)
  have hreads : words h.edges c.start c.stop = L := by
    rw [region.words_keep hsame, ← a.reads]
    congr 1
    exact funext fun i => edges_setPriority index
  have hpriority : h.priority c.stop = some index := by
    rw [priority_congr (hsame _ a.stop_mem),
      priority_setPriority (a.region.bounded _ a.stop_mem), if_pos rfl]
  have hdisjoint : Disjoint S R := by
    rw [Set.disjoint_left]
    intro i hi hiR
    have := a.region.bounded i hi
    have := hbehind i hiR
    omega
  constructor
  · rw [← hreads]
    exact Placed.cons (region.keep hsame) hpriority hdisjoint placed
  · intro i hi
    have hgrows := a.grows
    rw [hkeep i (by omega), Graph.setPriority, node?_modify_of_ne _ (a.ne_of_lt hi a.stop_mem),
      a.keeps i hi]

end Graph

namespace CompiledPatterns

open MaximalMunch.Graph

variable {g h : Graph} {c : Component} {index : Nat} {texts : List String} {cs : List Component}

/-- The patterns are read one by one, and each gets a component of fresh nodes. -/
theorem addAll_placed (hadd : addAll g index texts = .ok (h, cs)) : ∃ R patterns,
    List.Forall₂ (fun text p => Pattern.read (bytesOf text) = .ok p) texts patterns ∧
      h.Placed index R cs (patterns.map Pattern.reading) ∧ g.size ≤ h.size ∧
      (∀ i < g.size, h.node? i = g.node? i) ∧ ∀ i ∈ R, g.size ≤ i := by
  induction texts generalizing g index cs with
  | nil =>
    simp only [addAll, Except.ok.injEq, Prod.mk.injEq] at hadd
    obtain ⟨rfl, rfl⟩ := hadd
    exact ⟨∅, [], List.Forall₂.nil, Placed.nil index, Nat.le_refl _, fun _ _ => rfl, by simp⟩
  | cons text rest ih =>
    rw [addAll] at hadd
    split at hadd
    · simp at hadd
    · rename_i k c hk
      split at hadd
      · simp at hadd
      · rename_i h' cs' hrest
        simp only [Except.ok.injEq, Prod.mk.injEq] at hadd
        obtain ⟨rfl, rfl⟩ := hadd
        obtain ⟨p, hp, hadd⟩ := addWritten_ok hk
        obtain ⟨S, a⟩ : ∃ S, g.Adds k c S p.reading := by simpa [hadd] using addPattern_adds g p
        obtain ⟨R, patterns, hpatterns, placed, hle, hkeep, hfresh⟩ := ih hrest
        rw [size_setPriority] at hle hkeep hfresh
        have hgrows := a.grows
        obtain ⟨hplaced, hold⟩ := a.place hkeep hfresh placed
        refine ⟨S ∪ R, p :: patterns, List.Forall₂.cons hp hpatterns, hplaced, by omega, hold, ?_⟩
        rintro i (hi | hi)
        · exact a.fresh i hi
        · have := hfresh i hi
          omega

end CompiledPatterns

namespace Graph

/-! ## Joining -/

variable {g h k : Graph} {c l r : Component} {S R T U : Set Nat} {index : Nat}
  {cs : List Component} {Ls : List (Language UInt8)}

/-- From `g` to `h`, components within `R` have been joined into one, which answers the given
priorities. -/
structure Joined (g h : Graph) (c : Component) (R : Set Nat) (answers : Bytes → Priority → Prop) :
    Prop where
  keeps : ∀ i ∉ R, h.node? i = g.node? i
  region : ∃ S ⊆ R, ∃ T, h.Region S c.start T ∧ ∀ w p, h.Exits c.start T w p ↔ answers w p
  set : ∃ n, h.priority c.stop = some n

@[simp]
theorem priority_share {i : Nat} : (g.share l r).priority i = g.priority i := by simp [share]

theorem node?_share {i : Nat} (hl : i ≠ l.start) (hr : i ≠ r.start) :
    (g.share l r).node? i = g.node? i := by
  simp only [share, mark, moveEdges]
  rw [node?_modify_of_ne _ hr, node?_modify_of_ne _ hl, node?_modify_of_ne _ hr]

/-- A component with a number at its stop joins others, which lie elsewhere. -/
theorem Joined.unionKeepingStops {answers : Bytes → Priority → Prop}
    (region : g.Region S c.start {c.stop}) (hp : g.priority c.stop = some index)
    (hd : Disjoint S R) (j : g.Joined h r R answers) :
    h.unionKeepingStops c r = .ok (h.share c r, c) ∧
      g.Joined (h.share c r) c (S ∪ R) fun w p =>
        (w ∈ words g.edges c.start c.stop ∧ p = some index) ∨ answers w p := by
  have hsame : ∀ i ∈ S, h.node? i = g.node? i :=
    fun i hi => j.keeps i (Set.disjoint_left.1 hd hi)
  have hp' : h.priority c.stop = some index := by
    rw [priority_congr (hsame _ region.exit_mem), hp]
  obtain ⟨S', hS', T, hregion, hexits⟩ := j.region
  obtain ⟨n, hn⟩ := j.set
  have hd' : Disjoint S S' := hd.mono_right hS'
  obtain ⟨hshared, hleft, hright⟩ := share_region (region.keep hsame) hregion hd'
  refine ⟨by simp [Graph.unionKeepingStops, hp', hn, share], ?_, ?_, ?_⟩
  · intro i hi
    have hic : i ≠ c.start := fun e => hi (Or.inl (e ▸ region.fragment.entry_mem))
    have hir : i ≠ r.start := fun e => hi (Or.inr (hS' (e ▸ hregion.fragment.entry_mem)))
    rw [node?_share hic hir, j.keeps i fun hR => hi (Or.inr hR)]
  · refine ⟨_, Set.union_subset_union_right S (Set.sdiff_subset.trans hS'), _, hshared, ?_⟩
    intro w p
    rw [← hexits]
    constructor
    · rintro ⟨t, rfl | ht, path, rfl⟩
      · rw [← mem_words, hleft c.stop rfl, region.words_keep hsame] at path
        exact Or.inl ⟨path, by rw [priority_share, hp']⟩
      · rw [← mem_words, hright t ht] at path
        exact Or.inr ⟨t, ht, path, priority_share.symm⟩
    · rintro (⟨path, rfl⟩ | ⟨t, ht, path, rfl⟩)
      · rw [← region.words_keep hsame, ← hleft c.stop rfl] at path
        exact ⟨c.stop, Or.inl rfl, path, by rw [priority_share, hp']⟩
      · rw [← mem_words, ← hright t ht] at path
        exact ⟨t, Or.inr ht, path, priority_share⟩
  · exact ⟨index, by rw [priority_share, hp']⟩

/-- Some language contains the word, and the priority is its number. -/
def Numbering (index : Nat) (Ls : List (Language UInt8)) (w : Bytes) (p : Priority) : Prop :=
  ∃ (k : Nat) (L : Language UInt8), Ls[k]? = some L ∧ w ∈ L ∧ p = some (index + k)

theorem numbering_cons {L : Language UInt8} {w : Bytes} {p : Priority} :
    Numbering index (L :: Ls) w p ↔
      (w ∈ L ∧ p = some index) ∨ Numbering (index + 1) Ls w p := by
  constructor
  · rintro ⟨i, M, hM, hw, rfl⟩
    cases i with
    | zero =>
      simp only [List.getElem?_cons_zero, Option.some.injEq] at hM
      exact Or.inl ⟨hM ▸ hw, rfl⟩
    | succ i => exact Or.inr ⟨i, M, by simpa using hM, hw, by congr 1; omega⟩
  · rintro (⟨hw, rfl⟩ | ⟨i, M, hM, hw, rfl⟩)
    · exact ⟨0, L, rfl, hw, rfl⟩
    · exact ⟨i + 1, M, by simpa using hM, hw, by congr 1; omega⟩

/-- Joining placed components never fails, and a word is answered the numbers of those that read
it. -/
theorem Placed.unionAllKeepingStops (pl : g.Placed index R cs Ls) (hne : cs ≠ []) :
    ∃ h c, g.unionAllKeepingStops cs = (h, .ok (some c)) ∧
      g.Joined h c R (Numbering index Ls) := by
  induction pl with
  | nil => exact absurd rfl hne
  | @cons index S R c cs Ls region hp hd rest ih =>
    cases cs with
    | nil =>
      cases rest
      refine ⟨g, c, rfl, fun _ _ => rfl, ⟨S, by simp, _, region, fun w p => ?_⟩, index, hp⟩
      rw [numbering_cons]
      constructor
      · rintro ⟨_, rfl, path, rfl⟩
        exact Or.inl ⟨path, hp⟩
      · rintro (⟨path, rfl⟩ | ⟨i, M, hM, _⟩)
        · exact ⟨c.stop, rfl, path, hp⟩
        · simp at hM
    | cons c' cs =>
      obtain ⟨h, r, hjoin, j⟩ := ih (by simp)
      obtain ⟨hunion, j'⟩ := j.unionKeepingStops region hp hd
      refine ⟨h.share c r, c, ?_, j'.keeps, ?_, j'.set⟩
      · rw [Graph.unionAllKeepingStops, hjoin]
        simp only [hunion]
      · simpa only [numbering_cons] using j'.region

end Graph

namespace CompiledPatterns

variable {g : Graph} {c : Component} {texts : List String}

theorem join_region (h : join texts = .ok (g, c)) : ∃ patterns S T,
    List.Forall₂ (fun text p => Pattern.read (bytesOf text) = .ok p) texts patterns ∧
      g.Region S c.start T ∧
      ∀ w p, g.Exits c.start T w p ↔ Graph.Numbering 0 (patterns.map Pattern.reading) w p := by
  unfold join at h
  split at h
  · simp at h
  · rename_i g' cs hadd
    obtain ⟨R, patterns, hpatterns, placed, _⟩ := addAll_placed hadd
    cases cs with
    | nil => simp [Graph.unionAllKeepingStops] at h
    | cons c' cs =>
      obtain ⟨k, r, hjoin, j⟩ := placed.unionAllKeepingStops (by simp)
      simp only [hjoin, Except.ok.injEq, Prod.mk.injEq] at h
      obtain ⟨rfl, rfl⟩ := h
      obtain ⟨S, _, T, hregion, hexits⟩ := j.region
      exact ⟨patterns, S, T, hpatterns, hregion, hexits⟩

/-- The least index among written patterns of one that matches. -/
def leastMatch (texts : List String) (w : Bytes) : Option Nat :=
  texts.findIdx? fun text => Pattern.textMatches text w

theorem leastMatch_eq {patterns : List Pattern}
    (h : List.Forall₂ (fun text p => Pattern.read (bytesOf text) = .ok p) texts patterns)
    (w : Bytes) : leastMatch texts w = patterns.findIdx? fun p => p.nfa.isMatch w := by
  unfold leastMatch
  induction h with
  | nil => rfl
  | cons hp _ ih => rw [List.findIdx?_cons, List.findIdx?_cons, Pattern.textMatches_of_read hp, ih]

/-- The joint automaton answers the number of the first pattern that matches. -/
theorem join_answer (h : join texts = .ok (g, c)) (w : Bytes) :
    (g.automaton c).answer w = (leastMatch texts w).map some := by
  obtain ⟨patterns, S, T, hpatterns, region, hexits⟩ := join_region h
  rw [leastMatch_eq hpatterns]
  have hanswer : ∀ p, (g.automaton c).answer w = some p ↔
      Priority.IsBest (Graph.Numbering 0 (patterns.map Pattern.reading) w) p := fun p => by
    rw [Graph.automaton_answer_iff region, Priority.IsBest.congr (hexits w)]
  have hnumber : ∀ p, Graph.Numbering 0 (patterns.map Pattern.reading) w p ↔
      ∃ k q, patterns[k]? = some q ∧ q.nfa.isMatch w = true ∧ p = some k := by
    intro p
    simp only [Graph.Numbering, List.getElem?_map, Option.map_eq_some_iff, Nat.zero_add,
      Pattern.nfa_isMatch_iff]
    constructor
    · rintro ⟨k, _, ⟨q, hq, rfl⟩, hw, rfl⟩
      exact ⟨k, q, hq, hw, rfl⟩
    · rintro ⟨k, q, hq, hw, rfl⟩
      exact ⟨k, _, ⟨q, hq, rfl⟩, hw, rfl⟩
  cases hfind : patterns.findIdx? fun p => p.nfa.isMatch w with
  | none =>
    rw [List.findIdx?_eq_none_iff] at hfind
    cases hp : (g.automaton c).answer w with
    | none => rfl
    | some p =>
      obtain ⟨k, q, hq, hmatch, _⟩ := (hnumber p).1 ((hanswer p).1 hp).among
      rw [hfind q (List.mem_of_getElem? hq)] at hmatch
      cases hmatch
  | some i =>
    obtain ⟨hi, hmatch, hfirst⟩ := List.findIdx?_eq_some_iff_getElem.1 hfind
    rw [Option.map_some, hanswer]
    refine ⟨(hnumber _).2 ⟨i, _, List.getElem?_eq_getElem hi, hmatch, rfl⟩, fun m hm => ?_⟩
    obtain ⟨k, q, hq, hmatch', hk⟩ := (hnumber _).1 hm
    rw [Option.some.injEq] at hk
    subst hk
    obtain ⟨hm', rfl⟩ := List.getElem?_eq_some_iff.1 hq
    by_contra hlt
    exact hfirst m (by omega) hmatch'

theorem join_canonical (h : join texts = .ok (g, c)) : (g.automaton c).Canonical := by
  obtain ⟨_, _, _, _, region, _⟩ := join_region h
  exact Graph.automaton_canonical region

end CompiledPatterns

end MaximalMunch
