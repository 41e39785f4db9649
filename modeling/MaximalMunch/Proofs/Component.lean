import MaximalMunch.Proofs.ByteSet
import MaximalMunch.Proofs.Graph

/-! The operations on components. Each of them turns regions into a region that reads what the
operation says, and it leaves all nodes outside of these regions as they are. -/

namespace MaximalMunch

open Computability

theorem Edge.exists_reads (e : Edge) : ∃ w, e.Reads w := by
  cases h : e.isSilent with
  | true => exact ⟨[], Or.inl ⟨h, rfl⟩⟩
  | false =>
    obtain ⟨b, hb⟩ := ByteSet.exists_mem_of_isEmpty_eq_false h
    exact ⟨[b], Or.inr ⟨b, hb, rfl⟩⟩

/-- The words an edge with a label reads: one byte of it, or the empty word if there is none. -/
def ByteSet.labelWords (s : ByteSet) : Language UInt8 :=
  if s = ∅ then 1 else {w | ∃ b ∈ s, w = [b]}

theorem Edge.reads_iff {e : Edge} {w : Bytes} : e.Reads w ↔ w ∈ e.label.labelWords := by
  unfold Edge.Reads Edge.isSilent Edge.accepts ByteSet.labelWords
  by_cases h : e.label = ∅
  · simp [h, ByteSet.isEmpty_iff]
  · simp only [ByteSet.isEmpty_iff, h, false_and, false_or]
    rfl

namespace Graph

/-- A region of a graph that is entered at one node. Its accepting nodes are its exits. -/
structure Region (g : Graph) (S : Set Nat) (s : Nat) (T : Set Nat) : Prop where
  fragment : Fragment g.edges S s T
  bounded : ∀ i ∈ S, i < g.size
  accepts : ∀ i ∈ S, g.isAccept i = true ↔ i ∈ T

variable {g h : Graph} {S R T U : Set Nat} {s i : Nat} {c l r : Component}

namespace Region

/-- A region stays one as long as its nodes do. -/
theorem keep (f : g.Region S s T) (hn : ∀ i ∈ S, h.node? i = g.node? i) : h.Region S s T where
  fragment := f.fragment.congr fun i hi => edges_congr (hn i hi)
  bounded i hi := by
    rw [← node?_isSome, hn i hi, node?_isSome]
    exact f.bounded i hi
  accepts i hi := by rw [isAccept_congr (hn i hi), f.accepts i hi]

theorem words_keep (f : g.Region S s T) (hn : ∀ i ∈ S, h.node? i = g.node? i) (j : Nat) :
    words h.edges s j = words g.edges s j :=
  Set.ext fun _ => f.fragment.path_congr (fun _ hi => edges_congr (hn _ hi)) f.fragment.entry_mem

theorem exit_mem (f : g.Region S s {i}) : i ∈ S := f.fragment.exits_sub rfl

end Region

/-! ## One byte -/

theorem edges_ofSet (label : ByteSet) : (g.ofSet label).1.edges i =
    if i = g.size then [⟨label, g.size + 1⟩] else g.edges i := by
  have hlt : g.size < ((g.addNode .start).addNode .accept).size := by simp
  simp [ofSet, edges_addEdge hlt, edges_of_size_le]

theorem ofSet_region (label : ByteSet) :
    (g.ofSet label).1.Region {g.size, g.size + 1} g.size {g.size + 1} ∧
      words (g.ofSet label).1.edges g.size (g.size + 1) = label.labelWords := by
  have hs : (g.ofSet label).1.edges g.size = [⟨label, g.size + 1⟩] := by
    rw [edges_ofSet, if_pos rfl]
  have ht : (g.ofSet label).1.edges (g.size + 1) = [] := by
    rw [edges_ofSet, if_neg (by omega), edges_of_size_le (Nat.le_succ _)]
  refine ⟨⟨Fragment.single hs ht (by omega) (Edge.exists_reads _), ?_, ?_⟩, ?_⟩
  · rintro i (rfl | rfl) <;> simp [ofSet, addEdge]
  · rintro i (rfl | rfl) <;> simp [ofSet, isAccept_addNode, Tag.start, Tag.accept]
  · ext w
    exact (Fragment.path_single hs ht (by omega)).trans Edge.reads_iff

theorem node?_ofSet (label : ByteSet) (hi : i < g.size) :
    (g.ofSet label).1.node? i = g.node? i := by
  simp only [ofSet, addEdge]
  rw [node?_modify_of_ne _ (by omega), node?_addNode_of_lt _ (by simp; omega),
    node?_addNode_of_lt _ hi]

@[simp]
theorem size_ofSet (label : ByteSet) : (g.ofSet label).1.size = g.size + 2 := by
  simp [ofSet, addEdge]

@[simp]
theorem priority_ofSet (label : ByteSet) : (g.ofSet label).1.priority i = g.priority i := by
  simp [ofSet]

/-! ## One after the other -/

theorem spliced_moveEdges {n : Nat} (hn : n < g.size) (hd : Disjoint S R) (hnS : n ∈ S)
    (hrR : r.start ∈ R) : Spliced g.edges (g.moveEdges r.start n).edges S n R r.start where
  joined := by
    have hne : r.start ≠ n := fun e => Set.disjoint_left.1 hd hnS (e ▸ hrR)
    simp [edges_moveEdges hn hne]
  left i hi hin := by
    have hne : r.start ≠ n := fun e => Set.disjoint_left.1 hd hnS (e ▸ hrR)
    have hir : i ≠ r.start := fun e => Set.disjoint_left.1 hd hi (e ▸ hrR)
    simp [edges_moveEdges hn hne, hin, hir]
  right i hi hir := by
    have hne : r.start ≠ n := fun e => Set.disjoint_left.1 hd hnS (e ▸ hrR)
    have hin : i ≠ n := fun e => Set.disjoint_left.1 hd hnS (e ▸ hi)
    simp [edges_moveEdges hn hne, hin, hir]

theorem edges_concatenate : (g.concatenate l r).1.edges = (g.moveEdges r.start l.stop).edges := by
  funext i
  simp [concatenate]

theorem isAccept_concatenate : (g.concatenate l r).1.isAccept i =
    (decide (i ≠ l.stop) && (decide (i ≠ r.start) && g.isAccept i)) := by
  simp [concatenate, isAccept_mark_normal]

theorem concatenate_region (hl : g.Region S l.start {l.stop}) (hr : g.Region R r.start {r.stop})
    (hd : Disjoint S R) :
    (g.concatenate l r).1.Region (S ∪ R \ {r.start}) l.start {r.stop} ∧
      words (g.concatenate l r).1.edges l.start r.stop =
        words g.edges l.start l.stop * words g.edges r.start r.stop := by
  have hsp := spliced_moveEdges (hl.bounded _ hl.exit_mem) hd hl.exit_mem hr.fragment.entry_mem
  rw [← edges_concatenate (l := l)] at hsp
  refine ⟨⟨hsp.fragment_exit hl.fragment hr.fragment hd, ?_, ?_⟩, ?_⟩
  · rintro i (hi | hi)
    · simpa [concatenate] using hl.bounded i hi
    · simpa [concatenate] using hr.bounded i hi.1
  · rintro i (hi | hi)
    · rw [isAccept_concatenate]
      have hir : i ≠ r.stop := fun e => Set.disjoint_left.1 hd hi (e ▸ hr.exit_mem)
      have := hl.accepts i hi
      simp only [Set.mem_singleton_iff] at this ⊢
      simp only [Bool.and_eq_true, decide_eq_true_eq, this]
      tauto
    · rw [isAccept_concatenate]
      have hil : i ≠ l.stop := fun e => Set.disjoint_left.1 hd hl.exit_mem (e ▸ hi.1)
      have hir : i ≠ r.start := hi.2
      simpa [hil, hir] using hr.accepts i hi.1
  · ext w
    rw [mem_words, hsp.path_across hl.fragment hr.fragment hd hl.fragment.entry_mem rfl]
    constructor
    · rintro ⟨u, v, rfl, p, q⟩
      exact Language.append_mem_mul p q
    · intro hw
      obtain ⟨u, hu, v, hv, rfl⟩ := Language.mem_mul.1 hw
      exact ⟨u, v, rfl, hu, hv⟩

theorem node?_concatenate (hl : i ≠ l.stop) (hr : i ≠ r.start) :
    (g.concatenate l r).1.node? i = g.node? i := by
  simp only [concatenate, mark, moveEdges]
  rw [node?_modify_of_ne _ hl, node?_modify_of_ne _ hr, node?_modify_of_ne _ hl,
    node?_modify_of_ne _ hr]

@[simp]
theorem size_concatenate : (g.concatenate l r).1.size = g.size := by simp [concatenate]

@[simp]
theorem priority_concatenate : (g.concatenate l r).1.priority i = g.priority i := by
  simp [concatenate]

/-! ## Choices -/

/-- The entry of the left component takes over the edges of the right one's. -/
def share (g : Graph) (l r : Component) : Graph :=
  (g.moveEdges r.start l.start).mark r.start .normal

/-- Two nodes lead silently to a fresh one, which accepts in their place. -/
def meet (g : Graph) (a b : Nat) : Graph :=
  ((((g.addNode .accept).link a g.size).link b g.size).mark a .normal).mark b .normal

theorem size_share : (g.share l r).size = g.size := by simp [share]

theorem union_eq : (g.union l r).1 = (g.share l r).meet l.stop r.stop := by
  rw [meet, size_share]
  rfl

/-- Sharing an entry keeps the exits of both components and what they read there. -/
theorem share_region (hl : g.Region S l.start T) (hr : g.Region R r.start U)
    (hd : Disjoint S R) :
    (g.share l r).Region (S ∪ R \ {r.start}) l.start (T ∪ U) ∧
      (∀ t ∈ T, words (g.share l r).edges l.start t = words g.edges l.start t) ∧
      ∀ t ∈ U, words (g.share l r).edges l.start t = words g.edges r.start t := by
  have hS := hl.fragment.entry_mem
  have hR := hr.fragment.entry_mem
  have hsp := spliced_moveEdges (hl.bounded _ hS) hd hS hR
  have he : (g.share l r).edges = (g.moveEdges r.start l.start).edges := by
    funext i
    simp [share]
  rw [← he] at hsp
  have hacc : ∀ i, (g.share l r).isAccept i = (decide (i ≠ r.start) && g.isAccept i) := by
    intro i
    simp [share, isAccept_mark_normal]
  refine ⟨⟨hsp.fragment_entry hl.fragment hr.fragment hd, ?_, ?_⟩, ?_, ?_⟩
  · intro i hi
    rw [size_share]
    rcases hi with hi | hi
    · exact hl.bounded i hi
    · exact hr.bounded i hi.1
  · rintro i (hi | hi)
    · have hir : i ≠ r.start := fun e => Set.disjoint_left.1 hd hi (e ▸ hR)
      have hiU : i ∉ U := fun hu => Set.disjoint_left.1 hd hi (hr.fragment.exits_sub hu)
      simpa [hacc, hir, hiU] using hl.accepts i hi
    · have hir : i ≠ r.start := hi.2
      have hiT : i ∉ T := fun ht => Set.disjoint_left.1 hd (hl.fragment.exits_sub ht) hi.1
      simpa [hacc, hir, hiT] using hr.accepts i hi.1
  · intro t ht
    ext w
    exact hsp.path_stay hl.fragment hr.fragment hd hS (hl.fragment.exits_sub ht)
  · intro t ht
    ext w
    exact hsp.path_entry hl.fragment hr.fragment hd ht

theorem edges_meet {a b : Nat} (ha : a < g.size) (hb : b < g.size) (hab : a ≠ b) :
    (g.meet a b).edges i =
      if i = a ∨ i = b then g.edges i ++ [.silent g.size] else g.edges i := by
  have h1 : a < (g.addNode .accept).size := by simp; omega
  have h2 : b < ((g.addNode .accept).link a g.size).size := by simp; omega
  simp only [meet, edges_mark, edges_link h2, edges_link h1, edges_addNode]
  by_cases hia : i = a
  · subst hia
    simp [hab]
  · by_cases hib : i = b
    · subst hib
      simp [hab.symm]
    · simp [hia, hib]

theorem isAccept_meet {a b : Nat} : (g.meet a b).isAccept i =
    (decide (i ≠ b) && (decide (i ≠ a) && if i = g.size then true else g.isAccept i)) := by
  simp [meet, isAccept_mark_normal, isAccept_addNode, Tag.accept]

theorem meet_region {a b : Nat} (f : g.Region S s ({a} ∪ {b})) (hab : a ≠ b) :
    (g.meet a b).Region (insert g.size S) s {g.size} ∧
      words (g.meet a b).edges s g.size = words g.edges s a + words g.edges s b := by
  have ha := f.bounded a (f.fragment.exits_sub (Or.inl rfl))
  have hb := f.bounded b (f.fragment.exits_sub (Or.inr rfl))
  have hfresh : g.size ∉ S := fun hi => Nat.lt_irrefl _ (f.bounded _ hi)
  have hg : Gathered g.edges (g.meet a b).edges S ({a} ∪ {b}) g.size := by
    refine ⟨hfresh, ?_, ?_, ?_⟩
    · rintro t (rfl | rfl)
      · simp [edges_meet ha hb hab, f.fragment.final t (Or.inl rfl)]
      · simp [edges_meet ha hb hab, f.fragment.final t (Or.inr rfl)]
    · have h1 : g.size ≠ a := by omega
      have h2 : g.size ≠ b := by omega
      simp [edges_meet ha hb hab, h1, h2, edges_of_size_le]
    · intro i _ hi
      simp only [Set.mem_union, Set.mem_singleton_iff] at hi
      rw [edges_meet ha hb hab, if_neg hi]
  refine ⟨⟨hg.fragment f.fragment, ?_, ?_⟩, ?_⟩
  · rintro i (rfl | hi)
    · simp [meet]
    · have := f.bounded i hi
      simp [meet]
      omega
  · rintro i (rfl | hi)
    · have h1 : g.size ≠ a := by omega
      have h2 : g.size ≠ b := by omega
      simp [isAccept_meet, h1, h2]
    · have hig : i ≠ g.size := fun e => hfresh (e ▸ hi)
      have := f.accepts i hi
      simp only [Set.mem_union, Set.mem_singleton_iff] at this ⊢
      simp only [isAccept_meet, hig, if_false, Bool.and_eq_true, decide_eq_true_eq, this]
      tauto
  · ext w
    rw [mem_words, hg.path_iff f.fragment f.fragment.entry_mem, Language.mem_add]
    simp [or_comm]

theorem union_region (hl : g.Region S l.start {l.stop}) (hr : g.Region R r.start {r.stop})
    (hd : Disjoint S R) :
    (g.union l r).1.Region (insert g.size (S ∪ R \ {r.start})) l.start {g.size} ∧
      words (g.union l r).1.edges l.start g.size =
        words g.edges l.start l.stop + words g.edges r.start r.stop := by
  have hne : l.stop ≠ r.stop := fun e => Set.disjoint_left.1 hd hl.exit_mem (e ▸ hr.exit_mem)
  obtain ⟨hj, hwl, hwr⟩ := share_region hl hr hd
  have hm := meet_region hj hne
  rwa [size_share, ← union_eq, hwl _ rfl, hwr _ rfl] at hm

theorem node?_union (hi : i < g.size) (hls : i ≠ l.start) (hlt : i ≠ l.stop) (hrs : i ≠ r.start)
    (hrt : i ≠ r.stop) : (g.union l r).1.node? i = g.node? i := by
  simp only [union, mark, link, addEdge, moveEdges]
  rw [node?_modify_of_ne _ hrt, node?_modify_of_ne _ hlt, node?_modify_of_ne _ hrt,
    node?_modify_of_ne _ hlt, node?_addNode_of_lt _ (by simpa using hi), node?_modify_of_ne _ hrs,
    node?_modify_of_ne _ hls, node?_modify_of_ne _ hrs]

@[simp]
theorem size_union : (g.union l r).1.size = g.size + 1 := by simp [union]

@[simp]
theorem priority_union : (g.union l r).1.priority i = g.priority i := by simp [union]

/-! ## Repetition -/

theorem size_surround : (g.surround c).size = g.size + 2 := by simp [surround]

theorem edges_surround : (g.surround c).edges i = g.edges i := by simp [surround]

theorem isAccept_surround : (g.surround c).isAccept i =
    (decide (i ≠ c.stop) && (decide (i ≠ c.start) &&
      if i = g.size + 1 then true else decide (i ≠ g.size) && g.isAccept i)) := by
  simp only [surround, isAccept_mark_normal, isAccept_addNode, size_addNode]
  by_cases h : i = g.size
  · simp [h, Tag.start]
  · simp [h, Tag.accept]

/-- Around a region, the fresh stop is the only accepting node. -/
theorem surround_accepts (f : g.Region S c.start {c.stop}) {k : Graph}
    (hk : ∀ i, k.isAccept i = (g.surround c).isAccept i) (i : Nat)
    (hi : i ∈ insert g.size (insert (g.size + 1) S)) :
    k.isAccept i = true ↔ i ∈ ({g.size + 1} : Set Nat) := by
  have hs := f.bounded _ f.fragment.entry_mem
  have ht := f.bounded _ f.exit_mem
  rw [hk, isAccept_surround]
  rcases hi with rfl | rfl | hi
  · simp
  · have h1 : g.size + 1 ≠ c.stop := by omega
    have h2 : g.size + 1 ≠ c.start := by omega
    simp [h1, h2]
  · have := f.bounded i hi
    have h1 : i ≠ g.size + 1 := by omega
    have := f.accepts i hi
    simp only [Set.mem_singleton_iff] at this ⊢
    simp only [h1, if_false, Bool.and_eq_true, decide_eq_true_eq, this, iff_false]
    tauto

theorem surround_bounded (f : g.Region S c.start {c.stop}) {k : Graph}
    (hk : k.size = g.size + 2) : ∀ i ∈ insert g.size (insert (g.size + 1) S), i < k.size := by
  rw [hk]
  rintro i (rfl | rfl | hi)
  · omega
  · omega
  · have := f.bounded i hi
    omega

theorem edges_star (f : g.Region S c.start {c.stop}) (i : Nat) : (g.star c).1.edges i =
    if i = c.start then g.edges i ++ [.silent (g.size + 1)]
    else if i = g.size then [.silent c.start]
    else if i = c.stop then g.edges i ++ [.silent c.start] else g.edges i := by
  have hs := f.bounded _ f.fragment.entry_mem
  have ht := f.bounded _ f.exit_mem
  have hne : c.stop ≠ c.start := fun e => f.fragment.entry_not_exit e.symm
  have h1 : c.stop < (g.surround c).size := by rw [size_surround]; omega
  have h2 : g.size < ((g.surround c).link c.stop c.start).size := by
    rw [size_link, size_surround]
    omega
  have h3 : c.start < (((g.surround c).link c.stop c.start).link g.size c.start).size := by
    rw [size_link, size_link, size_surround]
    omega
  have hsn : c.start ≠ g.size := by omega
  have htn : c.stop ≠ g.size := by omega
  simp only [star, edges_link h3, edges_link h2, edges_link h1, edges_surround]
  by_cases his : i = c.start
  · subst his
    simp [hsn, hne.symm]
  · by_cases hin : i = g.size
    · subst hin
      simp [his, htn.symm, edges_of_size_le]
    · by_cases hit : i = c.stop
      · subst hit
        simp [his, hin]
      · simp [his, hin, hit]

theorem star_starred (f : g.Region S c.start {c.stop}) :
    Starred g.edges (g.star c).1.edges S c.start c.stop g.size (g.size + 1) := by
  have hs := f.bounded _ f.fragment.entry_mem
  have ht := f.bounded _ f.exit_mem
  have hne : c.stop ≠ c.start := fun e => f.fragment.entry_not_exit e.symm
  constructor
  · exact fun hi => Nat.lt_irrefl _ (f.bounded _ hi)
  · intro hi
    have := f.bounded _ hi
    omega
  · omega
  · have : g.size ≠ c.start := by omega
    simp [edges_star f, this]
  · have h1 : g.size + 1 ≠ c.start := by omega
    have h2 : g.size + 1 ≠ c.stop := by omega
    simp [edges_star f, h1, h2, edges_of_size_le]
  · simp [edges_star f]
  · have : c.stop ≠ g.size := by omega
    simp [edges_star f, hne, this, f.fragment.final c.stop rfl]
  · intro i hi his hit
    have := f.bounded i hi
    have hin : i ≠ g.size := by omega
    simp [edges_star f, his, hit, hin]

theorem star_region (f : g.Region S c.start {c.stop}) :
    (g.star c).1.Region (insert g.size (insert (g.size + 1) S)) g.size {g.size + 1} ∧
      words (g.star c).1.edges g.size (g.size + 1) = (words g.edges c.start c.stop)∗ := by
  have h := star_starred f
  have hfragment := (h.surrounded f.fragment).fragment f.fragment
  refine ⟨⟨hfragment, surround_bounded f ?_, surround_accepts f ?_⟩,
    h.words_eq f.fragment⟩
  · simp [star, size_surround]
  · intro i
    simp [star]

theorem edges_plus (f : g.Region S c.start {c.stop}) (i : Nat) : (g.plus c).1.edges i =
    if i = c.stop then g.edges i ++ [.silent (g.size + 1), .silent c.start]
    else if i = g.size then [.silent c.start] else g.edges i := by
  have ht := f.bounded _ f.exit_mem
  have h1 : g.size < (g.surround c).size := by rw [size_surround]; omega
  have h2 : c.stop < ((g.surround c).link g.size c.start).size := by
    rw [size_link, size_surround]
    omega
  have h3 : c.stop < (((g.surround c).link g.size c.start).link c.stop (g.size + 1)).size := by
    rw [size_link, size_link, size_surround]
    omega
  have htn : c.stop ≠ g.size := by omega
  simp only [plus, edges_link h3, edges_link h2, edges_link h1, edges_surround]
  by_cases hit : i = c.stop
  · subst hit
    simp [htn]
  · by_cases hin : i = g.size
    · subst hin
      simp [hit, edges_of_size_le]
    · simp [hit, hin]

theorem plus_repeated (f : g.Region S c.start {c.stop}) :
    Repeated g.edges (g.plus c).1.edges S c.start c.stop g.size (g.size + 1) := by
  have ht := f.bounded _ f.exit_mem
  constructor
  · exact fun hi => Nat.lt_irrefl _ (f.bounded _ hi)
  · intro hi
    have := f.bounded _ hi
    omega
  · omega
  · have : g.size ≠ c.stop := by omega
    simp [edges_plus f, this]
  · have h1 : g.size + 1 ≠ c.stop := by omega
    simp [edges_plus f, h1, edges_of_size_le]
  · simp [edges_plus f, f.fragment.final c.stop rfl]
  · intro i hi hit
    have := f.bounded i hi
    have hin : i ≠ g.size := by omega
    simp [edges_plus f, hit, hin]

theorem plus_region (f : g.Region S c.start {c.stop}) :
    (g.plus c).1.Region (insert g.size (insert (g.size + 1) S)) g.size {g.size + 1} ∧
      words (g.plus c).1.edges g.size (g.size + 1) =
        words g.edges c.start c.stop * (words g.edges c.start c.stop)∗ := by
  have h := plus_repeated f
  have hfragment := (h.surrounded f.fragment).fragment f.fragment
  refine ⟨⟨hfragment, surround_bounded f ?_, surround_accepts f ?_⟩,
    h.words_eq f.fragment⟩
  · simp [plus, size_surround]
  · intro i
    simp [plus]

theorem optional_region (f : g.Region S c.start {c.stop}) :
    (g.optional c).1.Region S c.start {c.stop} ∧
      words (g.optional c).1.edges c.start c.stop = 1 + words g.edges c.start c.stop := by
  have he : ∀ i, (g.optional c).1.edges i =
      if i = c.start then g.edges c.start ++ [.silent c.stop] else g.edges i :=
    fun i => edges_link (f.bounded _ f.fragment.entry_mem)
  have h : Bypassed g.edges (g.optional c).1.edges S c.start c.stop := by
    constructor
    · simp [he]
    · intro i _ hi
      simp [he, hi]
  refine ⟨⟨h.fragment f.fragment, ?_, ?_⟩, h.words_eq f.fragment⟩
  · intro i hi
    simpa [optional] using f.bounded i hi
  · intro i hi
    simpa [optional] using f.accepts i hi

theorem node?_surround (hi : i < g.size) (hs : i ≠ c.start) (ht : i ≠ c.stop) :
    (g.surround c).node? i = g.node? i := by
  simp only [surround, mark]
  rw [node?_modify_of_ne _ ht, node?_modify_of_ne _ hs, node?_addNode_of_lt _ (by simp; omega),
    node?_addNode_of_lt _ hi]

@[simp]
theorem priority_surround : (g.surround c).priority i = g.priority i := by simp [surround]

theorem node?_star (hi : i < g.size) (hs : i ≠ c.start) (ht : i ≠ c.stop) :
    (g.star c).1.node? i = g.node? i := by
  simp only [star, link, addEdge]
  rw [node?_modify_of_ne _ hs, node?_modify_of_ne _ (Nat.ne_of_lt hi), node?_modify_of_ne _ ht,
    node?_surround hi hs ht]

@[simp]
theorem size_star : (g.star c).1.size = g.size + 2 := by simp [star, size_surround]

@[simp]
theorem priority_star : (g.star c).1.priority i = g.priority i := by simp [star]

theorem node?_plus (hi : i < g.size) (hs : i ≠ c.start) (ht : i ≠ c.stop) :
    (g.plus c).1.node? i = g.node? i := by
  simp only [plus, link, addEdge]
  rw [node?_modify_of_ne _ ht, node?_modify_of_ne _ ht, node?_modify_of_ne _ (Nat.ne_of_lt hi),
    node?_surround hi hs ht]

@[simp]
theorem size_plus : (g.plus c).1.size = g.size + 2 := by simp [plus, size_surround]

@[simp]
theorem priority_plus : (g.plus c).1.priority i = g.priority i := by simp [plus]

theorem node?_optional (hs : i ≠ c.start) : (g.optional c).1.node? i = g.node? i :=
  node?_modify_of_ne _ hs

@[simp]
theorem size_optional : (g.optional c).1.size = g.size := by simp [optional]

@[simp]
theorem priority_optional : (g.optional c).1.priority i = g.priority i := by simp [optional]

end Graph

end MaximalMunch
