import MaximalMunch.Proofs.Path

/-! Fragments of a graph, and what the ways to combine them read. A fragment is entered at one node
and left at others; the operations only ever add edges behind an entry or an exit. -/

namespace MaximalMunch

open Computability

/-- A region with an entry that no edge leads to and exits that no edge leaves. No edge leads out of
the region, and every node of it leads to an exit. -/
structure Fragment (E : Wiring) (S : Set Nat) (s : Nat) (T : Set Nat) : Prop where
  entry_mem : s ∈ S
  exits_sub : T ⊆ S
  entry_not_exit : s ∉ T
  inner : ∀ i ∈ S, ∀ e ∈ E i, e.target ∈ S \ {s}
  final : ∀ t ∈ T, E t = []
  live : ∀ i ∈ S, ∃ t ∈ T, ∃ w, Path E i w t

namespace Fragment

variable {E E' : Wiring} {S : Set Nat} {s : Nat} {T : Set Nat} {i j : Nat} {w : Bytes}

/-- Edges outside of a fragment do not matter to its paths. -/
theorem path_congr (f : Fragment E S s T) (hE : ∀ i ∈ S, E' i = E i) (hi : i ∈ S) :
    Path E' i w j ↔ Path E i w j :=
  Path.congr hE (fun m hm e he => (f.inner m hm e he).1) hi

/-- Edges outside of a fragment do not matter to it. -/
theorem congr (f : Fragment E S s T) (hE : ∀ i ∈ S, E' i = E i) : Fragment E' S s T where
  entry_mem := f.entry_mem
  exits_sub := f.exits_sub
  entry_not_exit := f.entry_not_exit
  inner i hi e he := f.inner i hi e (hE i hi ▸ he)
  final t ht := by rw [hE t (f.exits_sub ht), f.final t ht]
  live i hi := by
    obtain ⟨t, ht, w, p⟩ := f.live i hi
    exact ⟨t, ht, w, (f.path_congr hE hi).2 p⟩

/-- Paths of a fragment stay paths when edges are added. -/
theorem path_mono (f : Fragment E S s T) (hE : ∀ i ∈ S, ∀ e ∈ E i, e ∈ E' i) (hi : i ∈ S)
    (p : Path E i w j) : Path E' i w j :=
  (p.carry (fun m hm e he => ⟨hE m hm e he, (f.inner m hm e he).1⟩) hi).1

theorem path_mem (f : Fragment E S s T) (hi : i ∈ S) (p : Path E i w j) : j ∈ S :=
  (p.carry (fun m hm e he => ⟨he, (f.inner m hm e he).1⟩) hi).2

/-- Only the path that goes nowhere leads to the entry. -/
theorem eq_of_path_entry (f : Fragment E S s T) (hi : i ∈ S) (p : Path E i w s) :
    w = [] ∧ i = s := by
  obtain ⟨j, hj⟩ : ∃ j, j = s := ⟨s, rfl⟩
  rw [← hj] at p
  induction p with
  | refl => exact ⟨rfl, hj⟩
  | step e he hu p ih =>
    have ht := f.inner _ hi e he
    exact absurd (ih ht.1 hj).2 ht.2

/-- A path from the entry to an exit begins with an edge. -/
theorem exists_edge (f : Fragment E S s T) (hj : j ∈ T) (p : Path E s w j) :
    ∃ e ∈ E s, ∃ u v, e.Reads u ∧ Path E e.target v j ∧ w = u ++ v := by
  cases p with
  | refl => exact absurd hj f.entry_not_exit
  | step e he hu p => exact ⟨e, he, _, _, hu, p, rfl⟩

/-- Two nodes with one edge between them. -/
theorem single {s t : Nat} {label : ByteSet} (hs : E s = [⟨label, t⟩]) (ht : E t = [])
    (hst : s ≠ t) (hread : ∃ w, Edge.Reads ⟨label, t⟩ w) : Fragment E {s, t} s {t} where
  entry_mem := Set.mem_insert s _
  exits_sub := by simp
  entry_not_exit := by simpa using hst
  inner i hi e he := by
    rcases hi with rfl | rfl
    · simp only [hs, List.mem_singleton] at he
      subst he
      exact ⟨by simp, by simpa using hst.symm⟩
    · simp [ht] at he
  final i hi := by rw [Set.mem_singleton_iff.1 hi, ht]
  live i hi := by
    refine ⟨t, rfl, ?_⟩
    rcases hi with rfl | rfl
    · obtain ⟨w, hw⟩ := hread
      exact ⟨w, Path.edge (e := ⟨label, t⟩) (by simp [hs]) hw⟩
    · exact ⟨[], Path.refl _⟩

theorem path_single {s t : Nat} {label : ByteSet} (hs : E s = [⟨label, t⟩]) (ht : E t = [])
    (hst : s ≠ t) : Path E s w t ↔ Edge.Reads ⟨label, t⟩ w := by
  constructor
  · intro p
    cases p with
    | refl => exact absurd rfl hst
    | step e he hu p =>
      simp only [hs, List.mem_singleton] at he
      subst he
      obtain ⟨rfl, _⟩ := p.eq_of_final ht
      rwa [List.append_nil]
  · intro h
    exact Path.edge (e := ⟨label, t⟩) (by simp [hs]) h

end Fragment

/-! ## Taking over the edges of another entry -/

/-- Node `n` of a region takes over the edges of node `r`, which belongs to another region. -/
structure Spliced (E E' : Wiring) (S : Set Nat) (n : Nat) (R : Set Nat) (r : Nat) : Prop where
  joined : E' n = E n ++ E r
  left : ∀ i ∈ S, i ≠ n → E' i = E i
  right : ∀ i ∈ R, i ≠ r → E' i = E i

namespace Spliced

variable {E E' : Wiring} {S R T U : Set Nat} {s r n i j : Nat} {w : Bytes}

theorem subset (h : Spliced E E' S n R r) (hi : i ∈ S) {e : Edge} (he : e ∈ E i) : e ∈ E' i := by
  by_cases hn : i = n
  · subst hn
    rw [h.joined]
    exact List.mem_append_left _ he
  · rw [h.left i hi hn]
    exact he

/-- Paths within the left region stay paths. -/
theorem path_left (h : Spliced E E' S n R r) (f : Fragment E S s T) (hi : i ∈ S)
    (p : Path E i w j) : Path E' i w j :=
  f.path_mono (fun _ hm _ he => h.subset hm he) hi p

/-- Behind its entry, the right region is as before. -/
theorem path_right (h : Spliced E E' S n R r) (f : Fragment E R r U) (hi : i ∈ R \ {r}) :
    Path E' i w j ↔ Path E i w j :=
  Path.congr (fun m hm => h.right m hm.1 hm.2) (fun m hm e he => f.inner m hm.1 e he) hi

/-- A path that begins in the left region stays there, or it leaves the region at `n` and goes on in
the right one. -/
theorem path_cases (h : Spliced E E' S n R r) (f : Fragment E S s T) (f' : Fragment E R r U)
    (hi : i ∈ S) (p : Path E' i w j) :
    (j ∈ S ∧ Path E i w j) ∨
      (j ∈ R \ {r} ∧ ∃ u v, w = u ++ v ∧ Path E i u n ∧ Path E r v j) := by
  induction p with
  | refl => exact Or.inl ⟨hi, Path.refl _⟩
  | @step i j u w e he hu p ih =>
    by_cases hr : i = n ∧ e ∈ E r
    · obtain ⟨rfl, her⟩ := hr
      have ht := f'.inner r f'.entry_mem e her
      have q := (h.path_right f' ht).1 p
      have hj : j ∈ R \ {r} :=
        (q.carry (fun m hm e he => ⟨he, f'.inner m hm.1 e he⟩) ht).2
      exact Or.inr ⟨hj, [], u ++ w, rfl, Path.refl i, Path.step e her hu q⟩
    · have hei : e ∈ E i := by
        by_cases hn : i = n
        · subst hn
          rw [h.joined] at he
          rcases List.mem_append.1 he with he | he
          · exact he
          · exact absurd ⟨rfl, he⟩ hr
        · rwa [← h.left i hi hn]
      rcases ih (f.inner i hi e hei).1 with ⟨hj, q⟩ | ⟨hj, x, y, rfl, q, q'⟩
      · exact Or.inl ⟨hj, Path.step e hei hu q⟩
      · exact Or.inr ⟨hj, u ++ x, y, (List.append_assoc ..).symm, Path.step e hei hu q, q'⟩

theorem path_stay (h : Spliced E E' S n R r) (f : Fragment E S s T) (f' : Fragment E R r U)
    (hd : Disjoint S R) (hi : i ∈ S) (hj : j ∈ S) : Path E' i w j ↔ Path E i w j := by
  constructor
  · intro p
    rcases h.path_cases f f' hi p with ⟨_, q⟩ | ⟨hjr, _⟩
    · exact q
    · exact absurd hjr.1 (Set.disjoint_left.1 hd hj)
  · exact h.path_left f hi

theorem path_across (h : Spliced E E' S n R r) (f : Fragment E S s T) (f' : Fragment E R r U)
    (hd : Disjoint S R) (hi : i ∈ S) (hj : j ∈ U) :
    Path E' i w j ↔ ∃ u v, w = u ++ v ∧ Path E i u n ∧ Path E r v j := by
  constructor
  · intro p
    rcases h.path_cases f f' hi p with ⟨hjs, _⟩ | ⟨_, hw⟩
    · exact absurd (f'.exits_sub hj) (Set.disjoint_left.1 hd hjs)
    · exact hw
  · rintro ⟨u, v, rfl, p, q⟩
    obtain ⟨e, he, x, y, hx, q₁, rfl⟩ := f'.exists_edge hj q
    have he' : e ∈ E' n := by
      rw [h.joined]
      exact List.mem_append_right _ he
    have q₂ := (h.path_right f' (f'.inner r f'.entry_mem e he)).2 q₁
    exact (h.path_left f hi p).trans (Path.step e he' hx q₂)

/-- The right region, as far as it is still reached. -/
theorem inner (h : Spliced E E' S n R r) (f : Fragment E S s T) (f' : Fragment E R r U)
    (hd : Disjoint S R) (hi : i ∈ S ∪ R \ {r}) {e : Edge} (he : e ∈ E' i) :
    e.target ∈ (S ∪ R \ {r}) \ {s} := by
  have hs : ∀ k ∈ R \ {r}, k ≠ s := fun k hk hks =>
    Set.disjoint_left.1 hd f.entry_mem (hks ▸ hk.1)
  rcases hi with hi | hi
  · by_cases hn : i = n
    · subst hn
      rw [h.joined] at he
      rcases List.mem_append.1 he with he | he
      · have ht := f.inner i hi e he
        exact ⟨Or.inl ht.1, ht.2⟩
      · have ht := f'.inner r f'.entry_mem e he
        exact ⟨Or.inr ht, hs _ ht⟩
    · rw [h.left i hi hn] at he
      have ht := f.inner i hi e he
      exact ⟨Or.inl ht.1, ht.2⟩
  · rw [h.right i hi.1 hi.2] at he
    have ht := f'.inner i hi.1 e he
    exact ⟨Or.inr ht, hs _ ht⟩

theorem live_right (h : Spliced E E' S n R r) (f' : Fragment E R r U) (hi : i ∈ R \ {r}) :
    ∃ t ∈ U, ∃ w, Path E' i w t := by
  obtain ⟨t, ht, w, p⟩ := f'.live i hi.1
  exact ⟨t, ht, w, (h.path_right f' hi).2 p⟩

/-- At its entry, a fragment takes over another one, and the exits of both remain. -/
theorem fragment_entry (h : Spliced E E' S s R r) (f : Fragment E S s T) (f' : Fragment E R r U)
    (hd : Disjoint S R) : Fragment E' (S ∪ R \ {r}) s (T ∪ U) where
  entry_mem := Or.inl f.entry_mem
  exits_sub := by
    rintro t (ht | ht)
    · exact Or.inl (f.exits_sub ht)
    · exact Or.inr ⟨f'.exits_sub ht, fun hr => f'.entry_not_exit (hr ▸ ht)⟩
  entry_not_exit := by
    rintro (ht | ht)
    · exact f.entry_not_exit ht
    · exact Set.disjoint_left.1 hd f.entry_mem (f'.exits_sub ht)
  inner i hi e he := h.inner f f' hd hi he
  final t ht := by
    rcases ht with ht | ht
    · rw [h.left t (f.exits_sub ht) fun hs => f.entry_not_exit (hs ▸ ht), f.final t ht]
    · rw [h.right t (f'.exits_sub ht) fun hr => f'.entry_not_exit (hr ▸ ht), f'.final t ht]
  live i hi := by
    rcases hi with hi | hi
    · obtain ⟨t, ht, w, p⟩ := f.live i hi
      exact ⟨t, Or.inl ht, w, h.path_left f hi p⟩
    · obtain ⟨t, ht, w, p⟩ := h.live_right f' hi
      exact ⟨t, Or.inr ht, w, p⟩

/-- Paths to the exits of the fragment taken over are those from its own entry. -/
theorem path_entry (h : Spliced E E' S s R r) (f : Fragment E S s T) (f' : Fragment E R r U)
    (hd : Disjoint S R) (hj : j ∈ U) : Path E' s w j ↔ Path E r w j := by
  rw [h.path_across f f' hd f.entry_mem hj]
  constructor
  · rintro ⟨u, v, rfl, p, q⟩
    obtain ⟨rfl, _⟩ := f.eq_of_path_entry f.entry_mem p
    exact q
  · intro q
    exact ⟨[], w, rfl, Path.refl s, q⟩

/-- At its only exit, a fragment takes over another one. -/
theorem fragment_exit (h : Spliced E E' S n R r) (f : Fragment E S s {n}) (f' : Fragment E R r U)
    (hd : Disjoint S R) : Fragment E' (S ∪ R \ {r}) s U where
  entry_mem := Or.inl f.entry_mem
  exits_sub t ht := Or.inr ⟨f'.exits_sub ht, fun hr => f'.entry_not_exit (hr ▸ ht)⟩
  entry_not_exit ht := Set.disjoint_left.1 hd f.entry_mem (f'.exits_sub ht)
  inner i hi e he := h.inner f f' hd hi he
  final t ht := by
    rw [h.right t (f'.exits_sub ht) fun hr => f'.entry_not_exit (hr ▸ ht), f'.final t ht]
  live i hi := by
    rcases hi with hi | hi
    · obtain ⟨_, rfl, w, p⟩ := f.live i hi
      obtain ⟨t, ht, v, q⟩ := f'.live r f'.entry_mem
      exact ⟨t, ht, w ++ v, (h.path_across f f' hd hi ht).2 ⟨w, v, rfl, p, q⟩⟩
    · exact h.live_right f' hi

end Spliced

/-! ## A common exit -/

/-- All exits of a region lead silently to a new one. -/
structure Gathered (E E' : Wiring) (S T : Set Nat) (x : Nat) : Prop where
  fresh : x ∉ S
  exits : ∀ t ∈ T, E' t = [.silent x]
  last : E' x = []
  rest : ∀ i ∈ S, i ∉ T → E' i = E i

namespace Gathered

variable {E E' : Wiring} {S T : Set Nat} {s i x : Nat} {w : Bytes}

theorem path_left (h : Gathered E E' S T x) (f : Fragment E S s T) (hi : i ∈ S) {j : Nat}
    (p : Path E i w j) : Path E' i w j := by
  refine f.path_mono (fun m hm e he => ?_) hi p
  rwa [h.rest m hm]
  intro hmt
  simp [f.final m hmt] at he

/-- The new exit is reached by way of the old ones. -/
theorem path_iff (h : Gathered E E' S T x) (f : Fragment E S s T) (hi : i ∈ S) :
    Path E' i w x ↔ ∃ t ∈ T, Path E i w t := by
  constructor
  · intro p
    obtain ⟨j, hj⟩ : ∃ j, j = x := ⟨x, rfl⟩
    rw [← hj] at p
    induction p with
    | refl => exact absurd (hj ▸ hi) h.fresh
    | @step i j u w e he hu p ih =>
      by_cases ht : i ∈ T
      · rw [h.exits i ht, List.mem_singleton] at he
        subst he
        obtain ⟨rfl, _⟩ := p.eq_of_final h.last
        have := Edge.eq_nil_of_reads_silent hu
        subst this
        exact ⟨i, ht, Path.refl i⟩
      · rw [h.rest i hi ht] at he
        obtain ⟨t, htT, q⟩ := ih (f.inner i hi e he).1 hj
        exact ⟨t, htT, Path.step e he hu q⟩
  · rintro ⟨t, ht, p⟩
    have q : Path E' t [] x := Path.silent (by simp [h.exits t ht])
    have := (h.path_left f hi p).trans q
    rwa [List.append_nil] at this

theorem entry_ne (h : Gathered E E' S T x) (f : Fragment E S s T) : s ≠ x :=
  fun hs => h.fresh (hs ▸ f.entry_mem)

theorem fragment (h : Gathered E E' S T x) (f : Fragment E S s T) :
    Fragment E' (insert x S) s {x} where
  entry_mem := Or.inr f.entry_mem
  exits_sub := by simp
  entry_not_exit := h.entry_ne f
  inner i hi e he := by
    rcases hi with rfl | hi
    · simp [h.last] at he
    · by_cases ht : i ∈ T
      · rw [h.exits i ht, List.mem_singleton] at he
        subst he
        exact ⟨Or.inl rfl, (h.entry_ne f).symm⟩
      · rw [h.rest i hi ht] at he
        have := f.inner i hi e he
        exact ⟨Or.inr this.1, this.2⟩
  final t ht := by rw [Set.mem_singleton_iff.1 ht, h.last]
  live i hi := by
    refine ⟨x, rfl, ?_⟩
    rcases hi with rfl | hi
    · exact ⟨[], Path.refl _⟩
    · obtain ⟨t, ht, w, p⟩ := f.live i hi
      exact ⟨w, (h.path_iff f hi).2 ⟨t, ht, p⟩⟩

end Gathered

/-! ## Repetition -/

/-- The words that are read on the way from one node to another. -/
def words (E : Wiring) (s t : Nat) : Language UInt8 := {w | Path E s w t}

@[simp]
theorem mem_words {E : Wiring} {s t : Nat} {w : Bytes} : w ∈ words E s t ↔ Path E s w t := Iff.rfl

theorem append_mem_kstar {L : Language UInt8} {u v : Bytes} (hu : u ∈ L) (hv : v ∈ L∗) :
    u ++ v ∈ L∗ := by
  rw [← Language.one_add_self_mul_kstar_eq_kstar]
  exact Or.inr (Language.append_mem_mul hu hv)

/-- A new entry and a new exit around a region whose exit leads back to its entry. What is added in
the region are silent edges to its entry and to the new exit. -/
structure Surrounded (E E' : Wiring) (S : Set Nat) (s t x y : Nat) : Prop where
  fresh_entry : x ∉ S
  distinct : x ≠ y
  first : E' x = [.silent s]
  last : E' y = []
  keeps : ∀ i ∈ S, ∀ e ∈ E i, e ∈ E' i
  adds : ∀ i ∈ S, ∀ e ∈ E' i, e ∈ E i ∨ e = .silent s ∨ e = .silent y
  back : .silent s ∈ E' t
  out : .silent y ∈ E' s ∨ .silent y ∈ E' t

namespace Surrounded

variable {E E' : Wiring} {S : Set Nat} {s t x y i j : Nat} {w : Bytes}

theorem path_left (h : Surrounded E E' S s t x y) (f : Fragment E S s {t}) (hi : i ∈ S)
    (p : Path E i w j) : Path E' i w j :=
  f.path_mono (fun m hm e he => h.keeps m hm e he) hi p

theorem path_out (h : Surrounded E E' S s t x y) : Path E' t [] y := by
  rcases h.out with hs | ht
  · exact (Path.silent h.back).trans (Path.silent hs)
  · exact Path.silent ht

theorem fragment (h : Surrounded E E' S s t x y) (f : Fragment E S s {t}) :
    Fragment E' (insert x (insert y S)) x {y} where
  entry_mem := Or.inl rfl
  exits_sub := by simp
  entry_not_exit := h.distinct
  inner i hi e he := by
    have hne : ∀ m ∈ S, m ≠ x := fun m hm hmx => h.fresh_entry (hmx ▸ hm)
    have hs : s ∈ insert x (insert y S) \ {x} := ⟨Or.inr (Or.inr f.entry_mem), hne s f.entry_mem⟩
    rcases hi with rfl | rfl | hi
    · rw [h.first, List.mem_singleton] at he
      exact he ▸ hs
    · simp [h.last] at he
    · rcases h.adds i hi e he with he | rfl | rfl
      · have hm := (f.inner i hi e he).1
        exact ⟨Or.inr (Or.inr hm), hne _ hm⟩
      · exact hs
      · exact ⟨Or.inr (Or.inl rfl), h.distinct.symm⟩
  final i hi := by rw [Set.mem_singleton_iff.1 hi, h.last]
  live i hi := by
    have hlive : ∀ m ∈ S, ∃ w, Path E' m w y := by
      intro m hm
      obtain ⟨_, rfl, w, p⟩ := f.live m hm
      exact ⟨_, (h.path_left f hm p).trans h.path_out⟩
    refine ⟨y, rfl, ?_⟩
    rcases hi with rfl | rfl | hi
    · obtain ⟨w, p⟩ := hlive s f.entry_mem
      exact ⟨_, (Path.silent (by simp [h.first])).trans p⟩
    · exact ⟨[], Path.refl _⟩
    · exact hlive i hi

end Surrounded

/-- A new entry and a new exit around a region whose exit leads back to its entry: from there,
silent edges lead around the region. -/
structure Starred (E E' : Wiring) (S : Set Nat) (s t x y : Nat) : Prop where
  fresh_entry : x ∉ S
  fresh_exit : y ∉ S
  distinct : x ≠ y
  first : E' x = [.silent s]
  last : E' y = []
  entry : E' s = E s ++ [.silent y]
  exit : E' t = [.silent s]
  rest : ∀ i ∈ S, i ≠ s → i ≠ t → E' i = E i

namespace Starred

variable {E E' : Wiring} {S : Set Nat} {s t x y i j : Nat} {w : Bytes}

theorem surrounded (h : Starred E E' S s t x y) (f : Fragment E S s {t}) :
    Surrounded E E' S s t x y where
  fresh_entry := h.fresh_entry
  distinct := h.distinct
  first := h.first
  last := h.last
  keeps i hi e he := by
    by_cases hs : i = s
    · subst hs
      rw [h.entry]
      exact List.mem_append_left _ he
    · by_cases ht : i = t
      · subst ht
        simp [f.final i rfl] at he
      · rwa [h.rest i hi hs ht]
  adds i hi e he := by
    by_cases hs : i = s
    · subst hs
      rw [h.entry, List.mem_append, List.mem_singleton] at he
      exact he.imp_right Or.inr
    · by_cases ht : i = t
      · subst ht
        rw [h.exit, List.mem_singleton] at he
        exact Or.inr (Or.inl he)
      · rw [h.rest i hi hs ht] at he
        exact Or.inl he
  back := by simp [h.exit]
  out := Or.inl (by simp [h.entry])

theorem path_of_kstar (h : Starred E E' S s t x y) (f : Fragment E S s {t})
    (hw : w ∈ (words E s t)∗) : Path E' s w y := by
  obtain ⟨us, rfl, hus⟩ := Language.mem_kstar.1 hw
  clear hw
  induction us with
  | nil => exact Path.silent (by simp [h.entry])
  | cons u us ih =>
    rw [List.flatten_cons]
    have p := (h.surrounded f).path_left f f.entry_mem (hus u (by simp))
    have back : Path E' t [] s := Path.silent (by simp [h.exit])
    exact p.trans (back.trans (ih fun v hv => hus v (List.mem_cons_of_mem u hv)))

/-- A path to the new exit goes there at once from the old entry, or it first ends the round it is
in, and complete rounds follow. -/
theorem rounds_of_path (h : Starred E E' S s t x y) (f : Fragment E S s {t}) (hi : i ∈ S)
    (p : Path E' i w y) :
    (i = s ∧ w = []) ∨
      ∃ u v, w = u ++ v ∧ Path E i u t ∧ v ∈ (words E s t)∗ := by
  obtain ⟨j, hj⟩ : ∃ j, j = y := ⟨y, rfl⟩
  rw [← hj] at p
  induction p with
  | refl => exact absurd (hj ▸ hi) h.fresh_exit
  | @step i j u w e he hu p ih =>
    by_cases hei : e ∈ E i
    · have hm := f.inner i hi e hei
      rcases ih hm.1 hj with ⟨hs, _⟩ | ⟨a, b, rfl, q, hb⟩
      · exact absurd hs hm.2
      · exact Or.inr ⟨u ++ a, b, (List.append_assoc ..).symm, Path.step e hei hu q, hb⟩
    · by_cases hs : i = s
      · subst hs
        rw [h.entry, List.mem_append, List.mem_singleton] at he
        rcases he with he | rfl
        · exact absurd he hei
        · obtain ⟨rfl, _⟩ := p.eq_of_final h.last
          exact Or.inl ⟨rfl, by rw [Edge.eq_nil_of_reads_silent hu, List.nil_append]⟩
      · by_cases ht : i = t
        · subst ht
          rw [h.exit, List.mem_singleton] at he
          subst he
          rw [Edge.eq_nil_of_reads_silent hu, List.nil_append]
          refine Or.inr ⟨[], w, rfl, Path.refl i, ?_⟩
          rcases ih f.entry_mem hj with ⟨_, rfl⟩ | ⟨a, b, rfl, q, hb⟩
          · exact Language.nil_mem_kstar _
          · exact append_mem_kstar q hb
        · rw [h.rest i hi hs ht] at he
          exact absurd he hei

theorem words_eq (h : Starred E E' S s t x y) (f : Fragment E S s {t}) :
    words E' x y = (words E s t)∗ := by
  ext w
  constructor
  · intro p
    cases p with
    | refl => exact absurd rfl h.distinct
    | step e he hu p =>
      rw [h.first, List.mem_singleton] at he
      subst he
      rw [Edge.eq_nil_of_reads_silent hu, List.nil_append]
      rcases h.rounds_of_path f f.entry_mem p with ⟨_, rfl⟩ | ⟨a, b, rfl, q, hb⟩
      · exact Language.nil_mem_kstar _
      · exact append_mem_kstar q hb
  · intro hw
    have p : Path E' x [] s := Path.silent (by simp [h.first])
    exact p.trans (h.path_of_kstar f hw)

end Starred

/-- A new entry and a new exit around a region whose exit leads back to its entry. -/
structure Repeated (E E' : Wiring) (S : Set Nat) (s t x y : Nat) : Prop where
  fresh_entry : x ∉ S
  fresh_exit : y ∉ S
  distinct : x ≠ y
  first : E' x = [.silent s]
  last : E' y = []
  exit : E' t = [.silent y, .silent s]
  rest : ∀ i ∈ S, i ≠ t → E' i = E i

namespace Repeated

variable {E E' : Wiring} {S : Set Nat} {s t x y i j : Nat} {w : Bytes}

theorem surrounded (h : Repeated E E' S s t x y) (f : Fragment E S s {t}) :
    Surrounded E E' S s t x y where
  fresh_entry := h.fresh_entry
  distinct := h.distinct
  first := h.first
  last := h.last
  keeps i hi e he := by
    by_cases ht : i = t
    · subst ht
      simp [f.final i rfl] at he
    · rwa [h.rest i hi ht]
  adds i hi e he := by
    by_cases ht : i = t
    · subst ht
      rw [h.exit, List.mem_cons, List.mem_singleton] at he
      exact Or.inr he.symm
    · rw [h.rest i hi ht] at he
      exact Or.inl he
  back := by simp [h.exit]
  out := Or.inr (by simp [h.exit])

theorem path_of_rounds (h : Repeated E E' S s t x y) (f : Fragment E S s {t}) {u v : Bytes}
    (p : Path E s u t) (hv : v ∈ (words E s t)∗) : Path E' s (u ++ v) y := by
  obtain ⟨us, rfl, hus⟩ := Language.mem_kstar.1 hv
  clear hv
  induction us generalizing u with
  | nil =>
    rw [List.flatten_nil]
    exact ((h.surrounded f).path_left f f.entry_mem p).trans (h.surrounded f).path_out
  | cons v us ih =>
    have back : Path E' t [] s := Path.silent (by simp [h.exit])
    have rest := ih (hus v (List.mem_cons_self ..)) fun w hw => hus w (List.mem_cons_of_mem v hw)
    exact ((h.surrounded f).path_left f f.entry_mem p).trans (back.trans rest)

/-- A path to the new exit ends the round it is in, and complete rounds follow. -/
theorem rounds_of_path (h : Repeated E E' S s t x y) (f : Fragment E S s {t}) (hi : i ∈ S)
    (p : Path E' i w y) : ∃ u v, w = u ++ v ∧ Path E i u t ∧ v ∈ (words E s t)∗ := by
  obtain ⟨j, hj⟩ : ∃ j, j = y := ⟨y, rfl⟩
  rw [← hj] at p
  induction p with
  | refl => exact absurd (hj ▸ hi) h.fresh_exit
  | @step i j u w e he hu p ih =>
    by_cases ht : i = t
    · subst ht
      rw [h.exit, List.mem_cons, List.mem_singleton] at he
      have hu : u = [] := by rcases he with rfl | rfl <;> exact Edge.eq_nil_of_reads_silent hu
      subst hu
      refine ⟨[], w, rfl, Path.refl i, ?_⟩
      rcases he with rfl | rfl
      · obtain ⟨rfl, _⟩ := p.eq_of_final h.last
        exact Language.nil_mem_kstar _
      · obtain ⟨a, b, rfl, q, hb⟩ := ih f.entry_mem hj
        exact append_mem_kstar q hb
    · rw [h.rest i hi ht] at he
      obtain ⟨a, b, rfl, q, hb⟩ := ih (f.inner i hi e he).1 hj
      exact ⟨u ++ a, b, (List.append_assoc ..).symm, Path.step e he hu q, hb⟩

theorem words_eq (h : Repeated E E' S s t x y) (f : Fragment E S s {t}) :
    words E' x y = words E s t * (words E s t)∗ := by
  ext w
  constructor
  · intro p
    cases p with
    | refl => exact absurd rfl h.distinct
    | step e he hu p =>
      rw [h.first, List.mem_singleton] at he
      subst he
      rw [Edge.eq_nil_of_reads_silent hu, List.nil_append]
      obtain ⟨a, b, rfl, q, hb⟩ := h.rounds_of_path f f.entry_mem p
      exact Language.append_mem_mul q hb
  · intro hw
    obtain ⟨u, hu, v, hv, rfl⟩ := Language.mem_mul.1 hw
    have p : Path E' x [] s := Path.silent (by simp [h.first])
    exact p.trans (h.path_of_rounds f hu hv)

end Repeated

/-- A silent edge from the entry of a region to its exit. -/
structure Bypassed (E E' : Wiring) (S : Set Nat) (s t : Nat) : Prop where
  entry : E' s = E s ++ [.silent t]
  rest : ∀ i ∈ S, i ≠ s → E' i = E i

namespace Bypassed

variable {E E' : Wiring} {S : Set Nat} {s t i j : Nat} {w : Bytes}

theorem subset (h : Bypassed E E' S s t) (hi : i ∈ S) {e : Edge} (he : e ∈ E i) : e ∈ E' i := by
  by_cases hs : i = s
  · subst hs
    rw [h.entry]
    exact List.mem_append_left _ he
  · rwa [h.rest i hi hs]

theorem path_left (h : Bypassed E E' S s t) (f : Fragment E S s {t}) (hi : i ∈ S)
    (p : Path E i w j) : Path E' i w j :=
  f.path_mono (fun _ hm _ he => h.subset hm he) hi p

theorem path_inner (h : Bypassed E E' S s t) (f : Fragment E S s {t}) (hi : i ∈ S \ {s}) :
    Path E' i w j ↔ Path E i w j :=
  Path.congr (fun m hm => h.rest m hm.1 hm.2) (fun m hm e he => f.inner m hm.1 e he) hi

theorem final (h : Bypassed E E' S s t) (f : Fragment E S s {t}) : E' t = [] := by
  rw [h.rest t (f.exits_sub rfl) fun hs => f.entry_not_exit hs.symm, f.final t rfl]

theorem words_eq (h : Bypassed E E' S s t) (f : Fragment E S s {t}) :
    words E' s t = 1 + words E s t := by
  ext w
  constructor
  · intro p
    cases p with
    | refl => exact absurd rfl f.entry_not_exit
    | step e he hu p =>
      rw [h.entry, List.mem_append, List.mem_singleton] at he
      rcases he with he | rfl
      · have hm := f.inner s f.entry_mem e he
        exact Or.inr (Path.step e he hu ((h.path_inner f hm).1 p))
      · obtain ⟨rfl, _⟩ := p.eq_of_final (h.final f)
        exact Or.inl (by rw [Edge.eq_nil_of_reads_silent hu]; rfl)
  · rintro (rfl | p)
    · exact Path.silent (by simp [h.entry])
    · exact h.path_left f f.entry_mem p

theorem fragment (h : Bypassed E E' S s t) (f : Fragment E S s {t}) : Fragment E' S s {t} where
  entry_mem := f.entry_mem
  exits_sub := f.exits_sub
  entry_not_exit := f.entry_not_exit
  inner i hi e he := by
    by_cases hs : i = s
    · subst hs
      rw [h.entry, List.mem_append, List.mem_singleton] at he
      rcases he with he | rfl
      · exact f.inner i hi e he
      · exact ⟨f.exits_sub rfl, fun ht => f.entry_not_exit ht.symm⟩
    · rw [h.rest i hi hs] at he
      exact f.inner i hi e he
  final i hi := by rw [Set.mem_singleton_iff.1 hi, h.final f]
  live i hi := by
    obtain ⟨j, hj, w, p⟩ := f.live i hi
    exact ⟨j, hj, w, h.path_left f hi p⟩

end Bypassed

end MaximalMunch
