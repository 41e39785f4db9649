import MaximalMunch.Dfa.Minimal
import MaximalMunch.Proofs.Canonical
import MaximalMunch.Proofs.Interning

/-! Colours of states. Refinement stops at the coarsest colouring that the transitions respect: two
states have one colour just if the same is observed of every word read from them. -/

namespace MaximalMunch.Dfa

variable {d : Dfa} {colors next : Coloring} {bytes : Bytes} {q r : Nat}

/-- What is seen of a word read from a state: nothing if a transition is missing, else whether the
state it leads to accepts, and its priority. -/
def observe (d : Dfa) (q : Nat) (w : Bytes) : Option (Bool × Priority) :=
  (d.walk? q w).map fun r => (d.isAccept r, d.priority r)

theorem observe_cons (b : UInt8) (w : Bytes) :
    d.observe q (b :: w) = (d.step? q b).bind fun r => d.observe r w := by
  simp only [observe, walk?]
  cases d.step? q b <;> rfl

/-- States that are observed alike take a byte to states that are observed alike, or have no
transition for it. -/
theorem step?_of_observe (h : ∀ w, d.observe q w = d.observe r w) (b : UInt8) :
    Option.Rel (fun x y => ∀ w, d.observe x w = d.observe y w) (d.step? q b) (d.step? r b) := by
  have hcons : ∀ w, ((d.step? q b).bind fun x => d.observe x w) =
      (d.step? r b).bind fun y => d.observe y w := by
    intro w
    rw [← observe_cons, ← observe_cons, h]
  cases hq : d.step? q b with
  | none =>
    cases hr : d.step? r b with
    | none => exact Option.Rel.none
    | some y => simpa [hq, hr, observe, walk?] using hcons []
  | some x =>
    cases hr : d.step? r b with
    | none => simpa [hq, hr, observe, walk?] using hcons []
    | some y => exact Option.Rel.some fun w => by simpa [hq, hr] using hcons w

theorem rel_imp {R S : Nat → Nat → Prop} {x y : Option Nat} (h : Option.Rel R x y)
    (himp : ∀ q r, x = some q → y = some r → R q r → S q r) : Option.Rel S x y := by
  cases h with
  | none => exact .none
  | some hqr => exact .some (himp _ _ rfl rfl hqr)

theorem rel_iff_map_eq {f : Nat → Nat} {x y : Option Nat} :
    Option.Rel (fun q r => f q = f r) x y ↔ x.map f = y.map f := by
  cases x <;> cases y <;> simp

/-- The colour of a state. -/
def colorOf (colors : Coloring) (q : Nat) : Nat := colors.getD q 0

/-- Colours are numbered by their first states, states of one colour accept alike, and states that
are observed alike have one colour. -/
structure Colors (d : Dfa) (colors : Coloring) : Prop where
  size : colors.size = d.size
  growing : Growing colors.toList
  tells : ∀ q < d.size, ∀ r < d.size, colorOf colors q = colorOf colors r →
    d.isAccept q = d.isAccept r ∧ d.priority q = d.priority r
  merges : ∀ q < d.size, ∀ r < d.size, (∀ w, d.observe q w = d.observe r w) →
    colorOf colors q = colorOf colors r

/-- States of one colour are taken by each of the bytes to states of one colour. -/
def StableUnder (d : Dfa) (bytes : Bytes) (colors : Coloring) : Prop :=
  ∀ q < d.size, ∀ r < d.size, colorOf colors q = colorOf colors r →
    ∀ b ∈ bytes, (d.step? q b).map (colorOf colors) = (d.step? r b).map (colorOf colors)

theorem getElem?_toList (h : q < colors.size) : colors.toList[q]? = some (colorOf colors q) := by
  simp [colorOf, h]

/-! ## Colouring by a key -/

section Key

variable {α : Type} [BEq α] [LawfulBEq α] {n : Nat} {key : Nat → α}

/-- The colouring of so many states by a key. -/
def colorBy (n : Nat) (key : Nat → α) : Coloring :=
  (internAll #[] ((List.range n).map key)).1.toArray

theorem size_colorBy : (colorBy n key).size = n := by simp [colorBy, length_internAll]

theorem colorBy_growing : Growing (colorBy n key).toList := internAll_growing _

/-- States with equal keys, and no others, have equal colours. -/
theorem colorOf_colorBy_eq_iff (hq : q < n) (hr : r < n) :
    colorOf (colorBy n key) q = colorOf (colorBy n key) r ↔ key q = key r := by
  have hlen := length_internAll #[] ((List.range n).map key)
  rw [List.length_map, List.length_range] at hlen
  have h := internAll_eq_iff (l := (List.range n).map key) (j := q) (k := r) (by simpa using hq)
    (by simpa using hr)
  rw [List.getElem?_eq_getElem (by omega), List.getElem?_eq_getElem (by omega),
    Option.some.injEq, List.getElem_map, List.getElem_map, List.getElem_range,
    List.getElem_range] at h
  rw [← h]
  simp [colorOf, colorBy, hlen, hq, hr]

end Key

theorem state?_of_lt (hq : q < d.states.size) : d.state? q = some d.states[q] :=
  Array.getElem?_eq_getElem hq

theorem coarseColoring_eq :
    d.coarseColoring = colorBy d.size fun q => (d.isAccept q, d.priority q) := by
  have hkeys : (d.states.toList.map fun s => (s.tag.isAccept, s.priority)) =
      (List.range d.size).map fun q => (d.isAccept q, d.priority q) := by
    refine List.ext_getElem (by simp [size]) fun q hq _ => ?_
    have hlt : q < d.size := by simpa [size] using hq
    simp only [List.getElem_map, List.getElem_range, isAccept, priority, state?_of_lt hlt]
    rfl
  rw [coarseColoring, hkeys]
  rfl

theorem coarseColoring_colors (d : Dfa) : d.Colors d.coarseColoring := by
  rw [coarseColoring_eq]
  refine ⟨size_colorBy, colorBy_growing, fun q hq r hr h => ?_, fun q hq r hr h => ?_⟩
  · rwa [colorOf_colorBy_eq_iff hq hr, Prod.mk.injEq] at h
  · rw [colorOf_colorBy_eq_iff hq hr]
    exact Option.some.inj (h [])

/-! ## Recolouring -/

/-- What recolouring looks at: the colour of a state and the colours that bytes lead to. -/
def keyOf (d : Dfa) (bytes : Bytes) (colors : Coloring) (q : Nat) : List (Option Nat) :=
  some (colorOf colors q) :: bytes.map fun b => (d.step? q b).map (colorOf colors)

theorem recolor_eq : d.recolor bytes colors = colorBy d.size (d.keyOf bytes colors) := by
  have hkeys : (d.states.toList.zipIdx.map fun x =>
        some (colors.getD x.2 0) :: bytes.map fun b => (x.1.row.get? b).map (colors.getD · 0)) =
      (List.range d.size).map (d.keyOf bytes colors) := by
    refine List.ext_getElem (by simp [size]) fun q hq _ => ?_
    have hlt : q < d.size := by simpa [size] using hq
    simp only [List.getElem_map, List.getElem_range, List.getElem_zipIdx, keyOf, step?,
      state?_of_lt hlt, Nat.zero_add]
    rfl
  exact congrArg (fun keys => (internAll #[] keys).1.toArray) hkeys

theorem colorOf_recolor_eq_iff (hq : q < d.size) (hr : r < d.size) :
    colorOf (d.recolor bytes colors) q = colorOf (d.recolor bytes colors) r ↔
      d.keyOf bytes colors q = d.keyOf bytes colors r := by
  rw [recolor_eq, colorOf_colorBy_eq_iff hq hr]

/-- Recolouring never joins colours. -/
theorem colorOf_eq_of_recolor (hq : q < d.size) (hr : r < d.size)
    (h : colorOf (d.recolor bytes colors) q = colorOf (d.recolor bytes colors) r) :
    colorOf colors q = colorOf colors r := by
  rw [colorOf_recolor_eq_iff hq hr, keyOf, keyOf, List.cons.injEq] at h
  exact Option.some.inj h.1

theorem Colors.recolor (c : d.Colors colors)
    (target : ∀ q b r, d.step? q b = some r → r < d.size) :
    d.Colors (d.recolor bytes colors) where
  size := by rw [recolor_eq, size_colorBy]
  growing := recolor_eq ▸ colorBy_growing
  tells q hq r hr h := c.tells q hq r hr (colorOf_eq_of_recolor hq hr h)
  merges q hq r hr h := by
    rw [colorOf_recolor_eq_iff hq hr, keyOf, keyOf, c.merges q hq r hr h, List.cons.injEq]
    refine ⟨rfl, List.map_congr_left fun b _ => rel_iff_map_eq.1 ?_⟩
    exact rel_imp (step?_of_observe h b) fun x y hx hy hxy =>
      c.merges x (target q b x hx) y (target r b y hy) hxy

/-- A colouring that recolouring does not change is stable. -/
theorem stableUnder_of_recolor_eq (h : d.recolor bytes colors = colors) :
    d.StableUnder bytes colors := by
  intro q hq r hr hcolor b hb
  rw [← h, colorOf_recolor_eq_iff hq hr, keyOf, keyOf, List.cons.injEq] at hcolor
  exact List.map_inj_left.1 hcolor.2 b hb

/-! ## The fixed point -/

/-- The states that are the first of their colour. -/
def firsts (colors : Coloring) : Finset Nat :=
  (Finset.range colors.size).filter fun q => ∀ r < q, colorOf colors r ≠ colorOf colors q

theorem card_firsts_le : (firsts colors).card ≤ colors.size := by
  have h := Finset.card_filter_le (Finset.range colors.size)
    fun q => ∀ r < q, colorOf colors r ≠ colorOf colors q
  rwa [Finset.card_range] at h

section Refines

variable (hsize : next.size = colors.size) (hg : Growing colors.toList) (hg' : Growing next.toList)
  (hrefines : ∀ q < colors.size, ∀ r < colors.size, colorOf next q = colorOf next r →
    colorOf colors q = colorOf colors r)

include hsize hrefines

theorem firsts_subset : firsts colors ⊆ firsts next := by
  intro q hq
  simp only [firsts, Finset.mem_filter, Finset.mem_range] at hq ⊢
  refine ⟨hsize ▸ hq.1, fun r hr h => hq.2 r hr ?_⟩
  exact hrefines r (by omega) q hq.1 h

include hg hg'

/-- A refinement without new colours changes nothing. The induction is on the state: the first state
of a colour has the number of colours before it, others have the colour of an earlier state. -/
theorem eq_of_firsts (h : firsts next ⊆ firsts colors) : next = colors := by
  have key : ∀ q < colors.size, colorOf next q = colorOf colors q := by
    intro q
    induction q using Nat.strongRecOn with
    | ind q ih =>
      intro hq
      have hq' : q < next.size := hsize ▸ hq
      by_cases hfirst : q ∈ firsts colors
      · have hfirst' := firsts_subset hsize hrefines hfirst
        simp only [firsts, Finset.mem_filter] at hfirst hfirst'
        rcases Nat.lt_trichotomy (colorOf next q) (colorOf colors q) with hlt | heq | hgt
        · obtain ⟨r, hr, hcolor⟩ := hg q _ (getElem?_toList hq) _ hlt
          have hr' := getElem?_toList (show r < colors.size by omega)
          have heq := ih r hr (by omega)
          rw [Option.some.inj (hr'.symm.trans hcolor)] at heq
          exact absurd heq (hfirst'.2 r hr)
        · exact heq
        · obtain ⟨r, hr, hcolor⟩ := hg' q _ (getElem?_toList hq') _ hgt
          have hr' := getElem?_toList (show r < next.size by omega)
          have heq := ih r hr (by omega)
          rw [Option.some.inj (hr'.symm.trans hcolor)] at heq
          exact absurd heq.symm (hfirst.2 r hr)
      · have hnot : q ∉ firsts next := fun hmem => hfirst (h hmem)
        simp only [firsts, Finset.mem_filter, Finset.mem_range, hq', true_and, not_forall,
          not_not] at hnot
        obtain ⟨r, hr, hcolor⟩ := hnot
        rw [← hcolor, ih r hr (by omega), hrefines r (by omega) q hq hcolor]
  refine Array.ext hsize fun q hq hq' => ?_
  have hcolor := key q hq'
  simpa [colorOf, hq, hq'] using hcolor

end Refines

/-- With enough rounds, refining ends with a colouring that recolouring does not change. -/
theorem refine_spec (target : ∀ q b r, d.step? q b = some r → r < d.size) {rounds : Nat}
    (c : d.Colors colors) (hrounds : d.size < rounds + (firsts colors).card) :
    d.Colors (d.refine bytes rounds colors) ∧
      d.StableUnder bytes (d.refine bytes rounds colors) := by
  induction rounds generalizing colors with
  | zero =>
    have hle : (firsts colors).card ≤ colors.size := card_firsts_le
    rw [c.size] at hle
    omega
  | succ rounds ih =>
    rw [Dfa.refine]
    split
    · rename_i hfix
      exact ⟨c, stableUnder_of_recolor_eq hfix⟩
    · rename_i hne
      have c' : d.Colors (d.recolor bytes colors) := c.recolor target
      have hsize : (d.recolor bytes colors).size = colors.size := c'.size.trans c.size.symm
      have hrefines : ∀ q < colors.size, ∀ r < colors.size,
          colorOf (d.recolor bytes colors) q = colorOf (d.recolor bytes colors) r →
            colorOf colors q = colorOf colors r := fun q hq r hr =>
        colorOf_eq_of_recolor (c.size ▸ hq) (c.size ▸ hr)
      have hlt : (firsts colors).card < (firsts (d.recolor bytes colors)).card := by
        refine Finset.card_lt_card ⟨firsts_subset hsize hrefines, fun hsub => hne ?_⟩
        exact eq_of_firsts hsize c.growing c'.growing hrefines hsub
      exact ih c' (by omega)

/-- Every byte leads all states to where an essential byte leads them. -/
theorem exists_essential (d : Dfa) (b : UInt8) :
    ∃ c ∈ d.essentialBytes, ∀ q, d.step? q c = d.step? q b := by
  obtain ⟨c, hc, hkey, _⟩ :=
    (ByteClasses.ofKey_represents fun b => d.states.toList.map (·.row.get? b)).smallest b
  refine ⟨c, List.mem_of_getElem? hc, fun q => ?_⟩
  unfold step?
  cases hs : d.state? q with
  | none => rfl
  | some s =>
    have hmem : s ∈ d.states.toList := Array.mem_toList_iff.2 (Array.mem_of_getElem? hs)
    exact List.map_inj_left.1 hkey s hmem

/-- The stable colouring tells apart just the states that words tell apart. -/
theorem stableColoring_spec (hpos : 0 < d.size)
    (target : ∀ q b r, d.step? q b = some r → r < d.size) :
    d.Colors d.stableColoring ∧
      ∀ q < d.size, ∀ r < d.size, colorOf d.stableColoring q = colorOf d.stableColoring r →
        ∀ b, (d.step? q b).map (colorOf d.stableColoring) =
          (d.step? r b).map (colorOf d.stableColoring) := by
  have c := d.coarseColoring_colors
  have hfirst : 0 ∈ firsts d.coarseColoring := by simp [firsts, c.size, hpos]
  have hcard : 0 < (firsts d.coarseColoring).card := Finset.card_pos.2 ⟨0, hfirst⟩
  obtain ⟨c', hstable⟩ : d.Colors d.stableColoring ∧
      d.StableUnder d.essentialBytes d.stableColoring := refine_spec target c (by omega)
  refine ⟨c', fun q hq r hr hcolor b => ?_⟩
  obtain ⟨e, he, hstep⟩ := d.exists_essential b
  rw [← hstep, ← hstep, hstable q hq r hr hcolor e he]

end MaximalMunch.Dfa
