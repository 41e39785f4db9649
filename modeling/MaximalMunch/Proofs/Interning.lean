import MaximalMunch.Byte
import MaximalMunch.Proofs.ByteSet
import MaximalMunch.Proofs.Lists

/-! Numbering by first appearance. Known values keep their numbers, different values have different
ones, and new numbers are handed out in ascending order. -/

namespace MaximalMunch

variable {α : Type}

/-- Every known value keeps its number. -/
def Extends (known known' : Array α) : Prop :=
  ∀ (i : Nat) (v : α), known[i]? = some v → known'[i]? = some v

/-- No value has two numbers. -/
def Distinct (known : Array α) : Prop :=
  ∀ (i j : Nat) (v : α), known[i]? = some v → known[j]? = some v → i = j

theorem Extends.refl (known : Array α) : Extends known known := fun _ _ h => h

theorem Extends.trans {a b c : Array α} (hab : Extends a b) (hbc : Extends b c) : Extends a c :=
  fun i v h => hbc i v (hab i v h)

theorem Extends.size_le {a b : Array α} (h : Extends a b) : a.size ≤ b.size := by
  by_contra hlt
  have hb : b.size < a.size := by omega
  have := h b.size _ (Array.getElem?_eq_getElem hb)
  simp at this

theorem extends_push (known : Array α) (v : α) : Extends known (known.push v) := by
  intro i u h
  have hi := (Array.getElem?_eq_some_iff.1 h).1
  rw [Array.getElem?_push_lt hi, ← h, Array.getElem?_eq_getElem hi]

theorem distinct_empty : Distinct (#[] : Array α) := by
  intro i j v hi
  simp at hi

theorem Distinct.push {known : Array α} {v : α} (h : Distinct known) (hv : v ∉ known) :
    Distinct (known.push v) := by
  have hnew : ∀ (i : Nat) (u : α), (known.push v)[i]? = some u →
      (i = known.size ∧ u = v) ∨ known[i]? = some u := by
    intro i u hi
    rw [Array.getElem?_push] at hi
    split at hi
    · exact Or.inl ⟨‹_›, (Option.some.inj hi).symm⟩
    · exact Or.inr hi
  intro i j u hi hj
  rcases hnew i u hi with ⟨rfl, rfl⟩ | hi <;> rcases hnew j _ hj with ⟨rfl, hu⟩ | hj
  · rfl
  · exact absurd (Array.mem_of_getElem? hj) hv
  · exact absurd (hu ▸ Array.mem_of_getElem? hi) hv
  · exact h i j u hi hj

section Rel

variable {β : Type} {R R' : α → β → Prop} {x : Option α} {y : Option β}

theorem rel_some_right {b : β} : Option.Rel R x (some b) ↔ ∃ a, x = some a ∧ R a b := by
  cases x with
  | none => simp
  | some a => simp

theorem rel_none_right : Option.Rel R x none ↔ x = none := by
  cases x with
  | none => simp
  | some a => simp

theorem rel_mono (h : ∀ a b, R a b → R' a b) (hxy : Option.Rel R x y) : Option.Rel R' x y := by
  cases hxy with
  | none => exact Option.Rel.none
  | some hab => exact Option.Rel.some (h _ _ hab)

end Rel

/-- The numbers of some values, of which those that are none get none: from `known` on, the values
known grow to `known'`. -/
structure Numbers (known known' : Array α) (values : List (Option α))
    (numbers : List (Option Nat)) : Prop where
  grows : Extends known known'
  distinct : Distinct known → Distinct known'
  names : List.Forall₂ (Option.Rel fun v i => known'[i]? = some v) values numbers
  new : ∀ i, known.size ≤ i → i < known'.size → some i ∈ numbers
  ordered : ∀ (k i : Nat), numbers[k]? = some (some i) →
    ∀ d, known.size ≤ d → d < i → ∃ j < k, numbers[j]? = some (some d)

namespace Numbers

variable {known known' : Array α} {values : List (Option α)} {numbers : List (Option Nat)}

theorem nil (known : Array α) : Numbers known known [] [] where
  grows := Extends.refl known
  distinct := id
  names := List.Forall₂.nil
  new i hi hlt := absurd hlt (by omega)
  ordered k i h := by simp at h

theorem none (h : Numbers known known' values numbers) :
    Numbers known known' (none :: values) (none :: numbers) where
  grows := h.grows
  distinct := h.distinct
  names := List.Forall₂.cons Option.Rel.none h.names
  new i hi hlt := List.mem_cons_of_mem _ (h.new i hi hlt)
  ordered k i hk d hd hlt := by
    cases k with
    | zero => simp at hk
    | succ k =>
      obtain ⟨j, hj, hjd⟩ := h.ordered k i hk d hd hlt
      exact ⟨j + 1, by omega, hjd⟩

end Numbers

section Intern

variable [BEq α] [LawfulBEq α]

/-- A value is known already, or it gets the next number. -/
theorem intern_cases (known : Array α) (v : α) :
    ((intern known v).2 = known ∧ known[(intern known v).1]? = some v) ∨
      ((intern known v).2 = known.push v ∧ (intern known v).1 = known.size ∧ v ∉ known) := by
  unfold intern
  split
  · rename_i i h
    obtain ⟨hi, hv, _⟩ := Array.findIdx?_eq_some_iff_getElem.1 h
    exact Or.inl ⟨rfl, by rw [Array.getElem?_eq_getElem hi, eq_of_beq hv]⟩
  · rename_i h
    rw [Array.findIdx?_eq_none_iff] at h
    exact Or.inr ⟨rfl, rfl, fun hv => by simpa using h v hv⟩

theorem intern_extends (known : Array α) (v : α) : Extends known (intern known v).2 := by
  rcases intern_cases known v with ⟨hk, _⟩ | ⟨hk, _⟩
  · rw [hk]
    exact Extends.refl known
  · rw [hk]
    exact extends_push known v

theorem getElem?_intern (known : Array α) (v : α) :
    (intern known v).2[(intern known v).1]? = some v := by
  rcases intern_cases known v with ⟨hk, hv⟩ | ⟨hk, hi, _⟩
  · rw [hk, hv]
  · rw [hk, hi, Array.getElem?_push_size]

theorem intern_distinct {known : Array α} (h : Distinct known) (v : α) :
    Distinct (intern known v).2 := by
  rcases intern_cases known v with ⟨hk, _⟩ | ⟨hk, _, hv⟩
  · rwa [hk]
  · rw [hk]
    exact h.push hv

theorem intern_le (known : Array α) (v : α) : (intern known v).1 ≤ known.size := by
  rcases intern_cases known v with ⟨_, hv⟩ | ⟨_, hi, _⟩
  · exact Nat.le_of_lt (Array.getElem?_eq_some_iff.1 hv).1
  · omega

/-- Only the former size can be a new number. -/
theorem eq_intern_of_new {known : Array α} {v : α} {d : Nat} (hd : known.size ≤ d)
    (hlt : d < (intern known v).2.size) : d = (intern known v).1 := by
  rcases intern_cases known v with ⟨hk, _⟩ | ⟨hk, hi, _⟩
  · rw [hk] at hlt
    omega
  · rw [hk, Array.size_push] at hlt
    omega

theorem Numbers.some {known known' : Array α} {values : List (Option α)}
    {numbers : List (Option Nat)} {v : α} (h : Numbers (intern known v).2 known' values numbers) :
    Numbers known known' (some v :: values) (some (intern known v).1 :: numbers) := by
  have hname := h.grows _ _ (getElem?_intern known v)
  have hle := intern_le known v
  constructor
  · exact (intern_extends known v).trans h.grows
  · exact fun hd => h.distinct (intern_distinct hd v)
  · exact List.Forall₂.cons (Option.Rel.some hname) h.names
  · intro i hi hlt
    by_cases hnew : i < (intern known v).2.size
    · rw [eq_intern_of_new hi hnew]
      exact List.mem_cons_self ..
    · exact List.mem_cons_of_mem _ (h.new i (by omega) hlt)
  · intro k i hk d hd hlt
    cases k with
    | zero =>
      simp only [List.getElem?_cons_zero, Option.some.injEq] at hk
      omega
    | succ k =>
      by_cases hnew : d < (intern known v).2.size
      · exact ⟨0, by omega, by simp [eq_intern_of_new hd hnew]⟩
      · obtain ⟨j, hj, hjd⟩ := h.ordered k i hk d (by omega) hlt
        exact ⟨j + 1, by omega, hjd⟩

theorem internAll_numbers (known : Array α) (l : List α) :
    Numbers known (internAll known l).2 (l.map some) ((internAll known l).1.map some) := by
  induction l generalizing known with
  | nil => exact Numbers.nil known
  | cons v l ih => exact Numbers.some (ih (intern known v).2)

/-! ## Numbering from nothing -/

/-- Every number in a list comes behind all smaller ones. -/
def Growing (l : List Nat) : Prop :=
  ∀ (k i : Nat), l[k]? = some i → ∀ d < i, ∃ j < k, l[j]? = some d

variable {l : List α} {j k : Nat}

theorem length_internAll (known : Array α) (l : List α) :
    (internAll known l).1.length = l.length := by
  have h := (internAll_numbers known l).names.length_eq
  simpa using h.symm

theorem getElem?_internAll {v : α} (known : Array α) (h : l[k]? = some v) :
    ∃ i, (internAll known l).1[k]? = some i ∧ (internAll known l).2[i]? = some v := by
  have hk : k < l.length := (List.getElem?_eq_some_iff.1 h).1
  have hk' : k < (internAll known l).1.length := by rwa [length_internAll]
  have hrel := (internAll_numbers known l).names.get (by simpa using hk) (by simpa using hk')
  simp only [List.get_eq_getElem, List.getElem_map, Option.rel_some_some] at hrel
  refine ⟨_, List.getElem?_eq_getElem hk', ?_⟩
  rw [hrel, ← h, List.getElem?_eq_getElem hk]

theorem internAll_growing (l : List α) : Growing (internAll #[] l).1 := by
  intro k i hk d hd
  obtain ⟨j, hj, hjd⟩ := (internAll_numbers #[] l).ordered k i (by simp [hk]) d (Nat.zero_le _) hd
  exact ⟨j, hj, by simpa using hjd⟩

/-- Equal values, and no others, get equal numbers. -/
theorem internAll_eq_iff (hj : j < l.length) (hk : k < l.length) :
    (internAll #[] l).1[j]? = (internAll #[] l).1[k]? ↔ l[j] = l[k] := by
  obtain ⟨i, hi, hvi⟩ := getElem?_internAll #[] (List.getElem?_eq_getElem hj)
  obtain ⟨i', hi', hvi'⟩ := getElem?_internAll #[] (List.getElem?_eq_getElem hk)
  rw [hi, hi', Option.some.injEq]
  constructor
  · rintro rfl
    exact Option.some.inj (hvi.symm.trans hvi')
  · intro h
    exact (internAll_numbers #[] l).distinct distinct_empty i i' l[j] hvi (h ▸ hvi')

end Intern

/-! ## Classes of bytes -/

theorem Byte.getElem?_all (b : UInt8) : Byte.all[b.toNat]? = some b := by
  have hb : b.toNat < 256 := b.toNat_lt
  simp [Byte.all, hb]

namespace ByteClasses

/-- The classes are those of a key. Each byte is represented by the smallest byte of its class, and
these ascend with the numbers of the classes. -/
structure Represents {α : Type} (classes : ByteClasses) (key : UInt8 → α) : Prop where
  smallest : ∀ b, ∃ c, classes.smallest[classes.get b]? = some c ∧ key c = key b ∧ c ≤ b
  get : ∀ (k : Nat) (c : UInt8), classes.smallest[k]? = some c → classes.get c = k
  ascending : classes.smallest.Pairwise (· < ·)

variable {α : Type} [BEq α] [LawfulBEq α] (key : UInt8 → α)

/-- The class of a byte carries the number of its key. -/
private theorem exists_class (b : UInt8) :
    ∃ i, (internAll #[] (Byte.all.map key)).1[b.toNat]? = some i ∧ (ofKey key).get b = i ∧
      (internAll #[] (Byte.all.map key)).2[i]? = some (key b) := by
  obtain ⟨i, hi, hv⟩ := getElem?_internAll (l := Byte.all.map key) (v := key b) #[] (k := b.toNat)
    (by simp [Byte.getElem?_all])
  refine ⟨i, hi, ?_, hv⟩
  simp [ofKey, get, hi]

/-- The smallest byte of a class is where its number appears first. -/
private theorem getElem?_smallest {i : Nat} (hi : i < (internAll #[] (Byte.all.map key)).2.size) :
    ∃ c : UInt8, (ofKey key).smallest[i]? = some c ∧
      c.toNat = (internAll #[] (Byte.all.map key)).1.idxOf i ∧
      (internAll #[] (Byte.all.map key)).1[c.toNat]? = some i := by
  have hmem : i ∈ (internAll #[] (Byte.all.map key)).1 := by
    simpa using (internAll_numbers #[] (Byte.all.map key)).new i (Nat.zero_le i) hi
  have hlt := List.idxOf_lt_length_of_mem hmem
  have hlen : (internAll #[] (Byte.all.map key)).1.length = UInt8.size := by
    rw [length_internAll]
    simp [Byte.all, UInt8.size]
  have hc : (UInt8.ofNat ((internAll #[] (Byte.all.map key)).1.idxOf i)).toNat =
      (internAll #[] (Byte.all.map key)).1.idxOf i := UInt8.toNat_ofNat_of_lt (by omega)
  refine ⟨_, ?_, hc, ?_⟩
  · simp [ofKey, hi]
  · rw [hc, List.getElem?_eq_getElem hlt, List.getElem_idxOf]

omit [LawfulBEq α] in
private theorem length_smallest : (ofKey key).smallest.length =
    (internAll #[] (Byte.all.map key)).2.size := by
  simp [ofKey]

theorem ofKey_represents : (ofKey key).Represents key := by
  constructor
  · intro b
    obtain ⟨i, hclass, hget, hknown⟩ := exists_class key b
    obtain ⟨c, hc, hidx, hclass'⟩ := getElem?_smallest key (Array.getElem?_eq_some_iff.1 hknown).1
    obtain ⟨i', hi', _, hknown'⟩ := exists_class key c
    have heq : i' = i := Option.some.inj (hi'.symm.trans hclass')
    rw [heq, hknown, Option.some.injEq] at hknown'
    refine ⟨c, hget ▸ hc, hknown'.symm, ?_⟩
    rw [UInt8.le_iff_toNat_le, hidx]
    exact idxOf_le hclass
  · intro k c h
    have hk := (List.getElem?_eq_some_iff.1 h).1
    obtain ⟨d, hd, _, hclass⟩ := getElem?_smallest key (length_smallest key ▸ hk)
    have hcd : c = d := Option.some.inj (h.symm.trans hd)
    subst hcd
    obtain ⟨i, hi, hget, _⟩ := exists_class key c
    rw [hget]
    exact Option.some.inj (hi.symm.trans hclass)
  · rw [List.pairwise_iff_getElem]
    intro i j hi hj hij
    obtain ⟨c, hc, hidx, _⟩ := getElem?_smallest key (length_smallest key ▸ hi)
    obtain ⟨d, hd, _, hclass⟩ := getElem?_smallest key (length_smallest key ▸ hj)
    obtain ⟨k, hk, hki⟩ := internAll_growing (Byte.all.map key) _ _ hclass i hij
    rw [List.getElem?_eq_getElem hi, Option.some.injEq] at hc
    rw [List.getElem?_eq_getElem hj, Option.some.injEq] at hd
    rw [hc, hd, UInt8.lt_iff_toNat_lt, hidx]
    have := idxOf_le hki
    omega

end ByteClasses

end MaximalMunch
