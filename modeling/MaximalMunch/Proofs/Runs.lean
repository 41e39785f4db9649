import MaximalMunch.Proofs.ByteSet

/-! The runs of a byte set. They are maximal: between any two of them a byte is missing. There is
one such list of runs for a set. -/

namespace MaximalMunch.ByteSet

/-- A run is given by its first and its last byte. -/
abbrev Runs := List (UInt8 × UInt8)

namespace Runs

variable {rs rs' after : Runs} {b c lo hi : UInt8} {l : Bytes} {s : ByteSet}

/-- Ascending runs that do not touch. -/
structure Separated (rs : Runs) : Prop where
  ordered : ∀ x ∈ rs, x.1.toNat ≤ x.2.toNat
  apart : rs.Pairwise fun x y => x.2.toNat + 1 < y.1.toNat

/-- The bytes in the runs. -/
def Covers (rs : Runs) (b : UInt8) : Prop := ∃ x ∈ rs, x.1.toNat ≤ b.toNat ∧ b.toNat ≤ x.2.toNat

theorem separated_nil : Separated [] := ⟨by simp, .nil⟩

theorem separated_cons : Separated ((lo, hi) :: rs) ↔
    lo.toNat ≤ hi.toNat ∧ (∀ x ∈ rs, hi.toNat + 1 < x.1.toNat) ∧ Separated rs := by
  constructor
  · rintro ⟨hordered, hapart⟩
    rw [List.forall_mem_cons] at hordered
    rw [List.pairwise_cons] at hapart
    exact ⟨hordered.1, hapart.1, hordered.2, hapart.2⟩
  · rintro ⟨hle, hgap, hordered, hapart⟩
    exact ⟨List.forall_mem_cons.2 ⟨hle, hordered⟩, List.pairwise_cons.2 ⟨hgap, hapart⟩⟩

theorem separated_append : Separated (rs ++ rs') ↔
    Separated rs ∧ Separated rs' ∧ ∀ x ∈ rs, ∀ y ∈ rs', x.2.toNat + 1 < y.1.toNat := by
  constructor
  · rintro ⟨hordered, hapart⟩
    rw [List.forall_mem_append] at hordered
    rw [List.pairwise_append] at hapart
    exact ⟨⟨hordered.1, hapart.1⟩, ⟨hordered.2, hapart.2.1⟩, hapart.2.2⟩
  · rintro ⟨h, h', hgap⟩
    exact ⟨List.forall_mem_append.2 ⟨h.ordered, h'.ordered⟩,
      List.pairwise_append.2 ⟨h.apart, h'.apart, hgap⟩⟩

theorem not_covers_nil : ¬ Covers [] b := by
  rintro ⟨x, hx, _⟩
  cases hx

theorem covers_cons : Covers ((lo, hi) :: rs) b ↔
    (lo.toNat ≤ b.toNat ∧ b.toNat ≤ hi.toNat) ∨ Covers rs b := by
  simp only [Covers, List.mem_cons, or_and_right, exists_or, exists_eq_left]

theorem covers_append : Covers (rs ++ rs') b ↔ Covers rs b ∨ Covers rs' b := by
  simp only [Covers, List.mem_append, or_and_right, exists_or]

/-! ## Building them -/

/-- A byte in front of all runs begins them, alone or as part of the first. -/
theorem addRun_spec (h : Separated rs) (hb : ∀ x ∈ rs, b.toNat < x.1.toNat) :
    Separated (addRun b rs) ∧ ∀ c, Covers (addRun b rs) c ↔ c = b ∨ Covers rs c := by
  have hself : ∀ c : UInt8, (b.toNat ≤ c.toNat ∧ c.toNat ≤ b.toNat) ↔ c = b := by
    intro c
    rw [← UInt8.toNat_inj]
    omega
  cases rs with
  | nil =>
    refine ⟨separated_cons.2 ⟨Nat.le_refl _, by simp, separated_nil⟩, fun c => ?_⟩
    exact covers_cons.trans (or_congr_left (hself c))
  | cons x rs =>
    obtain ⟨lo, hi⟩ := x
    have hlt : b.toNat < lo.toNat := hb (lo, hi) List.mem_cons_self
    obtain ⟨hle, hgap, hrest⟩ := separated_cons.1 h
    rw [addRun]
    split
    · rename_i hnext
      refine ⟨separated_cons.2 ⟨by omega, hgap, hrest⟩, fun c => ?_⟩
      rw [covers_cons, covers_cons, ← or_assoc, ← UInt8.toNat_inj]
      exact or_congr_left (by omega)
    · rename_i hnext
      refine ⟨separated_cons.2 ⟨Nat.le_refl _, ?_, h⟩, fun c => ?_⟩
      · rintro y (_ | ⟨_, hy⟩)
        · show b.toNat + 1 < lo.toNat
          omega
        · have := hgap y hy
          omega
      · exact covers_cons.trans (or_congr_left (hself c))

/-- The runs of ascending bytes are separated and cover just these. -/
theorem foldr_addRun_spec (h : l.Pairwise (· < ·)) :
    Separated (l.foldr addRun []) ∧ ∀ c, Covers (l.foldr addRun []) c ↔ c ∈ l := by
  induction l with
  | nil => exact ⟨separated_nil, fun c => iff_of_false not_covers_nil (List.not_mem_nil)⟩
  | cons b l ih =>
    obtain ⟨hfirst, hrest⟩ := List.pairwise_cons.1 h
    obtain ⟨hsep, hcovers⟩ := ih hrest
    have hbelow : ∀ x ∈ l.foldr addRun [], b.toNat < x.1.toNat := by
      intro x hx
      have hmem := (hcovers x.1).1 ⟨x, hx, Nat.le_refl _, hsep.ordered x hx⟩
      exact UInt8.lt_iff_toNat_lt.1 (hfirst x.1 hmem)
    obtain ⟨hsep', hcovers'⟩ := addRun_spec hsep hbelow
    refine ⟨hsep', fun c => (hcovers' c).trans ?_⟩
    rw [hcovers, List.mem_cons]

theorem runs_separated (s : ByteSet) : Separated s.runs := (foldr_addRun_spec s.toList_ascending).1

theorem covers_runs : Covers s.runs b ↔ b ∈ s :=
  ((foldr_addRun_spec s.toList_ascending).2 b).trans mem_toList

/-! ## Uniqueness -/

/-- The first byte of separated runs is the least one they cover. -/
theorem Separated.first_le (h : Separated ((lo, hi) :: rs)) (hb : Covers ((lo, hi) :: rs) b) :
    lo.toNat ≤ b.toNat := by
  obtain ⟨hle, hgap, _⟩ := separated_cons.1 h
  rcases covers_cons.1 hb with ⟨hlo, _⟩ | ⟨x, hx, hlo, _⟩
  · exact hlo
  · have := hgap x hx
    omega

/-- What is covered next to the first run is part of it. -/
theorem Separated.le_last (h : Separated ((lo, hi) :: rs)) (hb : Covers ((lo, hi) :: rs) b)
    (hnext : b.toNat ≤ hi.toNat + 1) : b.toNat ≤ hi.toNat := by
  obtain ⟨_, hgap, _⟩ := separated_cons.1 h
  rcases covers_cons.1 hb with ⟨_, hhi⟩ | ⟨x, hx, hlo, _⟩
  · exact hhi
  · have := hgap x hx
    omega

theorem Separated.covers_tail (h : Separated ((lo, hi) :: rs)) :
    Covers rs b ↔ Covers ((lo, hi) :: rs) b ∧ hi.toNat < b.toNat := by
  obtain ⟨_, hgap, _⟩ := separated_cons.1 h
  rw [covers_cons]
  constructor
  · rintro ⟨x, hx, hlo, hhi⟩
    have := hgap x hx
    exact ⟨Or.inr ⟨x, hx, hlo, hhi⟩, by omega⟩
  · rintro ⟨⟨_, hhi⟩ | htail, hlt⟩
    · omega
    · exact htail

/-- A run that begins where another one does is not longer, if the other is maximal. -/
theorem Separated.last_le {hi' : UInt8} (h : Separated ((lo, hi) :: rs))
    (hcovers : ∀ b, Covers ((lo, hi') :: rs') b → Covers ((lo, hi) :: rs) b) :
    hi'.toNat ≤ hi.toNat := by
  by_contra hlt
  have hlo := (separated_cons.1 h).1
  have hmax := hi'.toNat_lt
  have hnext : (UInt8.ofNat (hi.toNat + 1)).toNat = hi.toNat + 1 :=
    UInt8.toNat_ofNat_of_lt (show hi.toNat + 1 < 256 by omega)
  have hcovered := hcovers (UInt8.ofNat (hi.toNat + 1))
    (covers_cons.2 (Or.inl (by rw [hnext]; omega)))
  have := h.le_last hcovered (by rw [hnext])
  omega

/-- Separated runs that cover the same bytes are the same. -/
theorem Separated.unique (h : Separated rs) (h' : Separated rs')
    (hcovers : ∀ b, Covers rs b ↔ Covers rs' b) : rs = rs' := by
  induction rs generalizing rs' with
  | nil =>
    cases rs' with
    | nil => rfl
    | cons y rs' =>
      have hle := h'.ordered y List.mem_cons_self
      have hy := (hcovers y.1).2 ⟨y, List.mem_cons_self, Nat.le_refl _, hle⟩
      exact absurd hy not_covers_nil
  | cons x rs ih =>
    cases rs' with
    | nil =>
      have hle := h.ordered x List.mem_cons_self
      have hx := (hcovers x.1).1 ⟨x, List.mem_cons_self, Nat.le_refl _, hle⟩
      exact absurd hx not_covers_nil
    | cons y rs' =>
      obtain ⟨lo, hi⟩ := x
      obtain ⟨lo', hi'⟩ := y
      -- Both first runs begin with the least byte covered and end before the next one missing.
      have hx : Covers ((lo, hi) :: rs) lo :=
        covers_cons.2 (Or.inl ⟨Nat.le_refl _, (separated_cons.1 h).1⟩)
      have hy : Covers ((lo', hi') :: rs') lo' :=
        covers_cons.2 (Or.inl ⟨Nat.le_refl _, (separated_cons.1 h').1⟩)
      obtain rfl : lo = lo' := UInt8.toNat_inj.1 (Nat.le_antisymm
        (h.first_le ((hcovers lo').2 hy)) (h'.first_le ((hcovers lo).1 hx)))
      obtain rfl : hi = hi' := UInt8.toNat_inj.1 (Nat.le_antisymm
        (h'.last_le fun b => (hcovers b).1) (h.last_le fun b => (hcovers b).2))
      have htail : ∀ b, Covers rs b ↔ Covers rs' b := by
        intro b
        rw [h.covers_tail, h'.covers_tail, hcovers]
      rw [ih (separated_cons.1 h).2.2 (separated_cons.1 h').2.2 htail]

/-- Separated runs that cover the members of a set are its runs. -/
theorem runs_eq (h : Separated rs) (hcovers : ∀ b, Covers rs b ↔ b ∈ s) : s.runs = rs :=
  (runs_separated s).unique h fun b => covers_runs.trans (hcovers b).symm

end Runs

end MaximalMunch.ByteSet
