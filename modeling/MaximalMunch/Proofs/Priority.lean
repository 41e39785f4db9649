import Mathlib
import MaximalMunch.Tag

/-! The best of several priorities. -/

namespace MaximalMunch.Priority

/-- The best of some priorities: the smallest that is set, or none if none is set. -/
def IsBest (among : Priority → Prop) : Priority → Prop
  | none => among none ∧ ∀ n, ¬ among (some n)
  | some n => among (some n) ∧ ∀ m, among (some m) → n ≤ m

theorem IsBest.among {among : Priority → Prop} {p : Priority} (h : IsBest among p) : among p := by
  cases p with
  | none => exact h.1
  | some n => exact h.1

theorem IsBest.unique {among : Priority → Prop} {p p' : Priority} (h : IsBest among p)
    (h' : IsBest among p') : p = p' := by
  cases p with
  | none =>
    cases p' with
    | none => rfl
    | some m => exact absurd h'.1 (h.2 m)
  | some n =>
    cases p' with
    | none => exact absurd h.1 (h'.2 n)
    | some m => rw [Nat.le_antisymm (h.2 m h'.1) (h'.2 n h.1)]

theorem IsBest.eq_some_iff {among : Priority → Prop} {p : Priority} {n : Nat}
    (h : IsBest among p) : p = some n ↔ among (some n) ∧ ∀ m, among (some m) → n ≤ m := by
  constructor
  · rintro rfl
    exact h
  · exact fun h' => (h.unique h' : p = some n)

theorem IsBest.eq_none_iff {among : Priority → Prop} {p : Priority} (h : IsBest among p) :
    p = none ↔ ∀ n, ¬ among (some n) := by
  cases p with
  | none => exact iff_of_true rfl h.2
  | some n => exact iff_of_false (by simp) fun h' => h' n h.1

theorem IsBest.congr {among among' : Priority → Prop} {p : Priority}
    (h : ∀ p, among p ↔ among' p) : IsBest among p ↔ IsBest among' p := by
  rw [funext fun p => propext (h p)]

private theorem IsBest.of_best {among : Priority → Prop} {p r s : Priority}
    (h : IsBest (fun x => x = best p r ∨ among x) s) :
    IsBest (fun x => x = p ∨ x = r ∨ among x) s := by
  cases p with
  | none => cases s <;> cases r <;> simp_all [IsBest, best]
  | some a =>
    cases r with
    | none => cases s <;> simp_all [IsBest, best]
    | some b =>
      cases s with
      | none => exact absurd (Or.inl rfl) (h.2 (min a b))
      | some n =>
        simp only [IsBest, best, Option.some.injEq] at h ⊢
        refine ⟨?_, ?_⟩
        · rcases h.1 with hn | hn
          · omega
          · exact Or.inr (Or.inr hn)
        · rintro m (rfl | rfl | hm)
          · exact Nat.le_trans (h.2 _ (Or.inl rfl)) (Nat.min_le_left _ _)
          · exact Nat.le_trans (h.2 _ (Or.inl rfl)) (Nat.min_le_right _ _)
          · exact h.2 m (Or.inr hm)

private theorem foldl_best (p : Priority) (ps : List Priority) :
    IsBest (fun x => x = p ∨ x ∈ ps) (ps.foldl best p) := by
  induction ps generalizing p with
  | nil => cases p <;> simp [IsBest]
  | cons r ps ih =>
    rw [List.foldl_cons]
    refine (IsBest.congr fun x => ?_).1 (ih (best p r)).of_best
    rw [List.mem_cons]

theorem bestOf_isBest {ps : List Priority} (h : ps ≠ []) : IsBest (· ∈ ps) (bestOf ps) := by
  cases ps with
  | nil => exact absurd rfl h
  | cons p ps =>
    have hfirst : best none p = p := by cases p <;> rfl
    rw [bestOf, List.foldl_cons, hfirst]
    exact (IsBest.congr fun x => by rw [List.mem_cons]).1 (foldl_best p ps)

end MaximalMunch.Priority
