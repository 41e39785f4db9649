import Mathlib
import MaximalMunch.Random

/-! Random choices, whatever their source gives. A property always holds of what is chosen if the
choice can be made in every state of the source and the property holds of any result; one rule for
each way to choose pushes it through to the parts. -/

namespace MaximalMunch.Choice

variable {σ α β : Type} {s t s' : σ} {x : Choice σ α} {f : α → Choice σ β} {P : α → Prop}
  {Q : β → Prop} {a : α} {b : β}

theorem bind_eq (h : x s = some (a, t)) : (x >>= f) s = f a t := by
  show (x s).bind (fun p => f p.1 p.2) = f a t
  rw [h, Option.bind_some]

theorem bind_eq_some_iff : (x >>= f) s = some (b, s') ↔
    ∃ a t, x s = some (a, t) ∧ f a t = some (b, s') := by
  show (x s).bind (fun p => f p.1 p.2) = some (b, s') ↔ _
  rw [Option.bind_eq_some_iff, Prod.exists]

/-- The choice can be made, and the property holds of what is chosen. -/
def Always (x : Choice σ α) (P : α → Prop) : Prop := ∀ s, ∃ a s', x s = some (a, s') ∧ P a

theorem Always.mono {R : α → Prop} (h : Always x P) (hR : ∀ a, P a → R a) : Always x R := by
  intro s
  obtain ⟨a, s', hx, ha⟩ := h s
  exact ⟨a, s', hx, hR a ha⟩

theorem always_pure (h : P a) : Always (pure a : Choice σ α) P := fun s => ⟨a, s, rfl, h⟩

theorem always_bind (h : Always x fun a => Always (f a) Q) : Always (x >>= f) Q := by
  intro s
  obtain ⟨a, t, hx, hf⟩ := h s
  obtain ⟨b, s', hb, hQ⟩ := hf t
  exact ⟨b, s', (bind_eq hx).trans hb, hQ⟩

theorem always_ite {p : Prop} [Decidable p] {y : Choice σ α} (hx : p → Always x P)
    (hy : ¬ p → Always y P) : Always (if p then x else y) P := by
  split
  · exact hx ‹_›
  · exact hy ‹_›

section Source

variable (source : Source σ)

theorem always_toss {chance : Chance} {P : Bool → Prop} (h : ∀ b, P b) :
    Always (source.toss chance) P := fun _ => ⟨_, _, rfl, h _⟩

theorem always_range {lo hi : Nat} {P : Nat → Prop} (hlt : lo < hi)
    (h : ∀ i, lo ≤ i → i < hi → P i) : Always (source.range lo hi) P := by
  intro s
  have hpos : 0 < hi - lo := Nat.sub_pos_of_lt hlt
  have hbound := (source.below (hi - lo) hpos s).1.isLt
  refine ⟨_, _, by rw [Source.range, dif_pos hlt], h _ (Nat.le_add_right lo _) ?_⟩
  omega

theorem always_pick {items : List α} (hne : items ≠ []) (h : ∀ a ∈ items, P a) :
    Always (source.pick items) P := by
  intro s
  refine ⟨_, _, by rw [Source.pick, dif_pos (List.length_pos_iff.2 hne)], h _ ?_⟩
  exact List.get_mem items _

end Source

/-- What is chosen again and again always has the property. -/
theorem always_times (h : Always x P) (n : Nat) :
    Always (Choice.times n x) fun as => as.length = n ∧ ∀ a ∈ as, P a := by
  induction n with
  | zero => exact always_pure ⟨rfl, List.forall_mem_nil P⟩
  | succ n ih =>
    refine always_bind (h.mono fun a ha => always_bind (ih.mono fun as has => always_pure ⟨?_, ?_⟩))
    · rw [List.length_cons, has.1]
    · exact List.forall_mem_cons.2 ⟨ha, has.2⟩

/-- Where one is chosen at least, what is chosen is not empty. -/
theorem always_range_times (source : Source σ) {n : Nat} {f : List α → Choice σ β} (hn : 1 < n)
    (h : Always x P) (hf : ∀ as, as ≠ [] → (∀ a ∈ as, P a) → Always (f as) Q) :
    Always (do let count ← source.range 1 n; let as ← Choice.times count x; f as) Q := by
  refine always_bind (always_range source hn fun count hcount _ => ?_)
  refine always_bind ((always_times h count).mono fun as has => hf as ?_ has.2)
  exact List.ne_nil_of_length_pos (has.1 ▸ hcount)

end MaximalMunch.Choice
