import Mathlib

/-! Places in lists, lists without doubles, lists with separators, and steps taken along a list;
steps taken round after round until they cannot be taken any more. -/

namespace MaximalMunch

/-- The last one of several lists stands behind the last separator. -/
theorem intercalate_concat {α : Type} {sep l : List α} {ls : List (List α)} (h : ls ≠ []) :
    sep.intercalate (ls ++ [l]) = sep.intercalate ls ++ (sep ++ l) := by
  induction ls with
  | nil => exact absurd rfl h
  | cons k ls ih =>
    cases ls with
    | nil => simp [List.intercalate]
    | cons k' ls =>
      have htail := ih (List.cons_ne_nil k' ls)
      rw [List.cons_append] at htail
      rw [List.cons_append, List.cons_append, List.intercalate_cons_cons, htail,
        List.intercalate_cons_cons]
      simp only [List.append_assoc]

/-- A list is cut at the first place of a separator. -/
theorem append_cons_inj_of_first {α : Type} {l l' r r' : List α} {x : α} (h : x ∉ l) (h' : x ∉ l') :
    l ++ x :: r = l' ++ x :: r' ↔ l = l' ∧ r = r' := by
  induction l generalizing l' with
  | nil =>
    cases l' with
    | nil => simp
    | cons y l' =>
      rw [List.mem_cons, not_or] at h'
      simp [h'.1]
  | cons y l ih =>
    rw [List.mem_cons, not_or] at h
    cases l' with
    | nil => simp [Ne.symm h.1]
    | cons y' l' =>
      rw [List.mem_cons, not_or] at h'
      rw [List.cons_append, List.cons_append, List.cons.injEq, ih h.2 h'.2, List.cons.injEq,
        and_assoc]

/-- A list is cut at the last place of a separator. -/
theorem append_cons_inj_of_last {α : Type} {l l' r r' : List α} {x : α} (h : x ∉ r) (h' : x ∉ r') :
    l ++ x :: r = l' ++ x :: r' ↔ l = l' ∧ r = r' := by
  have hcut : r.reverse ++ x :: l.reverse = r'.reverse ++ x :: l'.reverse ↔
      r.reverse = r'.reverse ∧ l.reverse = l'.reverse :=
    append_cons_inj_of_first (mt List.mem_reverse.1 h) (mt List.mem_reverse.1 h')
  rw [List.reverse_inj, List.reverse_inj, and_comm] at hcut
  rw [← hcut, ← List.reverse_inj]
  simp

/-- When a partial function has a value on all members of a list, `filterMap` keeps their places. -/
theorem getElem?_filterMap_of_isSome {α β : Type} {f : α → Option β} {l : List α}
    (h : ∀ a ∈ l, (f a).isSome = true) (k : Nat) : (l.filterMap f)[k]? = l[k]?.bind f := by
  induction l generalizing k with
  | nil => simp
  | cons a l ih =>
    obtain ⟨b, hb⟩ := Option.isSome_iff_exists.1 (h a (List.mem_cons_self ..))
    rw [List.filterMap_cons_some hb]
    cases k with
    | zero => simp [hb]
    | succ k => simpa using ih (fun a ha => h a (List.mem_cons_of_mem _ ha)) k

/-- Where nothing is left out, each result stands at the place of what it was made from. -/
theorem forall₂_filterMap {α β : Type} {R : β → α → Prop} {f : α → Option β} {l : List α}
    (h : ∀ a ∈ l, ∃ b, f a = some b ∧ R b a) : List.Forall₂ R (l.filterMap f) l := by
  induction l with
  | nil => exact .nil
  | cons a l ih =>
    obtain ⟨b, hb, hR⟩ := h a (List.mem_cons_self ..)
    rw [List.filterMap_cons_some hb]
    exact .cons hR (ih fun a' ha' => h a' (List.mem_cons_of_mem a ha'))

/-- In a list without repetitions, a member has one place. -/
theorem idxOf?_eq_some_iff_getElem? {l : List Nat} (hl : l.Nodup) {a k : Nat} :
    l.idxOf? a = some k ↔ l[k]? = some a := by
  rw [List.idxOf?, List.findIdx?_eq_some_iff_getElem, List.getElem?_eq_some_iff]
  constructor
  · rintro ⟨hk, ha, _⟩
    exact ⟨hk, by simpa using ha⟩
  · rintro ⟨hk, ha⟩
    refine ⟨hk, by simpa using ha, fun j hj hja => ?_⟩
    have hja : l[j] = l[k] := by simpa [ha] using hja
    have := hl.getElem_inj_iff.1 hja
    omega

theorem idxOf_le {α : Type} [BEq α] [LawfulBEq α] {l : List α} {k : Nat} {v : α}
    (h : l[k]? = some v) : l.idxOf v ≤ k := by
  obtain ⟨hk, hv⟩ := List.getElem?_eq_some_iff.1 h
  by_contra hlt
  have := List.not_of_lt_findIdx (Nat.lt_of_not_le hlt)
  simp [hv] at this

/-- In an ascending list that leaves out no smaller number, each number is its own place. -/
theorem eq_of_getElem?_of_ascending {l : List Nat} (hl : l.Pairwise (· < ·))
    (hdown : ∀ n ∈ l, ∀ m < n, m ∈ l) {k n : Nat} (h : l[k]? = some n) : n = k := by
  have hlt : ∀ i j m n : Nat, l[i]? = some m → l[j]? = some n → i < j → m < n := by
    intro i j m n hi hj hij
    obtain ⟨hi', rfl⟩ := List.getElem?_eq_some_iff.1 hi
    obtain ⟨hj', rfl⟩ := List.getElem?_eq_some_iff.1 hj
    exact List.pairwise_iff_getElem.1 hl i j hi' hj' hij
  induction k using Nat.strongRecOn generalizing n with
  | ind k ih =>
    rcases Nat.lt_trichotomy n k with hnk | heq | hkn
    · have hn : n < l.length := Nat.lt_trans hnk (List.getElem?_eq_some_iff.1 h).1
      have hself := List.getElem?_eq_getElem hn
      have := hlt n k _ n hself h hnk
      have := ih n hnk hself
      omega
    · exact heq
    · obtain ⟨j, hj⟩ := List.getElem?_of_mem (hdown n (List.mem_of_getElem? h) k hkn)
      rcases Nat.lt_trichotomy j k with hjk | rfl | hkj
      · have := ih j hjk hj
        omega
      · rw [h, Option.some.injEq] at hj
        omega
      · have := hlt k j n k h hj hkj
        omega

/-- Conditions that agree on the members of a list are first met at one place. -/
theorem findIdx_congr {α : Type} {p q : α → Bool} {l : List α} (h : ∀ x ∈ l, p x = q x) :
    l.findIdx p = l.findIdx q := by
  induction l with
  | nil => rfl
  | cons x l ih =>
    rw [List.findIdx_cons, List.findIdx_cons, h x List.mem_cons_self,
      ih fun y hy => h y (List.mem_cons_of_mem x hy)]

theorem nodup_eraseDups {α : Type} [BEq α] [LawfulBEq α] (l : List α) : l.eraseDups.Nodup := by
  induction hn : l.length using Nat.strongRecOn generalizing l with
  | ind n ih =>
    cases l with
    | nil => exact List.nodup_nil
    | cons a l =>
      rw [List.eraseDups_cons, List.nodup_cons, List.mem_eraseDups]
      have hle := List.length_filter_le (fun b => !b == a) l
      exact ⟨by simp, ih _ (by rw [← hn, List.length_cons]; omega) _ rfl⟩

/-- What each step keeps holds when all steps have succeeded. -/
theorem foldlM_some_keeps {α σ : Type} {P : σ → Prop} {step? : σ → α → Option σ} {l : List α}
    {s last : σ} (hstep : ∀ s a next, P s → step? s a = some next → P next) (hs : P s)
    (h : l.foldlM step? s = some last) : P last := by
  induction l generalizing s with
  | nil =>
    cases h
    exact hs
  | cons a l ih =>
    obtain ⟨next, hnext, hrest⟩ := Option.bind_eq_some_iff.1 h
    exact ih (hstep s a next hs hnext) hrest

/-! ## Rounds

A step that makes something smaller is taken only so often. -/

/-- A step is taken so many times in a row, and then it cannot be taken any more. -/
inductive RunsOut {σ : Type} (step? : σ → Option σ) : Nat → σ → σ → Prop
  | stop {s : σ} : step? s = none → RunsOut step? 0 s s
  | step {s next last : σ} {n : Nat} : step? s = some next → RunsOut step? n next last →
      RunsOut step? (n + 1) s last

namespace RunsOut

variable {σ : Type} {step? : σ → Option σ} {s last : σ} {n : Nat} {P : σ → Prop}

/-- A step that keeps a property and makes the state smaller runs out. By then it has been taken at
most so often as the state has become smaller. -/
theorem exists_of_shrinks (size : σ → Nat)
    (h : ∀ s next, P s → step? s = some next → P next ∧ size next < size s) (hs : P s) :
    ∃ n last, RunsOut step? n s last ∧ P last ∧ n + size last ≤ size s := by
  induction hsize : size s using Nat.strongRecOn generalizing s with
  | ind k ih =>
    cases hstep : step? s with
    | none => exact ⟨0, s, .stop hstep, hs, by omega⟩
    | some next =>
      obtain ⟨hnext, hlt⟩ := h s next hs hstep
      obtain ⟨n, last, hrest, hlast, hle⟩ := ih (size next) (hsize ▸ hlt) hnext rfl
      exact ⟨n + 1, last, .step hstep hrest, hlast, by omega⟩

/-- In the end the step cannot be taken. -/
theorem stopped (r : RunsOut step? n s last) : step? last = none := by
  induction r with
  | stop hstop => exact hstop
  | step _ _ ih => exact ih

end RunsOut

end MaximalMunch
