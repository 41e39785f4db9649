import MaximalMunch.Proofs.Canonical

/-! The longest match: the walk remembers the last accepting state it has passed, and that is the
longest accepted beginning of the input. -/

namespace MaximalMunch

variable {α : Type}

/-- The longest beginning of an input that is not too short and gets an answer, by its length and
the answer, or nothing if none does. -/
def IsLongest (least : Nat) (answers : Bytes → Option α) (input : Bytes) : Option (Nat × α) → Prop
  | none => ∀ n, least ≤ n → n ≤ input.length → answers (input.take n) = none
  | some (n, p) => least ≤ n ∧ n ≤ input.length ∧ answers (input.take n) = some p ∧
    ∀ m, n < m → m ≤ input.length → answers (input.take m) = none

namespace IsLongest

variable {least : Nat} {answers : Bytes → Option α} {input v : Bytes} {b : UInt8}
  {found found' : Option (Nat × α)}

theorem unique (h : IsLongest least answers input found)
    (h' : IsLongest least answers input found') : found = found' := by
  cases found with
  | none =>
    cases found' with
    | none => rfl
    | some x =>
      have := h x.1 h'.1 h'.2.1
      rw [h'.2.2.1] at this
      cases this
  | some x =>
    cases found' with
    | none =>
      have := h' x.1 h.1 h.2.1
      rw [h.2.2.1] at this
      cases this
    | some y =>
      obtain ⟨n, p⟩ := x
      obtain ⟨m, r⟩ := y
      rcases Nat.lt_trichotomy n m with hlt | rfl | hgt
      · have := h.2.2.2 m hlt h'.2.1
        rw [h'.2.2.1] at this
        cases this
      · rw [Option.some.inj (h.2.2.1.symm.trans h'.2.2.1)]
      · have := h'.2.2.2 n hgt h.2.1
        rw [h.2.2.1] at this
        cases this

/-- Only the beginnings of the input that are not too short matter. -/
theorem congr {answers' : Bytes → Option α} (h : IsLongest least answers input found)
    (heq : ∀ n, least ≤ n → n ≤ input.length → answers' (input.take n) = answers (input.take n)) :
    IsLongest least answers' input found := by
  cases found with
  | none =>
    intro n hn hle
    rw [heq n hn hle, h n hn hle]
  | some x =>
    obtain ⟨hleast, hle, hp, hlonger⟩ := h
    refine ⟨hleast, hle, by rw [heq _ hleast hle, hp], fun m hm hmle => ?_⟩
    rw [heq m (by omega) hmle, hlonger m hm hmle]

/-- A longest match stays one when its answer is read as something else. -/
theorem map {β : Type} (f : α → β) (h : IsLongest least answers input found) :
    IsLongest least (fun w => (answers w).map f) input (found.map fun x => (x.1, f x.2)) := by
  cases found with
  | none =>
    intro n hn hle
    exact Option.map_eq_none_iff.2 (h n hn hle)
  | some x =>
    obtain ⟨hleast, hle, hp, hlonger⟩ := h
    refine ⟨hleast, hle, congrArg _ hp, fun m hm hmle => ?_⟩
    exact Option.map_eq_none_iff.2 (hlonger m hm hmle)

/-- If nothing longer gets an answer, the longest match so far is the longest of all. -/
theorem append {rest : Bytes} (h : IsLongest least answers v found)
    (hnone : ∀ m, v.length < m → answers ((v ++ rest).take m) = none) :
    IsLongest least answers (v ++ rest) found := by
  have htake : ∀ m ≤ v.length, (v ++ rest).take m = v.take m :=
    fun m hm => List.take_append_of_le_length hm
  have hlen : v.length ≤ (v ++ rest).length := by simp
  cases found with
  | none =>
    intro m hleast _
    by_cases hm : m ≤ v.length
    · rw [htake m hm]
      exact h m hleast hm
    · exact hnone m (by omega)
  | some x =>
    obtain ⟨hleast, hn, hp, hlonger⟩ := h
    refine ⟨hleast, by omega, by rw [htake _ hn, hp], fun m hm _ => ?_⟩
    by_cases hmv : m ≤ v.length
    · rw [htake m hmv]
      exact hlonger m hm hmv
    · exact hnone m (by omega)

/-- The whole input is longer than what has been found in it before. -/
theorem snoc (h : IsLongest 0 answers v found) : IsLongest 0 answers (v ++ [b])
    ((answers (v ++ [b])).elim found fun p => some (v.length + 1, p)) := by
  have hlen : (v ++ [b]).length = v.length + 1 := by simp
  cases hp : answers (v ++ [b]) with
  | some p =>
    refine ⟨Nat.zero_le _, by omega, ?_, fun m hm hle => by omega⟩
    rw [List.take_of_length_le (by omega), hp]
  | none =>
    refine h.append fun m hm => ?_
    rw [List.take_of_length_le (by omega), hp]

end IsLongest

namespace Dfa

variable {d : Dfa} {q : Nat} {v : Bytes} {last : Option (Nat × Priority)}

/-- Noting a state notes what is answered to the word that leads to it. -/
theorem noteEnd_eq (hq : d.walk? d.start v = some q) : d.noteEnd q v.length last =
    (d.answer v).elim last fun p => some (v.length, p) := by
  rw [noteEnd, answer, answerFrom, hq, Option.bind_some]
  cases d.isAccept q <;> rfl

/-- The walk goes on from the longest match of what has been read. -/
theorem longestFrom_spec (rest : Bytes) (hq : d.walk? d.start v = some q)
    (h : IsLongest 0 d.answer v last) :
    IsLongest 0 d.answer (v ++ rest) (d.longestFrom q v.length last rest) := by
  induction rest generalizing v q last with
  | nil => rwa [List.append_nil]
  | cons b rest ih =>
    unfold longestFrom
    have hsnoc : d.walk? d.start (v ++ [b]) = d.step? q b := by
      rw [walk?_snoc, hq, Option.bind_some]
    have hsplit : v ++ b :: rest = (v ++ [b]) ++ rest := by simp
    cases hr : d.step? q b with
    | none =>
      refine h.append fun m hm => ?_
      -- All longer beginnings go through the missing transition.
      obtain ⟨k, rfl⟩ : ∃ k, m = (v ++ [b]).length + k := ⟨m - (v.length + 1), by simp; omega⟩
      rw [hsplit, List.take_length_add_append, answer]
      exact answerFrom_eq_none_of_walk? (hsnoc.trans hr)
    | some r =>
      have hr' : d.walk? d.start (v ++ [b]) = some r := hsnoc.trans hr
      have hlen : v.length + 1 = (v ++ [b]).length := by simp
      rw [hsplit]
      simp only [hlen]
      refine ih hr' ?_
      rw [noteEnd_eq hr', ← hlen]
      exact h.snoc

/-- The longest match is the longest accepted beginning of the input, with the answer to it. -/
theorem longestMatch_spec (d : Dfa) (input : Bytes) :
    IsLongest 0 d.answer input (d.longestMatch input) := by
  have hempty : IsLongest 0 d.answer [] (d.noteEnd d.start 0 none) := by
    have hnote : d.noteEnd d.start ([] : Bytes).length none =
        (d.answer []).elim none fun p => some (([] : Bytes).length, p) := noteEnd_eq rfl
    rw [List.length_nil] at hnote
    rw [hnote]
    cases hp : d.answer [] with
    | none =>
      intro n _ _
      rw [List.take_nil, hp]
    | some p =>
      refine ⟨Nat.le_refl 0, Nat.le_refl 0, hp, fun m hm hle => ?_⟩
      exact absurd hle (Nat.not_le_of_lt hm)
  exact longestFrom_spec input (v := []) rfl hempty

end Dfa

end MaximalMunch
