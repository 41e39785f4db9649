import MaximalMunch.NumberSet

/-! Sets of automaton nodes, packed into the bits of one number, so that equal sets are equal values
and a union reads both sets word by word. -/

namespace MaximalMunch

/-- A set of nodes: node `i` is a member when bit `i` is set. -/
@[ext]
structure NodeSet where
  bits : Nat
  deriving DecidableEq

namespace NodeSet

def contains (s : NodeSet) (i : Nat) : Bool := s.bits.testBit i

instance : Membership Nat NodeSet := ⟨fun s i => s.contains i = true⟩

instance (i : Nat) (s : NodeSet) : Decidable (i ∈ s) :=
  inferInstanceAs (Decidable (s.contains i = true))

def empty : NodeSet := ⟨0⟩

instance : EmptyCollection NodeSet := ⟨empty⟩
instance : Inhabited NodeSet := ⟨empty⟩

def singleton (i : Nat) : NodeSet := ⟨1 <<< i⟩

def union (s t : NodeSet) : NodeSet := ⟨s.bits ||| t.bits⟩

instance : Union NodeSet := ⟨union⟩

def insert (i : Nat) (s : NodeSet) : NodeSet := s ∪ singleton i

def isEmpty (s : NodeSet) : Bool := s.bits == 0

/-- The members among the 32 nodes from `32 * w` on, ascending. -/
def word (s : NodeSet) (w : Nat) : List Nat :=
  let bits := (s.bits >>> (32 * w)) % UInt32.size
  if bits = 0 then [] else ((List.range 32).filter bits.testBit).map (32 * w + ·)

/-- The members, ascending. The highest bit bounds them. -/
def toList (s : NodeSet) : List Nat := (List.range (s.bits.log2 / 32 + 1)).flatMap s.word

@[simp]
theorem contains_iff {s : NodeSet} {i : Nat} : s.contains i = true ↔ i ∈ s := Iff.rfl

@[simp]
theorem not_mem_empty (i : Nat) : ¬ i ∈ (∅ : NodeSet) := by
  show ¬ Nat.testBit 0 i = true
  simp

@[simp]
theorem mem_union {s t : NodeSet} {i : Nat} : i ∈ s ∪ t ↔ i ∈ s ∨ i ∈ t := by
  show Nat.testBit (s.bits ||| t.bits) i = true ↔ _
  rw [Nat.testBit_or, Bool.or_eq_true]
  rfl

@[simp]
theorem mem_singleton {i j : Nat} : i ∈ singleton j ↔ i = j := by
  show Nat.testBit (1 <<< j) i = true ↔ _
  rw [Nat.one_shiftLeft, Nat.testBit_two_pow, decide_eq_true_iff, eq_comm]

@[simp]
theorem mem_insert {s : NodeSet} {i j : Nat} : i ∈ s.insert j ↔ i ∈ s ∨ i = j := by
  rw [insert, mem_union, mem_singleton]

theorem mem_word {s : NodeSet} {w i : Nat} : i ∈ s.word w ↔ i ∈ s ∧ i / 32 = w := by
  have hbit : ∀ r, Nat.testBit (s.bits >>> (32 * w) % UInt32.size) r = true ↔
      r < 32 ∧ s.bits.testBit (32 * w + r) = true := by
    intro r
    rw [show UInt32.size = 2 ^ 32 from rfl, Nat.testBit_mod_two_pow, Nat.testBit_shiftRight,
      Bool.and_eq_true, decide_eq_true_iff]
  have hmem : i ∈ s.word w ↔ ∃ r, r < 32 ∧ s.bits.testBit (32 * w + r) = true ∧ 32 * w + r = i := by
    unfold word
    simp only
    split
    · rename_i h0
      rw [h0] at hbit
      simp only [List.not_mem_nil, false_iff]
      rintro ⟨r, hr, ht, _⟩
      have := (hbit r).2 ⟨hr, ht⟩
      simp at this
    · simp only [List.mem_map, List.mem_filter, List.mem_range, hbit]
      constructor
      · rintro ⟨r, ⟨hr, _, ht⟩, he⟩
        exact ⟨r, hr, ht, he⟩
      · rintro ⟨r, hr, ht, he⟩
        exact ⟨r, ⟨hr, hr, ht⟩, he⟩
  rw [hmem]
  constructor
  · rintro ⟨r, hr, ht, rfl⟩
    exact ⟨ht, by omega⟩
  · rintro ⟨ht, rfl⟩
    have he : 32 * (i / 32) + i % 32 = i := by omega
    exact ⟨i % 32, by omega, by rw [he]; exact ht, he⟩

/-- Listing a set loses no member. -/
@[simp]
theorem mem_toList {s : NodeSet} {i : Nat} : i ∈ s.toList ↔ i ∈ s := by
  simp only [toList, List.mem_flatMap, List.mem_range, mem_word]
  constructor
  · rintro ⟨_, _, h, _⟩
    exact h
  · intro h
    have hle := Nat.ge_two_pow_of_testBit h
    have hne : s.bits ≠ 0 := by
      have := Nat.two_pow_pos i
      omega
    have := (Nat.le_log2 hne).2 hle
    exact ⟨i / 32, by omega, h, rfl⟩

theorem word_ascending (s : NodeSet) (w : Nat) : (s.word w).Pairwise (· < ·) := by
  unfold word
  simp only
  split
  · exact .nil
  · rw [List.pairwise_map]
    exact (List.pairwise_lt_range.filter _).imp fun h => Nat.add_lt_add_left h _

theorem toList_ascending (s : NodeSet) : s.toList.Pairwise (· < ·) := by
  rw [toList, List.pairwise_flatMap]
  refine ⟨fun w _ => s.word_ascending w, List.pairwise_lt_range.imp fun hw i hi j hj => ?_⟩
  have := (mem_word.1 hi).2
  have := (mem_word.1 hj).2
  omega

/-- The members as a set of numbers. -/
def toNumbers (s : NodeSet) : NumberSet := ⟨s.toList, s.toList_ascending⟩

end NodeSet

end MaximalMunch
