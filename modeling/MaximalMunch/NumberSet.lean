/-! Finite sets of natural numbers as ascending lists, so that equal sets are equal values and
large numbers take no more room than small ones. -/

namespace MaximalMunch

/-- A finite set of numbers, its members listed in strictly ascending order. -/
@[ext]
structure NumberSet where
  items : List Nat
  ascending : items.Pairwise (· < ·) := by simp

namespace NumberSet

instance : BEq NumberSet := ⟨fun s t => s.items == t.items⟩

instance : LawfulBEq NumberSet where
  eq_of_beq h := NumberSet.ext (eq_of_beq h)
  rfl {s} := beq_self_eq_true s.items

instance : DecidableEq NumberSet := fun s t =>
  decidable_of_iff (s.items = t.items) NumberSet.ext_iff.symm

/-- Merges two ascending lists, a number of both kept once. -/
def merge : List Nat → List Nat → List Nat
  | [], ys => ys
  | x :: xs, [] => x :: xs
  | x :: xs, y :: ys =>
    if x < y then x :: merge xs (y :: ys)
    else if y < x then y :: merge (x :: xs) ys
    else x :: merge xs ys
termination_by xs ys => xs.length + ys.length

theorem mem_merge (n : Nat) (xs ys : List Nat) : n ∈ merge xs ys ↔ n ∈ xs ∨ n ∈ ys := by
  fun_induction merge xs ys with
  | case1 ys => simp
  | case2 x xs => simp
  | case3 x xs y ys _ ih => rw [List.mem_cons, ih, ← or_assoc, ← List.mem_cons]
  | case4 x xs y ys _ _ ih => rw [List.mem_cons, ih, or_left_comm, ← List.mem_cons]
  | case5 x xs y ys hle hge ih =>
    obtain rfl : x = y := Nat.le_antisymm (Nat.le_of_not_lt hge) (Nat.le_of_not_lt hle)
    rw [List.mem_cons, ih, or_or_distrib_left, ← List.mem_cons, ← List.mem_cons]

/-- What is below the first of ascending numbers is below them all. -/
theorem lt_of_mem_cons {m n x : Nat} {xs : List Nat} (hlt : m < x)
    (h : (x :: xs).Pairwise (· < ·)) (hn : n ∈ x :: xs) : m < n := by
  rcases List.mem_cons.1 hn with rfl | hn
  · exact hlt
  · exact Nat.lt_trans hlt (List.rel_of_pairwise_cons h hn)

theorem merge_ascending (xs ys : List Nat) (hx : xs.Pairwise (· < ·))
    (hy : ys.Pairwise (· < ·)) : (merge xs ys).Pairwise (· < ·) := by
  fun_induction merge xs ys with
  | case1 ys => exact hy
  | case2 x xs => exact hx
  | case3 x xs y ys hlt ih =>
    obtain ⟨hfirst, hrest⟩ := List.pairwise_cons.1 hx
    refine List.pairwise_cons.2 ⟨fun n hn => ?_, ih hrest hy⟩
    rcases (mem_merge n xs (y :: ys)).1 hn with hn | hn
    · exact hfirst n hn
    · exact lt_of_mem_cons hlt hy hn
  | case4 x xs y ys _ hlt ih =>
    obtain ⟨hfirst, hrest⟩ := List.pairwise_cons.1 hy
    refine List.pairwise_cons.2 ⟨fun n hn => ?_, ih hx hrest⟩
    rcases (mem_merge n (x :: xs) ys).1 hn with hn | hn
    · exact lt_of_mem_cons hlt hx hn
    · exact hfirst n hn
  | case5 x xs y ys hle hge ih =>
    obtain rfl : x = y := Nat.le_antisymm (Nat.le_of_not_lt hge) (Nat.le_of_not_lt hle)
    obtain ⟨hfirst, hrest⟩ := List.pairwise_cons.1 hx
    obtain ⟨hfirst', hrest'⟩ := List.pairwise_cons.1 hy
    refine List.pairwise_cons.2 ⟨fun n hn => ?_, ih hrest hrest'⟩
    exact ((mem_merge n xs ys).1 hn).elim (hfirst n) (hfirst' n)

def empty : NumberSet := { items := [] }

instance : EmptyCollection NumberSet := ⟨empty⟩
instance : Inhabited NumberSet := ⟨empty⟩

def union (s t : NumberSet) : NumberSet :=
  ⟨merge s.items t.items, merge_ascending s.items t.items s.ascending t.ascending⟩

instance : Union NumberSet := ⟨union⟩

def singleton (n : Nat) : NumberSet := { items := [n] }

def insert (n : Nat) (s : NumberSet) : NumberSet := singleton n ∪ s

def ofList (numbers : List Nat) : NumberSet := numbers.foldl (fun s n => s.insert n) empty

def contains (s : NumberSet) (n : Nat) : Bool := s.items.contains n

instance : Membership Nat NumberSet := ⟨fun s n => n ∈ s.items⟩

instance (n : Nat) (s : NumberSet) : Decidable (n ∈ s) :=
  inferInstanceAs (Decidable (n ∈ s.items))

theorem mem_def {s : NumberSet} {n : Nat} : n ∈ s ↔ n ∈ s.items := Iff.rfl

@[simp]
theorem contains_iff {s : NumberSet} {n : Nat} : s.contains n = true ↔ n ∈ s := by
  simp [contains, mem_def]

@[simp]
theorem mem_union {s t : NumberSet} {n : Nat} : n ∈ s ∪ t ↔ n ∈ s ∨ n ∈ t :=
  mem_merge n s.items t.items

@[simp]
theorem mem_singleton {m n : Nat} : n ∈ singleton m ↔ n = m := by simp [singleton, mem_def]

@[simp]
theorem mem_insert {s : NumberSet} {m n : Nat} : n ∈ s.insert m ↔ n = m ∨ n ∈ s := by
  simp [insert]

/-- The members, ascending. -/
def toList (s : NumberSet) : List Nat := s.items

def isEmpty (s : NumberSet) : Bool := s.items.isEmpty

def size (s : NumberSet) : Nat := s.items.length

/-- The smallest member. -/
def first? (s : NumberSet) : Option Nat := s.items.head?

/-- Sets are ordered by their ascending members, a shorter list before those that continue it. -/
instance : Ord NumberSet := ⟨fun s t => compare s.items t.items⟩

/-- The members in braces, separated by commas. -/
def text (s : NumberSet) : String :=
  "\x7b" ++ String.intercalate ", " (s.items.map toString) ++ "\x7d"

end NumberSet

end MaximalMunch
