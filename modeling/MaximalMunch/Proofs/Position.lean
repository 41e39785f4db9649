import Mathlib
import MaximalMunch.Token

/-! Positions. A cursor that steps through a source from its beginning is always in the row that
the line feeds behind it give, and knows the offset at which this row begins. -/

namespace MaximalMunch

variable {source : Bytes} {start start' offset : Nat} {firstRow : UInt64} {b : UInt8}

/-- An offset begins the row of another one: it is 0 or right behind a line feed, and from there on
no line feed comes before the other. -/
structure BeginsRow (source : Bytes) (start offset : Nat) : Prop where
  le : start ≤ offset
  front : start = 0 ∨ ∃ i, start = i + 1 ∧ source[i]? = some 10
  plain : ∀ i, start ≤ i → i < offset → source[i]? ≠ some 10

namespace BeginsRow

/-- Behind a line feed, a row begins. -/
theorem feed (h : source[offset]? = some 10) : BeginsRow source (offset + 1) (offset + 1) where
  le := Nat.le_refl _
  front := Or.inr ⟨offset, rfl, h⟩
  plain _ hi hlt := absurd (Nat.lt_of_le_of_lt hi hlt) (Nat.lt_irrefl _)

/-- Any other byte is in the row of the offset before it. -/
theorem succ (h : BeginsRow source start offset) (hne : source[offset]? ≠ some 10) :
    BeginsRow source start (offset + 1) where
  le := Nat.le_succ_of_le h.le
  front := h.front
  plain i hi hlt := by
    rcases Nat.lt_succ_iff_lt_or_eq.1 hlt with hlt | rfl
    · exact h.plain i hi hlt
    · exact hne

end BeginsRow

/-- A row and a column are those of an offset of a source: the row counts the line feeds before the
offset, and the column is how far the offset is from the beginning of its row. -/
structure IsPosition (firstRow : UInt64) (source : Bytes) (offset : Nat) (row column : UInt64) :
    Prop where
  within : offset ≤ source.length
  row : row = firstRow + UInt64.ofNat ((source.take offset).count 10)
  column : ∃ start, BeginsRow source start offset ∧ column = UInt64.ofNat (offset - start)

namespace Cursor

variable {c : Cursor}

/-- A cursor is within a source, on the row that the line feeds before it give, and it knows where
this row begins. -/
structure Locates (firstRow : UInt64) (source : Bytes) (c : Cursor) : Prop where
  within : c.pos ≤ source.length
  row : c.row = firstRow + UInt64.ofNat ((source.take c.pos).count 10)
  beginsRow : BeginsRow source c.rowStart c.pos

/-- The distance to the beginning of the row does not wrap around. -/
theorem Locates.column (h : c.Locates firstRow source) :
    c.column = UInt64.ofNat (c.pos - c.rowStart) := by
  rw [Cursor.column, UInt64.ofNat_sub h.beginsRow.le]

theorem Locates.isPosition (h : c.Locates firstRow source) :
    IsPosition firstRow source c.pos c.row c.column where
  within := h.within
  row := h.row
  column := ⟨c.rowStart, h.beginsRow, h.column⟩

theorem atStart_locates (firstRow : UInt64) (source : Bytes) :
    (atStart firstRow).Locates firstRow source where
  within := Nat.zero_le _
  row := (UInt64.add_zero firstRow).symm
  beginsRow := ⟨Nat.le_refl 0, Or.inl rfl, fun i _ hi => absurd hi (Nat.not_lt_zero i)⟩

/-- Stepping over a byte of the source counts it if it is a line feed. -/
theorem Locates.step (h : c.Locates firstRow source) (hb : source[c.pos]? = some b) :
    (c.step b).Locates firstRow source := by
  have hlt := (List.getElem?_eq_some_iff.1 hb).1
  have hcount : (source.take (c.pos + 1)).count 10 =
      (source.take c.pos).count 10 + if b = 10 then 1 else 0 := by
    rw [List.take_add_one, hb, Option.toList_some, List.count_append, List.count_singleton]
    simp only [beq_iff_eq]
  unfold Cursor.step
  split
  · rename_i hfeed
    subst hfeed
    refine ⟨hlt, ?_, .feed hb⟩
    simp only [hcount, if_true, UInt64.ofNat_add, h.row]
    exact UInt64.add_assoc ..
  · rename_i hne
    refine ⟨hlt, ?_, h.beginsRow.succ ?_⟩
    · simp only [hcount, if_neg hne, Nat.add_zero, h.row]
    · rw [hb]
      exact fun heq => hne (Option.some.inj heq)

/-- Stepping over bytes of the source counts the line feeds among them. -/
theorem Locates.advance {bytes : Bytes} (h : c.Locates firstRow source)
    (hbytes : bytes <+: source.drop c.pos) : (c.advance bytes).Locates firstRow source := by
  induction bytes generalizing c with
  | nil => exact h
  | cons b bytes ih =>
    obtain ⟨rest, hrest⟩ := hbytes
    have hb : source[c.pos]? = some b := by
      rw [← List.head?_drop, ← hrest]
      rfl
    have hpos : (c.step b).pos = c.pos + 1 := by
      unfold Cursor.step
      split <;> rfl
    refine ih (h.step hb) ⟨rest, ?_⟩
    rw [hpos, ← List.tail_drop, ← hrest]
    rfl

end Cursor

end MaximalMunch
