import MaximalMunch.Proofs.Compile

/-! The bytes that a match can begin with and those that it can end with, read off the pattern. A
pattern read backwards reads its words backwards, so what holds of the ends follows from what holds
of the beginnings. -/

namespace MaximalMunch

open Computability

namespace Pattern

variable {p : Pattern} {text : String} {w : Bytes} {b : UInt8}

/-- Whether the component of a pattern may be passed without reading. -/
def skippable : Pattern → Bool
  | .atom s => s.isEmpty
  | .seq l r => skippable l && skippable r
  | .alt l r => skippable l || skippable r
  | .quantified .plus p => skippable p
  | .quantified _ _ => true

/-- The bytes that may be read first. -/
def firstBytes : Pattern → ByteSet
  | .atom s => s
  | .seq l r => if skippable l then firstBytes l ∪ firstBytes r else firstBytes l
  | .alt l r => firstBytes l ∪ firstBytes r
  | .quantified _ p => firstBytes p

/-- The pattern read backwards. -/
def mirror : Pattern → Pattern
  | .atom s => .atom s
  | .seq l r => .seq (mirror r) (mirror l)
  | .alt l r => .alt (mirror l) (mirror r)
  | .quantified q p => .quantified q (mirror p)

/-- The bytes that may be read last. -/
def lastBytes (p : Pattern) : ByteSet := p.mirror.firstBytes

theorem mem_reading_atom {s : ByteSet} :
    w ∈ (Pattern.atom s).reading ↔ (s = ∅ ∧ w = []) ∨ ∃ b ∈ s, w = [b] := by
  show w ∈ s.labelWords ↔ _
  by_cases hs : s = ∅
  · have hwords : s.labelWords = 1 := if_pos hs
    rw [hwords, Language.mem_one]
    simp [hs]
  · have hwords : s.labelWords = {w | ∃ b ∈ s, w = [b]} := if_neg hs
    rw [hwords]
    exact (or_iff_right fun h => hs h.1).symm

theorem skippable_of_nil (h : [] ∈ p.reading) : p.skippable = true := by
  induction p with
  | atom s =>
    rcases mem_reading_atom.1 h with ⟨hs, -⟩ | ⟨b, _, hb⟩
    · exact ByteSet.isEmpty_iff.2 hs
    · cases hb
  | seq l r ihl ihr =>
    obtain ⟨u, hu, v, hv, huv⟩ := Language.mem_mul.1 h
    obtain ⟨rfl, rfl⟩ := List.append_eq_nil_iff.1 huv
    rw [skippable, ihl hu, ihr hv]
    rfl
  | alt l r ihl ihr =>
    rw [skippable, Bool.or_eq_true]
    exact h.imp ihl ihr
  | quantified q p ih =>
    cases q with
    | star => rfl
    | optional => rfl
    | plus =>
      obtain ⟨u, hu, v, _, huv⟩ := Language.mem_mul.1 h
      obtain ⟨rfl, -⟩ := List.append_eq_nil_iff.1 huv
      exact ih hu

/-- A word of a repetition begins as some word that is repeated. -/
theorem exists_of_mem_kstar {L : Language UInt8} (h : b :: w ∈ L∗) : ∃ v, b :: v ∈ L := by
  obtain ⟨parts, hparts, hmem⟩ := Language.mem_kstar_iff_exists_nonempty.1 h
  cases parts with
  | nil => cases hparts
  | cons part parts =>
    obtain ⟨hpart, hne⟩ := hmem part List.mem_cons_self
    cases part with
    | nil => exact absurd rfl hne
    | cons c v =>
      rw [List.flatten_cons, List.cons_append, List.cons.injEq] at hparts
      exact ⟨v, hparts.1 ▸ hpart⟩

theorem mem_firstBytes (h : b :: w ∈ p.reading) : b ∈ p.firstBytes := by
  induction p generalizing w with
  | atom s =>
    rcases mem_reading_atom.1 h with ⟨-, hw⟩ | ⟨c, hc, hw⟩
    · cases hw
    · cases hw
      exact hc
  | seq l r ihl ihr =>
    obtain ⟨u, hu, v, hv, huv⟩ := Language.mem_mul.1 h
    rw [firstBytes]
    cases u with
    | nil =>
      rw [if_pos (skippable_of_nil hu), ByteSet.mem_union]
      obtain rfl : v = b :: w := huv
      exact Or.inr (ihr hv)
    | cons c u =>
      obtain ⟨rfl, -⟩ := List.cons.inj huv
      have hc := ihl hu
      split
      · exact ByteSet.mem_union.2 (Or.inl hc)
      · exact hc
  | alt l r ihl ihr => exact ByteSet.mem_union.2 (h.imp ihl ihr)
  | quantified q p ih =>
    cases q with
    | star =>
      obtain ⟨v, hv⟩ := exists_of_mem_kstar h
      exact ih hv
    | plus =>
      have hle : p.reading * p.reading∗ ≤ p.reading∗ := mul_kstar_le_kstar
      obtain ⟨v, hv⟩ := exists_of_mem_kstar (hle h)
      exact ih hv
    | optional =>
      rcases h with hnil | hv
      · cases hnil
      · exact ih hv

theorem reading_mirror (p : Pattern) : p.mirror.reading = p.reading.reverse := by
  induction p with
  | atom s =>
    ext w
    rw [Language.mem_reverse, mirror, mem_reading_atom, mem_reading_atom]
    simp [List.reverse_eq_iff]
  | seq l r ihl ihr =>
    show r.mirror.reading * l.mirror.reading = (l.reading * r.reading).reverse
    rw [ihl, ihr, Language.reverse_mul]
  | alt l r ihl ihr =>
    show l.mirror.reading + r.mirror.reading = (l.reading + r.reading).reverse
    rw [ihl, ihr, Language.reverse_add]
  | quantified q p ih =>
    cases q with
    | star =>
      show p.mirror.reading∗ = p.reading∗.reverse
      rw [ih, Language.reverse_kstar]
    | plus =>
      show p.mirror.reading * p.mirror.reading∗ = (p.reading * p.reading∗).reverse
      rw [ih, Language.reverse_mul, Language.reverse_kstar, Language.mul_self_kstar_comm]
    | optional =>
      show 1 + p.mirror.reading = (1 + p.reading).reverse
      rw [ih, Language.reverse_add, Language.reverse_one]

theorem mem_lastBytes (h : w ++ [b] ∈ p.reading) : b ∈ p.lastBytes := by
  refine mem_firstBytes (w := w.reverse) ?_
  rw [reading_mirror, Language.mem_reverse]
  simpa using h

/-! ## Written patterns -/

/-- The bytes that a match of a written pattern may begin with. -/
def textFirst (text : String) : ByteSet := ((read (bytesOf text)).toOption.map firstBytes).getD ∅

/-- The bytes that a match of a written pattern may end with. -/
def textLast (text : String) : ByteSet := ((read (bytesOf text)).toOption.map lastBytes).getD ∅

theorem exists_read_of_textMatches (h : textMatches text w = true) :
    ∃ p, read (bytesOf text) = .ok p ∧ w ∈ p.reading := by
  cases hread : read (bytesOf text) with
  | error failure =>
    rw [textMatches, parse, hread] at h
    cases h
  | ok p =>
    rw [textMatches_of_read hread, nfa_isMatch_iff] at h
    exact ⟨p, rfl, h⟩

theorem mem_textFirst (h : textMatches text (b :: w) = true) : b ∈ textFirst text := by
  obtain ⟨p, hread, hp⟩ := exists_read_of_textMatches h
  rw [textFirst, hread]
  exact mem_firstBytes hp

theorem mem_textLast (h : textMatches text (w ++ [b]) = true) : b ∈ textLast text := by
  obtain ⟨p, hread, hp⟩ := exists_read_of_textMatches h
  rw [textLast, hread]
  exact mem_lastBytes hp

end Pattern

end MaximalMunch
