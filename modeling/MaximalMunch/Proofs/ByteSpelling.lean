import Mathlib
import MaximalMunch.Byte

/-! The spelling of bytes. It can be read back byte by byte, so a text spells one list of bytes. -/

namespace MaximalMunch.Byte

/-- The value of a lower-case hexadecimal digit. -/
def digitValue (c : Char) : Nat := if c ≤ '9' then c.toNat - 48 else c.toNat - 87

/-- The byte spelled behind a backslash, and the text behind it. -/
def readEscape? : List Char → Option (UInt8 × List Char)
  | 'x' :: high :: low :: rest =>
    some (UInt8.ofNat (16 * digitValue high + digitValue low), rest)
  | 't' :: rest => some (9, rest)
  | 'r' :: rest => some (13, rest)
  | 'n' :: rest => some (10, rest)
  | c :: rest => some (c.toUInt8, rest)
  | [] => none

/-- The byte spelled at the front of a text, and the text behind it. -/
def read? : List Char → Option (UInt8 × List Char)
  | c :: rest => if c = '\\' then readEscape? rest else some (c.toUInt8, rest)
  | [] => none

theorem digitValue_digitChar {n : Nat} (hn : n < 16) : digitValue (Nat.digitChar n) = n := by
  revert n
  decide

theorem toUInt8_ofUInt8 (b : UInt8) : (Char.ofUInt8 b).toUInt8 = b := by
  simp [Char.ofUInt8, Char.toUInt8]

theorem readEscape?_hexDigits (b : UInt8) (rest : List Char) :
    readEscape? ('x' :: hexDigits b ++ rest) = some (b, rest) := by
  have hb : b.toNat < 256 := b.toNat_lt
  show some (UInt8.ofNat (16 * digitValue (Nat.digitChar (b.toNat / 16)) +
    digitValue (Nat.digitChar (b.toNat % 16))), rest) = _
  rw [digitValue_digitChar (by omega), digitValue_digitChar (by omega), Nat.div_add_mod,
    UInt8.ofNat_toNat]

/-- What is spelled is read. -/
theorem read?_spelling (b : UInt8) (rest : List Char) :
    read? (spelling b ++ rest) = some (b, rest) := by
  unfold spelling
  split_ifs with htab hreturn hfeed hquote hprintable
  · subst htab
    rfl
  · subst hreturn
    rfl
  · subst hfeed
    rfl
  · rcases hquote with rfl | rfl | rfl <;> rfl
  · have hne : Char.ofUInt8 b ≠ '\\' := by
      intro h
      have hcode := congrArg Char.toUInt8 h
      rw [toUInt8_ofUInt8] at hcode
      exact hquote (Or.inr (Or.inr hcode))
    show (if Char.ofUInt8 b = '\\' then _ else some ((Char.ofUInt8 b).toUInt8, rest)) = _
    rw [if_neg hne, toUInt8_ofUInt8]
  · exact readEscape?_hexDigits b rest

/-- Bytes that are spelled alike are the same. -/
theorem eq_of_flatMap_spelling {u v : Bytes} (h : u.flatMap spelling = v.flatMap spelling) :
    u = v := by
  induction u generalizing v with
  | nil =>
    cases v with
    | nil => rfl
    | cons c v =>
      have hread := congrArg read? h
      rw [List.flatMap_cons, read?_spelling] at hread
      cases hread
  | cons b u ih =>
    cases v with
    | nil =>
      have hread := congrArg read? h
      rw [List.flatMap_cons, read?_spelling] at hread
      cases hread
    | cons c v =>
      have hread := congrArg read? h
      rw [List.flatMap_cons, List.flatMap_cons, read?_spelling, read?_spelling, Option.some.injEq,
        Prod.mk.injEq] at hread
      rw [hread.1, ih hread.2]

end MaximalMunch.Byte
