import MaximalMunch.Byte

/-! Reading UTF-8 that may be damaged. The longest beginning of a character that is cut short
there, or else a single byte that begins none, is read as one replacement character. -/

namespace MaximalMunch.Utf8

/-- A character being read: the bits so far, how many bytes are still due, and between which
bytes the next one must be. -/
structure Unfinished where
  bits : Nat
  due : Nat
  lo : UInt8
  hi : UInt8
  deriving DecidableEq

/-- Stands for bytes that are no character. -/
def replacement : Char := Char.ofNat 0xfffd

/-- The character a byte begins, if it begins one of several bytes. The bounds of the second byte
leave out overlong forms, surrogates and codes above the last. -/
def opening? (b : UInt8) : Option Unfinished :=
  if 0xc2 ≤ b ∧ b ≤ 0xdf then some ⟨b.toNat - 0xc0, 1, 0x80, 0xbf⟩
  else if b = 0xe0 then some ⟨0, 2, 0xa0, 0xbf⟩
  else if b = 0xed then some ⟨0xd, 2, 0x80, 0x9f⟩
  else if 0xe1 ≤ b ∧ b ≤ 0xef then some ⟨b.toNat - 0xe0, 2, 0x80, 0xbf⟩
  else if b = 0xf0 then some ⟨0, 3, 0x90, 0xbf⟩
  else if 0xf1 ≤ b ∧ b ≤ 0xf3 then some ⟨b.toNat - 0xf0, 3, 0x80, 0xbf⟩
  else if b = 0xf4 then some ⟨4, 3, 0x80, 0x8f⟩
  else none

/-- Reads a byte between characters. -/
def begin (b : UInt8) : List Char × Option Unfinished :=
  if b < 0x80 then ([Char.ofUInt8 b], none)
  else
    match opening? b with
    | some u => ([], some u)
    | none => ([replacement], none)

/-- Reads a byte within a character; one that does not fit cuts it short. -/
def continue? (u : Unfinished) (b : UInt8) : List Char × Option Unfinished :=
  if u.lo ≤ b ∧ b ≤ u.hi then
    let bits := u.bits * 64 + (b.toNat - 0x80)
    if u.due ≤ 1 then ([Char.ofNat bits], none) else ([], some ⟨bits, u.due - 1, 0x80, 0xbf⟩)
  else
    let (chars, next) := begin b
    (replacement :: chars, next)

/-- The characters of bytes that go on with what was begun. -/
def decodeFrom (pending : Option Unfinished) : Bytes → List Char
  | [] => if pending.isSome then [replacement] else []
  | b :: rest =>
    let (chars, next) := match pending with
      | none => begin b
      | some u => continue? u b
    chars ++ decodeFrom next rest

/-- The text of bytes that may be damaged. -/
def decode (bytes : Bytes) : String := String.ofList (decodeFrom none bytes)

end MaximalMunch.Utf8
