/-! Bytes: their printable spelling, shared by the text of byte sets and by error messages, and
classes of bytes that some key does not tell apart. -/

namespace MaximalMunch

/-- A text as the bytes it is made of. -/
abbrev Bytes := List UInt8

/-- The UTF-8 bytes of a text. -/
def bytesOf (text : String) : Bytes := text.toUTF8.toList

namespace Byte

/-- Every byte, ascending. -/
def all : Bytes := (List.range 256).map UInt8.ofNat

/-- The bytes from `lo` to `hi`, both included, ascending. -/
def range (lo hi : UInt8) : Bytes :=
  (List.range' lo.toNat (hi.toNat + 1 - lo.toNat)).map UInt8.ofNat

/-- The two lower-case hexadecimal digits of a byte. -/
def hexDigits (b : UInt8) : List Char :=
  [Nat.digitChar (b.toNat / 16), Nat.digitChar (b.toNat % 16)]

/-- Printable ASCII stands for itself, save quotes and the backslash, which take a backslash in
front; tab, carriage return and line feed have a letter; every other byte is `\x` and two digits. -/
def spelling (b : UInt8) : List Char :=
  if b = 9 then ['\\', 't']
  else if b = 13 then ['\\', 'r']
  else if b = 10 then ['\\', 'n']
  else if b = 39 ∨ b = 34 ∨ b = 92 then ['\\', Char.ofUInt8 b]
  else if 32 ≤ b ∧ b ≤ 126 then [Char.ofUInt8 b]
  else '\\' :: 'x' :: hexDigits b

/-- The spelling of a byte as a string. -/
def text (b : UInt8) : String := String.ofList (spelling b)

end Byte

/-! ## Numbers by first appearance -/

/-- The number of a value: its place among the known ones, behind which it is put when new. -/
def intern {α : Type} [BEq α] (known : Array α) (a : α) : Nat × Array α :=
  match known.findIdx? (· == a) with
  | some i => (i, known)
  | none => (known.size, known.push a)

/-- The numbers of several values, in their order. -/
def internAll {α : Type} [BEq α] (known : Array α) : List α → List Nat × Array α
  | [] => ([], known)
  | a :: rest =>
    let (i, known) := intern known a
    let (is, known) := internAll known rest
    (i :: is, known)

/-! ## Classes of bytes -/

/-- The class of every byte, by number, and the smallest byte of every class. -/
structure ByteClasses where
  classOf : Array Nat
  smallest : Bytes

namespace ByteClasses

/-- Bytes with equal keys are in one class. Classes are numbered in the order of their smallest
bytes. -/
def ofKey {α : Type} [BEq α] (key : UInt8 → α) : ByteClasses :=
  let (classes, known) := internAll #[] (Byte.all.map key)
  ⟨classes.toArray, (List.range known.size).map fun i => UInt8.ofNat (classes.idxOf i)⟩

/-- The number of a byte's class. -/
def get (classes : ByteClasses) (b : UInt8) : Nat := classes.classOf.getD b.toNat 0

end ByteClasses

end MaximalMunch
