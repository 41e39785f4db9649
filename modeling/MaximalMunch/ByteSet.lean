import MaximalMunch.Byte

/-! Sets of bytes, the labels of automata edges. A set has one bit for every byte in four words, so
that equal sets are equal values. Its text lists the maximal runs of neighbouring members in
brackets. -/

namespace MaximalMunch

/-- A set of bytes: byte `b` is a member when bit `b % 64` of word `b / 64` is set. -/
@[ext]
structure ByteSet where
  words : Vector UInt64 4
  deriving DecidableEq

namespace ByteSet

/-- The word that has the bit of a byte. -/
def wordIndex (b : UInt8) : Fin 4 :=
  ⟨(b >>> 6).toNat, by
    have hb := b.toNat_lt
    rw [UInt8.toNat_shiftRight, Nat.shiftRight_eq_div_pow]
    exact Nat.div_lt_of_lt_mul hb⟩

/-- The word with no other bit than that of a byte. -/
def bit (b : UInt8) : UInt64 := 1 <<< (b &&& 63).toUInt64

def contains (s : ByteSet) (b : UInt8) : Bool := s.words[wordIndex b] &&& bit b != 0

instance : Membership UInt8 ByteSet := ⟨fun s b => s.contains b = true⟩

instance (b : UInt8) (s : ByteSet) : Decidable (b ∈ s) :=
  inferInstanceAs (Decidable (s.contains b = true))

def empty : ByteSet := ⟨.replicate 4 0⟩

instance : EmptyCollection ByteSet := ⟨empty⟩
instance : Inhabited ByteSet := ⟨empty⟩

/-- The set of every byte. -/
def full : ByteSet := ⟨.replicate 4 0xffffffffffffffff⟩

def insert (b : UInt8) (s : ByteSet) : ByteSet :=
  ⟨s.words.set (wordIndex b) (s.words[wordIndex b] ||| bit b)⟩

def singleton (b : UInt8) : ByteSet := empty.insert b

/-- Adds the bytes from `lo` to `hi`, both included; none when `hi < lo`. -/
def insertRange (lo hi : UInt8) (s : ByteSet) : ByteSet :=
  if hi < lo then s else (Byte.range lo hi).foldl (fun s b => s.insert b) s

/-- The bytes from `lo` to `hi`, both included; none when `hi < lo`. -/
def range (lo hi : UInt8) : ByteSet := empty.insertRange lo hi

def union (s t : ByteSet) : ByteSet := ⟨.ofFn fun i => s.words[i] ||| t.words[i]⟩

instance : Union ByteSet := ⟨union⟩

/-- The bytes that are not in the set. -/
def complement (s : ByteSet) : ByteSet := ⟨.ofFn fun i => ~~~s.words[i]⟩

def ofList (bytes : Bytes) : ByteSet := bytes.foldl (fun s b => s.insert b) empty

def isEmpty (s : ByteSet) : Bool := s.words.toList.all (· == 0)

/-- The members, ascending. -/
def toList (s : ByteSet) : Bytes := Byte.all.filter s.contains

/-- The number of bits that are set. -/
def size (s : ByteSet) : Nat :=
  s.words.toList.foldr (fun w n => w.toBitVec.cpop.toNat + n) 0

/-- Puts a byte in front of runs that start above it, joining the first one if it is next to it. -/
def addRun (b : UInt8) : List (UInt8 × UInt8) → List (UInt8 × UInt8)
  | [] => [(b, b)]
  | (lo, hi) :: rest =>
    if b.toNat + 1 = lo.toNat then (b, hi) :: rest else (b, b) :: (lo, hi) :: rest

/-- The maximal runs of neighbouring members, each by its first and last member, ascending. -/
def runs (s : ByteSet) : List (UInt8 × UInt8) := s.toList.foldr addRun []

/-- A run of one member is spelled by it, a longer one by its ends around a dash. -/
def runSpelling (run : UInt8 × UInt8) : List Char :=
  if run.1 = run.2 then Byte.spelling run.1
  else Byte.spelling run.1 ++ '-' :: Byte.spelling run.2

/-- The runs in brackets, with nothing between them. -/
def spelling (s : ByteSet) : List Char := '[' :: s.runs.flatMap runSpelling ++ [']']

def text (s : ByteSet) : String := String.ofList s.spelling

end ByteSet

end MaximalMunch
