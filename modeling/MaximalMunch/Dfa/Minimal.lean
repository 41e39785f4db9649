import MaximalMunch.Byte
import MaximalMunch.Dfa

/-! Minimization by colours, and partition refinement by splitting blocks. States are coloured by
whether they accept and with which priority; then, again and again, by their colour and the colours
their transitions lead to. When nothing changes, states of one colour are merged. Colours are
numbered by the smallest state that has them. -/

namespace MaximalMunch

/-! ## Colours -/

namespace Dfa

/-- The colour of every state. -/
abbrev Coloring := Array Nat

/-- Colours states by what they accept. -/
def coarseColoring (d : Dfa) : Coloring :=
  (internAll #[] (d.states.toList.map fun s => (s.tag.isAccept, s.priority))).1.toArray

/-- The smallest of the bytes that lead from every state to the same one, for each such class of
bytes. -/
def essentialBytes (d : Dfa) : Bytes :=
  (ByteClasses.ofKey fun b => d.states.toList.map (·.row.get? b)).smallest

/-- Colours states by their colour and those the given bytes lead to. -/
def recolor (d : Dfa) (bytes : Bytes) (colors : Coloring) : Coloring :=
  let keys := d.states.toList.zipIdx.map fun (s, q) =>
    some (colors.getD q 0) :: bytes.map fun b => (s.row.get? b).map (colors.getD · 0)
  (internAll #[] keys).1.toArray

/-- Recolours until nothing changes, at most as often as given. -/
def refine (d : Dfa) (bytes : Bytes) : (rounds : Nat) → Coloring → Coloring
  | 0, colors => colors
  | rounds + 1, colors =>
    let next := d.recolor bytes colors
    if next = colors then colors else refine d bytes rounds next

/-- The coarsest colouring that the transitions respect. Every round but the last adds a colour,
so as many rounds as there are states are enough. -/
def stableColoring (d : Dfa) : Coloring := d.refine d.essentialBytes d.size d.coarseColoring

/-- The states that are the first of their colour, ascending. -/
def representatives (d : Dfa) (colors : Coloring) : List State :=
  d.states.toList.zipIdx.filterMap fun (s, q) =>
    if colors.toList.idxOf? (colors.getD q 0) = some q then some s else none

/-- One state for each colour, with the transitions of the first state that has it. -/
def quotient (d : Dfa) (colors : Coloring) : Dfa :=
  let merged (s : State) : State := { s with row := s.row.map (colors.getD · 0) }
  ⟨colors.getD d.start 0, ((d.representatives colors).map merged).toArray⟩

/-- The equivalent automaton with the fewest states; one with a single state is left alone. -/
def minimize (d : Dfa) : Dfa := if d.size ≤ 1 then d else d.quotient d.stableColoring

/-! ## Blocks

States start out in groups by whether they accept and with which priority. A pass splits every block
by the first byte that leads its states into different blocks of the partition that the pass began
with. Passes follow one another until no block splits. -/

/-- Blocks of states. -/
abbrev Partition := List (List Nat)

/-- The states of a block by their keys, in the order of the keys. -/
def partsBy {α : Type} [BEq α] [Ord α] (key : Nat → α) (block : List Nat) : Partition :=
  let keys := (block.map key).eraseDups.mergeSort fun k l => (compare k l).isLE
  keys.map fun k => block.filter (key · == k)

/-- The states by what they accept. -/
def groups (d : Dfa) : Partition :=
  let _ : Ord (Bool × Priority) := lexOrd
  partsBy (fun q => (d.isAccept q, d.priority q)) (List.range d.size)

/-- The place of the block that has a state. -/
def blockOf (blocks : Partition) (q : Nat) : Nat := blocks.findIdx (·.contains q)

/-- The bytes for which some state of a block has a transition, ascending. -/
def edgeBytes (d : Dfa) (block : List Nat) : Bytes :=
  Byte.all.filter fun b => block.any fun q => (d.step? q b).isSome

/-- The states of a block by the block that a byte leads into. Those without a transition are a part
of their own. -/
def splitByByte (d : Dfa) (blocks : Partition) (block : List Nat) (b : UInt8) : Partition :=
  partsBy (fun q => (d.step? q b).map (blockOf blocks)) block

/-- The parts of a block by the first byte that makes more than one. -/
def split? (d : Dfa) (blocks : Partition) (block : List Nat) : Option Partition :=
  ((d.edgeBytes block).map (d.splitByByte blocks block)).find? (1 < ·.length)

/-- Every block or, where a byte splits it, its parts. -/
def pass (d : Dfa) (blocks : Partition) : Partition :=
  blocks.flatMap fun block => (d.split? blocks block).getD [block]

/-- A pass, if it splits some block. -/
def pass? (d : Dfa) (blocks : Partition) : Option Partition :=
  if blocks.any fun block => (d.split? blocks block).isSome then some (d.pass blocks) else none

end Dfa

end MaximalMunch
