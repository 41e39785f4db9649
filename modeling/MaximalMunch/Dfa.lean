import MaximalMunch.ByteSet
import MaximalMunch.NumberSet
import MaximalMunch.Tag

/-! Deterministic automata over bytes, with at most one transition for a state and a byte. -/

namespace MaximalMunch

/-- The transitions of a state: for each byte the state it leads to, if any. -/
@[ext]
structure Row where
  targets : Vector (Option Nat) 256
  deriving DecidableEq

namespace Row

def ofFn (f : UInt8 → Option Nat) : Row := ⟨Vector.ofFn fun i => f (UInt8.ofNat i)⟩

/-- The row without transitions. -/
def empty : Row := ofFn fun _ => none

instance : Inhabited Row := ⟨empty⟩

def get? (r : Row) (b : UInt8) : Option Nat := r.targets.get ⟨b.toNat, b.toNat_lt⟩

def map (r : Row) (f : Nat → Nat) : Row := ⟨r.targets.map (·.map f)⟩

/-- The bytes that have a transition, each with its state, ascending. -/
def edges (r : Row) : List (UInt8 × Nat) :=
  Byte.all.filterMap fun b => (r.get? b).map (b, ·)

/-- The states that some byte leads to. -/
def destinations (r : Row) : NumberSet := .ofList (r.edges.map (·.2))

/-- The bytes that lead to a state. -/
def bytesTo (r : Row) (q : Nat) : ByteSet :=
  .ofList ((r.edges.filter (·.2 == q)).map (·.1))

end Row

/-- A state with its mark, its priority and its transitions. -/
structure State where
  tag : Tag
  priority : Priority
  row : Row
  deriving DecidableEq

/-- A deterministic automaton; states are named by their index. -/
@[ext]
structure Dfa where
  start : Nat
  states : Array State
  deriving DecidableEq

namespace Dfa

def size (d : Dfa) : Nat := d.states.size

def isEmpty (d : Dfa) : Bool := d.states.isEmpty

def state? (d : Dfa) (q : Nat) : Option State := d.states[q]?

def isAccept (d : Dfa) (q : Nat) : Bool := ((d.state? q).map (·.tag.isAccept)).getD false

def priority (d : Dfa) (q : Nat) : Priority := (d.state? q).bind (·.priority)

/-- The accepting states, ascending. -/
def ends (d : Dfa) : List Nat := (List.range d.size).filter d.isAccept

/-- The state a byte leads to. -/
def step? (d : Dfa) (q : Nat) (b : UInt8) : Option Nat := (d.state? q).bind (·.row.get? b)

/-- The state a string leads to. -/
def walk? (d : Dfa) (q : Nat) : Bytes → Option Nat
  | [] => some q
  | b :: rest => (d.step? q b).bind fun r => walk? d r rest

/-- Whether the whole input is accepted. -/
def isMatch (d : Dfa) (input : Bytes) : Bool := (d.walk? d.start input).any d.isAccept

/-- The match that ends in a state after reading so many bytes, or else an earlier one. -/
def noteEnd (d : Dfa) (q length : Nat) (last : Option (Nat × Priority)) :
    Option (Nat × Priority) :=
  if d.isAccept q then some (length, d.priority q) else last

/-- Walks on from a state, remembering the last accepting state it passes. -/
def longestFrom (d : Dfa) (q length : Nat) (last : Option (Nat × Priority)) :
    Bytes → Option (Nat × Priority)
  | [] => last
  | b :: rest =>
    match d.step? q b with
    | none => last
    | some r => longestFrom d r (length + 1) (d.noteEnd r (length + 1) last) rest

/-- The longest accepted beginning of the input: its length and the priority of the state it
leads to. -/
def longestMatch (d : Dfa) (input : Bytes) : Option (Nat × Priority) :=
  d.longestFrom d.start 0 (d.noteEnd d.start 0 none) input

def stateText (d : Dfa) (q : Nat) : String :=
  match d.state? q with
  | some s => MaximalMunch.stateText q s.tag s.priority
  | none => ""

/-- The line of the bytes that lead from one state to another. -/
def edgeText (d : Dfa) (q : Nat) (bytes : ByteSet) (r : Nat) : String :=
  MaximalMunch.edgeText (d.stateText q) bytes.text (d.stateText r)

/-- The lines of a state: one for each destination with the bytes that lead there, or the state
alone when it has none. -/
def stateLines (d : Dfa) (q : Nat) (row : Row) : List String :=
  match row.destinations.toList with
  | [] => [d.stateText q ++ "\n"]
  | targets => targets.map fun r => d.edgeText q (row.bytesTo r) r

def text (d : Dfa) : String :=
  String.join ((List.range d.size).flatMap fun q =>
    match d.state? q with
    | some s => d.stateLines q s.row
    | none => [])

end Dfa

end MaximalMunch
