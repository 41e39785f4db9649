import MaximalMunch.Byte
import MaximalMunch.Dfa
import MaximalMunch.Nfa

/-! Determinization: the states are the sets of nodes that the nondeterministic automaton may be
in, numbered in the order in which a breadth-first search with ascending bytes meets them. The
empty set is no state: bytes that lead to it have no transition. -/

namespace MaximalMunch

/-- The numbers of node sets among the known ones, which they join when new; the empty set has
none. -/
def numberSets (known : Array NodeSet) :
    List NodeSet → List (Option Nat) × Array NodeSet
  | [] => ([], known)
  | set :: rest =>
    if set.isEmpty then
      let (numbers, known) := numberSets known rest
      (none :: numbers, known)
    else
      let (i, known) := intern known set
      let (numbers, known) := numberSets known rest
      (some i :: numbers, known)

namespace Nfa

/-- The labels of the edges, each once. -/
def labels (a : Nfa) : List ByteSet :=
  (a.nodes.toList.flatMap fun n => n.edges.map (·.label)).eraseDups

/-- Bytes that no label tells apart lead to the same nodes. -/
def byteClasses (a : Nfa) : ByteClasses :=
  let labels := a.labels
  .ofKey fun b => labels.map (·.contains b)

/-- The transitions of a set of nodes, and the sets known once they are numbered. -/
def rowOf (a : Nfa) (closures : Array NodeSet) (classes : ByteClasses)
    (known : Array NodeSet) (set : NodeSet) : Row × Array NodeSet :=
  let edges := a.edgesOf set
  let (numbers, known) := numberSets known (classes.smallest.map (follow closures edges))
  let targets := numbers.toArray
  (.ofFn fun b => targets.getD (classes.get b) none, known)

/-- Follows the sets that are known but have no row yet, in order, until every one has. -/
def explore (a : Nfa) (closures : Array NodeSet) (classes : ByteClasses) :
    (fuel : Nat) → Array NodeSet → Array Row → Array NodeSet × Array Row
  | 0, known, rows => (known, rows)
  | fuel + 1, known, rows =>
    match known[rows.size]? with
    | none => (known, rows)
    | some set =>
      let (row, known) := a.rowOf closures classes known set
      explore a closures classes fuel known (rows.push row)

/-- The best priority among the accepting nodes of a set. -/
def bestPriority (a : Nfa) (set : NodeSet) : Priority :=
  .bestOf ((set.toList.filter a.isAccept).map fun u => (a.node? u).bind (·.priority))

end Nfa

namespace Dfa

/-- The deterministic automaton of a nondeterministic one. There are at most `2 ^ a.size` sets of
nodes, so that many rounds reach them all. -/
def ofNfa (a : Nfa) : Dfa :=
  let closures := a.closures
  let (sets, rows) := a.explore closures a.byteClasses (Nat.pow 2 a.size) #[a.initial closures] #[]
  let state (i : Nat) (set : NodeSet) (row : Row) : State :=
    ⟨⟨i == 0, set.toList.any a.isAccept⟩, a.bestPriority set, row⟩
  ⟨0, ((sets.toList.zip rows.toList).zipIdx.map fun x => state x.2 x.1.1 x.1.2).toArray⟩

end Dfa

end MaximalMunch
