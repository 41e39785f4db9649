import MaximalMunch.Graph
import MaximalMunch.NodeSet

/-! Nondeterministic automata: the part of a graph that a component's start leads to, copied out
and numbered in depth-first order, so that node 0 is the start. An automaton runs by the set of
nodes it may be in. -/

namespace MaximalMunch

/-- A finished automaton. Its start is node 0. -/
@[ext]
structure Nfa where
  nodes : Array Node
  deriving DecidableEq

namespace Nfa

def size (a : Nfa) : Nat := a.nodes.size

def isEmpty (a : Nfa) : Bool := a.nodes.isEmpty

def node? (a : Nfa) (i : Nat) : Option Node := a.nodes[i]?

def edges (a : Nfa) (i : Nat) : List Edge := ((a.node? i).map (·.edges)).getD []

def isAccept (a : Nfa) (i : Nat) : Bool := ((a.node? i).map (·.tag.isAccept)).getD false

/-- The number of the start node. -/
def start (_ : Nfa) : Nat := 0

/-- The accepting nodes, ascending. -/
def ends (a : Nfa) : List Nat := (List.range a.size).filter a.isAccept

/-- The numbers of the nodes in `order` are their places in it; edges that leave it are dropped. -/
def renumber (order : List Nat) (n : Node) : Node :=
  { n with edges := n.edges.filterMap fun e => (order.idxOf? e.target).map (⟨e.label, ·⟩) }

/-- The automaton of a component. -/
def ofGraph (g : Graph) (c : Component) : Nfa :=
  let order := g.preorder c.start
  ⟨((order.filterMap g.node?).map (renumber order)).toArray⟩

/-- The text of a node. -/
def nodeText (a : Nfa) (i : Nat) : String :=
  match a.node? i with
  | some n => stateText i n.tag n.priority
  | none => ""

/-- The line of an edge. -/
def edgeText (a : Nfa) (i : Nat) (e : Edge) : String :=
  MaximalMunch.edgeText (a.nodeText i) e.text (a.nodeText e.target)

/-- One line for every edge. -/
def text (a : Nfa) : String :=
  String.join ((List.range a.size).flatMap fun i => (a.edges i).map (a.edgeText i))

/-! ## Silent closures

The nodes that silent edges lead to from a node, itself included. Closures found once are kept,
and a later search does not walk through a node whose closure is known. -/

/-- The targets of the silent edges of a node. -/
def silentTargets (a : Nfa) (i : Nat) : List Nat :=
  ((a.edges i).filter (·.isSilent)).map (·.target)

end Nfa

/-- The closures found so far, by node. -/
structure ClosureCache where
  known : Array (Option NodeSet)

namespace ClosureCache

/-- Nothing is known at first. -/
def new (a : Nfa) : ClosureCache := ⟨Array.replicate a.size none⟩

def known? (cache : ClosureCache) (i : Nat) : Option NodeSet := cache.known[i]?.join

/-- Adds the waiting nodes and what silent edges lead to from them. -/
def walk (a : Nfa) (cache : ClosureCache) (seen : NodeSet) : (waiting : List Nat) → NodeSet
  | [] => seen
  | u :: waiting =>
    if _h : u < a.size ∧ seen.contains u = false then
      match cache.known? u with
      | some closure => walk a cache (seen.insert u ∪ closure) waiting
      | none => walk a cache (seen.insert u) (a.silentTargets u ++ waiting)
    else walk a cache seen waiting
termination_by waiting => (unseen a.size seen.contains, waiting.length)
decreasing_by
  · exact Prod.Lex.left _ _ (unseen_lt _h.1 _h.2 (by simp) fun i hi => by simp_all)
  · exact Prod.Lex.left _ _ (unseen_lt _h.1 _h.2 (by simp) fun i hi => by simp_all)
  · exact Prod.Lex.right _ (by simp)

/-- The closure of a node, which is known from then on. -/
def ask (a : Nfa) (cache : ClosureCache) (u : Nat) : NodeSet × ClosureCache :=
  match cache.known? u with
  | some closure => (closure, cache)
  | none =>
    let closure := walk a cache ∅ [u]
    (closure, ⟨cache.known.setIfInBounds u (some closure)⟩)

/-- The closures of several nodes, asked one after the other. -/
def askAll (a : Nfa) (cache : ClosureCache) : List Nat → List NodeSet × ClosureCache
  | [] => ([], cache)
  | u :: rest =>
    let (closure, cache) := ask a cache u
    let (closures, cache) := askAll a cache rest
    (closure :: closures, cache)

end ClosureCache

namespace Nfa

/-- The closures of all nodes. -/
def closures (a : Nfa) : Array NodeSet :=
  (ClosureCache.askAll a (.new a) (List.range a.size)).1.toArray

/-! ## Runs -/

/-- The outgoing edges of a set of nodes. -/
def edgesOf (a : Nfa) (current : NodeSet) : List Edge := current.toList.flatMap a.edges

/-- The nodes reached by reading a byte along one of the edges, silent edges followed after it. -/
def follow (closures : Array NodeSet) (edges : List Edge) (b : UInt8) : NodeSet :=
  (edges.filter (·.accepts b)).foldl (fun s e => s ∪ closures.getD e.target ∅) ∅

/-- The nodes reached by reading a byte from some node of the set. -/
def move (a : Nfa) (closures : Array NodeSet) (current : NodeSet) (b : UInt8) : NodeSet :=
  follow closures (a.edgesOf current) b

/-- The nodes the automaton may be in before reading. -/
def initial (a : Nfa) (closures : Array NodeSet) : NodeSet := closures.getD a.start ∅

/-- Whether the whole input is accepted, given the closures of the nodes. -/
def acceptsWith (a : Nfa) (closures : Array NodeSet) (input : Bytes) : Bool :=
  (input.foldl (a.move closures) (a.initial closures)).toList.any a.isAccept

/-- Whether the whole input is accepted. -/
def isMatch (a : Nfa) (input : Bytes) : Bool := a.acceptsWith a.closures input

end Nfa

end MaximalMunch
