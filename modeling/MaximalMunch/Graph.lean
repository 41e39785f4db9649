import MaximalMunch.ByteSet
import MaximalMunch.Tag

/-! State graphs. Nodes live in one growing array and are named by their index; a component is a
part of the graph with one start and one stop node, and the operations combine components by
moving edges and adding silent ones. Nodes that an operation leaves behind stay in the array. -/

namespace MaximalMunch

/-- A transition. An edge whose label is the empty set is silent: it is taken without reading. -/
structure Edge where
  label : ByteSet
  target : Nat
  deriving DecidableEq

namespace Edge

def silent (target : Nat) : Edge := ⟨∅, target⟩

def isSilent (e : Edge) : Bool := e.label.isEmpty

def accepts (e : Edge) (b : UInt8) : Bool := e.label.contains b

def text (e : Edge) : String := if e.isSilent then "eps" else e.label.text

end Edge

/-- A state with its mark, its priority and its outgoing edges in order. -/
structure Node where
  tag : Tag
  priority : Priority := none
  edges : List Edge := []
  deriving DecidableEq

/-- The array of all nodes made so far. -/
@[ext]
structure Graph where
  nodes : Array Node := #[]
  deriving DecidableEq

/-- A part of a graph that is entered at one node and left at another. -/
structure Component where
  start : Nat
  stop : Nat
  deriving DecidableEq

/-- A component that was to keep its stop node in a union has no priority there. -/
structure MissingPriority where
  node : Nat
  deriving DecidableEq

def MissingPriority.message (e : MissingPriority) : String :=
  "end node " ++ toString e.node ++ " of a multi-end union has no priority"

namespace Graph

def empty : Graph := {}

instance : Inhabited Graph := ⟨empty⟩

def size (g : Graph) : Nat := g.nodes.size

def node? (g : Graph) (i : Nat) : Option Node := g.nodes[i]?

/-- The outgoing edges of a node. -/
def edges (g : Graph) (i : Nat) : List Edge := ((g.node? i).map (·.edges)).getD []

def priority (g : Graph) (i : Nat) : Priority := (g.node? i).bind (·.priority)

/-- Adds a node without edges; its index is the former size. -/
def addNode (g : Graph) (tag : Tag) : Graph := ⟨g.nodes.push { tag }⟩

def modify (g : Graph) (i : Nat) (f : Node → Node) : Graph := ⟨g.nodes.modify i f⟩

def addEdge (g : Graph) (i : Nat) (e : Edge) : Graph :=
  g.modify i fun n => { n with edges := n.edges ++ [e] }

/-- Adds a silent edge. -/
def link (g : Graph) (i j : Nat) : Graph := g.addEdge i (.silent j)

def mark (g : Graph) (i : Nat) (tag : Tag) : Graph :=
  g.modify i fun n => { n with tag := n.tag.attach tag }

def setPriority (g : Graph) (i : Nat) (p : Nat) : Graph :=
  g.modify i fun n => { n with priority := some p }

/-- Takes the edges of one node away and puts them behind those of another. -/
def moveEdges (g : Graph) (source target : Nat) : Graph :=
  let moved := g.edges source
  (g.modify source fun n => { n with edges := [] }).modify target
    fun n => { n with edges := n.edges ++ moved }

/-- Two fresh nodes, joined by one edge with the given label. -/
def ofSet (g : Graph) (label : ByteSet) : Graph × Component :=
  let i := g.size
  (((g.addNode .start).addNode .accept).addEdge i ⟨label, i + 1⟩, ⟨i, i + 1⟩)

/-- `l`, then `r`: the stop of `l` takes over the edges of the start of `r`. -/
def concatenate (g : Graph) (l r : Component) : Graph × Component :=
  (((g.moveEdges r.start l.stop).mark r.start .normal).mark l.stop .normal, ⟨l.start, r.stop⟩)

/-- `l` or `r`: the start of `l` takes over the edges of the start of `r`, and both stops lead to a
fresh one. -/
def union (g : Graph) (l r : Component) : Graph × Component :=
  let i := g.size
  let joined := (g.moveEdges r.start l.start).mark r.start .normal
  let linked := ((joined.addNode .accept).link l.stop i).link r.stop i
  ((linked.mark l.stop .normal).mark r.stop .normal, ⟨l.start, i⟩)

/-- A fresh start and a fresh stop around a component, whose own two become normal nodes. -/
def surround (g : Graph) (c : Component) : Graph :=
  (((g.addNode .start).addNode .accept).mark c.start .normal).mark c.stop .normal

/-- Any number of repetitions. -/
def star (g : Graph) (c : Component) : Graph × Component :=
  let i := g.size
  ((((g.surround c).link c.stop c.start).link i c.start).link c.start (i + 1), ⟨i, i + 1⟩)

/-- At least one repetition. -/
def plus (g : Graph) (c : Component) : Graph × Component :=
  let i := g.size
  ((((g.surround c).link i c.start).link c.stop (i + 1)).link c.stop c.start, ⟨i, i + 1⟩)

/-- At most one occurrence, by a silent edge from start to stop. -/
def optional (g : Graph) (c : Component) : Graph × Component := (g.link c.start c.stop, c)

/-- `l` or `r`, both keeping their stops and the priorities there; the result stops where `l`
does. -/
def unionKeepingStops (g : Graph) (l r : Component) : Except MissingPriority (Graph × Component) :=
  if (g.priority l.stop).isNone then .error ⟨l.stop⟩
  else if (g.priority r.stop).isNone then .error ⟨r.stop⟩
  else .ok ((g.moveEdges r.start l.start).mark r.start .normal, l)

/-- Combines a list of components from the right; nothing comes of the empty list. -/
def combineAll (op : Graph → Component → Component → Graph × Component) (g : Graph) :
    List Component → Graph × Option Component
  | [] => (g, none)
  | c :: rest =>
    match combineAll op g rest with
    | (h, none) => (h, some c)
    | (h, some acc) => let (k, d) := op h c acc; (k, some d)

def concatenateAll (g : Graph) (cs : List Component) : Graph × Option Component :=
  combineAll concatenate g cs

def unionAll (g : Graph) (cs : List Component) : Graph × Option Component :=
  combineAll union g cs

/-- Unions from the right that keep the stops. The first pair without priorities ends it; the
pairs joined before it stay joined. -/
def unionAllKeepingStops (g : Graph) :
    List Component → Graph × Except MissingPriority (Option Component)
  | [] => (g, .ok none)
  | c :: rest =>
    match unionAllKeepingStops g rest with
    | (h, .error e) => (h, .error e)
    | (h, .ok none) => (h, .ok (some c))
    | (h, .ok (some acc)) =>
      match h.unionKeepingStops c acc with
      | .error e => (h, .error e)
      | .ok (k, d) => (k, .ok (some d))

end Graph

/-! ## Depth-first order

A node comes before the nodes its edges lead to, and the edges of a node are followed in their
order. -/

/-- How many numbers below `n` are not among those seen. -/
def unseen (n : Nat) (seen : Nat → Bool) : Nat := (List.range n).countP fun i => !seen i

/-- Seeing one more number leaves fewer unseen. -/
theorem unseen_lt {n u : Nat} {seen seen' : Nat → Bool} (hu : u < n) (hnew : seen u = false)
    (hold : seen' u = true) (hmono : ∀ i, seen i = true → seen' i = true) :
    unseen n seen' < unseen n seen := by
  have key : ∀ l : List Nat, u ∈ l →
      l.countP (fun i => !seen' i) < l.countP (fun i => !seen i) := by
    intro l hl
    induction l with
    | nil => simp at hl
    | cons i l ih =>
      have hle : l.countP (fun i => !seen' i) ≤ l.countP (fun i => !seen i) := by
        apply List.countP_mono_left
        intro j _ hj
        cases hs : seen j with
        | false => rfl
        | true => simp [hmono j hs] at hj
      by_cases hi : i = u
      · subst hi
        simp only [List.countP_cons, hnew, hold]
        simp only [Bool.not_true, Bool.not_false, if_true]
        simp only [Bool.false_eq_true, if_false]
        omega
      · have hmem : u ∈ l := by
          rcases List.mem_cons.1 hl with h | h
          · exact absurd h.symm hi
          · exact h
        have := ih hmem
        simp only [List.countP_cons]
        cases hs : seen i with
        | true => simp [hmono i hs]; omega
        | false => cases seen' i <;> simp <;> omega
  exact key _ (List.mem_range.2 hu)

namespace Graph

/-- The nodes the edges of a node lead to. -/
def targets (g : Graph) (i : Nat) : List Nat := (g.edges i).map (·.target)

/-- Visits the waiting nodes and what they lead to, the latest visited first. -/
def visit (g : Graph) (seen : List Nat) : (waiting : List Nat) → List Nat
  | [] => seen
  | u :: waiting =>
    if _h : u < g.size ∧ seen.contains u = false then
      visit g (u :: seen) (g.targets u ++ waiting)
    else visit g seen waiting
termination_by waiting => (unseen g.size seen.contains, waiting.length)
decreasing_by
  · exact Prod.Lex.left _ _ (unseen_lt _h.1 _h.2 (by simp) fun i hi => by simp_all)
  · exact Prod.Lex.right _ (by simp)

/-- The nodes that can be reached from a node, in depth-first order. -/
def preorder (g : Graph) (start : Nat) : List Nat := (g.visit [] [start]).reverse

end Graph

end MaximalMunch
