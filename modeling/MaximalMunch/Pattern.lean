import MaximalMunch.Nfa

/-! Patterns as trees, and the components they become in a graph. -/

namespace MaximalMunch

/-- How often an operand may occur. -/
inductive Quantifier
  | star
  | plus
  | optional
  deriving DecidableEq

/-- A pattern: one byte of a set, one pattern after another, a choice, or a repetition. -/
inductive Pattern
  | atom (bytes : ByteSet)
  | seq (left right : Pattern)
  | alt (left right : Pattern)
  | quantified (q : Quantifier) (body : Pattern)
  deriving DecidableEq

namespace Graph

/-- Surrounds or bypasses a component as the quantifier says. -/
def quantify (g : Graph) : Quantifier → Component → Graph × Component
  | .star, c => g.star c
  | .plus, c => g.plus c
  | .optional, c => g.optional c

/-- Adds the component of a pattern, its parts first, from left to right. -/
def addPattern (g : Graph) : Pattern → Graph × Component
  | .atom bytes => g.ofSet bytes
  | .seq l r =>
    let (g, cl) := addPattern g l
    let (g, cr) := addPattern g r
    g.concatenate cl cr
  | .alt l r =>
    let (g, cl) := addPattern g l
    let (g, cr) := addPattern g r
    g.union cl cr
  | .quantified q body =>
    let (g, c) := addPattern g body
    g.quantify q c

/-- Adds several patterns one after the other and forgets where they are. -/
def addFragments (g : Graph) (ps : List Pattern) : Graph :=
  ps.foldl (fun g p => (g.addPattern p).1) g

end Graph

namespace Pattern

/-- The nondeterministic automaton of a pattern. -/
def nfa (p : Pattern) : Nfa :=
  let (g, c) := Graph.empty.addPattern p
  .ofGraph g c

end Pattern

end MaximalMunch
