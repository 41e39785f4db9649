/-! Marks of automaton states: whether a state is the start, whether it accepts, and with which
priority. -/

namespace MaximalMunch

/-- The mark of a state. A state with neither flag is a normal one. -/
@[ext]
structure Tag where
  isStart : Bool
  isAccept : Bool
  deriving DecidableEq, Hashable

namespace Tag

def normal : Tag := ⟨false, false⟩
def start : Tag := ⟨true, false⟩
def accept : Tag := ⟨false, true⟩
def startAccept : Tag := ⟨true, true⟩

instance : Inhabited Tag := ⟨normal⟩

def isNormal (t : Tag) : Bool := t = normal

/-- The mark of a state after marking it again: the normal mark clears what was there, any other
mark is joined to it. -/
def attach (t mark : Tag) : Tag :=
  if mark = normal then normal
  else ⟨t.isStart || mark.isStart, t.isAccept || mark.isAccept⟩

def text : Tag → String
  | ⟨false, false⟩ => "normal"
  | ⟨true, false⟩ => "start"
  | ⟨false, true⟩ => "end"
  | ⟨true, true⟩ => "start/end"

end Tag

/-- How eagerly an accepting state is chosen, the smaller the better; some have no priority. -/
abbrev Priority := Option Nat

namespace Priority

/-- The better of two priorities; one that is set beats one that is not. -/
def best : Priority → Priority → Priority
  | some a, some b => some (min a b)
  | some a, none => some a
  | none, p => p

/-- The best of several priorities, none if none of them is set. -/
def bestOf (ps : List Priority) : Priority := ps.foldl best none

end Priority

/-- A state in automaton dumps: its number, mark and priority. -/
def stateText (number : Nat) (tag : Tag) (priority : Priority) : String :=
  let suffix := match priority with
    | some p => ":" ++ toString p
    | none => ""
  "(" ++ toString number ++ ":" ++ tag.text ++ suffix ++ ")"

/-- A transition in automaton dumps: what it reads, between the states it leads from and to. -/
def edgeText (source label target : String) : String :=
  source ++ " --" ++ label ++ "--> " ++ target ++ "\n"

end MaximalMunch
