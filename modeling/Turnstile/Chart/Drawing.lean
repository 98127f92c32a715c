import Turnstile.Chart.Basic

/-!
Charts drawn as graphs, in the text that a graph layout program reads.

A state is a node labelled with its name and its flags, a transition is an edge
labelled with its condition.  A label stands in double quotes, so a double quote in
a condition is drawn as a single one.
-/

namespace Turnstile

namespace State

/-- A line of a label in a colour of its own. -/
def drawFlag (text color : String) : String :=
  "<FONT COLOR=\"" ++ color ++ "\">" ++ text ++ "</FONT>"

/-- The lines of a state's label: its name and its flags. -/
def labelLines (s : State) : List String :=
  ["<B>" ++ s.name ++ "</B>"]
    ++ (if s.isInitial then [drawFlag "initial" "blue"] else [])
    ++ (if s.isTransient then [drawFlag "transient" "dimgray"] else [])
    ++ (if s.isFinal then [drawFlag "final" "darkgreen"] else [])

def draw (s : State) : String :=
  s.name ++ " [label=<" ++ "<BR/>".intercalate s.labelLines ++ ">];"

end State

variable {σ ε : Type}

namespace Transition

/-- The label with every double quote made a single one. -/
def drawLabel (label : String) : String :=
  String.ofList (label.toList.map fun c => if c = '"' then '\'' else c)

def draw (t : Transition σ ε) : String :=
  match t.guardLabel with
  | some label => t.text ++ " [label=\"" ++ drawLabel label ++ "\"]"
  | none => t.text

end Transition

namespace Chart

/-- The graph of a chart, states before transitions. -/
def draw (c : Chart σ ε) : String :=
  "\n".intercalate
    (["digraph \x7b"] ++ c.states.map State.draw ++ c.transitions.map Transition.draw ++ ["\x7d"])

end Chart
end Turnstile
