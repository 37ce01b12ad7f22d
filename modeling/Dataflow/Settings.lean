import Dataflow.Text.Blank

/-!
# Settings

Switches that the surroundings of the program may set by a text. A switch is on for the words
`1`, `true`, `yes` and `on`, in any case and with blanks around them, and off for every other
word; a missing or blank text leaves it as it is by default.
-/

namespace Dataflow.Settings

def switch (byDefault : Bool) (text : Option String) : Bool :=
  match text with
  | none => byDefault
  | some s =>
    let word := Text.trim s.toList
    if word.isEmpty then byDefault
    else String.ofList (word.map Char.toLower) ∈ ["1", "true", "yes", "on"]

/-- Whether a build checks the graph it is given and the graph it makes; it does unless told not
to. -/
def verifyGraphs (text : Option String) : Bool := switch true text

end Dataflow.Settings
