/-!
# JSON values

A JSON value as it is written: numbers by their literal, objects as lists of members in the order
of the text, repeated names included. A string whose escapes leave half of a surrogate pair spells
no text; it is kept as `none`, so that a value nobody asks for may hold one.
-/

namespace Dataflow

inductive Json where
  | null
  | bool (b : Bool)
  | num (literal : String)
  | str (text : Option String)
  | arr (items : List Json)
  | obj (members : List (Option String × Json))
deriving Inhabited

namespace Json

def text (s : String) : Json := str (some s)

def int (n : Int) : Json := num (toString n)

def size (n : Nat) : Json := num (toString n)

def texts (ss : List String) : Json := arr (ss.map text)

def record (members : List (String × Json)) : Json :=
  obj (members.map fun m => (some m.1, m.2))

mutual

def depth : Json → Nat
  | arr items => 1 + depthItems items
  | obj members => 1 + depthMembers members
  | _ => 0

def depthItems : List Json → Nat
  | [] => 0
  | j :: js => max (depth j) (depthItems js)

def depthMembers : List (Option String × Json) → Nat
  | [] => 0
  | (_, j) :: ms => max (depth j) (depthMembers ms)

end

/-! ## Reading a value of a known form -/

def asBool? : Json → Option Bool
  | bool b => some b
  | _ => none

def asText? : Json → Option String
  | str s => s
  | _ => none

/-- The items of an array, each read by `f`. -/
def listOf? (f : Json → Option α) : Json → Option (List α)
  | arr items => items.mapM f
  | _ => none

def texts? : Json → Option (List String) := listOf? asText?

/-- The value of an optional field: `null` stands for none. -/
def option? (f : Json → Option α) : Json → Option (Option α)
  | null => some none
  | j => (f j).map some

def members? : Json → Option (List (String × Json))
  | obj members => members.mapM fun m => m.1.map fun k => (k, m.2)
  | _ => none

/-- The single member of an object, which tells the cases of a sum apart. -/
def variant? (j : Json) : Option (String × Json) :=
  match j.members? with
  | some [m] => some m
  | _ => none

/-- The values of the named fields, `none` for one that is missing. A record is an object, in which
unknown members are passed over and no field comes twice, or the list of its fields in order, in
which fields at the end may be left out. -/
def fields? (names : List String) : Json → Option (List (Option Json))
  | arr items =>
    if items.length ≤ names.length then
      some ((List.range names.length).map fun i => items[i]?)
    else none
  | j => do
    let members ← j.members?
    names.mapM fun name =>
      match members.filter (·.1 = name) with
      | [] => some none
      | [m] => some (some m.2)
      | _ => none

def required? (f : Json → Option α) (j : Option Json) : Option α := j.bind f

def optional? (f : Json → Option α) (byDefault : α) : Option Json → Option α
  | none => some byDefault
  | some j => f j

end Json

end Dataflow
