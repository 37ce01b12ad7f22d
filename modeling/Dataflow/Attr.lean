import Dataflow.Dict
import Dataflow.Number.Binary
import Dataflow.Size

/-!
# Attributes

The parameters of an operation: named values of a few scalar and list kinds, and nested maps of
them. A view such as `asInts?` answers only for its own kind; the one conversion is that an
integer may be read as a floating point number.
-/

namespace Dataflow

inductive Attr where
  | bool (b : Bool)
  | int (n : Int)
  | float (x : Double)
  | str (s : String)
  | ints (ns : List Int)
  | floats (xs : List Double)
  | strs (ss : List String)
  | map (entries : Dict Attr)
deriving Inhabited

/-- The attributes of one node, by name. -/
abbrev Attrs := Dict Attr

namespace Attr

/-- The attribute of a count, read as a signed word. -/
def ofSize (n : Nat) : Attr := int (Size.wrapSigned n)

def ofTexts (d : Dict String) : Attr := map (d.map str)

def asInt? : Attr → Option Int
  | int n => some n
  | _ => none

def asFloat? : Attr → Option Double
  | float x => some x
  | int n => some (.ofInt n)
  | _ => none

def asBool? : Attr → Option Bool
  | bool b => some b
  | _ => none

def asStr? : Attr → Option String
  | str s => some s
  | _ => none

def asInts? : Attr → Option (List Int)
  | ints ns => some ns
  | _ => none

def asStrs? : Attr → Option (List String)
  | strs ss => some ss
  | _ => none

def asMap? : Attr → Option Attrs
  | map entries => some entries
  | _ => none

mutual

/-- Equality of kind and value, floating point numbers compared numerically. -/
def same : Attr → Attr → Bool
  | bool a, bool b => a == b
  | int a, int b => a == b
  | float a, float b => a.same b
  | str a, str b => a == b
  | ints a, ints b => a == b
  | floats a, floats b => a.length == b.length && (a.zip b).all fun p => p.1.same p.2
  | strs a, strs b => a == b
  | map a, map b => sameMap a b
  | _, _ => false

def sameMap : Dict Attr → Dict Attr → Bool
  | ⟨a⟩, ⟨b⟩ => sameEntries a b

def sameEntries : List (String × Attr) → List (String × Attr) → Bool
  | [], [] => true
  | (k, x) :: a, (k', y) :: b => k == k' && same x y && sameEntries a b
  | _, _ => false

end

end Attr

end Dataflow
