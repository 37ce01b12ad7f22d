import Dataflow.Json.Basic
import Dataflow.Json.Lexer

/-!
# Reading JSON

Puts the tokens of a text together to a value. The containers that are open at a point of the text
wait on a stack, each with what has been read of it, so the reader goes over the tokens once and
nests as deep as the text does. Nothing may follow the value.
-/

namespace Dataflow.Json

/-- An open container: its finished parts, last first, and the name of the member being read. -/
inductive Frame where
  | arr (done : List Json)
  | obj (done : List (Option String × Json)) (name : Option String)

mutual

def readValue (stack : List Frame) : List Token → Option Json
  | .null :: ts => resume stack .null ts
  | .bool b :: ts => resume stack (.bool b) ts
  | .num n :: ts => resume stack (.num n) ts
  | .str s :: ts => resume stack (.str s) ts
  | .openArray :: .closeArray :: ts => resume stack (.arr []) ts
  | .openArray :: ts => readValue (.arr [] :: stack) ts
  | .openObject :: .closeObject :: ts => resume stack (.obj []) ts
  | .openObject :: .str name :: .colon :: ts => readValue (.obj [] name :: stack) ts
  | _ => none

def resume (stack : List Frame) (j : Json) (tokens : List Token) : Option Json :=
  match stack, tokens with
  | [], [] => some j
  | .arr done :: stack, .comma :: ts => readValue (.arr (j :: done) :: stack) ts
  | .arr done :: stack, .closeArray :: ts => resume stack (.arr (j :: done).reverse) ts
  | .obj done name :: stack, .comma :: .str next :: .colon :: ts =>
    readValue (.obj ((name, j) :: done) next :: stack) ts
  | .obj done name :: stack, .closeObject :: ts =>
    resume stack (.obj ((name, j) :: done).reverse) ts
  | _, _ => none

end

def parse? (text : String) : Option Json := do
  readValue [] (← tokens? text.toList)

end Dataflow.Json
