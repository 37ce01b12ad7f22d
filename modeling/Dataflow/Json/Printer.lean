import Dataflow.Json.Basic
import Dataflow.Text.Quoted

/-!
# Writing JSON

Writes a value either on one line without blanks, or with one element per line and two blanks per
level. Strings escape quotes, backslashes and control characters; everything else is written as
it is. A string that spells no text is written as half of a surrogate pair.
-/

namespace Dataflow.Json

structure Style where
  /-- What stands in front of an element at a nesting level, and of the closing bracket. -/
  gap : Nat → List Char
  /-- What stands between a name and its value. -/
  colon : List Char

namespace Style

def compact : Style := ⟨fun _ => [], [':']⟩

def pretty : Style := ⟨fun level => '\n' :: List.replicate (2 * level) ' ', [':', ' ']⟩

end Style

def escapeChar (c : Char) : List Char :=
  if c = '"' then ['\\', '"']
  else if c = '\\' then ['\\', '\\']
  else if c.toNat = 0x08 then ['\\', 'b']
  else if c.toNat = 0x0c then ['\\', 'f']
  else if c = '\n' then ['\\', 'n']
  else if c = '\r' then ['\\', 'r']
  else if c = '\t' then ['\\', 't']
  else if c.toNat < 0x10 then ['\\', 'u', '0', '0', '0'] ++ Text.hex c.toNat
  else if c.toNat < 0x20 then ['\\', 'u', '0', '0'] ++ Text.hex c.toNat
  else [c]

def writeText : Option String → List Char
  | some s => '"' :: s.toList.flatMap escapeChar ++ ['"']
  | none => ['"', '\\', 'u', 'd', '8', '0', '0', '"']

mutual

/-- Writes a value that stands at a nesting level. -/
def write (style : Style) (level : Nat) : Json → List Char
  | null => ['n', 'u', 'l', 'l']
  | bool true => ['t', 'r', 'u', 'e']
  | bool false => ['f', 'a', 'l', 's', 'e']
  | num literal => literal.toList
  | str s => writeText s
  | arr [] => ['[', ']']
  | arr (j :: js) =>
    '[' :: style.gap (level + 1) ++ write style (level + 1) j ++
      writeItems style (level + 1) js ++ style.gap level ++ [']']
  | obj [] => ['\x7b', '\x7d']
  | obj ((name, j) :: ms) =>
    '\x7b' :: style.gap (level + 1) ++ writeText name ++ style.colon ++
      write style (level + 1) j ++ writeMembers style (level + 1) ms ++
      style.gap level ++ ['\x7d']

def writeItems (style : Style) (level : Nat) : List Json → List Char
  | [] => []
  | j :: js => ',' :: style.gap level ++ write style level j ++ writeItems style level js

def writeMembers (style : Style) (level : Nat) : List (Option String × Json) → List Char
  | [] => []
  | (name, j) :: ms =>
    ',' :: style.gap level ++ writeText name ++ style.colon ++ write style level j ++
      writeMembers style level ms

end

def compact (j : Json) : String := String.ofList (write .compact 0 j)

def pretty (j : Json) : String := String.ofList (write .pretty 0 j)

end Dataflow.Json
