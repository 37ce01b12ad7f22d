/-!
# JSON tokens

Splits a JSON text into brackets, separators, words and strings. The lexer is an automaton that
takes one character at a time: `step` says which tokens a character completes and how to go on,
`finish` what the end of the text completes. Words (numbers and the three literal names) end at
the first character that belongs to no word.
-/

namespace Dataflow.Json

/-- A number by the parts of its literal, each a list of digits. -/
structure Number where
  negative : Bool
  whole : List Char
  fraction : Option (List Char)
  /-- Whether the exponent is negative, and its digits. -/
  exponent : Option (Bool × List Char)
deriving DecidableEq

namespace Number

def digits (cs : List Char) : List Char × List Char := cs.span Char.isDigit

/-- At least one digit, and no zero in front of others. -/
def properWhole : List Char → Bool
  | [] => false
  | ['0'] => true
  | c :: _ => c ≠ '0'

/-- The exponent that a literal ends with, if any; nothing may follow it. -/
def exponentOf? : List Char → Option (Option (Bool × List Char))
  | [] => some none
  | e :: cs =>
    if e = 'e' ∨ e = 'E' then
      let (negative, cs) := match cs with
        | '-' :: r => (true, r)
        | '+' :: r => (false, r)
        | _ => (false, cs)
      if cs ≠ [] ∧ cs.all Char.isDigit then some (some (negative, cs)) else none
    else none

def fractionOf? : List Char → Option (Option (List Char) × List Char)
  | '.' :: cs =>
    let (f, rest) := digits cs
    if f = [] then none else some (some f, rest)
  | cs => some (none, cs)

def ofLiteral? (cs : List Char) : Option Number := do
  let (negative, cs) := match cs with
    | '-' :: r => (true, r)
    | _ => (false, cs)
  let (whole, cs) := digits cs
  guard (properWhole whole)
  let (fraction, cs) ← fractionOf? cs
  let exponent ← exponentOf? cs
  return ⟨negative, whole, fraction, exponent⟩

end Number

inductive Token where
  | openArray
  | closeArray
  | openObject
  | closeObject
  | colon
  | comma
  | null
  | bool (b : Bool)
  | num (literal : String)
  | str (text : Option String)
deriving DecidableEq

/-- Where the lexer is. Characters of words and strings are collected last first; a string is
collected as code points, halves of surrogate pairs apart. -/
inductive Mode where
  | between
  | word (seen : List Char)
  | string (seen : List Nat)
  | escape (seen : List Nat)
  | unicode (seen : List Nat) (digits value : Nat)
deriving DecidableEq

namespace Mode

def isBlank (c : Char) : Bool := c = ' ' || c = '\t' || c = '\n' || c = '\r'

def isWordChar (c : Char) : Bool := c.isAlphanum || c = '+' || c = '-' || c = '.'

def wordToken? (cs : List Char) : Option Token :=
  if cs = ['n', 'u', 'l', 'l'] then some .null
  else if cs = ['t', 'r', 'u', 'e'] then some (.bool true)
  else if cs = ['f', 'a', 'l', 's', 'e'] then some (.bool false)
  else (Number.ofLiteral? cs).map fun _ => .num (String.ofList cs)

def isHigh (n : Nat) : Bool := 0xd800 ≤ n && n < 0xdc00

def isLow (n : Nat) : Bool := 0xdc00 ≤ n && n < 0xe000

/-- The characters of a list of code points in which surrogates come in pairs. -/
def joinPairs : List Nat → Option (List Char)
  | [] => some []
  | [n] => if isHigh n || isLow n then none else some [Char.ofNat n]
  | n :: m :: rest =>
    if isHigh n then
      if isLow m then
        (joinPairs rest).map (Char.ofNat (0x10000 + (n - 0xd800) * 0x400 + (m - 0xdc00)) :: ·)
      else none
    else if isLow n then none
    else (joinPairs (m :: rest)).map (Char.ofNat n :: ·)

def stringToken (seen : List Nat) : Token :=
  .str ((joinPairs seen.reverse).map String.ofList)

def hexValue? (c : Char) : Option Nat :=
  if c.isDigit then some (c.toNat - '0'.toNat)
  else if 'a' ≤ c ∧ c ≤ 'f' then some (c.toNat - 'a'.toNat + 10)
  else if 'A' ≤ c ∧ c ≤ 'F' then some (c.toNat - 'A'.toNat + 10)
  else none

/-- The character that a one-letter escape stands for. -/
def escaped? (c : Char) : Option Nat :=
  match c with
  | '"' => some 0x22
  | '\\' => some 0x5c
  | '/' => some 0x2f
  | 'b' => some 0x08
  | 'f' => some 0x0c
  | 'n' => some 0x0a
  | 'r' => some 0x0d
  | 't' => some 0x09
  | _ => none

/-- What a character outside words and strings does. -/
def stepBetween (c : Char) : Option (Mode × List Token) :=
  if isBlank c then some (between, [])
  else if isWordChar c then some (word [c], [])
  else
    match c with
    | '[' => some (between, [.openArray])
    | ']' => some (between, [.closeArray])
    | '\x7b' => some (between, [.openObject])
    | '\x7d' => some (between, [.closeObject])
    | ':' => some (between, [.colon])
    | ',' => some (between, [.comma])
    | '"' => some (string [], [])
    | _ => none

/-- How the lexer goes on after a character, and the tokens it has completed. -/
def step : Mode → Char → Option (Mode × List Token)
  | between, c => stepBetween c
  | word seen, c =>
    if isWordChar c then some (word (c :: seen), [])
    else do
      let token ← wordToken? seen.reverse
      let (mode, tokens) ← stepBetween c
      return (mode, token :: tokens)
  | string seen, c =>
    if c = '"' then some (between, [stringToken seen])
    else if c = '\\' then some (escape seen, [])
    else if c.toNat < 0x20 then none
    else some (string (c.toNat :: seen), [])
  | escape seen, c =>
    if c = 'u' then some (unicode seen 0 0, [])
    else (escaped? c).map fun n => (string (n :: seen), [])
  | unicode seen digits value, c => do
    let value := value * 16 + (← hexValue? c)
    return if digits = 3 then (string (value :: seen), [])
      else (unicode seen (digits + 1) value, [])

/-- What the end of the text completes. -/
def finish : Mode → Option (List Token)
  | between => some []
  | word seen => (wordToken? seen.reverse).map ([·])
  | _ => none

/-- The tokens of the characters that are left. -/
def run (mode : Mode) : List Char → Option (List Token)
  | [] => mode.finish
  | c :: cs => do
    let (mode, tokens) ← mode.step c
    return tokens ++ (← run mode cs)

end Mode

def tokens? (cs : List Char) : Option (List Token) := Mode.between.run cs

end Dataflow.Json
