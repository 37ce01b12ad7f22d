import Dataflow.Text.Hidden

/-!
# Quoted texts and bracketed lists

How messages show a list: in brackets, its members separated by a comma and a blank, texts in
double quotes. Inside the quotes a quote, a backslash and the usual control characters are
escaped, and characters that would not show are spelled by their code point.
-/

namespace Dataflow.Text

/-- The lower-case hexadecimal digits of `n`, without leading zeros. -/
def hex (n : Nat) : List Char := Nat.toDigits 16 n

def quoteChar (c : Char) : List Char :=
  if c = '"' then ['\\', '"']
  else if c = '\\' then ['\\', '\\']
  else if c = '\n' then ['\\', 'n']
  else if c = '\r' then ['\\', 'r']
  else if c = '\t' then ['\\', 't']
  else if c = '\x00' then ['\\', '0']
  else if isHidden c then ['\\', 'u', '\x7b'] ++ hex c.toNat ++ ['\x7d']
  else [c]

def quote (s : String) : String :=
  String.ofList ('"' :: s.toList.flatMap quoteChar ++ ['"'])

def bracket (items : List String) : String := "[" ++ ", ".intercalate items ++ "]"

def quoteList (items : List String) : String := bracket (items.map quote)

def showInts (items : List Int) : String := bracket (items.map toString)

def showSizes (items : List Nat) : String := bracket (items.map toString)

end Dataflow.Text
