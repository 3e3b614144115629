import Phrasebook.Json.Syntax

/-!
# Writing JSON objects

An object is written with one member on a line. In a text the quote, the backslash
and the control characters are escaped, by a letter where there is one; all else
stands for itself.
-/

namespace Phrasebook.Json

def numericEscape (n : Nat) : List Char :=
  ['\\', 'u', '0', '0', Nat.digitChar (n / 16), Nat.digitChar (n % 16)]

def quoteChar (c : Char) : List Char :=
  if c = '"' then ['\\', '"']
  else if c = '\\' then ['\\', '\\']
  else if c = '\x08' then ['\\', 'b']
  else if c = '\x0C' then ['\\', 'f']
  else if c = '\n' then ['\\', 'n']
  else if c = '\r' then ['\\', 'r']
  else if c = '\t' then ['\\', 't']
  else if c.toNat < 0x20 then numericEscape c.toNat
  else [c]

def quote (text : String) : List Char := '"' :: text.toList.flatMap quoteChar ++ ['"']

def writeScalar : Scalar → List Char
  | .text content => quote content
  | .bool true => ['t', 'r', 'u', 'e']
  | .bool false => ['f', 'a', 'l', 's', 'e']

def memberLine (m : String × Scalar) : List Char :=
  ['\n', ' ', ' '] ++ quote m.1 ++ [':', ' '] ++ writeScalar m.2

def memberLines : List (String × Scalar) → List Char
  | [] => []
  | [m] => memberLine m ++ ['\n']
  | m :: next :: rest => memberLine m ++ [','] ++ memberLines (next :: rest)

def pretty (members : List (String × Scalar)) : String :=
  String.ofList (['{'] ++ memberLines members ++ ['}'])

end Phrasebook.Json
