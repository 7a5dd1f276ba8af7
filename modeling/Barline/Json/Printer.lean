import Barline.Json.Value

/-!
# Writing JSON

`Json.pretty` writes a value over several lines, two blanks for each level, with
`"name": value` for members and `[]` and `{}` for what is empty.  In strings
only the quote, the backslash and control characters are escaped.
-/

namespace Barline.Json

/-- A character inside a string literal. -/
def escaped (c : Char) : List Char :=
  match c with
  | '"' => ['\\', '"']
  | '\\' => ['\\', '\\']
  | '\x08' => ['\\', 'b']
  | '\x0c' => ['\\', 'f']
  | '\n' => ['\\', 'n']
  | '\r' => ['\\', 'r']
  | '\t' => ['\\', 't']
  | c =>
    if c.toNat < 0x20 then
      ['\\', 'u', '0', '0', Text.hexadecimal.hexDigit (c.toNat / 16),
        Text.hexadecimal.hexDigit (c.toNat % 16)]
    else [c]

/-- A string literal.  What stands for no text is written as null. -/
def literal : Option String → List Char
  | some s => '"' :: s.toList.flatMap escaped ++ ['"']
  | none => "null".toList

/-- The start of a new line at a level. -/
def newline (level : Nat) : List Char := '\n' :: List.replicate (2 * level) ' '

mutual

/-- Writes a value that stands at a level. -/
def prettyAt (level : Nat) : Json → List Char
  | .null => "null".toList
  | .bool true => "true".toList
  | .bool false => "false".toList
  | .number n => n.text
  | .string s => literal s
  | .array [] => ['[', ']']
  | .array items => '[' :: prettyItems (level + 1) items ++ newline level ++ [']']
  | .object [] => ['{', '}']
  | .object members => '{' :: prettyMembers (level + 1) members ++ newline level ++ ['}']

/-- Writes the values of an array, each on a line of its own. -/
def prettyItems (level : Nat) : List Json → List Char
  | [] => []
  | [v] => newline level ++ prettyAt level v
  | v :: rest => newline level ++ prettyAt level v ++ ',' :: prettyItems level rest

/-- Writes the members of an object, each on a line of its own. -/
def prettyMembers (level : Nat) : List (Option String × Json) → List Char
  | [] => []
  | [(name, v)] => newline level ++ literal name ++ ':' :: ' ' :: prettyAt level v
  | (name, v) :: rest =>
    newline level ++ literal name ++ ':' :: ' ' :: prettyAt level v ++
      ',' :: prettyMembers level rest

end

/-- The text of a value over several lines. -/
def pretty (v : Json) : List Char := prettyAt 0 v

end Barline.Json
