/-! # JSON values

A JSON value as it is written: numbers keep their digits, and objects keep the order of their
fields and every repetition of a name. `Json.pretty` writes a value over several lines, indented by
two blanks. -/

namespace DeadCode

/-- A JSON value. -/
inductive Json where
  | null
  | bool (value : Bool)
  | number (digits : String)
  | string (text : String)
  | array (items : List Json)
  | object (fields : List (String × Json))
deriving Inhabited, Repr

namespace Json

/-- A natural number as a JSON value. -/
def ofNat (n : Nat) : Json :=
  number (toString n)

/-- The natural number a value is. -/
def nat? : Json → Option Nat
  | number digits => if digits.toList.all Char.isDigit then digits.toNat? else none
  | _ => none

/-- The text a value is. -/
def string? : Json → Option String
  | string text => some text
  | _ => none

/-- The items of an array. -/
def array? : Json → Option (List Json)
  | array items => some items
  | _ => none

/-! ## Writing -/

/-- A digit to the base sixteen, in lower case. -/
def hexDigit (n : Nat) : Char :=
  "0123456789abcdef".toList.getD n '0'

/-- A character as it stands inside a quoted text: quotes, backslashes and control characters are
escaped, all else stands for itself. -/
def escapeChar (c : Char) : List Char :=
  if c = '"' then ['\\', '"']
  else if c = '\\' then ['\\', '\\']
  else if c = '\x08' then ['\\', 'b']
  else if c = '\x0c' then ['\\', 'f']
  else if c = '\n' then ['\\', 'n']
  else if c = '\r' then ['\\', 'r']
  else if c = '\t' then ['\\', 't']
  else if c.toNat < 0x20 then
    ['\\', 'u', '0', '0', hexDigit (c.toNat / 16), hexDigit (c.toNat % 16)]
  else [c]

/-- A text in double quotes. -/
def quote (text : String) : String :=
  "\"" ++ String.ofList (text.toList.flatMap escapeChar) ++ "\""

/-- A line break followed by the indentation of a nesting depth. -/
def lineBreak (depth : Nat) : String :=
  "\n" ++ String.ofList (List.replicate (2 * depth) ' ')

/-- Written items between brackets, each on a line of its own; nothing stands between the brackets
if there are no items. -/
def bracketed (opening closing : String) (depth : Nat) (items : List String) : String :=
  match items with
  | [] => opening ++ closing
  | items =>
    opening ++ lineBreak (depth + 1) ++ ("," ++ lineBreak (depth + 1)).intercalate items
      ++ lineBreak depth ++ closing

mutual

/-- A value written at a nesting depth. -/
def prettyAt (depth : Nat) : Json → String
  | null => "null"
  | bool true => "true"
  | bool false => "false"
  | number digits => digits
  | string text => quote text
  | array items => bracketed "[" "]" depth (prettyItems depth items)
  | object fields => bracketed "\x7b" "\x7d" depth (prettyFields depth fields)

/-- The items of an array written one level deeper. -/
def prettyItems (depth : Nat) : List Json → List String
  | [] => []
  | item :: rest => prettyAt (depth + 1) item :: prettyItems depth rest

/-- The fields of an object written one level deeper. -/
def prettyFields (depth : Nat) : List (String × Json) → List String
  | [] => []
  | (name, value) :: rest =>
    (quote name ++ ": " ++ prettyAt (depth + 1) value) :: prettyFields depth rest

end

/-- A value written over several lines. -/
def pretty (value : Json) : String :=
  prettyAt 0 value

end Json

end DeadCode
