import DeadCode.Json.Basic
import DeadCode.Syntax.Node

/-! # Syntax trees in JSON

A node is written as an array of its kind, the two ends of its byte range, its flags as a number,
the label of its field, and its children. The children are left out if there are none, and then the
label too if it is empty. -/

namespace DeadCode.Node

/-- The flags that the bits of a number stand for. -/
def flagsOfBits (bits : Nat) : Flags :=
  { named := bits.testBit 0, isError := bits.testBit 1, isMissing := bits.testBit 2
    hasError := bits.testBit 3 }

/-- The field of a label; the empty label stands for none. -/
def fieldOfLabel? (label : String) : Option Field :=
  if label.isEmpty then none else some (Field.ofLabel label)

/-- A node from its parts. -/
def ofParts? (kind : String) (start stop bits : Json) (label : String) (children : List Node) :
    Option Node := do
  return {
    kind := Kind.ofName kind
    span := { start := ← start.nat?, stop := ← stop.nat? }
    flags := flagsOfBits (← bits.nat?)
    field := fieldOfLabel? label
    children }

mutual

/-- The node that a JSON value spells. -/
def ofJson? : Json → Option Node
  | .array [.string kind, start, stop, bits] => ofParts? kind start stop bits "" []
  | .array [.string kind, start, stop, bits, .string label] =>
    ofParts? kind start stop bits label []
  | .array [.string kind, start, stop, bits, .string label, .array children] => do
    ofParts? kind start stop bits label (← ofJsons? children)
  | _ => none

/-- The nodes that JSON values spell. -/
def ofJsons? : List Json → Option (List Node)
  | [] => some []
  | value :: rest => do
    let node ← ofJson? value
    return node :: (← ofJsons? rest)

end

end DeadCode.Node
