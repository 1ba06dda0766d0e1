import DeadCode.Syntax.Node

/-! # Bindings

A `Binding` is what a scope knows of one name: the statement that declares it, the module it is
imported from, the callable it stands for, and the members it is known to have, which are bindings
themselves. A table of bindings stores each of them under a name, and at most one under the same name
when it is grown by `Binding.insert`. That this is the name of the binding itself is up to those who
store it. -/

namespace DeadCode

/-- The index of a statement in the graph of its file. -/
abbrev VertexId := Nat

/-- Where an imported binding comes from. -/
structure Origin where
  /-- The module specifier as written. -/
  source : String
  /-- The name in that module; none for the module as a whole. -/
  name : Option String
deriving DecidableEq, Inhabited, Repr

/-- What is known of one name. -/
structure Binding where
  /-- The name itself. -/
  name : String
  /-- The statement that declares the name; ambient and implicit names have none. -/
  declaration : Option VertexId := none
  /-- The module the name is imported from. -/
  origin : Option Origin := none
  /-- The name under which the binding is exported. -/
  exportName : Option String := none
  /-- The function, method or class the name stands for. -/
  callable : Option Key := none
  /-- The known members, each with the name it is stored under. -/
  members : List (String × Binding) := []
deriving Inhabited, Repr

namespace Binding

/-- The binding stored under a name in a table. -/
def find? (table : List (String × Binding)) (name : String) : Option Binding :=
  match table with
  | [] => none
  | (key, binding) :: rest => if key = name then some binding else find? rest name

/-- A table with a binding stored under a name, in the place of what was there. -/
def insert (table : List (String × Binding)) (name : String) (binding : Binding) :
    List (String × Binding) :=
  match table with
  | [] => [(name, binding)]
  | (key, b) :: rest =>
    if key = name then (name, binding) :: rest else (key, b) :: insert rest name binding

/-- A table with all that is stored in another put in, one after the other. -/
def insertAll (table more : List (String × Binding)) : List (String × Binding) :=
  more.foldl (fun table entry => insert table entry.1 entry.2) table

/-- A table with `update` applied to the binding stored under a name. -/
def modify (table : List (String × Binding)) (name : String) (update : Binding → Binding) :
    List (String × Binding) :=
  match table with
  | [] => []
  | (key, b) :: rest =>
    if key = name then (key, update b) :: rest else (key, b) :: modify rest name update

/-- The binding of a name that a statement declares. -/
def declared (name : String) (vertex : VertexId) : Binding :=
  { name, declaration := some vertex }

/-- A binding that no statement declares. -/
def placeholder (name : String) : Binding :=
  { name }

/-- The binding with a member put in. -/
def withMember (binding member : Binding) : Binding :=
  { binding with members := insert binding.members member.name member }

/-! ## Members along a chain -/

/-- The segment of a chain that leads from an object to itself. -/
def selfSegment : String := "prototype"

/-- The member a segment of a chain leads to. -/
def member? (binding : Binding) (segment : String) : Option Binding :=
  if segment = selfSegment then some binding else find? binding.members segment

/-- The member a list of segments leads to. -/
def descend? (binding : Binding) : List String → Option Binding
  | [] => some binding
  | segment :: rest => (binding.member? segment).bind (·.descend? rest)

/-- The deepest member that the first segments of a list lead to, and how many they are. -/
def descendFar (binding : Binding) : List String → Binding × Nat
  | [] => (binding, 0)
  | segment :: rest =>
    match binding.member? segment with
    | some member =>
      let (deepest, depth) := member.descendFar rest
      (deepest, depth + 1)
    | none => (binding, 0)

/-- The binding with `update` applied to the member a list of segments leads to; a list that leads
nowhere changes nothing. -/
def updateAt (update : Binding → Binding) : List String → Binding → Binding
  | [], binding => update binding
  | segment :: rest, binding =>
    if segment = selfSegment then updateAt update rest binding
    else { binding with members := modify binding.members segment (updateAt update rest) }

end Binding

end DeadCode
