/-! # Relations between statements

An edge of a statement graph says how one statement refers to another: it reads, calls or writes
what the other declares, passes it as an argument, owns it, imports it, and so on. -/

namespace DeadCode

/-- The kinds of relations between statements. -/
inductive RelationKind where
  | call
  | read
  | write
  | readProp
  | writeProp
  | deleteProp
  | returns
  | arg
  | param
  /-- A statement owns a statement nested in it. -/
  | decl
  | imports
  | exports
deriving DecidableEq, Inhabited, Repr

namespace RelationKind

/-- The label of a kind of relation. -/
def label : RelationKind → String
  | call => "CALL"
  | read => "READ"
  | write => "WRITE"
  | readProp => "READ_PROP"
  | writeProp => "WRITE_PROP"
  | deleteProp => "DELETE_PROP"
  | returns => "RETURN"
  | arg => "ARG"
  | param => "PARAM"
  | decl => "DECL"
  | imports => "IMPORT"
  | exports => "EXPORT"

/-- The kinds of relations, in the order of their declaration. -/
def all : List RelationKind :=
  [call, read, write, readProp, writeProp, deleteProp, returns, arg, param, decl, imports, exports]

/-- The kind of relation with a label. -/
def ofLabel? (label : String) : Option RelationKind :=
  all.find? (·.label = label)

/-- Whether a relation of this kind counts as a use of its target. -/
def isUsage : RelationKind → Bool
  | call | read | readProp | writeProp | deleteProp | arg | imports => true
  | write | returns | param | decl | exports => false

end RelationKind

/-- A relation: its kind, and where they matter the name it goes by and a position. -/
structure Relation where
  /-- The kind of the relation. -/
  kind : RelationKind
  /-- The name or chain of names through which the statements are related. -/
  var : Option String := none
  /-- The position of an argument or a parameter. -/
  index : Option Nat := none
deriving DecidableEq, Inhabited, Repr

namespace Relation

/-- A relation through a name. -/
def named (kind : RelationKind) (var : String) : Relation :=
  { kind, var := some var }

/-- A relation through a name at a position. -/
def indexed (kind : RelationKind) (var : String) (index : Nat) : Relation :=
  { kind, var := some var, index := some index }

/-- The text of a relation: its label, name and position. -/
def render (relation : Relation) : String :=
  relation.kind.label
    ++ (match relation.var with
      | some var => " " ++ var
      | none => "")
    ++ (match relation.index with
      | some index => s!" #{index}"
      | none => "")

end Relation

end DeadCode
