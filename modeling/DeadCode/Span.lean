/-! # Byte ranges and source locations

A `Span` is a half-open range of byte offsets in a source text. Spans nest, and `Span.distance`
measures how loosely one encloses another: the statement a piece of syntax belongs to is the
enclosing one at the least distance. A `Location` is what a reader of a report sees: a line counted
from one and a column counted in bytes from zero. -/

namespace DeadCode

/-- A half-open range `[start, stop)` of byte offsets. -/
structure Span where
  /-- The first offset of the range. -/
  start : Nat
  /-- The first offset after the range. -/
  stop : Nat
deriving DecidableEq, Inhabited, Repr, Ord

namespace Span

/-- Whether `inner` lies entirely inside `outer`. -/
def contains (outer inner : Span) : Bool :=
  outer.start ≤ inner.start && inner.stop ≤ outer.stop

/-- The gap between two offsets, in either direction. -/
def gap (a b : Nat) : Nat :=
  max a b - min a b

/-- The sum of the squared gaps between the starts and between the stops of two ranges. -/
def squaredDistance (a b : Span) : Nat :=
  gap a.start b.start * gap a.start b.start + gap a.stop b.stop * gap a.stop b.stop

/-- The number of values of a word of 128 bits. -/
def wordSize : Nat := 340282366920938463463374607431768211456

/-- The squared distance as it is kept: in a word of 128 bits. -/
def distance (a b : Span) : Nat :=
  a.squaredDistance b % wordSize

/-- The range written as `start..stop`. -/
def render (span : Span) : String :=
  s!"{span.start}..{span.stop}"

end Span

/-- A place in a source text: a line counted from one and a byte column counted from zero. -/
structure Location where
  /-- The line, counted from one. -/
  line : Nat
  /-- The column, in bytes since the line began. -/
  column : Nat
deriving DecidableEq, Inhabited, Repr, Ord

/-- The location written as `line:column`. -/
def Location.render (location : Location) : String :=
  s!"{location.line}:{location.column}"

end DeadCode
