import DeadCode.Span

/-! # Source texts

A source text is a string addressed by byte offsets into its UTF-8 form. `Source.slice?` cuts out
the text of a range, and `Source.locate` turns an offset into a line and a column by walking over
the bytes before it. -/

namespace DeadCode.Source

/-- The text between two byte offsets, if both fall between characters and are in order. -/
def slice? (source : String) (span : Span) : Option String :=
  if (String.Pos.Raw.mk span.start).isValid source && (String.Pos.Raw.mk span.stop).isValid source
      && span.start ≤ span.stop then
    some ((String.Pos.Raw.mk span.start).extract source (String.Pos.Raw.mk span.stop))
  else
    none

/-- Whether the byte at an offset is a line feed. -/
def isLineFeed (bytes : ByteArray) (offset : Nat) : Bool :=
  if h : offset < bytes.size then bytes[offset] == 10 else false

/-- The row and column reached after `count` more bytes from `offset`, standing at `row` and
`column`. A line feed starts the next row; every other byte moves one column on. -/
def advance (bytes : ByteArray) : (count offset row column : Nat) → Nat × Nat
  | 0, _, row, column => (row, column)
  | count + 1, offset, row, column =>
    if isLineFeed bytes offset then advance bytes count (offset + 1) (row + 1) 0
    else advance bytes count (offset + 1) row (column + 1)

/-- The row and column of a byte offset, both counted from zero. -/
def position (source : String) (offset : Nat) : Nat × Nat :=
  advance source.toUTF8 offset 0 0 0

/-- The location of a byte offset: its row counted from one, and its column. -/
def locate (source : String) (offset : Nat) : Location :=
  let (row, column) := position source offset
  { line := row + 1, column }

end DeadCode.Source
