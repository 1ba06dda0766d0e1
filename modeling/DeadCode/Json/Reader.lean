import DeadCode.Json.Basic
import DeadCode.Json.Number

/-! # Reading JSON texts

A text is read from left to right, and the first problem decides how the reading fails: the text
ends too early, it is no JSON, or it is JSON of another shape than is wanted. A value that is wanted
is read strictly: its numbers fit a double, its surrogate escapes come in pairs, and its nesting is
bounded. A value that nobody wants is skipped with less care. -/

namespace DeadCode

namespace Json

/-- The ways in which reading can fail. -/
inductive Fault where
  /-- The text ends too early. -/
  | truncated
  /-- The text is no JSON. -/
  | malformed
  /-- The text is JSON so far, but not of the shape that is wanted. -/
  | mismatched
deriving DecidableEq, Inhabited, Repr

/-- A reading takes something off the front of a text. -/
abbrev Reader := StateT (List Char) (Except Fault)

namespace Reader

/-- Whether a character is white space between tokens. -/
def isBlank (c : Char) : Bool :=
  c = ' ' || c = '\n' || c = '\t' || c = '\r'

/-- The text from its next token on. -/
def rest : Reader (List Char) := do
  modify (·.dropWhile isBlank)
  get

/-- Takes the given characters off the text, up to the first that does not fit. -/
def expect : List Char → Reader Unit
  | [] => pure ()
  | c :: more => do
    match ← get with
    | [] => throw .truncated
    | d :: rest =>
      set rest
      if d = c then expect more else throw .malformed

/-! ## Strings -/

/-- The value of a digit to the base sixteen. -/
def hexValue? (c : Char) : Option Nat :=
  if c.isDigit then some (c.toNat - '0'.toNat)
  else if 'a' ≤ c && c ≤ 'f' then some (c.toNat - 'a'.toNat + 10)
  else if 'A' ≤ c && c ≤ 'F' then some (c.toNat - 'A'.toNat + 10)
  else none

/-- The value of four digits to the base sixteen. -/
def hexValue4? (a b c d : Char) : Option Nat := do
  return ((← hexValue? a) * 16 + (← hexValue? b)) * 256 + (← hexValue? c) * 16 + (← hexValue? d)

/-- What is wrong where four digits were wanted: fewer than four bytes are left, or they are no
digits. -/
def hexFault (rest : List Char) : Fault :=
  if (String.ofList rest).utf8ByteSize < 4 then .truncated else .malformed

/-- Whether a code unit is the first half of a surrogate pair. -/
def isHighSurrogate (unit : Nat) : Bool :=
  0xD800 ≤ unit && unit ≤ 0xDBFF

/-- Whether a code unit is the second half of a surrogate pair. -/
def isLowSurrogate (unit : Nat) : Bool :=
  0xDC00 ≤ unit && unit ≤ 0xDFFF

/-- The character of a surrogate pair. -/
def pairChar (high low : Nat) : Char :=
  Char.ofNat ((high - 0xD800) * 1024 + (low - 0xDC00) + 0x10000)

/-- What is wrong where the escape of a second surrogate was wanted. -/
def pairFault : List Char → Fault
  | [] | ['\\'] => .truncated
  | '\\' :: 'u' :: rest => hexFault rest
  | _ => .malformed

/-- The character that follows a backslash in an escape other than that of a code unit. -/
def escaped? : Char → Option Char
  | '"' => some '"'
  | '\\' => some '\\'
  | '/' => some '/'
  | 'b' => some '\x08'
  | 'f' => some '\x0c'
  | 'n' => some '\n'
  | 'r' => some '\r'
  | 't' => some '\t'
  | _ => none

/-- The rest of a string after its opening quote: its characters, put before those in `taken` in
reverse, and the text after the closing quote. When read strictly, surrogates come in pairs. -/
def stringRest (strict : Bool) (taken : List Char) :
    List Char → Except Fault (List Char × List Char)
  | [] => .error .truncated
  | '"' :: rest => .ok (taken.reverse, rest)
  | '\\' :: 'u' :: a :: b :: c :: d :: rest =>
    match hexValue4? a b c d with
    | none => .error .malformed
    | some unit =>
      if strict && isLowSurrogate unit then .error .malformed
      else if strict && isHighSurrogate unit then
        match rest with
        | '\\' :: 'u' :: e :: f :: g :: h :: rest =>
          match hexValue4? e f g h with
          | none => .error .malformed
          | some low =>
            if isLowSurrogate low then stringRest strict (pairChar unit low :: taken) rest
            else .error .malformed
        | rest => .error (pairFault rest)
      else stringRest strict (Char.ofNat unit :: taken) rest
  | '\\' :: 'u' :: rest => .error (hexFault rest)
  | ['\\'] => .error .truncated
  | '\\' :: c :: rest =>
    match escaped? c with
    | some c => stringRest strict (c :: taken) rest
    | none => .error .malformed
  | c :: rest => if c.toNat < 0x20 then .error .malformed else stringRest strict (c :: taken) rest

/-- The rest of a string after its opening quote. -/
def string (strict : Bool) : Reader String := do
  let (text, rest) ← stringRest strict [] (← get)
  set rest
  return String.ofList text

/-! ## Numbers -/

/-- What is wrong where a digit was wanted. The end of the text is a fault of its own only when the
number is wanted. -/
def digitFault (strict : Bool) (rest : List Char) : Fault :=
  if strict && rest.isEmpty then .truncated else .malformed

/-- The digits the text starts with. -/
def digits : Reader (List Char) := do
  let text ← get
  set (text.dropWhile Char.isDigit)
  return text.takeWhile Char.isDigit

/-- One or more digits. -/
def someDigits (strict : Bool) : Reader (List Char) := do
  match ← digits with
  | [] => throw (digitFault strict (← get))
  | digits => return digits

/-- The digits of an integer; only zero itself starts with a zero. -/
def integer (strict : Bool) : Reader (List Char) := do
  match ← someDigits strict with
  | '0' :: _ :: _ => throw .malformed
  | digits => return digits

/-- The fraction of a number, if it has one. -/
def fraction (strict : Bool) : Reader (List Char) := do
  match ← get with
  | '.' :: rest =>
    set rest
    someDigits strict
  | _ => return []

/-- The sign of an exponent: whether it is negative. -/
def exponentSign : Reader Bool := do
  match ← get with
  | '+' :: rest =>
    set rest
    return false
  | '-' :: rest =>
    set rest
    return true
  | _ => return false

/-- The exponent of a number, if it has one, and whether it is negative. -/
def exponent (strict : Bool) : Reader (List Char × Bool) := do
  match ← get with
  | 'e' :: rest | 'E' :: rest =>
    set rest
    let negative ← exponentSign
    return (← someDigits strict, negative)
  | _ => return ([], false)

/-- A number without its sign, as it is written. When read strictly, it fits a double. -/
def number (strict : Bool) : Reader String := do
  let start ← get
  let integer ← integer strict
  let fraction ← fraction strict
  let (exponent, exponentNegative) ← exponent strict
  let digits : Digits := { integer, fraction, exponent, exponentNegative }
  if strict && digits.isTooLarge then throw .malformed
  return String.ofList (start.take (start.length - (← get).length))

/-! ## Values that are skipped -/

/-- The brackets a skipped value is nested in. -/
inductive Bracket where
  | square
  | curly
deriving DecidableEq, Inhabited, Repr

/-- The closing bracket. -/
def Bracket.closing : Bracket → Char
  | square => ']'
  | curly => '\x7d'

/-- Skips a value that is no array and no object. -/
def skipScalar : Reader Unit := do
  match ← rest with
  | [] => throw .truncated
  | 'n' :: _ => expect "null".toList
  | 't' :: _ => expect "true".toList
  | 'f' :: _ => expect "false".toList
  | '"' :: more =>
    set more
    let _ ← string false
  | '-' :: more =>
    set more
    let _ ← number false
  | _ :: _ =>
    let _ ← number false

/-- Skips the name of a field and the colon after it. -/
def skipName : Reader Unit := do
  match ← rest with
  | [] => throw .truncated
  | '"' :: more =>
    set more
    let _ ← string false
    match ← rest with
    | [] => throw .truncated
    | ':' :: more => set more
    | _ => throw .malformed
  | _ => throw .malformed

/-- Skips closing brackets, and a comma if another item follows. The answer is the list of brackets
that are still open. -/
def skipClosing : (limit : Nat) → (afterItem : Bool) → List Bracket → Reader (List Bracket)
  | 0, _, _ => throw .malformed
  | _, _, [] => return []
  | limit + 1, afterItem, bracket :: outer => do
    match ← rest with
    | [] => throw .truncated
    | c :: more =>
      if c = bracket.closing then
        set more
        skipClosing limit true outer
      else if afterItem then
        if c = ',' then
          set more
          return bracket :: outer
        else throw .malformed
      else return bracket :: outer

/-- Skips the items that are left inside open brackets. -/
def skipItems : (limit : Nat) → List Bracket → Reader Unit
  | 0, _ => throw .malformed
  | limit + 1, brackets => do
    if brackets.head? = some .curly then skipName
    let opened ←
      match ← rest with
      | '[' :: more =>
        set more
        pure (some Bracket.square)
      | '\x7b' :: more =>
        set more
        pure (some Bracket.curly)
      | _ =>
        skipScalar
        pure none
    match ← skipClosing (limit + 1) opened.isNone (opened.toList ++ brackets) with
    | [] => return ()
    | brackets => skipItems limit brackets

/-- Skips a value of any shape. -/
def skip : Reader Unit := do
  skipItems ((← get).length + 1) []

/-! ## Values that are wanted -/

/-- The deepest nesting of a document that is read. -/
def maxDepth : Nat := 127

/-- Whether another item of an array follows; the comma before it is taken off. -/
def hasItem (first : Bool) : Reader Bool := do
  match ← rest with
  | [] => throw .truncated
  | ']' :: _ => return false
  | c :: more =>
    if first then return true
    else if c = ',' then
      set more
      match ← rest with
      | [] => throw .truncated
      | ']' :: _ => throw .malformed
      | _ => return true
    else throw .malformed

/-- Whether another field of an object follows; the comma before it and the quote that opens its
name are taken off. -/
def hasField (first : Bool) : Reader Bool := do
  let name : Reader Bool := do
    match ← rest with
    | [] => throw .truncated
    | '"' :: more =>
      set more
      return true
    | _ => throw .malformed
  match ← rest with
  | [] => throw .truncated
  | '\x7d' :: _ => return false
  | c :: more =>
    if first then name
    else if c = ',' then
      set more
      name
    else throw .malformed

/-- The colon between the name of a field and its value. -/
def colon : Reader Unit := do
  match ← rest with
  | [] => throw .truncated
  | ':' :: more => set more
  | _ => throw .malformed

mutual

/-- A value nested at most `depth` deep. -/
def valueWithin : (limit depth : Nat) → Reader Json
  | 0, _ => throw .malformed
  | limit + 1, depth => do
    match ← rest with
    | [] => throw .truncated
    | 'n' :: _ =>
      expect "null".toList
      return .null
    | 't' :: _ =>
      expect "true".toList
      return .bool true
    | 'f' :: _ =>
      expect "false".toList
      return .bool false
    | '"' :: more =>
      set more
      return .string (← string true)
    | '-' :: more =>
      set more
      return .number ("-" ++ (← number true))
    | '[' :: more =>
      if depth ≤ 1 then throw .malformed
      set more
      return .array (← itemsWithin limit (depth - 1) true)
    | '\x7b' :: more =>
      if depth ≤ 1 then throw .malformed
      set more
      return .object (← fieldsWithin limit (depth - 1) true)
    | c :: _ => if c.isDigit then return .number (← number true) else throw .malformed

/-- The items of an array that are left, with the closing bracket. -/
def itemsWithin : (limit depth : Nat) → (first : Bool) → Reader (List Json)
  | 0, _, _ => throw .malformed
  | limit + 1, depth, first => do
    if ← hasItem first then
      let item ← valueWithin limit depth
      return item :: (← itemsWithin limit depth false)
    else
      expect [']']
      return []

/-- The fields of an object that are left, with the closing bracket. -/
def fieldsWithin : (limit depth : Nat) → (first : Bool) → Reader (List (String × Json))
  | 0, _, _ => throw .malformed
  | limit + 1, depth, first => do
    if ← hasField first then
      let name ← string true
      colon
      let value ← valueWithin limit depth
      return (name, value) :: (← fieldsWithin limit depth false)
    else
      expect ['\x7d']
      return []

end

/-- A value of any shape, nested at most `depth` deep. -/
def value (depth : Nat) : Reader Json := do
  valueWithin (2 * (← get).length + 1) depth

/-- The fault of a value that has the wrong shape. A scalar is read to its end first, so that what is
wrong with its spelling comes before what is wrong with its shape. -/
def wrongShape {α : Type} : Reader α := do
  match ← rest with
  | [] => throw .truncated
  | '[' :: _ | '\x7b' :: _ => throw .mismatched
  | _ =>
    let _ ← value maxDepth
    throw .mismatched

/-- The end of the text: only white space is left. -/
def atEnd : Reader Unit := do
  match ← rest with
  | [] => return ()
  | _ => throw .malformed

end Reader

end Json

end DeadCode
