import DeadCode.Json.Basic
import Mathlib.Data.List.Basic
import Std.Data.String.ToNat

/-! # Written values can be told apart

A value is written so that its end can be seen: a quote ends a text, a bracket ends an array or an
object, and a number ends where no digit follows. So no written value goes on as another one. -/

namespace DeadCode

namespace Json

/-- The values whose numbers are written in digits. -/
inductive Proper : Json → Prop where
  | null : Proper null
  | bool (value : Bool) : Proper (bool value)
  | number {digits : String} (hne : digits.toList ≠ []) (h : ∀ c ∈ digits.toList, c.isDigit) :
      Proper (number digits)
  | string (text : String) : Proper (string text)
  | array {items : List Json} (h : ∀ item ∈ items, Proper item) : Proper (array items)
  | object {fields : List (String × Json)} (h : ∀ f ∈ fields, Proper f.2) : Proper (object fields)

theorem proper_ofNat (n : Nat) : (ofNat n).Proper := by
  have hdigits : (toString n).toList = Nat.toDigits 10 n := Nat.toList_repr
  refine .number ?_ fun c hc => ?_
  · rw [hdigits]
    exact Nat.toDigits_ne_nil
  · rw [hdigits] at hc
    exact Nat.isDigit_of_mem_toDigits (by decide) (by decide) hc

theorem ofNat_inj {m n : Nat} : ofNat m = ofNat n ↔ m = n := by
  rw [ofNat, ofNat, number.injEq]
  exact Nat.repr_inj

/-- A text does not go on with a digit. -/
def Stops (rest : List Char) : Prop :=
  ∀ c ∈ rest.head?, ¬ c.isDigit

variable {rest rest' : List Char} {depth : Nat} {value value' : Json}

/-! ## Texts -/

/-- The value of a digit to the base sixteen. -/
def hexValue (c : Char) : Nat :=
  "0123456789abcdef".toList.idxOf c

/-- The first character of an escaped text and what follows it; none at the closing quote. -/
def unescape? : List Char → Option (Char × List Char)
  | '\\' :: 'b' :: rest => some ('\x08', rest)
  | '\\' :: 'f' :: rest => some ('\x0c', rest)
  | '\\' :: 'n' :: rest => some ('\n', rest)
  | '\\' :: 'r' :: rest => some ('\r', rest)
  | '\\' :: 't' :: rest => some ('\t', rest)
  | '\\' :: 'u' :: _ :: _ :: high :: low :: rest =>
    some (Char.ofNat (16 * hexValue high + hexValue low), rest)
  | '\\' :: c :: rest => some (c, rest)
  | '"' :: _ => none
  | c :: rest => some (c, rest)
  | [] => none

theorem unescape?_of_plain {c : Char} (hquote : c ≠ '"') (hslash : c ≠ '\\') :
    unescape? (c :: rest) = some (c, rest) := by
  unfold unescape?
  split <;> simp_all

/-- A character is read as it is written. -/
theorem unescape?_escapeChar (c : Char) (rest : List Char) :
    unescape? (escapeChar c ++ rest) = some (c, rest) := by
  have hhex : ∀ n < 0x20, 16 * hexValue (hexDigit (n / 16)) + hexValue (hexDigit (n % 16)) = n := by
    decide
  unfold escapeChar
  split_ifs with hquote hslash _ _ _ _ _ hcontrol
  all_goals try (subst c; rfl)
  · -- A control character is written by its number.
    change some (Char.ofNat _, rest) = _
    rw [hhex c.toNat hcontrol, Char.ofNat_toNat]
  · exact unescape?_of_plain hquote hslash

/-- Escaped texts are told apart. -/
theorem eq_of_escaped {cs cs' : List Char}
    (h : cs.flatMap escapeChar ++ '"' :: rest = cs'.flatMap escapeChar ++ '"' :: rest') :
    cs = cs' ∧ rest = rest' := by
  induction cs generalizing cs' with
  | nil =>
    cases cs' with
    | nil => simpa using h
    | cons c' cs' =>
      have hfirst := congrArg unescape? h
      rw [List.flatMap_cons, List.append_assoc, unescape?_escapeChar] at hfirst
      cases hfirst
  | cons c cs ih =>
    have hfirst := congrArg unescape? h
    rw [List.flatMap_cons, List.append_assoc, unescape?_escapeChar] at hfirst
    cases cs' with
    | nil => cases hfirst
    | cons c' cs' =>
      rw [List.flatMap_cons, List.append_assoc, unescape?_escapeChar] at hfirst
      obtain ⟨rfl, hmore⟩ := Prod.mk.inj (Option.some.inj hfirst)
      obtain ⟨rfl, hrest⟩ := ih hmore
      exact ⟨rfl, hrest⟩

theorem toList_quote (text : String) :
    (quote text).toList = '"' :: (text.toList.flatMap escapeChar ++ ['"']) := by
  simp [quote]

/-- **Escaping loses nothing of a text.** -/
theorem eq_of_quote {text text' : String}
    (h : (quote text).toList ++ rest = (quote text').toList ++ rest') :
    text = text' ∧ rest = rest' := by
  simp only [toList_quote, List.cons_append, List.append_assoc, List.nil_append] at h
  obtain ⟨htext, hrest⟩ := eq_of_escaped (List.cons.inj h).2
  exact ⟨String.toList_inj.1 htext, hrest⟩

/-! ## Numbers -/

theorem eq_of_digits {ds ds' : List Char} (hds : ∀ c ∈ ds, c.isDigit) (hds' : ∀ c ∈ ds', c.isDigit)
    (hrest : Stops rest) (hrest' : Stops rest') (h : ds ++ rest = ds' ++ rest') :
    ds = ds' ∧ rest = rest' := by
  have htake {ds rest : List Char} (hds : ∀ c ∈ ds, c.isDigit) (hrest : Stops rest) :
      (ds ++ rest).takeWhile Char.isDigit = ds := by
    rw [List.takeWhile_append_of_pos hds]
    cases rest with
    | nil => simp
    | cons c rest => simp [hrest c rfl]
  have heq : ds = ds' := by rw [← htake hds hrest, h, htake hds' hrest']
  subst heq
  exact ⟨rfl, List.append_cancel_left h⟩

/-! ## Lists -/

theorem intercalate_cons {α : Type} (sep x : List α) (xs : List (List α)) :
    sep.intercalate (x :: xs) = x ++ xs.flatMap (sep ++ ·) := by
  induction xs generalizing x with
  | nil => simp
  | cons y xs ih => rw [List.intercalate_cons_cons, ih, List.flatMap_cons]; simp

section Lists

variable {α : Type} {write : α → String} {xs xs' : List α} {opening closing : String} {depth : Nat}

/-- How an item can be told from others: whatever follows, its text is not that of another one. -/
def Told (write : α → String) (xs xs' : List α) : Prop :=
  ∀ x ∈ xs, ∀ x' ∈ xs', ∀ rest rest', Stops rest → Stops rest' →
    (write x).toList ++ rest = (write x').toList ++ rest' → x = x' ∧ rest = rest'

theorem Told.tail {x x' : α} (h : Told write (x :: xs) (x' :: xs')) : Told write xs xs' :=
  fun y hy y' hy' => h y (List.mem_cons_of_mem _ hy) y' (List.mem_cons_of_mem _ hy')

/-- What is written after the first item of a list, up to the end of the list and on. -/
def listed (write : α → String) (depth : Nat) (closing : String) (rest : List Char) (xs : List α) :
    List Char :=
  xs.flatMap (fun x => ',' :: (lineBreak (depth + 1)).toList ++ (write x).toList) ++
    ((lineBreak depth).toList ++ closing.toList ++ rest)

theorem toList_lineBreak (depth : Nat) :
    (lineBreak depth).toList = '\n' :: List.replicate (2 * depth) ' ' := by
  simp [lineBreak]

theorem stops_listed : Stops (listed write depth closing rest xs) := by
  cases xs with
  | nil => simp [Stops, listed, toList_lineBreak]
  | cons x xs => simp [Stops, listed]

/-- Lists are told apart if their elements are. -/
theorem eq_of_listed (hitem : Told write xs xs')
    (h : listed write depth closing rest xs = listed write depth closing rest' xs') :
    xs = xs' ∧ rest = rest' := by
  have hcons (x : α) (xs : List α) (rest : List Char) :
      listed write depth closing rest (x :: xs) = ',' :: ((lineBreak (depth + 1)).toList ++
        ((write x).toList ++ listed write depth closing rest xs)) := by
    simp [listed]
  have hnil (rest : List Char) : listed write depth closing rest [] =
      (lineBreak depth).toList ++ closing.toList ++ rest := by
    simp [listed]
  induction xs generalizing xs' with
  | nil =>
    cases xs' with
    | nil =>
      rw [hnil, hnil] at h
      exact ⟨rfl, List.append_cancel_left h⟩
    | cons x' xs' => simp [hcons, hnil, toList_lineBreak] at h
  | cons x xs ih =>
    cases xs' with
    | nil => simp [hcons, hnil, toList_lineBreak] at h
    | cons x' xs' =>
      rw [hcons, hcons] at h
      obtain ⟨rfl, hmore⟩ := hitem x List.mem_cons_self x' List.mem_cons_self _ _ stops_listed
        stops_listed (List.append_cancel_left (List.cons.inj h).2)
      obtain ⟨rfl, hrest⟩ := ih hitem.tail hmore
      exact ⟨rfl, hrest⟩

theorem toList_bracketed_cons (x : α) :
    (bracketed opening closing depth ((x :: xs).map write)).toList ++ rest = opening.toList ++
      ((lineBreak (depth + 1)).toList ++ ((write x).toList ++
        listed write depth closing rest xs)) := by
  simp only [bracketed, List.map_cons, String.toList_append, String.toList_intercalate,
    intercalate_cons, listed, List.map_map, List.flatMap_map]
  simp

/-- **A list between brackets tells its items**, if each of them can be told. -/
theorem eq_of_bracketed (hclosing : ∀ c ∈ closing.toList.head?, c ≠ '\n') (hne : closing.toList ≠ [])
    (hitem : Told write xs xs')
    (h : (bracketed opening closing depth (xs.map write)).toList ++ rest =
      (bracketed opening closing depth (xs'.map write)).toList ++ rest') :
    xs = xs' ∧ rest = rest' := by
  obtain ⟨c, close, hclose⟩ := List.exists_cons_of_ne_nil hne
  have hc : c ≠ '\n' := hclosing c (by rw [hclose]; rfl)
  have hnil (rest : List Char) :
      (bracketed opening closing depth (([] : List α).map write)).toList ++ rest =
        opening.toList ++ (c :: close ++ rest) := by
    simp [bracketed, hclose]
  cases xs with
  | nil =>
    cases xs' with
    | nil => exact ⟨rfl, List.append_cancel_left h⟩
    | cons x' xs' =>
      rw [hnil, toList_bracketed_cons, List.append_cancel_left_eq, toList_lineBreak] at h
      exact absurd (List.cons.inj h).1 hc
  | cons x xs =>
    cases xs' with
    | nil =>
      rw [hnil, toList_bracketed_cons, List.append_cancel_left_eq, toList_lineBreak] at h
      exact absurd (List.cons.inj h).1.symm hc
    | cons x' xs' =>
      rw [toList_bracketed_cons, toList_bracketed_cons] at h
      obtain ⟨rfl, hmore⟩ := hitem x List.mem_cons_self x' List.mem_cons_self _ _ stops_listed
        stops_listed (List.append_cancel_left (List.append_cancel_left h))
      obtain ⟨rfl, hrest⟩ := eq_of_listed hitem.tail hmore
      exact ⟨rfl, hrest⟩

end Lists

/-! ## Values -/

theorem prettyItems_eq (depth : Nat) (items : List Json) :
    prettyItems depth items = items.map (prettyAt (depth + 1)) := by
  induction items with
  | nil => rfl
  | cons item rest ih => rw [prettyItems, ih, List.map_cons]

/-- A field of an object as it is written. -/
def prettyField (depth : Nat) (field : String × Json) : String :=
  quote field.1 ++ ": " ++ prettyAt depth field.2

theorem prettyFields_eq (depth : Nat) (fields : List (String × Json)) :
    prettyFields depth fields = fields.map (prettyField (depth + 1)) := by
  induction fields with
  | nil => rfl
  | cons field rest ih => rw [prettyFields, ih, List.map_cons]; rfl

/-- A field is told by its name and its value. -/
theorem told_prettyField {fields fields' : List (String × Json)}
    (h : ∀ f ∈ fields, ∀ f' ∈ fields', ∀ rest rest', Stops rest → Stops rest' →
      (prettyAt depth f.2).toList ++ rest = (prettyAt depth f'.2).toList ++ rest' →
        f.2 = f'.2 ∧ rest = rest') : Told (prettyField depth) fields fields' := by
  intro f hf f' hf' rest rest' hrest hrest' heq
  simp only [prettyField, String.toList_append, List.append_assoc] at heq
  obtain ⟨hname, hmore⟩ := eq_of_quote heq
  obtain ⟨hvalue, hend⟩ := h f hf f' hf' _ _ hrest hrest' (List.append_cancel_left hmore)
  exact ⟨Prod.ext hname hvalue, hend⟩

/-- The sorts of values that are told by the first character of a text. -/
def sort : Json → Nat
  | null => 0
  | bool true => 1
  | bool false => 2
  | number _ => 3
  | string _ => 4
  | array _ => 5
  | object _ => 6

/-- The sort of value that a text with a first character stands for. -/
def sortOf (c : Char) : Nat :=
  if c.isDigit then 3 else if c = 'n' then 0 else if c = 't' then 1 else if c = 'f' then 2
  else if c = '"' then 4 else if c = '[' then 5 else 6

theorem sortOf_head (h : value.Proper) (depth : Nat) :
    ((prettyAt depth value).toList ++ rest).head?.map sortOf = some value.sort := by
  have hbracketed (opening closing : String) (c : Char) (hopening : opening.toList = [c])
      (items : List String) :
      ((bracketed opening closing depth items).toList ++ rest).head? = some c := by
    cases items <;> simp [bracketed, hopening]
  cases h with
  | null => simp [prettyAt, sortOf, sort]
  | bool value => cases value <;> simp [prettyAt, sortOf, sort]
  | @number digits hne h =>
    obtain ⟨c, cs, hcs⟩ := List.exists_cons_of_ne_nil hne
    simp [prettyAt, hcs, sortOf, sort, h c (by rw [hcs]; exact List.mem_cons_self)]
  | string text => simp [prettyAt, toList_quote, sortOf, sort]
  | array h => rw [prettyAt, hbracketed "[" "]" '[' rfl]; rfl
  | object h => rw [prettyAt, hbracketed _ _ '\x7b' rfl]; rfl

/-- The first character tells the sort. -/
theorem sort_eq_of_prettyAt (hvalue : value.Proper) (hvalue' : value'.Proper)
    (h : (prettyAt depth value).toList ++ rest = (prettyAt depth value').toList ++ rest') :
    value.sort = value'.sort := by
  rw [← Option.some_inj, ← sortOf_head hvalue depth, h, sortOf_head hvalue' depth]

/-- **Proper values can be told**: two of them written at one depth are the same if their texts are,
each before a text that does not go on with a digit. -/
theorem eq_of_prettyAt (hvalue : value.Proper) (hvalue' : value'.Proper) (hrest : Stops rest)
    (hrest' : Stops rest')
    (h : (prettyAt depth value).toList ++ rest = (prettyAt depth value').toList ++ rest') :
    value = value' ∧ rest = rest' := by
  induction hvalue generalizing value' depth rest rest' with
  | null =>
    have hsort := sort_eq_of_prettyAt .null hvalue' h
    cases hvalue' with
    | null => exact ⟨rfl, List.append_cancel_left h⟩
    | bool value' => cases value' <;> cases hsort
    | _ => cases hsort
  | bool value =>
    have hsort := sort_eq_of_prettyAt (.bool value) hvalue' h
    cases hvalue' with
    | bool value' =>
      cases value <;> cases value' <;> first | exact ⟨rfl, List.append_cancel_left h⟩ | cases hsort
    | _ => cases value <;> cases hsort
  | number hne hdigits =>
    have hsort := sort_eq_of_prettyAt (.number hne hdigits) hvalue' h
    cases hvalue' with
    | number hne' hdigits' =>
      obtain ⟨heq, hrest⟩ := eq_of_digits hdigits hdigits' hrest hrest' h
      exact ⟨congrArg number (String.toList_inj.1 heq), hrest⟩
    | bool value' => cases value' <;> cases hsort
    | _ => cases hsort
  | string text =>
    have hsort := sort_eq_of_prettyAt (.string text) hvalue' h
    cases hvalue' with
    | string text' =>
      obtain ⟨rfl, hrest⟩ := eq_of_quote h
      exact ⟨rfl, hrest⟩
    | bool value' => cases value' <;> cases hsort
    | _ => cases hsort
  | array hitems ih =>
    have hsort := sort_eq_of_prettyAt (.array hitems) hvalue' h
    cases hvalue' with
    | array hitems' =>
      rw [prettyAt, prettyAt, prettyItems_eq, prettyItems_eq] at h
      obtain ⟨rfl, hrest⟩ := eq_of_bracketed (by simp) (by decide)
        (fun x hx x' hx' _ _ => ih x hx (hitems' x' hx')) h
      exact ⟨rfl, hrest⟩
    | bool value' => cases value' <;> cases hsort
    | _ => cases hsort
  | object hfields ih =>
    have hsort := sort_eq_of_prettyAt (.object hfields) hvalue' h
    cases hvalue' with
    | object hfields' =>
      rw [prettyAt, prettyAt, prettyFields_eq, prettyFields_eq] at h
      obtain ⟨rfl, hrest⟩ := eq_of_bracketed (by simp) (by decide)
        (told_prettyField fun f hf f' hf' _ _ => ih f hf (hfields' f' hf')) h
      exact ⟨rfl, hrest⟩
    | bool value' => cases value' <;> cases hsort
    | _ => cases hsort

/-- **The printed text of a value tells the value.** -/
theorem pretty_inj (hvalue : value.Proper) (hvalue' : value'.Proper)
    (h : pretty value = pretty value') : value = value' := by
  have hstops : Stops ['\n'] := by simp [Stops]
  have htext : (prettyAt 0 value).toList ++ ['\n'] = (prettyAt 0 value').toList ++ ['\n'] := by
    simpa [pretty] using congrArg String.toList h
  exact (eq_of_prettyAt hvalue hvalue' hstops hstops htext).1

end Json

end DeadCode
