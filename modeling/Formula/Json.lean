import Formula.Decimal.Notation
import Formula.Decimal.Shortest

/-!
# JSON

Values and their compact text: no blanks, the fields of an object in the order given, and in
strings only the quotation mark, the backslash and the control characters escaped.
-/

namespace Formula

/-- A JSON value. Its numbers are whole numbers and doubles. -/
inductive Json where
  | null
  | natural (n : Nat)
  | double (x : Float)
  | string (s : String)
  | array (items : List Json)
  | object (fields : List (String × Json))

namespace Json

/-- A character inside a string. -/
def escape (c : Char) : List Char :=
  if c = '\x22' ∨ c = '\x5c' then ['\x5c', c]
  else if c = '\x08' then ['\x5c', 'b']
  else if c = '\t' then ['\x5c', 't']
  else if c = '\n' then ['\x5c', 'n']
  else if c = '\x0c' then ['\x5c', 'f']
  else if c = '\r' then ['\x5c', 'r']
  else if c.toNat < 0x20 then
    ['\x5c', 'u', '0', '0', Nat.digitChar (c.toNat / 16), Nat.digitChar (c.toNat % 16)]
  else [c]

/-- A string between quotation marks. -/
def quote (s : String) : List Char :=
  '\x22' :: s.toList.flatMap escape ++ ['\x22']

/-- A double by its shortest decimal: positional when its first digit stands five places behind
the point to sixteen before it, with a place behind the point always, else scientific. Infinity
and the value that is not a number have no text of their own. -/
def ofDouble (x : Float) : List Char :=
  if x.isNaN || x.isInf then "null".toList
  else
    let d := Decimal.shortest .even (Binary64.magnitude x)
    let e := d.leadingExponent
    let digits :=
      if e < -5 ∨ 15 < e then d.scientific
      else if d.exponent < 0 then d.positional
      else d.positional ++ ['.', '0']
    if Binary64.isNegative x then '-' :: digits else digits

mutual

/-- The compact text of a value. -/
def render : Json → List Char
  | .null => "null".toList
  | .natural n => Decimal.digitsOf n
  | .double x => ofDouble x
  | .string s => quote s
  | .array items => '[' :: renderItems items ++ [']']
  | .object fields => '\x7b' :: renderFields fields ++ ['\x7d']

/-- The items of an array, a comma between them. -/
def renderItems : List Json → List Char
  | [] => []
  | [item] => render item
  | item :: rest => render item ++ ',' :: renderItems rest

/-- The fields of an object, a comma between them. -/
def renderFields : List (String × Json) → List Char
  | [] => []
  | [(name, value)] => quote name ++ ':' :: render value
  | (name, value) :: rest => quote name ++ ':' :: render value ++ ',' :: renderFields rest

end

/-- The compact text of a value as a string. -/
def compress (value : Json) : String :=
  String.ofList value.render

end Json

end Formula
