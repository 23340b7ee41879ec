/-! JSON values.

    The members of an object stand in a list. Only objects are meant whose members have distinct
    names: where a name stands twice a look-up finds the first member, but a reader of JSON reports
    a duplicate field. -/

namespace Wildcard

/-- A JSON value. A number is a mantissa with so many decimal places. -/
inductive Json where
  | null
  | bool (b : Bool)
  | number (mantissa : Int) (places : Nat)
  | string (s : String)
  | array (items : List Json)
  /-- The members, of distinct names. -/
  | object (members : List (String × Json))
  deriving Inhabited

namespace Json

/-- The text of a string. -/
def string? : Json → Option String
  | .string s => some s
  | _ => none

/-- The texts of an array of strings. -/
def strings? : Json → Option (List String)
  | .array items => items.mapM string?
  | _ => none

/-- The character of a string that has just one. -/
def char? (v : Json) : Option Char :=
  match v.string?.map String.toList with
  | some [c] => some c
  | _ => none

/-- An array of strings. -/
def ofStrings (texts : List String) : Json := .array (texts.map .string)

end Json

end Wildcard
