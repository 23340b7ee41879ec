import Wildcard.Json
import Wildcard.PatternSet.Options

/-! Options as JSON.

    Options are written as an object of three members. They are read from such an object, in any
    order and among other members, or from an array of the three values in the order in which they
    are written. What is missing has its default value, and a separator that is `null` is not the
    same as one that is missing. Only objects are meant whose members have distinct names: one that
    has a field twice is refused before its fields are read. -/

namespace Wildcard.PatternSet.Options

/-- The JSON value of an optional separator. -/
def separatorToJson : Option Char → Json
  | none => .null
  | some c => .string c.toString

/-- Reads an optional separator: `null` or one character. -/
def separatorOfJson? : Json → Option (Option Char)
  | .null => some none
  | v => v.char?.map some

/-- Writes options. -/
def toJson (o : Options) : Json :=
  .object [("include", .ofStrings o.included), ("exclude", .ofStrings o.excluded),
    ("separator", separatorToJson o.separator)]

/-- Reads options from the values of the fields; a missing one has its default. -/
def ofFields? (included excluded separator : Option Json) : Option Options := do
  let default : Options := {}
  return {
    included := ← (included.map Json.strings?).getD (some default.included)
    excluded := ← (excluded.map Json.strings?).getD (some default.excluded)
    separator := ← (separator.map separatorOfJson?).getD (some default.separator) }

/-- Reads options. -/
def ofJson? : Json → Option Options
  | .object members =>
    ofFields? (members.lookup "include") (members.lookup "exclude") (members.lookup "separator")
  | .array [] => ofFields? none none none
  | .array [included] => ofFields? included none none
  | .array [included, excluded] => ofFields? included excluded none
  | .array [included, excluded, separator] => ofFields? included excluded separator
  | _ => none

end Wildcard.PatternSet.Options
