import Wildcard.PatternSet

/-! What a pattern set is made from: the texts of both lists and the separator.

    Options are plain data and may be wrong. `validate` looks for three faults in a fixed order and
    reports the first: a separator that is a metacharacter, an empty text among the included ones,
    an empty text among the excluded ones. Only options without a fault give a set. -/

namespace Wildcard.PatternSet

/-- The two lists of a set. -/
inductive Side where | included | excluded
  deriving DecidableEq

/-- The name of a list as messages write it. -/
def Side.label : Side → String
  | .included => "Include"
  | .excluded => "Exclude"

/-- A description of a pattern set. -/
structure Options where
  included : List String := []
  excluded : List String := []
  separator : Option Char := some '/'
  deriving DecidableEq

namespace Options

/-- What can be wrong with options. -/
inductive Error where
  /-- The separator has a meaning of its own in patterns. -/
  | separatorIsMetacharacter (separator : Char)
  /-- The text at an index of a list is empty. -/
  | emptyPattern (side : Side) (index : Nat)
  deriving DecidableEq

/-- The text of an error. -/
def Error.message : Error → String
  | .separatorIsMetacharacter c => s!"separator '{c}' is a wildcard metacharacter"
  | .emptyPattern side index => s!"{side.label} pattern at index {index} is empty"

/-- Whether neither list holds a text. -/
def isEmpty (o : Options) : Bool := o.included.isEmpty && o.excluded.isEmpty

/-- The error of the first empty text of a list, if it has one. -/
def emptyPattern? (side : Side) (texts : List String) : Option Error :=
  (texts.findIdx? String.isEmpty).map (.emptyPattern side)

/-- The first fault, if there is one. -/
def fault? (o : Options) : Option Error :=
  (o.separator.filter isMetacharacter).map .separatorIsMetacharacter
    <|> emptyPattern? .included o.included
    <|> emptyPattern? .excluded o.excluded

/-- Fails with the first fault. -/
def validate (o : Options) : Except Error Unit :=
  match o.fault? with
  | some e => .error e
  | none => .ok ()

/-! ### Building options -/

/-- A change of one field. -/
inductive Edit where
  | included (texts : List String)
  | excluded (texts : List String)
  | separator (separator : Option Char)
  deriving DecidableEq

/-- Puts the new value of a field in place of the old one. -/
def edit (o : Options) : Edit → Options
  | .included texts => { o with included := texts }
  | .excluded texts => { o with excluded := texts }
  | .separator c => { o with separator := c }

/-- Applies edits to the default options in turn, and fails if what comes out has a fault. -/
def build (edits : List Edit) : Except Error Options := do
  let o := edits.foldl edit {}
  o.validate
  return o

end Options

/-- The set that options describe. -/
def ofOptions (o : Options) : Except Options.Error PatternSet := do
  o.validate
  return ofTexts o.included o.excluded o.separator

end Wildcard.PatternSet
