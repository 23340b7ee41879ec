import Wildcard.Features
import Wildcard.Slot

/-! Compiled patterns.

    A pattern is a text and a separator, kept together with what compiling them gives. The compiled
    part is a function of the other two, and the type says so: two patterns with one text and one
    separator are equal, and equality is decided without a look at the tokens. -/

namespace Wildcard

/-- The outcome of compiling a text. -/
structure Compiled where
  /-- The live positions, in order. -/
  tokens : List Token
  /-- What the pattern is made of. -/
  features : Features
  deriving DecidableEq

/-- Compiles a text. Every text has a meaning, the empty one included. The features tell of the
    tokens that are left in the end, and of every escape. -/
def Compiled.ofText (text : String) (separator : Option Char) : Compiled :=
  let slots := Slot.ofText separator text
  let tokens := Token.ofSlots slots
  let escapes := if slots.contains .escape then [Feature.escape] else []
  { tokens, features := .ofList (tokens.filterMap (fun t => Feature.ofKind? t.kind) ++ escapes) }

/-- A compiled pattern. -/
structure Pattern where
  /-- The text as it was given. -/
  text : String
  /-- The character that bounds segments, if there is one. -/
  separator : Option Char
  /-- What the text compiles to. -/
  compiled : Compiled
  /-- Nothing but the text and the separator decides it. -/
  compiled_eq : compiled = Compiled.ofText text separator := by rfl

namespace Pattern

/-- Compiles a pattern. -/
def compile (text : String) (separator : Option Char) : Pattern :=
  { text, separator, compiled := .ofText text separator }

/-- Patterns with one text and one separator are equal. -/
@[ext]
theorem ext {p q : Pattern} (text : p.text = q.text) (separator : p.separator = q.separator) :
    p = q := by
  obtain ⟨t, s, _, rfl⟩ := p
  obtain ⟨t', s', _, rfl⟩ := q
  subst text separator
  rfl

/-- Compiling is the only way to a pattern. -/
@[simp]
theorem compile_text_separator (p : Pattern) : compile p.text p.separator = p := by
  ext1 <;> rfl

instance : DecidableEq Pattern := fun p q =>
  if h : p.text = q.text ∧ p.separator = q.separator then .isTrue (ext h.1 h.2)
  else .isFalse fun e => h ⟨e ▸ rfl, e ▸ rfl⟩

/-- The hash follows what decides equality. -/
instance : Hashable Pattern := ⟨fun p => hash (p.text, p.separator.map Char.val)⟩

instance : ToString Pattern := ⟨text⟩

/-- The live positions of the pattern. -/
def tokens (p : Pattern) : List Token := p.compiled.tokens

/-- What the pattern is made of. -/
def features (p : Pattern) : Features := p.compiled.features

/-- The kinds of the tokens, closed by the end. -/
def kinds (p : Pattern) : List Kind := p.tokens.map Token.kind ++ [.endOfPattern]

/-- The characters of the tokens, closed by a NUL. -/
def symbols (p : Pattern) : List Char := p.tokens.map Token.symbol ++ ['\x00']

/-- How many tokens there are, the end not counted. -/
def length (p : Pattern) : Nat := p.tokens.length

/-- Whether no token is left. -/
def isEmpty (p : Pattern) : Bool := p.tokens.isEmpty

/-- Whether the pattern is a plain text. -/
def isLiteral (p : Pattern) : Bool := !p.features.hasWildcards

/-- How specific the pattern is: a token of weight `w` at position `i`, counted from one, adds
    `i * w / 10`. The sum runs from left to right, and single precision rounds after each step. -/
def weight (p : Pattern) : Float32 :=
  (p.tokens.zipIdx 1).foldl
    (fun sum (t, i) => sum + i.toFloat32 * t.kind.weight.toFloat32 / 10) 0

end Pattern

/-- Whether a text holds a wildcard character at all, escaped or not. -/
def containsWildcard (text : String) : Bool :=
  text.toList.any fun c => c = '*' || c = '?' || c = '+'

end Wildcard
