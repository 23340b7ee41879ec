import Wildcard.Pattern
import Wildcard.Search
import Wildcard.Spans

/-! Matching and masking.

    A pattern matches a text or does not; its mask of a text that it matches is what the wildcards
    took of it. A pattern without wildcards is compared character by character and takes nothing. -/

namespace Wildcard.Pattern

/-- Whether a text is, character by character, what the tokens of the pattern stand for. -/
def spells (p : Pattern) (text : String) : Bool := p.tokens.map Token.symbol = text.toList

/-- Whether the pattern matches a text. -/
def isMatch (p : Pattern) (text : String) : Bool :=
  if p.isLiteral then p.spells text
  else (search p.separator p.tokens text.toList.toArray ()).isMatched

/-- What the wildcards of the pattern take of a text, if it matches. -/
def mask? (p : Pattern) (text : String) : Option String :=
  if p.isLiteral then if p.spells text then some "" else none
  else
    let cs := text.toList.toArray
    match search p.separator p.tokens cs Spans.empty with
    | .matched spans => some (String.ofList (spans.charsOf cs))
    | _ => none

end Wildcard.Pattern
