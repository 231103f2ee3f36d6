import TerseMarkup.Text.CharClass

/-!
# The closing quote of a string literal

A string literal ends on the line it starts on. Its closing quote is the first one that is not
behind a backslash, where a backslash hides the character after it. If hiding that character
leaves no closing quote on the line, the backslash stands for itself and the search goes on right
after it.

The search runs from the end of the line to its start and carries two distances, so each
character is looked at once, however many backslashes the line has.
-/

namespace TerseMarkup.Literal

/-- How many characters lie before the closing quote of a body that starts at a place of the
line, and of one that starts at the place after it. -/
structure QuoteAhead where
  here : Option Nat
  next : Option Nat
  deriving DecidableEq, Repr

/-- No quote lies ahead of the end of a line. -/
def QuoteAhead.atLineEnd : QuoteAhead := ⟨none, none⟩

/-- The distances one character further left. -/
def QuoteAhead.before (c : Char) (ahead : QuoteAhead) : QuoteAhead where
  here :=
    if c = '"' then some 0
    else if c = '\\' then (ahead.next.map (· + 2)).or (ahead.here.map (· + 1))
    else ahead.here.map (· + 1)
  next := ahead.here

/-- How many characters of a line lie before the closing quote of the literal whose opening quote
stands right before that line. This is the length of what `(\\.|.)*?` matches in front of the
quote in `"(\\.|.)*?"`, with a backslash pair tried before a single character. -/
def closingQuote? (line : List Char) : Option Nat :=
  (line.foldr QuoteAhead.before .atLineEnd).here

/-- The part of a text up to its first line break. -/
def firstLine (text : List Char) : List Char :=
  text.takeWhile fun c ↦ !Text.isLineBreak c

/-- The raw body of the literal whose opening quote stands right before a text. -/
def body? (text : List Char) : Option (List Char) :=
  (closingQuote? (firstLine text)).map (firstLine text).take

end TerseMarkup.Literal
