import TerseMarkup.Literal.Quote

/-!
# Terminals

The tokens of the notation. A terminal has at most one lexeme at the start of a text, the longest
that its class allows.
-/

namespace TerseMarkup

/-- A class of tokens. -/
inductive Terminal where
  /-- A tag or attribute name. -/
  | name
  /-- The name of a class or an id. -/
  | identifier
  /-- A string literal with its quotes. -/
  | string
  /-- A single character. -/
  | char (c : Char)
  deriving DecidableEq, Repr

namespace Terminal

/-- The longest run of name characters at the start of a text. -/
def name? (text : List Char) : Option (List Char) :=
  match text.takeWhile Text.isNameChar with
  | [] => none
  | lexeme => some lexeme

/-- The longest identifier at the start of a text. -/
def identifier? : List Char → Option (List Char)
  | '-' :: c :: text =>
    if Text.isIdentifierStart c then some ('-' :: c :: text.takeWhile Text.isIdentifierChar)
    else none
  | c :: text =>
    if Text.isIdentifierStart c then some (c :: text.takeWhile Text.isIdentifierChar) else none
  | [] => none

/-- The string literal at the start of a text. -/
def string? : List Char → Option (List Char)
  | '"' :: text => (Literal.body? text).map fun body ↦ '"' :: (body ++ ['"'])
  | _ => none

/-- The lexeme of a terminal at the start of a text. -/
def lexeme? : Terminal → List Char → Option (List Char)
  | name, text => name? text
  | identifier, text => identifier? text
  | string, text => string? text
  | char c, text => if text.head? = some c then some [c] else none

/-- What a lexeme says: a string literal stands for what is between its quotes, any other lexeme
for itself. -/
def value : Terminal → List Char → List Char
  | string, lexeme => lexeme.tail.dropLast
  | _, lexeme => lexeme

/-- An empty text has no lexeme. -/
theorem lexeme?_nil (t : Terminal) : t.lexeme? [] = none := by
  cases t <;> rfl

/-- No lexeme is empty. -/
theorem ne_nil_of_lexeme? {t : Terminal} {text lexeme : List Char}
    (h : t.lexeme? text = some lexeme) : lexeme ≠ [] := by
  rintro rfl
  cases t with
  | name =>
    simp only [lexeme?, name?] at h
    split at h <;> simp_all
  | identifier =>
    simp only [lexeme?] at h
    unfold identifier? at h
    split at h
    · split at h <;> simp at h
    · split at h <;> simp at h
    · exact absurd h (by simp)
  | string =>
    simp only [lexeme?] at h
    unfold string? at h
    split at h <;> simp at h
  | char c =>
    simp only [lexeme?] at h
    split at h <;> simp at h

end Terminal
end TerseMarkup
