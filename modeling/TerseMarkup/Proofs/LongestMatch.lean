import Mathlib.Computability.RegularExpressions
import TerseMarkup.Proofs.Lexeme

/-!
# Names and identifiers as regular expressions

The texts of a name and those of an identifier are the languages of two regular expressions,
`[a-zA-Z0-9]+` and `-?[_a-zA-Z][_a-zA-Z0-9-]*`. Reading finds the longest beginning of a text that
the expression matches, and nothing exactly where no beginning matches. This is said of any
expression for the class of a terminal, in `Terminal.IsPattern.lexeme?_eq_some_iff` and
`Terminal.IsPattern.lexeme?_eq_none_iff`.
-/

namespace TerseMarkup

/-! ### Expressions over characters -/

namespace Text

variable {c : Char} {chars text : List Char}

/-- One character out of a list. -/
def oneOf (chars : List Char) : RegularExpression Char :=
  chars.foldr (fun c others ↦ .char c + others) 0

/-- The letters `a-zA-Z`. -/
def letters : List Char := ('a' ...= 'z').toList ++ ('A' ...= 'Z').toList

/-- The digits `0-9`. -/
def digits : List Char := ('0' ...= '9').toList

/-- The longest beginning of a text that an expression matches. -/
def IsLongestMatch (pattern : RegularExpression Char) (text found : List Char) : Prop :=
  found <+: text ∧ found ∈ pattern.matches' ∧
    ∀ other, other <+: text → other ∈ pattern.matches' → other.length ≤ found.length

private theorem mem_oneOf_iff : text ∈ (oneOf chars).matches' ↔ ∃ c ∈ chars, text = [c] := by
  induction chars with
  | nil => simp [oneOf]
  | cons c chars ih =>
    change text ∈ (.char c + oneOf chars : RegularExpression Char).matches' ↔ _
    rw [RegularExpression.matches'_add, Language.mem_add, ih, RegularExpression.matches'_char,
      List.exists_mem_cons_iff]
    rfl

private theorem mem_star_oneOf_iff :
    text ∈ (oneOf chars).star.matches' ↔ ∀ c ∈ text, c ∈ chars := by
  rw [RegularExpression.matches'_star, Language.mem_kstar]
  constructor
  · rintro ⟨rounds, rfl, hr⟩ c hc
    obtain ⟨round, hm, hc⟩ := List.mem_flatten.mp hc
    obtain ⟨d, hd, rfl⟩ := mem_oneOf_iff.mp (hr round hm)
    rwa [List.mem_singleton.mp hc]
  · intro h
    refine ⟨text.map fun c ↦ [c], (List.flatMap_singleton' text).symm, ?_⟩
    intro round hr
    obtain ⟨c, hc, rfl⟩ := List.mem_map.mp hr
    exact mem_oneOf_iff.mpr ⟨c, h c hc, rfl⟩

private theorem mem_letters_iff : c ∈ letters ↔ c.isAlpha = true := by
  unfold letters Char.isAlpha Char.isUpper Char.isLower
  simp only [List.mem_append, Std.Rcc.mem_toList_iff_mem, Std.Rcc.mem_iff, Char.le_def,
    Bool.or_eq_true, Bool.and_eq_true, decide_eq_true_eq, ge_iff_le]
  exact or_comm

private theorem mem_digits_iff : c ∈ digits ↔ c.isDigit = true := by
  unfold digits Char.isDigit
  simp only [Std.Rcc.mem_toList_iff_mem, Std.Rcc.mem_iff, Char.le_def, Bool.and_eq_true,
    decide_eq_true_eq, ge_iff_le]

private theorem mem_nameChars_iff : c ∈ letters ++ digits ↔ isNameChar c = true := by
  unfold isNameChar Char.isAlphanum
  rw [List.mem_append, mem_letters_iff, mem_digits_iff, Bool.or_eq_true]

private theorem mem_identifierStarts_iff : c ∈ '_' :: letters ↔ isIdentifierStart c = true := by
  rw [List.mem_cons, mem_letters_iff, isIdentifierStart, Bool.or_eq_true, beq_iff_eq, or_comm]

private theorem mem_identifierChars_iff :
    c ∈ '_' :: letters ++ digits ++ ['-'] ↔ isIdentifierChar c = true := by
  rw [List.cons_append, List.cons_append, List.mem_cons, List.mem_append, mem_nameChars_iff,
    List.mem_singleton, isNameChar, isIdentifierChar, Bool.or_eq_true, Bool.or_eq_true,
    beq_iff_eq, beq_iff_eq, or_assoc, or_left_comm]

end Text

/-! ### The two expressions -/

namespace Terminal

variable {t : Terminal} {pattern : RegularExpression Char} {text word : List Char}

/-- Letters and digits, at least one: `[a-zA-Z0-9]+`. -/
def namePattern : RegularExpression Char :=
  Text.oneOf (Text.letters ++ Text.digits) * (Text.oneOf (Text.letters ++ Text.digits)).star

/-- A start and what continues it, behind an optional hyphen: `-?[_a-zA-Z][_a-zA-Z0-9-]*`. -/
def identifierPattern : RegularExpression Char :=
  (1 + .char '-') * Text.oneOf ('_' :: Text.letters) *
    (Text.oneOf ('_' :: Text.letters ++ Text.digits ++ ['-'])).star

/-- An expression that matches the texts in the class of a terminal. -/
def IsPattern (t : Terminal) (pattern : RegularExpression Char) : Prop :=
  ∀ text, text ∈ pattern.matches' ↔ t.Spells text

/-- Names are what `[a-zA-Z0-9]+` matches. -/
theorem isPattern_name : name.IsPattern namePattern := by
  intro text
  rw [namePattern, RegularExpression.matches'_mul, Language.mem_mul]
  simp only [Text.mem_oneOf_iff, Text.mem_star_oneOf_iff, Text.mem_nameChars_iff]
  constructor
  · rintro ⟨_, ⟨first, hf, rfl⟩, more, hm, rfl⟩
    exact ⟨List.cons_ne_nil first more, List.forall_mem_cons.mpr ⟨hf, hm⟩⟩
  · rintro ⟨hn, hc⟩
    obtain ⟨first, more, rfl⟩ := List.exists_cons_of_ne_nil hn
    obtain ⟨hf, hm⟩ := List.forall_mem_cons.mp hc
    exact ⟨[first], ⟨first, hf, rfl⟩, more, hm, rfl⟩

private theorem mem_optional_hyphen_iff :
    text ∈ (1 + .char '-' : RegularExpression Char).matches' ↔ text = [] ∨ text = ['-'] := by
  rw [RegularExpression.matches'_add, Language.mem_add, RegularExpression.matches'_epsilon,
    Language.mem_one, RegularExpression.matches'_char]
  rfl

/-- Identifiers are what `-?[_a-zA-Z][_a-zA-Z0-9-]*` matches. -/
theorem isPattern_identifier : identifier.IsPattern identifierPattern := by
  intro text
  rw [identifierPattern, RegularExpression.matches'_mul, RegularExpression.matches'_mul,
    Language.mem_mul]
  simp only [Language.mem_mul, mem_optional_hyphen_iff, Text.mem_oneOf_iff,
    Text.mem_star_oneOf_iff, Text.mem_identifierStarts_iff, Text.mem_identifierChars_iff]
  constructor
  · rintro ⟨_, ⟨hyphen, hy, _, ⟨first, hf, rfl⟩, rfl⟩, more, hm, rfl⟩
    exact ⟨hyphen, first, more, List.append_assoc .., hy, hf, hm⟩
  · rintro ⟨hyphen, first, more, rfl, hy, hf, hm⟩
    exact ⟨hyphen ++ [first], ⟨hyphen, hy, [first], ⟨first, hf, rfl⟩, rfl⟩, more, hm,
      List.append_assoc ..⟩

/-! ### Reading finds the longest match -/

/-- Any lexeme but a string literal stands for itself. -/
theorem value_of_ne_string (ht : t ≠ string) (lexeme : List Char) : t.value lexeme = lexeme := by
  cases t with
  | string => exact absurd rfl ht
  | name | identifier | char _ => rfl

private theorem isLexeme_iff_isLongest {lexeme rest : List Char} (ht : t ≠ string) :
    t.IsLexeme lexeme rest ↔ t.IsLongest lexeme rest := by
  cases t with
  | string => exact absurd rfl ht
  | name | identifier | char _ => rfl

/-- A match that cannot go on is the longest one. -/
private theorem IsPattern.isLongestMatch_iff (h : t.IsPattern pattern) :
    Text.IsLongestMatch pattern text word ↔
      ∃ rest, text = word ++ rest ∧ t.IsLongest word rest := by
  constructor
  · rintro ⟨⟨rest, rfl⟩, hw, hl⟩
    refine ⟨rest, rfl, (h word).mp hw, ?_⟩
    rintro more later rfl hm
    have length := hl (word ++ more) ⟨later, List.append_assoc ..⟩ ((h _).mpr hm)
    rw [List.length_append] at length
    exact List.eq_nil_of_length_eq_zero (by omega)
  · rintro ⟨rest, rfl, hw, hl⟩
    refine ⟨List.prefix_append word rest, (h word).mpr hw, ?_⟩
    intro other ho hm
    -- Two beginnings of one text, so that the longer one goes on from the other.
    rcases List.prefix_or_prefix_of_prefix ho (List.prefix_append word rest) with hs | ⟨more, rfl⟩
    · exact hs.length_le
    · obtain ⟨later, hr⟩ := (List.prefix_append_right_inj word).mp ho
      rw [hl more later hr.symm ((h _).mp hm), List.append_nil]

/-- What is read is the longest match. -/
theorem IsPattern.lexeme?_eq_some_iff (h : t.IsPattern pattern) (ht : t ≠ string) :
    t.lexeme? text = some word ↔ Text.IsLongestMatch pattern text word := by
  simp only [Terminal.lexeme?_eq_some_iff, isLexeme_iff_isLongest ht, h.isLongestMatch_iff]

/-- Nothing is read only where nothing matches. -/
theorem IsPattern.lexeme?_eq_none_iff (h : t.IsPattern pattern) (ht : t ≠ string) :
    t.lexeme? text = none ↔ ∀ word, word <+: text → word ∉ pattern.matches' := by
  constructor
  · rintro hn word ⟨rest, rfl⟩ hw
    -- Alone the word is read whole, so that something is read where the text goes on.
    have alone : t.lexeme? word = some word := by
      refine (h.lexeme?_eq_some_iff ht).mpr ⟨List.prefix_rfl, hw, ?_⟩
      intro other ho _
      exact ho.length_le
    obtain ⟨longer, hl⟩ := exists_lexeme?_append alone rest
    rw [hn] at hl
    cases hl
  · intro hn
    cases hl : t.lexeme? text with
    | none => rfl
    | some word =>
      obtain ⟨hp, hm, -⟩ := (h.lexeme?_eq_some_iff ht).mp hl
      exact absurd hm (hn word hp)

end Terminal
end TerseMarkup
