/-!
# Character classes

The blanks that may stand between tokens, the characters that end a line, and the characters
that names are made of. Names are ASCII; blanks and line breaks are not. Escapes are written with
lowercase hexadecimal digits.
-/

namespace TerseMarkup.Text

/-- The characters that may stand between tokens: the ASCII blanks from tab to carriage return,
the spaces of Unicode, its line and paragraph separators and the byte order mark. The next-line
control U+0085 is not among them. -/
def isBlank (c : Char) : Bool :=
  ('\t' ≤ c && c ≤ '\r') || c == ' ' || c == '\u00a0' || c == '\u1680' ||
    ('\u2000' ≤ c && c ≤ '\u200a') || c == '\u2028' || c == '\u2029' || c == '\u202f' ||
    c == '\u205f' || c == '\u3000' || c == '\ufeff'

/-- The characters that end a line, and so a string literal that is still open. -/
def isLineBreak (c : Char) : Bool :=
  c == '\n' || c == '\r' || c == '\u2028' || c == '\u2029'

/-- The characters of tag and attribute names. -/
def isNameChar (c : Char) : Bool :=
  c.isAlphanum

/-- The characters that an identifier starts with, after an optional hyphen. -/
def isIdentifierStart (c : Char) : Bool :=
  c.isAlpha || c == '_'

/-- The characters that continue an identifier. -/
def isIdentifierChar (c : Char) : Bool :=
  c.isAlphanum || c == '_' || c == '-'

/-- The lowercase hexadecimal digit of a number below sixteen. -/
def hexDigit (n : Nat) : Char :=
  if n < 10 then Char.ofNat ('0'.toNat + n) else Char.ofNat ('a'.toNat + (n - 10))

/-- The two digits of a number below 256. -/
def hexByte (n : Nat) : List Char :=
  [hexDigit (n / 16), hexDigit (n % 16)]

private theorem isBlank_of_printable {c : Char} (hl : 0x20 < c.toNat) (hu : c.toNat < 0xA0) :
    isBlank c = false := by
  simp only [isBlank, Bool.or_eq_false_iff, Bool.and_eq_false_iff, beq_eq_false_iff_ne,
    decide_eq_false_iff_not, ne_eq, Char.ext_iff, Char.le_def, UInt32.le_iff_toNat_le,
    ← UInt32.toNat_inj, Char.reduceVal, UInt32.reduceToNat, Char.toNat] at hl hu ⊢
  omega

/-- The characters of identifiers are printable ones of ASCII. -/
theorem toNat_of_isIdentifierChar {c : Char} (h : isIdentifierChar c = true) :
    0x20 < c.toNat ∧ c.toNat < 0x80 := by
  unfold isIdentifierChar Char.isAlphanum Char.isAlpha Char.isUpper Char.isLower Char.isDigit at h
  simp only [Bool.or_eq_true, Bool.and_eq_true, decide_eq_true_eq, beq_iff_eq, ge_iff_le,
    Char.ext_iff, UInt32.le_iff_toNat_le, ← UInt32.toNat_inj, Char.reduceVal,
    UInt32.reduceToNat] at h
  simp only [Char.toNat]
  omega

/-- The characters of names may continue an identifier. -/
theorem isIdentifierChar_of_isNameChar {c : Char} (h : isNameChar c = true) :
    isIdentifierChar c = true := by
  rw [isNameChar] at h
  simp [isIdentifierChar, h]

/-- A character that starts an identifier may continue one. -/
theorem isIdentifierChar_of_isIdentifierStart {c : Char} (h : isIdentifierStart c = true) :
    isIdentifierChar c = true := by
  simp only [isIdentifierStart, Bool.or_eq_true] at h
  rcases h with h | h
  · simp [isIdentifierChar, Char.isAlphanum, h]
  · simp [isIdentifierChar, h]

/-- No character of an identifier is a blank. -/
theorem isBlank_of_isIdentifierChar {c : Char} (h : isIdentifierChar c = true) :
    isBlank c = false := by
  obtain ⟨hl, hu⟩ := toNat_of_isIdentifierChar h
  exact isBlank_of_printable hl (by omega)

end TerseMarkup.Text
