import Mathlib.Data.List.Forall2
import TerseMarkup.Literal.Escape
import TerseMarkup.Proofs.Seeking

/-!
# Spellings of a value

A value may be written as a raw body in many ways, since each of its characters has several
spellings. Two searches have to agree on all of them: one looks for the quote behind the body and
the other reads the escapes in it. Both take one spelling at a time, whatever follows. The main
statement, `Seeker.read_string_of_spells`, puts them together.
-/

namespace TerseMarkup.Escape

variable {c : Char} {n unit : Nat} {d : Char} {digits spelling value raw : List Char}

/-! ### Hexadecimal digits -/

/-- A hexadecimal digit of a number below sixteen, in either case. -/
def IsHexDigit (n : Nat) (d : Char) : Prop :=
  d = Text.hexDigit n ∨ d = (Text.hexDigit n).toUpper

instance (n : Nat) (d : Char) : Decidable (IsHexDigit n d) := inferInstanceAs (Decidable (_ ∨ _))

/-- The four hexadecimal digits of a number below 65536, each in either case. -/
def SpellsUnit (unit : Nat) (digits : List Char) : Prop :=
  List.Forall₂ IsHexDigit [unit / 4096, unit / 256 % 16, unit / 16 % 16, unit % 16] digits

instance (unit : Nat) (digits : List Char) : Decidable (SpellsUnit unit digits) :=
  inferInstanceAs (Decidable (List.Forall₂ _ _ _))

private theorem hexDigit?_of_isHexDigit (hn : n < 16) (h : IsHexDigit n d) :
    hexDigit? d = some n := by
  have both : ∀ m < 16, hexDigit? (Text.hexDigit m) = some m ∧
      hexDigit? (Text.hexDigit m).toUpper = some m := by decide
  rcases h with rfl | rfl
  · exact (both n hn).1
  · exact (both n hn).2

/-- A hexadecimal digit does nothing to a literal that it stands in. -/
private theorem IsHexDigit.units (hn : n < 16) (h : IsHexDigit n d) (hr : Literal.Units raw) :
    Literal.Units (d :: raw) := by
  have ne {e : Char} (he : hexDigit? e = none) : d ≠ e := by
    rintro rfl
    rw [hexDigit?_of_isHexDigit hn h] at he
    cases he
  have line : Text.isLineBreak d = false := by
    simp only [Text.isLineBreak, Bool.or_eq_false_iff, beq_eq_false_iff_ne]
    exact ⟨⟨⟨ne (by decide), ne (by decide)⟩, ne (by decide)⟩, ne (by decide)⟩
  exact .plain (ne (by decide)) (ne (by decide)) line hr

/-- A unit is spelled with four digits, each of which gives four bits. -/
theorem SpellsUnit.exists_digits (h : SpellsUnit unit digits) :
    ∃ a b c d, digits = [a, b, c, d] ∧ IsHexDigit (unit / 4096) a ∧
      IsHexDigit (unit / 256 % 16) b ∧ IsHexDigit (unit / 16 % 16) c ∧
      IsHexDigit (unit % 16) d := by
  simp only [SpellsUnit, List.forall₂_cons_left_iff, List.forall₂_nil_left_iff] at h
  obtain ⟨a, _, ha, ⟨b, _, hb, ⟨c, _, hc, ⟨d, _, hd, rfl, rfl⟩, rfl⟩, rfl⟩, rfl⟩ := h
  exact ⟨a, b, c, d, rfl, ha, hb, hc, hd⟩

/-- A unit is spelled with four digits. -/
theorem SpellsUnit.length_digits (h : SpellsUnit unit digits) : digits.length = 4 :=
  (List.Forall₂.length_eq h).symm

/-- Digits are read as the unit that they spell, whatever follows. -/
theorem SpellsUnit.unit?_append (h : SpellsUnit unit digits) (hu : unit < 0x10000)
    (rest : List Char) : unit? (digits ++ rest) = some unit := by
  obtain ⟨a, b, c, d, rfl, ha, hb, hc, hd⟩ := h.exists_digits
  have value : ((unit / 4096 * 16 + unit / 256 % 16) * 16 + unit / 16 % 16) * 16 + unit % 16 =
      unit := by omega
  simp only [List.cons_append, unit?, hexDigit?_of_isHexDigit (by omega) ha,
    hexDigit?_of_isHexDigit (by omega) hb, hexDigit?_of_isHexDigit (by omega) hc,
    hexDigit?_of_isHexDigit (by omega) hd]
  exact congrArg some value

private theorem SpellsUnit.units (h : SpellsUnit unit digits) (hu : unit < 0x10000)
    (hr : Literal.Units raw) : Literal.Units ('\\' :: 'u' :: (digits ++ raw)) := by
  obtain ⟨a, b, c, d, rfl, ha, hb, hc, hd⟩ := h.exists_digits
  refine .escaped rfl (ha.units (by omega) (hb.units (by omega) (hc.units (by omega) ?_)))
  exact hd.units (by omega) hr

/-! ### Spellings -/

/-- The first half of the surrogate pair of a character. -/
def highSurrogate (c : Char) : Nat := 0xD800 + (c.toNat - 0x10000) / 0x400

/-- The second half of the surrogate pair of a character. -/
def lowSurrogate (c : Char) : Nat := 0xDC00 + (c.toNat - 0x10000) % 0x400

/-- The letters that stand for control characters, each with its character. -/
def controlLetters : List (Char × Char) :=
  [('b', '\x08'), ('f', '\x0c'), ('n', '\n'), ('r', '\r'), ('t', '\t')]

/-- The ways to write a character in a string literal. -/
inductive SpellsChar : Char → List Char → Prop
  /-- As it is. -/
  | plain {c : Char} (quote : c ≠ '"') (backslash : c ≠ '\\')
      (line : Text.isLineBreak c = false) : SpellsChar c [c]
  /-- Behind a backslash. -/
  | escaped {c : Char} (letter : c ∉ ['b', 'f', 'n', 'r', 't', 'u'])
      (line : Text.isLineBreak c = false) : SpellsChar c ['\\', c]
  /-- As a control character that a letter stands for. -/
  | letter {c l : Char} (control : (l, c) ∈ controlLetters) : SpellsChar c ['\\', l]
  /-- As a code unit. -/
  | unit {c : Char} {digits : List Char} (basic : c.toNat < 0x10000)
      (spelled : SpellsUnit c.toNat digits) : SpellsChar c ('\\' :: 'u' :: digits)
  /-- As a surrogate pair. -/
  | pair {c : Char} {high low : List Char} (beyond : 0x10000 ≤ c.toNat)
      (first : SpellsUnit (highSurrogate c) high) (second : SpellsUnit (lowSurrogate c) low) :
      SpellsChar c ('\\' :: 'u' :: (high ++ '\\' :: 'u' :: low))

/-- A value is written with any spelling for each of its characters. -/
inductive Spells : List Char → List Char → Prop
  | nil : Spells [] []
  | cons {c : Char} {spelling value raw : List Char} (first : SpellsChar c spelling)
      (more : Spells value raw) : Spells (c :: value) (spelling ++ raw)

/-- A character is no surrogate. -/
private theorem toNat_valid (c : Char) :
    c.toNat < 0xD800 ∨ 0xE000 ≤ c.toNat ∧ c.toNat < 0x110000 := by
  have h := c.valid
  simp only [UInt32.isValidChar, Nat.isValidChar] at h
  simp only [Char.toNat]
  omega

private theorem surrogates_lt (c : Char) : highSurrogate c < 0xDC00 ∧ lowSurrogate c < 0xE000 := by
  have h := toNat_valid c
  simp only [highSurrogate, lowSurrogate]
  omega

/-- A spelling does not close the literal that it stands in. -/
theorem SpellsChar.units (h : SpellsChar c spelling) (hr : Literal.Units raw) :
    Literal.Units (spelling ++ raw) := by
  cases h with
  | plain quote backslash line => exact .plain quote backslash line hr
  | escaped _ line => exact .escaped line hr
  | letter control =>
    have line : ∀ entry ∈ controlLetters, Text.isLineBreak entry.1 = false := by decide
    exact .escaped (line _ control) hr
  | unit basic spelled => exact spelled.units basic hr
  | pair _ first second =>
    have bounds := surrogates_lt c
    simp only [List.cons_append, List.append_assoc]
    exact first.units (by omega) (second.units (by omega) hr)

/-! ### Reading spellings -/

/-- An escape that is read is passed as a whole. -/
theorem decode_of_read? (passed rest : List Char)
    (h : read? (passed ++ rest) = some (c, passed.length)) :
    decode ('\\' :: (passed ++ rest)) = c :: decode rest := by
  rw [decode_backslash, h]
  exact congrArg (c :: decode ·) List.drop_left

/-- A backslash before any letter but `u` makes an escape of one letter. -/
theorem read?_letter (h : c ≠ 'u') (rest : List Char) :
    read? (c :: rest) = some (ofLetter c, 1) := by
  unfold read?
  split
  · next he => cases he
  · next he => exact absurd (List.cons.inj he).1 h
  · next he => rw [(List.cons.inj he).1]

private theorem decode_escaped (h : c ≠ 'u') (rest : List Char) :
    decode ('\\' :: c :: rest) = ofLetter c :: decode rest :=
  decode_of_read? [c] rest (read?_letter h rest)

/-- What is behind the digits of a unit is what follows them. -/
theorem SpellsUnit.drop_append (h : SpellsUnit unit digits) (rest : List Char) :
    (digits ++ rest).drop 4 = rest := by
  rw [← h.length_digits, List.drop_left]

private theorem SpellsUnit.lowUnit?_append (h : SpellsUnit unit digits) (hu : unit < 0x10000)
    (rest : List Char) :
    lowUnit? ('\\' :: 'u' :: (digits ++ rest)) =
      if isLowSurrogate unit then some unit else none := by
  rw [lowUnit?, h.unit?_append hu, Option.filter_some]

/-- A code unit that has no partner is read alone. -/
theorem SpellsUnit.read?_alone (h : SpellsUnit unit digits) (hu : unit < 0x10000)
    (rest : List Char) (alone : isHighSurrogate unit = true → lowUnit? rest = none) :
    read? ('u' :: (digits ++ rest)) = some (ofUnit unit, 5) := by
  simp only [read?, h.unit?_append hu, h.drop_append]
  by_cases high : isHighSurrogate unit = true
  · simp only [high, alone high, ofUnit, Bool.true_or, ↓reduceIte]
  · rw [if_neg high]

/-- Two code units that form a pair are read together. -/
theorem SpellsUnit.read?_pair {high low : Nat} {highDigits lowDigits : List Char}
    (first : SpellsUnit high highDigits) (second : SpellsUnit low lowDigits)
    (hh : isHighSurrogate high = true) (hl : isLowSurrogate low = true) (rest : List Char) :
    read? ('u' :: (highDigits ++ '\\' :: 'u' :: (lowDigits ++ rest))) =
      some (ofPair high low, 11) := by
  have bounds : high < 0x10000 ∧ low < 0x10000 := by
    simp only [isHighSurrogate, isLowSurrogate, Bool.and_eq_true, decide_eq_true_eq] at hh hl
    omega
  simp only [read?, first.unit?_append bounds.1, first.drop_append,
    second.lowUnit?_append bounds.2, hh, hl, ↓reduceIte]

/-- A code unit that is no surrogate is read as its character. -/
private theorem SpellsUnit.decode_append (h : SpellsUnit c.toNat digits) (hc : c.toNat < 0x10000)
    (rest : List Char) : decode ('\\' :: 'u' :: (digits ++ rest)) = c :: decode rest := by
  have high : isHighSurrogate c.toNat = false := by
    have valid := toNat_valid c
    simp only [isHighSurrogate, Bool.and_eq_false_iff, decide_eq_false_iff_not]
    omega
  have low : isLowSurrogate c.toNat = false := by
    have valid := toNat_valid c
    simp only [isLowSurrogate, Bool.and_eq_false_iff, decide_eq_false_iff_not]
    omega
  have value : ofUnit c.toNat = c := by
    rw [ofUnit, high, low, Bool.or_self, if_neg Bool.false_ne_true, Char.ofNat_toNat]
  have length : ('u' :: digits).length = 5 := by simp [h.length_digits]
  have read := h.read?_alone hc rest (by simp [high])
  rw [value, ← length] at read
  exact decode_of_read? ('u' :: digits) rest read

/-- A character is found again from its surrogates. -/
theorem ofPair_surrogates (hc : 0x10000 ≤ c.toNat) :
    ofPair (highSurrogate c) (lowSurrogate c) = c := by
  have code : 0x10000 + (highSurrogate c - 0xD800) * 0x400 + (lowSurrogate c - 0xDC00) =
      c.toNat := by
    simp only [highSurrogate, lowSurrogate]
    omega
  rw [ofPair, code, Char.ofNat_toNat]

/-- A surrogate pair is read as its character. -/
private theorem SpellsUnit.decode_pair {high low : List Char} (hc : 0x10000 ≤ c.toNat)
    (first : SpellsUnit (highSurrogate c) high) (second : SpellsUnit (lowSurrogate c) low)
    (rest : List Char) :
    decode ('\\' :: 'u' :: (high ++ '\\' :: 'u' :: (low ++ rest))) = c :: decode rest := by
  have bounds := surrogates_lt c
  have hhigh : isHighSurrogate (highSurrogate c) = true := by
    simp only [isHighSurrogate, Bool.and_eq_true, decide_eq_true_eq]
    exact ⟨Nat.le_add_right _ _, by omega⟩
  have hlow : isLowSurrogate (lowSurrogate c) = true := by
    simp only [isLowSurrogate, Bool.and_eq_true, decide_eq_true_eq]
    exact ⟨Nat.le_add_right _ _, by omega⟩
  have length : ('u' :: (high ++ '\\' :: 'u' :: low)).length = 11 := by
    simp [first.length_digits, second.length_digits]
  have read := first.read?_pair second hhigh hlow rest
  rw [ofPair_surrogates hc, ← length] at read
  have decoded := decode_of_read? ('u' :: (high ++ '\\' :: 'u' :: low)) rest (by simpa using read)
  simpa using decoded

/-- A spelling is read as the character that it spells, whatever follows. -/
theorem SpellsChar.decode_append (h : SpellsChar c spelling) (rest : List Char) :
    decode (spelling ++ rest) = c :: decode rest := by
  cases h with
  | plain _ backslash _ => exact decode_cons backslash rest
  | escaped letter _ =>
    simp only [List.mem_cons, List.not_mem_nil, or_false, not_or] at letter
    obtain ⟨hb, hf, hn, hr, ht, hu⟩ := letter
    rw [List.cons_append, List.cons_append, List.nil_append, decode_escaped hu, ofLetter]
    all_goals assumption
  | letter control =>
    have letter : ∀ entry ∈ controlLetters, entry.1 ≠ 'u' ∧ ofLetter entry.1 = entry.2 := by decide
    obtain ⟨hu, hl⟩ := letter _ control
    rw [List.cons_append, List.cons_append, List.nil_append, decode_escaped hu, hl]
  | unit basic spelled => exact spelled.decode_append basic rest
  | pair beyond first second =>
    simp only [List.cons_append, List.append_assoc]
    exact SpellsUnit.decode_pair beyond first second rest

/-- A spelled value is a body of escapes and plain characters. -/
theorem Spells.units (h : Spells value raw) : Literal.Units raw := by
  induction h with
  | nil => exact .nil
  | cons first _ ih => exact first.units ih

/-- Any spelling of a value is read as the value. -/
theorem Spells.decode_eq (h : Spells value raw) : decode raw = value := by
  induction h with
  | nil => rfl
  | cons first _ ih => rw [first.decode_append, ih]

end Escape

/-! ### Literals -/

/-- A literal is read up to the quote behind its units, whatever follows. -/
private theorem Cursor.read?_string_of_units {raw : List Char} (h : Literal.Units raw)
    (offset : Nat) (rest : List Char) :
    read? .string ⟨offset, '"' :: (raw ++ '"' :: rest)⟩ = some ('"' :: (raw ++ ['"']),
      skipBlanks ⟨offset + Text.byteLength ('"' :: (raw ++ ['"'])), rest⟩) := by
  have noBlanks : skipBlanks ⟨offset, '"' :: (raw ++ '"' :: rest)⟩ =
      ⟨offset, '"' :: (raw ++ '"' :: rest)⟩ := rfl
  refine Cursor.read?_eq_some_iff.mpr ⟨rest, by simp [noBlanks], ⟨raw, rfl, h.body? rest⟩, ?_⟩
  rw [noBlanks]

/-- Any spelling of a value between quotes is read as one literal, whatever follows, and its
escapes give back the value. -/
theorem Seeker.read_string_of_spells {value raw : List Char} (h : Escape.Spells value raw)
    (rest : List Char) :
    (start ('"' :: (raw ++ '"' :: rest))).perform (.read .string) =
        (.token (some raw), ⟨'"' :: (raw ++ '"' :: rest), Text.byteLength ('"' :: (raw ++ ['"'])) +
          Text.byteLength (rest.takeWhile Text.isBlank)⟩) ∧
      Escape.decode raw = value := by
  refine ⟨?_, h.decode_eq⟩
  have cursor : (start ('"' :: (raw ++ '"' :: rest))).cursor? =
      some ⟨0, '"' :: (raw ++ '"' :: rest)⟩ := rfl
  have hread := readToken_of_read? (Cursor.read?_string_of_units h.units 0 rest)
  rw [perform, look_of_cursor? cursor, hread]
  simp [Terminal.value, goTo, start, Cursor.skipBlanks, Cursor.blanks]

/-- A quote behind a backslash, code units with digits of both cases, one of them before another
digit and two of them a pair, and an escaped backslash before a letter. Quotes and a backslash
follow the literal. -/
theorem Seeker.read_string_of_mixed_spelling :
    let raw := ['\\', '"', '\\', 'u', '0', '0', 'E', '9', '0', '\\', 'u', 'D', '8', '3', 'd',
      '\\', 'u', 'D', 'e', '0', '0', '\\', '\\', 'n', '\\', 'n']
    let rest := [' ', '\n', '"', '\\', 'x', '"']
    Escape.Spells ['"', 'é', '0', '😀', '\\', 'n', '\n'] raw ∧
      (start ('"' :: (raw ++ '"' :: rest))).perform (.read .string) =
        (.token (some raw), ⟨'"' :: (raw ++ '"' :: rest), 30⟩) ∧
      Escape.decode raw = ['"', 'é', '0', '😀', '\\', 'n', '\n'] := by
  intro raw rest
  have digits : Escape.SpellsUnit 'é'.toNat ['0', '0', 'E', '9'] ∧
      Escape.SpellsUnit (Escape.highSurrogate '😀') ['D', '8', '3', 'd'] ∧
      Escape.SpellsUnit (Escape.lowSurrogate '😀') ['D', 'e', '0', '0'] := by decide
  have spelled : Escape.Spells ['"', 'é', '0', '😀', '\\', 'n', '\n'] raw :=
    .cons (.escaped (by decide) rfl) <| .cons (.unit (by decide) digits.1) <|
    .cons (.plain (by decide) (by decide) rfl) <| .cons (.pair (by decide) digits.2.1 digits.2.2) <|
    .cons (.escaped (by decide) rfl) <| .cons (.plain (by decide) (by decide) rfl) <|
    .cons (.letter (by decide)) .nil
  exact ⟨spelled, read_string_of_spells spelled rest⟩

end TerseMarkup
