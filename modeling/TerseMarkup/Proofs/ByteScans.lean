import TerseMarkup.Proofs.ByteCuts
import TerseMarkup.Proofs.LongestMatch

/-!
# Names and identifiers counted in bytes

In memory a name is measured by counting bytes from the front, as long as they are in a class, and
the text is then cut behind the bytes that were counted. This finds the characters of the name
because a character of the class is a single byte, and the first byte of any other character is not
in the class. The main statement, `Seeker.readsLongest_of_boundary`, says that no cut is refused to
such a reader, and that it reads what a seeker reads: the longest match of a regular expression.
-/

namespace TerseMarkup

/-! ### Bytes of a text -/

namespace Text

variable {inBytes : UInt8 → Bool} {accepts : Char → Bool} {b : UInt8} {c : Char}

/-- The bytes of a text in UTF-8. -/
def bytes (text : List Char) : List UInt8 :=
  text.flatMap String.utf8EncodeChar

/-- The bytes of the letters `a-zA-Z`. -/
def isLetterByte (b : UInt8) : Bool :=
  (0x41 ≤ b && b ≤ 0x5A) || (0x61 ≤ b && b ≤ 0x7A)

/-- The bytes of names. -/
def isNameByte (b : UInt8) : Bool :=
  isLetterByte b || (0x30 ≤ b && b ≤ 0x39)

/-- The bytes that an identifier starts with, after an optional hyphen. -/
def isIdentifierStartByte (b : UInt8) : Bool :=
  isLetterByte b || b == 0x5F

/-- The bytes that continue an identifier. -/
def isIdentifierByte (b : UInt8) : Bool :=
  isNameByte b || b == 0x5F || b == 0x2D

private theorem bytes_cons (c : Char) (text : List Char) :
    bytes (c :: text) = String.utf8EncodeChar c ++ bytes text :=
  List.flatMap_cons

private theorem length_bytes (text : List Char) : (bytes text).length = byteLength text := by
  induction text with
  | nil => rfl
  | cons c text ih =>
    rw [bytes_cons, List.length_append, String.length_utf8EncodeChar, ih, byteLength_cons]

private theorem utf8EncodeChar_of_lt (h : c.toNat < 128) :
    String.utf8EncodeChar c = [UInt8.ofNat c.toNat] := by
  unfold String.utf8EncodeChar
  exact if_pos (Nat.le_of_lt_succ h)

/-- A character outside ASCII starts with a byte outside ASCII. -/
private theorem exists_utf8EncodeChar_of_le (h : 128 ≤ c.toNat) :
    ∃ first more, String.utf8EncodeChar c = first :: more ∧ 128 ≤ first.toNat := by
  unfold String.utf8EncodeChar
  unfold Char.toNat at h
  simp only
  split_ifs
  · omega
  all_goals
    refine ⟨_, _, rfl, ?_⟩
    rw [UInt8.toNat_ofNat']
    omega

/-! ### Classes told by the first byte -/

/-- A class of bytes that tells a class of characters: the first byte of a character is in the one
as the character is in the other, and a character of the class has no further bytes. -/
def ReadsAs (inBytes : UInt8 → Bool) (accepts : Char → Bool) : Prop :=
  ∀ c, ∃ first more, String.utf8EncodeChar c = first :: more ∧ inBytes first = accepts c ∧
    (accepts c = true → more = [])

/-- Classes within ASCII need to be compared only there. -/
private theorem readsAs_of_ascii
    (same : ∀ n < 128, inBytes (UInt8.ofNat n) = accepts (Char.ofNat n))
    (hb : ∀ b, inBytes b = true → b.toNat < 128) (hc : ∀ c, accepts c = true → c.toNat < 128) :
    ReadsAs inBytes accepts := by
  intro c
  by_cases ascii : c.toNat < 128
  · refine ⟨_, [], utf8EncodeChar_of_lt ascii, ?_, fun _ ↦ rfl⟩
    rw [same c.toNat ascii, Char.ofNat_toNat]
  · rw [Nat.not_lt] at ascii
    obtain ⟨first, more, he, hf⟩ := exists_utf8EncodeChar_of_le ascii
    have byte : inBytes first = false :=
      Bool.eq_false_iff.mpr fun h ↦ absurd (hb first h) (Nat.not_lt.mpr hf)
    have char : accepts c = false :=
      Bool.eq_false_iff.mpr fun h ↦ absurd (hc c h) (Nat.not_lt.mpr ascii)
    refine ⟨first, more, he, byte.trans char.symm, ?_⟩
    rw [char]
    exact nofun

private theorem toNat_lt_of_isIdentifierByte (h : isIdentifierByte b = true) : b.toNat < 128 := by
  simp only [isIdentifierByte, isNameByte, isLetterByte, Bool.or_eq_true, Bool.and_eq_true,
    decide_eq_true_eq, beq_iff_eq, UInt8.le_iff_toNat_le, ← UInt8.toNat_inj,
    UInt8.reduceToNat] at h
  omega

private theorem readsAs_identifier : ReadsAs isIdentifierByte isIdentifierChar :=
  readsAs_of_ascii (by decide) (fun _ ↦ toNat_lt_of_isIdentifierByte)
    fun _ h ↦ (toNat_of_isIdentifierChar h).2

private theorem readsAs_name : ReadsAs isNameByte isNameChar := by
  apply readsAs_of_ascii (by decide)
  · intro b h
    exact toNat_lt_of_isIdentifierByte (by simp [isIdentifierByte, h])
  · intro c h
    exact (toNat_of_isIdentifierChar (isIdentifierChar_of_isNameChar h)).2

private theorem readsAs_identifierStart : ReadsAs isIdentifierStartByte isIdentifierStart := by
  apply readsAs_of_ascii (by decide)
  · intro b h
    apply toNat_lt_of_isIdentifierByte
    rw [isIdentifierStartByte, Bool.or_eq_true] at h
    rcases h with h | h
    · simp [isIdentifierByte, isNameByte, h]
    · simp [isIdentifierByte, h]
  · intro c h
    exact (toNat_of_isIdentifierChar (isIdentifierChar_of_isIdentifierStart h)).2

private theorem readsAs_hyphen : ReadsAs (· == 0x2D) (· == '-') := by
  apply readsAs_of_ascii (by decide)
  · intro b h
    rw [beq_iff_eq] at h
    rw [h]
    decide
  · intro c h
    rw [beq_iff_eq] at h
    rw [h]
    decide

/-! ### Counting bytes of a class -/

private theorem ReadsAs.utf8Size_eq_one (h : ReadsAs inBytes accepts) (hc : accepts c = true) :
    c.utf8Size = 1 := by
  obtain ⟨first, more, he, -, hm⟩ := h c
  rw [← String.length_utf8EncodeChar, he, hm hc, List.length_singleton]

/-- A character of the class is one byte of the class. -/
private theorem ReadsAs.exists_bytes_cons (h : ReadsAs inBytes accepts) (hc : accepts c = true) :
    ∃ first, inBytes first = true ∧ ∀ text, bytes (c :: text) = first :: bytes text := by
  obtain ⟨first, more, he, hf, hm⟩ := h c
  refine ⟨first, hf.trans hc, fun text ↦ ?_⟩
  rw [bytes_cons, he, hm hc, List.singleton_append]

/-- Any other character starts with a byte outside the class. -/
private theorem ReadsAs.exists_bytes_cons_of_not (h : ReadsAs inBytes accepts)
    (hc : accepts c = false) (text : List Char) :
    ∃ first more, inBytes first = false ∧ bytes (c :: text) = first :: more := by
  obtain ⟨first, more, he, hf, -⟩ := h c
  exact ⟨first, more ++ bytes text, hf.trans hc, by rw [bytes_cons, he, List.cons_append]⟩

/-- The bytes of a class at the start of a text are those of the characters of the class. -/
private theorem ReadsAs.takeWhile_bytes (h : ReadsAs inBytes accepts) (text : List Char) :
    (bytes text).takeWhile inBytes = bytes (text.takeWhile accepts) := by
  induction text with
  | nil => rfl
  | cons c text ih =>
    cases hc : accepts c with
    | true =>
      obtain ⟨first, hf, he⟩ := h.exists_bytes_cons hc
      rw [he, List.takeWhile_cons_of_pos hf, ih, List.takeWhile_cons_of_pos hc, he]
    | false =>
      obtain ⟨first, more, hf, he⟩ := h.exists_bytes_cons_of_not hc text
      rw [he, List.takeWhile_cons_of_neg (by simp [hf]), List.takeWhile_cons_of_neg (by simp [hc])]
      rfl

end Text

/-! ### The two scans -/

namespace Terminal

/-- The number of bytes of the name at the start of some bytes. -/
def nameLength? (bytes : List UInt8) : Option Nat :=
  let length := (bytes.takeWhile Text.isNameByte).length
  if 0 < length then some length else none

/-- The number of bytes up to the end of the identifier whose start is behind `n` bytes. -/
def startLength? (bytes : List UInt8) (n : Nat) : Option Nat :=
  match bytes[n]? with
  | some b =>
    if Text.isIdentifierStartByte b then
      some (n + 1 + ((bytes.drop (n + 1)).takeWhile Text.isIdentifierByte).length)
    else none
  | none => none

/-- The number of bytes of the identifier at the start of some bytes. -/
def identifierLength? (bytes : List UInt8) : Option Nat :=
  startLength? bytes (if bytes.head? = some 0x2D then 1 else 0)

/-- A name has the bytes that are counted. -/
theorem nameLength?_bytes (text : List Char) :
    nameLength? (Text.bytes text) = (name? text).map Text.byteLength := by
  rw [nameLength?, Text.readsAs_name.takeWhile_bytes, Text.length_bytes, name?]
  cases text.takeWhile Text.isNameChar with
  | nil => rfl
  | cons c more =>
    have := c.utf8Size_pos
    exact if_pos (by rw [Text.byteLength_cons]; omega)

/-- Behind some bytes, an identifier is counted from its start. -/
private theorem startLength?_append (before : List UInt8) (c : Char) (text : List Char) :
    startLength? (before ++ Text.bytes (c :: text)) before.length =
      if Text.isIdentifierStart c then
        some (before.length + Text.byteLength (c :: text.takeWhile Text.isIdentifierChar))
      else none := by
  cases hc : Text.isIdentifierStart c with
  | true =>
    obtain ⟨first, hf, he⟩ := Text.readsAs_identifierStart.exists_bytes_cons hc
    have behind : (before ++ first :: Text.bytes text).drop (before.length + 1) =
        Text.bytes text := by
      simp
    rw [startLength?, he, List.getElem?_append_right (Nat.le_refl _), Nat.sub_self,
      List.getElem?_cons_zero, behind, Text.readsAs_identifier.takeWhile_bytes, Text.length_bytes,
      Text.byteLength_cons, Text.readsAs_identifierStart.utf8Size_eq_one hc, ← Nat.add_assoc]
    exact if_pos hf
  | false =>
    obtain ⟨first, more, hf, he⟩ := Text.readsAs_identifierStart.exists_bytes_cons_of_not hc text
    rw [startLength?, he, List.getElem?_append_right (Nat.le_refl _), Nat.sub_self,
      List.getElem?_cons_zero]
    exact if_neg (by simp [hf])

/-- An identifier has the bytes that are counted. -/
theorem identifierLength?_bytes (text : List Char) :
    identifierLength? (Text.bytes text) = (identifier? text).map Text.byteLength := by
  cases text with
  | nil => rfl
  | cons c text =>
    by_cases hyphen : c = '-'
    · subst c
      -- The hyphen is one byte, and the start is looked for behind it.
      have head : (Text.bytes ('-' :: text)).head? = some 0x2D := rfl
      rw [identifierLength?, if_pos head]
      cases text with
      | nil => rfl
      | cons d text =>
        rw [identifier?_hyphen]
        refine (startLength?_append [0x2D] d text).trans ?_
        split <;> rfl
    · obtain ⟨first, more, hf, he⟩ :=
        Text.readsAs_hyphen.exists_bytes_cons_of_not (beq_false_of_ne hyphen) text
      have head : (Text.bytes (c :: text)).head? ≠ some 0x2D := by
        rw [he, List.head?_cons, ne_eq, Option.some.injEq]
        exact ne_of_beq_false hf
      rw [identifierLength?, if_neg head, identifier?_cons hyphen]
      refine (startLength?_append [] c text).trans ?_
      split <;> simp

/-! ### Measures -/

/-- What is found by measuring at the start of a text is the lexeme there: its bytes and what it
says. No cut is refused. -/
def Measures (t : Terminal) (measure? : List Char → Option (Option (Nat × List Char))) : Prop :=
  ∀ text, measure? text =
    some ((t.lexeme? text).map fun lexeme ↦ (Text.byteLength lexeme, t.value lexeme))

/-- Measure a token by a count of its bytes. It is cut out of the text and stands for itself. -/
def counted? (length? : List UInt8 → Option Nat) (text : List Char) :
    Option (Option (Nat × List Char)) :=
  match length? (Text.bytes text) with
  | none => some none
  | some n => (Text.takeBytes? n text).map fun word ↦ some (n, word)

/-- A count that agrees with the lexemes measures them. -/
theorem measures_counted? {t : Terminal} {length? : List UInt8 → Option Nat} (ht : t ≠ .string)
    (hl : ∀ text, length? (Text.bytes text) = (t.lexeme? text).map Text.byteLength) :
    t.Measures (counted? length?) := by
  intro text
  rw [counted?, hl]
  cases hr : t.lexeme? text with
  | none => rfl
  | some word =>
    obtain ⟨behind, htext, -⟩ := lexeme?_eq_some_iff.mp hr
    have taken : Text.takeBytes? (Text.byteLength word) text = some word :=
      Text.takeBytes?_eq_some_iff.mpr ⟨behind, htext, rfl⟩
    simp only [Option.map_some, taken, value_of_ne_string ht]

end Terminal

/-! ### Reading by bytes -/

namespace Seeker

variable {s : Seeker} {c : Cursor} {t : Terminal} {pattern : RegularExpression Char}
  {length? : List UInt8 → Option Nat} {measure? : List Char → Option (Option (Nat × List Char))}

/-- Read a token that is measured at its start, unless a cut is refused. The text is cut at the
place of the seeker, behind the blanks and behind the token. -/
def scanWith? (s : Seeker) (measure? : List Char → Option (Option (Nat × List Char))) :
    Option (Answer × Seeker) := do
  let text ← Text.dropBytes? s.offset s.source
  let start := s.offset + Text.byteLength (text.takeWhile Text.isBlank)
  let rest ← Text.dropBytes? start s.source
  match ← measure? rest with
  | none => return (.token none, s)
  | some (n, value) =>
    let behind ← Text.dropBytes? (start + n) s.source
    let next := start + n + Text.byteLength (behind.takeWhile Text.isBlank)
    return (.token (some value), { s with offset := next })

/-- Read a token whose bytes are counted, unless a cut is refused. The text is cut at the place of
the seeker, behind the blanks, and before and behind the token. -/
def scan? (s : Seeker) (length? : List UInt8 → Option Nat) : Option (Answer × Seeker) :=
  s.scanWith? (Terminal.counted? length?)

/-- What a seeker reads for a terminal before a text: the longest match of an expression, or nothing
where there is no match. Counting the bytes of the token leads to the same answer and place. -/
structure ReadsLongest (s : Seeker) (rest : List Char) (t : Terminal)
    (pattern : RegularExpression Char) (length? : List UInt8 → Option Nat) : Prop where
  found_iff : ∀ word, (s.perform (.read t)).1 = .token (some word) ↔
    Text.IsLongestMatch pattern rest word
  missed_iff : (s.perform (.read t)).1 = .token none ↔
    ∀ word, word <+: rest → word ∉ pattern.matches'
  scan?_eq : s.scan? length? = some (s.perform (.read t))

/-- Between two characters, measuring a terminal leads to its token, and no cut is refused on the
way. -/
theorem scanWith?_of_cursor? (h : s.cursor? = some c) (hm : t.Measures measure?) :
    s.scanWith? measure? = some (s.perform (.read t)) := by
  have place := (cursor?_eq_some_iff.mp h).2
  have start : c.offset + Text.byteLength (c.rest.takeWhile Text.isBlank) = c.skipBlanks.offset :=
    rfl
  simp only [scanWith?, ← place, dropBytes?_of_leadsTo h (.refl c), Option.bind_eq_bind,
    Option.bind_some, start, dropBytes?_of_leadsTo h c.leadsTo_skipBlanks, hm c.skipBlanks.rest]
  rw [perform, look_of_cursor? h]
  cases hr : c.read? t with
  | none =>
    rw [readToken_of_none hr, goTo_of_cursor? h, Cursor.read?_eq_none_iff.mp hr]
    rfl
  | some found =>
    obtain ⟨word, next⟩ := found
    obtain ⟨behind, hrest, hword, rfl⟩ := Cursor.read?_eq_some_iff.mp hr
    have passed : c.skipBlanks.LeadsTo ⟨c.skipBlanks.offset + Text.byteLength word, behind⟩ :=
      ⟨word, hrest, rfl⟩
    have cut := dropBytes?_of_leadsTo h (c.leadsTo_skipBlanks.trans passed)
    have lexeme : t.lexeme? c.skipBlanks.rest = some word :=
      Terminal.lexeme?_eq_some_iff.mpr ⟨behind, hrest, hword⟩
    simp only [readToken_of_read? hr, lexeme, Option.map_some, cut, Option.bind_some]
    rfl

/-- For any terminal but string literals, an expression of its class and a count that agrees with
its lexemes are enough. -/
private theorem readsLongest_of_isPattern (ht : t ≠ .string) (hp : t.IsPattern pattern)
    (hl : ∀ text, length? (Text.bytes text) = (t.lexeme? text).map Text.byteLength)
    (before text : List Char) :
    (⟨before ++ text, Text.byteLength before⟩ : Seeker).ReadsLongest (text.dropWhile Text.isBlank) t
      pattern length? := by
  have cursor := cursor?_append before text
  have read : ((⟨before ++ text, Text.byteLength before⟩ : Seeker).perform (.read t)).1 =
      .token (t.lexeme? (text.dropWhile Text.isBlank)) := by
    rw [perform, look_of_cursor? cursor, readToken_fst,
      funext (Terminal.value_of_ne_string ht)]
    exact congrArg Answer.token Option.map_id'
  refine ⟨fun word ↦ ?_, ?_, scanWith?_of_cursor? cursor (Terminal.measures_counted? ht hl)⟩
  · rw [read, Answer.token.injEq, hp.lexeme?_eq_some_iff ht]
  · rw [read, Answer.token.injEq, hp.lexeme?_eq_none_iff ht]

/-- At every place between two characters of a text, a seeker reads as a name the longest beginning
of what follows the blanks that `[a-zA-Z0-9]+` matches, and as an identifier the longest that
`-?[_a-zA-Z][_a-zA-Z0-9-]*` matches. It misses them exactly where no beginning matches. Counting
bytes finds the same. -/
theorem readsLongest_of_boundary (before text : List Char) :
    let s : Seeker := ⟨before ++ text, Text.byteLength before⟩
    let rest := text.dropWhile Text.isBlank
    s.ReadsLongest rest .name Terminal.namePattern Terminal.nameLength? ∧
      s.ReadsLongest rest .identifier Terminal.identifierPattern Terminal.identifierLength? := by
  constructor
  · exact readsLongest_of_isPattern (by decide) Terminal.isPattern_name
      Terminal.nameLength?_bytes before text
  · exact readsLongest_of_isPattern (by decide) Terminal.isPattern_identifier
      Terminal.identifierLength?_bytes before text

example : (⟨['é', ' ', '-', 'x', '-', '1', 'é'], 2⟩ : Seeker).perform (.read .identifier) =
    (.token (some ['-', 'x', '-', '1']), ⟨['é', ' ', '-', 'x', '-', '1', 'é'], 7⟩) := by
  decide

end Seeker
end TerseMarkup
