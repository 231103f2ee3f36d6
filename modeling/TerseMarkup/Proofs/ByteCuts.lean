import TerseMarkup.Proofs.Segments

/-!
# Escapes read by bytes

A text in memory is a sequence of bytes, and reading its escapes cuts it again and again: before a
backslash and behind it, around four digits, behind one escape or two. Each cut is made at an offset
that is counted out beforehand, and it is refused if a character does not start there. The reader
here makes these cuts. The main statement, `Escape.decode_eq_of_segmented`, says that none of them
is ever refused and that the outcome is what the segments of the body stand for.
-/

namespace TerseMarkup

/-! ### Cuts -/

namespace Text

variable {text passed rest : List Char} {n : Nat}

/-- The part of a text before a cut, unless the cut is refused. -/
def takeBytes? (n : Nat) (text : List Char) : Option (List Char) :=
  (dropBytes? n text).map fun _ ↦ takeBytes n text

private theorem dropBytes?_append (passed rest : List Char) :
    dropBytes? (byteLength passed) (passed ++ rest) = some rest :=
  dropBytes?_eq_some_iff.mpr ⟨passed, rfl, rfl⟩

/-- A cut is accepted where it falls between two characters, and it gives what is before it. -/
theorem takeBytes?_eq_some_iff :
    takeBytes? n text = some passed ↔ ∃ rest, text = passed ++ rest ∧ byteLength passed = n := by
  rw [takeBytes?, Option.map_eq_some_iff]
  constructor
  · rintro ⟨rest, hd, rfl⟩
    obtain ⟨passed, rfl, rfl⟩ := dropBytes?_eq_some_iff.mp hd
    exact ⟨rest, by rw [takeBytes_append], by rw [takeBytes_append]⟩
  · rintro ⟨rest, rfl, rfl⟩
    exact ⟨rest, dropBytes?_append passed rest, takeBytes_append passed rest⟩

/-- What is left behind a cut is no longer than the text. -/
private theorem length_le_of_dropBytes? (h : dropBytes? n text = some rest) :
    rest.length ≤ text.length := by
  obtain ⟨passed, rfl, -⟩ := dropBytes?_eq_some_iff.mp h
  simp

/-- A cut behind at least one byte leaves less. -/
private theorem length_lt_of_dropBytes? (h : dropBytes? (n + 1) text = some rest) :
    rest.length < text.length := by
  obtain ⟨passed, rfl, hp⟩ := dropBytes?_eq_some_iff.mp h
  cases passed with
  | nil => cases hp
  | cons c passed =>
    simp only [List.cons_append, List.length_cons, List.length_append]
    omega

end Text

namespace Escape

variable {raw text written rest digits : List Char} {unit : UInt16} {n : Nat} {d : Char}

/-! ### Reading by bytes -/

/-- The code unit in the first four bytes of a text, if they hold whole characters. -/
def unitInBytes? (text : List Char) : Option Nat :=
  (Text.takeBytes? 4 text).bind unit?

/-- The second half of a surrogate pair, escaped at the start of a text. -/
def lowUnitInBytes? (text : List Char) : Option Nat :=
  if text.take 2 = ['\\', 'u'] then (unitInBytes? (text.drop 2)).filter isLowSurrogate else none

/-- The character of the escape whose backslash stands right before a text, and how many bytes of
the text belong to it, unless a cut is refused. -/
def readBytes? (text : List Char) : Option (Option (Char × Nat)) :=
  match text with
  | [] => some none
  | 'u' :: _ => do
    match unitInBytes? (← Text.dropBytes? 1 text) with
    | none => some none
    | some unit =>
      if isHighSurrogate unit then
        match lowUnitInBytes? (← Text.dropBytes? 5 text) with
        | some low => some (some (ofPair unit low, 11))
        | none => some (some (ofUnit unit, 5))
      else some (some (ofUnit unit, 5))
  | c :: _ => some (some (ofLetter c, c.utf8Size))

/-- Read up to the first backslash and the escape there: what it gives and what is left of the
text. -/
def roundBytes? (raw : List Char) : Option (List Char × List Char) := do
  let found := Text.byteLength (raw.takeWhile (· != '\\'))
  let before ← Text.takeBytes? found raw
  let tail ← Text.dropBytes? (found + 1) raw
  match ← readBytes? tail with
  | some (value, n) => return (before ++ [value], ← Text.dropBytes? n tail)
  | none => return (before ++ ['\\'], tail)

/-- Every round reads at least its backslash. -/
private theorem length_lt_of_roundBytes? (h : roundBytes? raw = some (written, rest)) :
    rest.length < raw.length := by
  simp only [roundBytes?, Option.bind_eq_bind, Option.bind_eq_some_iff] at h
  obtain ⟨before, -, tail, ht, found, -, h⟩ := h
  have shorter := Text.length_lt_of_dropBytes? ht
  cases found with
  | none =>
    simp only [Option.pure_def, Option.some.injEq, Prod.mk.injEq] at h
    obtain ⟨-, rfl⟩ := h
    exact shorter
  | some found =>
    simp only [Option.bind_eq_some_iff, Option.pure_def, Option.some.injEq, Prod.mk.injEq] at h
    obtain ⟨left, hl, -, rfl⟩ := h
    have := Text.length_le_of_dropBytes? hl
    omega

/-- The value of a raw body, read by bytes. -/
def decodeBytes? (raw : List Char) : Option (List Char) :=
  if '\\' ∈ raw then
    match _read : roundBytes? raw with
    | some (written, rest) => (decodeBytes? rest).map (written ++ ·)
    | none => none
  else some raw
  termination_by raw.length
  decreasing_by exact length_lt_of_roundBytes? _read

/-! ### Digits in four bytes -/

private theorem IsHexDigit.utf8Size_eq (hn : n < 16) (h : IsHexDigit n d) : d.utf8Size = 1 := by
  have both : ∀ m < 16,
      (Text.hexDigit m).utf8Size = 1 ∧ (Text.hexDigit m).toUpper.utf8Size = 1 := by
    decide
  rcases h with rfl | rfl
  · exact (both n hn).1
  · exact (both n hn).2

private theorem SpellsUnit.byteLength_digits (h : SpellsUnit unit.toNat digits) :
    Text.byteLength digits = 4 := by
  obtain ⟨a, b, c, d, rfl, ha, hb, hc, hd⟩ := h.exists_digits
  have bound := unit.toNat_lt
  simp only [Text.byteLength_cons, Text.byteLength_nil, ha.utf8Size_eq (by omega),
    hb.utf8Size_eq (by omega), hc.utf8Size_eq (by omega), hd.utf8Size_eq (by omega)]

/-- The digits of a unit lie in four bytes, and other characters there name no unit. -/
private theorem unitInBytes?_eq_unit? (text : List Char) : unitInBytes? text = unit? text := by
  apply Option.ext
  intro n
  rw [unitInBytes?, Option.bind_eq_some_iff]
  constructor
  · rintro ⟨window, hw, hu⟩
    obtain ⟨rest, rfl, -⟩ := Text.takeBytes?_eq_some_iff.mp hw
    obtain ⟨unit, rfl, digits, more, spelled, rfl⟩ := exists_startsUnit_of_unit? hu
    rw [List.append_assoc]
    exact spelled.unit?_append unit.toNat_lt _
  · intro hu
    obtain ⟨unit, rfl, digits, rest, spelled, rfl⟩ := exists_startsUnit_of_unit? hu
    refine ⟨digits, Text.takeBytes?_eq_some_iff.mpr ⟨rest, rfl, spelled.byteLength_digits⟩, ?_⟩
    rw [← List.append_nil digits]
    exact spelled.unit?_append unit.toNat_lt []

private theorem lowUnitInBytes?_eq_lowUnit? (text : List Char) :
    lowUnitInBytes? text = lowUnit? text := by
  rw [lowUnitInBytes?, unitInBytes?_eq_unit?]
  by_cases escaped : text.take 2 = ['\\', 'u']
  · obtain ⟨rest, rfl⟩ : ∃ rest, text = '\\' :: 'u' :: rest := by
      refine ⟨text.drop 2, ?_⟩
      calc text
        _ = text.take 2 ++ text.drop 2 := (List.take_append_drop 2 text).symm
        _ = '\\' :: 'u' :: text.drop 2 := by rw [escaped]; rfl
    rw [if_pos escaped]
    rfl
  · rw [if_neg escaped]
    unfold lowUnit?
    split
    · exact absurd rfl escaped
    · rfl

/-! ### No cut is refused -/

private theorem SpellsUnit.byteLength_escape (h : SpellsUnit unit.toNat digits) :
    Text.byteLength ('u' :: digits) = 5 := by
  rw [Text.byteLength_cons, h.byteLength_digits]
  rfl

/-- The five characters of an escaped unit take five bytes. -/
private theorem SpellsUnit.byteLength_take_escape (h : SpellsUnit unit.toNat digits)
    (rest : List Char) : Text.byteLength (('u' :: (digits ++ rest)).take 5) = 5 := by
  have taken : (digits ++ rest).take 4 = digits := by rw [← h.length_digits, List.take_left]
  rw [List.take_succ_cons, taken, h.byteLength_escape]

/-- The eleven characters of an escaped pair take eleven bytes. -/
private theorem SpellsUnit.byteLength_take_pair {low : UInt16} {lowDigits : List Char}
    (first : SpellsUnit unit.toNat digits) (second : SpellsUnit low.toNat lowDigits)
    (rest : List Char) :
    Text.byteLength (('u' :: (digits ++ '\\' :: 'u' :: (lowDigits ++ rest))).take 11) = 11 := by
  have length : ('u' :: digits ++ '\\' :: 'u' :: lowDigits).length = 11 := by
    simp [first.length_digits, second.length_digits]
  have split : 'u' :: (digits ++ '\\' :: 'u' :: (lowDigits ++ rest)) =
      'u' :: digits ++ '\\' :: 'u' :: lowDigits ++ rest := by simp
  have bytes : Text.byteLength ('u' :: digits ++ '\\' :: 'u' :: lowDigits) = 11 := by
    rw [Text.byteLength_append, first.byteLength_escape, Text.byteLength_cons,
      second.byteLength_escape]
    rfl
  calc Text.byteLength (('u' :: (digits ++ '\\' :: 'u' :: (lowDigits ++ rest))).take 11)
    _ = Text.byteLength ('u' :: digits ++ '\\' :: 'u' :: lowDigits) := by
      rw [split, ← length, List.take_left]
    _ = 11 := bytes

/-- Read by bytes, an escape is the same and has the bytes of its characters. -/
private theorem readBytes?_eq (text : List Char) :
    readBytes? text =
      some ((read? text).map fun found ↦ (found.1, Text.byteLength (text.take found.2))) := by
  cases text with
  | nil => rfl
  | cons c tail =>
    by_cases letter : c = 'u'
    · subst c
      have behindU : Text.dropBytes? 1 ('u' :: tail) = some tail :=
        Text.dropBytes?_append ['u'] tail
      simp only [readBytes?, read?, behindU, Option.bind_eq_bind, Option.bind_some,
        unitInBytes?_eq_unit?]
      cases hu : unit? tail with
      | none => rfl
      | some n =>
        obtain ⟨unit, rfl, digits, rest, spelled, rfl⟩ := exists_startsUnit_of_unit? hu
        have behindDigits : Text.dropBytes? 5 ('u' :: (digits ++ rest)) = some rest :=
          spelled.byteLength_escape ▸ Text.dropBytes?_append ('u' :: digits) rest
        have five := spelled.byteLength_take_escape rest
        by_cases high : isHighSurrogate unit.toNat = true
        · simp only [high, behindDigits, spelled.drop_append, lowUnitInBytes?_eq_lowUnit?,
            Option.bind_some, ↓reduceIte]
          cases hl : lowUnit? rest with
          | some low =>
            obtain ⟨low, _, rfl, -, ⟨lowDigits, more, second, rfl⟩, rfl⟩ :=
              exists_startsUnit_of_lowUnit? hl
            simp only [spelled.byteLength_take_pair second, Option.map_some]
          | none =>
            simp only [ofUnit, high, five, Bool.true_or, ↓reduceIte, Option.map_some]
        · simp only [high, five, Option.map_some, Bool.false_eq_true, ↓reduceIte]
    · rw [read?_letter letter]
      unfold readBytes?
      split
      · next he => cases he
      · next he => exact absurd (List.cons.inj he).1 letter
      · next he =>
        obtain ⟨rfl, -⟩ := List.cons.inj he
        simp

/-- Characters before the first backslash are read as they are. -/
private theorem decode_append_of_not_mem {before : List Char} (h : '\\' ∉ before)
    (rest : List Char) : decode (before ++ rest) = before ++ decode rest := by
  induction before with
  | nil => rfl
  | cons c before ih =>
    rw [List.mem_cons, not_or] at h
    rw [List.cons_append, decode_cons (Ne.symm h.1), ih h.2, List.cons_append]

/-- A round finds the first backslash and reads the escape behind it. -/
private theorem roundBytes?_eq {before : List Char} (h : '\\' ∉ before) (tail : List Char) :
    roundBytes? (before ++ '\\' :: tail) =
      match read? tail with
      | some (value, n) => some (before ++ [value], tail.drop n)
      | none => some (before ++ ['\\'], tail) := by
  have found : (before ++ '\\' :: tail).takeWhile (· != '\\') = before := by
    rw [List.takeWhile_append_of_pos, List.takeWhile_cons_of_neg (by simp), List.append_nil]
    intro c hc
    simpa using ne_of_mem_of_not_mem hc h
  have kept : Text.takeBytes? (Text.byteLength before) (before ++ '\\' :: tail) = some before :=
    Text.takeBytes?_eq_some_iff.mpr ⟨_, rfl, rfl⟩
  have passed : Text.dropBytes? (Text.byteLength before + 1) (before ++ '\\' :: tail) =
      some tail :=
    Text.dropBytes?_eq_some_iff.mpr ⟨before ++ ['\\'], by simp, by simp; rfl⟩
  simp only [roundBytes?, found, kept, passed, readBytes?_eq, Option.bind_eq_bind,
    Option.bind_some]
  cases read? tail with
  | none => rfl
  | some escape =>
    have rest := Text.dropBytes?_append (tail.take escape.2) (tail.drop escape.2)
    rw [List.take_append_drop] at rest
    simp only [Option.map_some, rest, Option.bind_some, Option.pure_def]

/-- What a round writes out comes first in the value, and what it leaves gives the rest. -/
private theorem exists_roundBytes? (h : '\\' ∈ raw) :
    ∃ written rest, roundBytes? raw = some (written, rest) ∧
      decode raw = written ++ decode rest := by
  obtain ⟨before, tail, rfl, none⟩ := List.eq_append_cons_of_mem h
  rw [roundBytes?_eq none, decode_append_of_not_mem none, decode_backslash]
  cases read? tail with
  | none => exact ⟨before ++ ['\\'], tail, rfl, by simp⟩
  | some escape => exact ⟨before ++ [escape.1], tail.drop escape.2, rfl, by simp⟩

/-- Read by bytes, a raw body has the same value, and no cut is refused on the way. -/
private theorem decodeBytes?_eq (raw : List Char) : decodeBytes? raw = some (decode raw) := by
  rw [decodeBytes?]
  by_cases backslash : '\\' ∈ raw
  · obtain ⟨written, rest, round, value⟩ := exists_roundBytes? backslash
    have shorter := length_lt_of_roundBytes? round
    rw [if_pos backslash]
    split
    · next read =>
      obtain ⟨rfl, rfl⟩ := Prod.mk.inj (Option.some.inj (round.symm.trans read))
      rw [decodeBytes?_eq rest, value, Option.map_some]
    · next read =>
      rw [round] at read
      cases read
  · have plain := decode_append_of_not_mem backslash []
    rw [List.append_nil, decode_nil, List.append_nil] at plain
    rw [if_neg backslash, plain]
  termination_by raw.length

/-- A raw body is split into segments in exactly one way. It is read as what they stand for, with
every cut between two characters. Reading its two parts gives the same wherever the cut lies behind
a segment and the first part has the segments before it. -/
theorem decode_eq_of_segmented (raw : List Char) :
    (∃! segments, Segmented raw segments) ∧
      (∀ segments, Segmented raw segments → decode raw = segments.map Segment.value) ∧
      decodeBytes? raw = some (decode raw) ∧
      ∀ first second before after, raw = first ++ second → Segmented first before →
        Segmented raw (before ++ after) → decode raw = decode first ++ decode second := by
  refine ⟨?_, fun segments h ↦ h.decode_eq, decodeBytes?_eq raw, ?_⟩
  · obtain ⟨segments, h⟩ := Segmented.exists_segments raw
    exact ⟨segments, h, fun others ho ↦ ho.unique h⟩
  · rintro first second before after rfl hf h
    exact hf.decode_append h

end Escape
end TerseMarkup
