/-!
# Escapes in string literals

The value of a string literal is its raw body with the escapes read. The letters `b f n r t`
after a backslash stand for control characters, and `u` with four hexadecimal digits stands for a
UTF-16 code unit. Two units that form a surrogate pair stand for one character, and a unit that
is left without its partner for the replacement character. A backslash before any other
character stands for that character. What is no escape stays as it is: a backslash at the end of
the body, or one before a `u` without four digits.
-/

namespace TerseMarkup.Escape

/-- The value of a hexadecimal digit of either case. -/
def hexDigit? (c : Char) : Option Nat :=
  if '0' ≤ c ∧ c ≤ '9' then some (c.toNat - '0'.toNat)
  else if 'a' ≤ c ∧ c ≤ 'f' then some (c.toNat - 'a'.toNat + 10)
  else if 'A' ≤ c ∧ c ≤ 'F' then some (c.toNat - 'A'.toNat + 10)
  else none

/-- The code unit that four hexadecimal digits at the start of a text name. -/
def unit? : List Char → Option Nat
  | a :: b :: c :: d :: _ => do
    let a ← hexDigit? a
    let b ← hexDigit? b
    let c ← hexDigit? c
    let d ← hexDigit? d
    return ((a * 16 + b) * 16 + c) * 16 + d
  | _ => none

/-- The first half of a surrogate pair. -/
def isHighSurrogate (unit : Nat) : Bool :=
  0xD800 ≤ unit && unit ≤ 0xDBFF

/-- The second half of a surrogate pair. -/
def isLowSurrogate (unit : Nat) : Bool :=
  0xDC00 ≤ unit && unit ≤ 0xDFFF

/-- The character that stands for a code unit without its partner. -/
def replacement : Char := '\ufffd'

/-- The character of a code unit that stands alone. -/
def ofUnit (unit : Nat) : Char :=
  if isHighSurrogate unit || isLowSurrogate unit then replacement else Char.ofNat unit

/-- The character of a surrogate pair. -/
def ofPair (high low : Nat) : Char :=
  Char.ofNat (0x10000 + (high - 0xD800) * 0x400 + (low - 0xDC00))

/-- The second half of a surrogate pair, escaped at the start of a text. -/
def lowUnit? : List Char → Option Nat
  | '\\' :: 'u' :: text => (unit? text).filter isLowSurrogate
  | _ => none

/-- The character that a single letter after a backslash stands for. -/
def ofLetter : Char → Char
  | 'b' => '\x08'
  | 'f' => '\x0c'
  | 'n' => '\n'
  | 'r' => '\r'
  | 't' => '\t'
  | c => c

/-- The character of the escape whose backslash stands right before a text, and how many
characters of the text belong to it. -/
def read? : List Char → Option (Char × Nat)
  | [] => none
  | 'u' :: text =>
    match unit? text with
    | none => none
    | some unit =>
      if isHighSurrogate unit then
        match lowUnit? (text.drop 4) with
        | some low => some (ofPair unit low, 11)
        | none => some (replacement, 5)
      else some (ofUnit unit, 5)
  | c :: _ => some (ofLetter c, 1)

/-- The value of a raw body after some characters that are read already. -/
def decodeAfter : Nat → List Char → List Char
  | _, [] => []
  | done + 1, _ :: text => decodeAfter done text
  | 0, c :: text =>
    if c = '\\' then
      match read? text with
      | some (value, length) => value :: decodeAfter length text
      | none => c :: decodeAfter 0 text
    else c :: decodeAfter 0 text

/-- The value of a raw body: each of the escapes `\b \f \n \r \t \uXXXX` and `\` before any other
character becomes the character it stands for, from left to right, and the rest is kept. -/
def decode (raw : List Char) : List Char :=
  decodeAfter 0 raw

/-- Characters that are read already do not count. -/
private theorem decodeAfter_eq (done : Nat) (raw : List Char) :
    decodeAfter done raw = decode (raw.drop done) := by
  induction raw generalizing done with
  | nil => cases done <;> rfl
  | cons c text ih =>
    cases done with
    | zero => rfl
    | succ done => exact ih done

/-- An empty body has an empty value. -/
@[simp] theorem decode_nil : decode [] = [] := rfl

/-- A backslash starts an escape, or stands for itself. -/
theorem decode_backslash (text : List Char) :
    decode ('\\' :: text) =
      match read? text with
      | some (value, length) => value :: decode (text.drop length)
      | none => '\\' :: decode text := by
  rw [decode, decodeAfter, if_pos rfl]
  split
  · rw [decodeAfter_eq]
  · rfl

/-- Any other character stands for itself. -/
theorem decode_cons {c : Char} (h : c ≠ '\\') (text : List Char) :
    decode (c :: text) = c :: decode text := by
  simp only [decode, decodeAfter, h, ↓reduceIte]

end TerseMarkup.Escape
