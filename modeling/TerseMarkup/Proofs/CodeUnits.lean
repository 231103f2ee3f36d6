import TerseMarkup.Proofs.Spelling

/-!
# Code units

Escapes with `u` name the units of UTF-16 one by one, so surrogates may come without their partners.
This module says what a lenient decoder makes of a sequence of units, and at which texts an escape
finds the digits of one.
-/

namespace TerseMarkup

/-! ### Lenient decoding -/

namespace Utf16

variable {high low : UInt16}

/-- The first half of a surrogate pair right before its second half. -/
def IsPair (high low : UInt16) : Prop :=
  (0xD800 ≤ high.toNat ∧ high.toNat < 0xDC00) ∧ 0xDC00 ≤ low.toNat ∧ low.toNat < 0xE000

instance (high low : UInt16) : Decidable (IsPair high low) := inferInstanceAs (Decidable (_ ∧ _))

/-- The character of a surrogate pair. Each half holds ten bits of what lies above the basic
plane. -/
def supplementary (high low : UInt16) : Char :=
  Char.ofNat (0x10000 + high.toNat % 0x400 * 0x400 + low.toNat % 0x400)

/-- The character of a unit outside pairs, which is the replacement character for a surrogate. -/
def single (unit : UInt16) : Char :=
  if 0xD800 ≤ unit.toNat ∧ unit.toNat < 0xE000 then '\ufffd' else Char.ofNat unit.toNat

/-- The text of a sequence of units. No sequence is refused. -/
def decodeLossy : List UInt16 → List Char
  | [] => []
  | [unit] => [single unit]
  | high :: low :: rest =>
    if IsPair high low then supplementary high low :: decodeLossy rest
    else single high :: decodeLossy (low :: rest)

private theorem toNat_supplementary (high low : UInt16) :
    (supplementary high low).toNat = 0x10000 + high.toNat % 0x400 * 0x400 + low.toNat % 0x400 := by
  have valid : Nat.isValidChar (0x10000 + high.toNat % 0x400 * 0x400 + low.toNat % 0x400) := by
    right
    omega
  rw [supplementary, Char.ofNat, dif_pos valid]
  rfl

/-- The halves of a pair are the surrogates of its character. -/
private theorem IsPair.surrogates_supplementary (h : IsPair high low) :
    Escape.highSurrogate (supplementary high low) = high.toNat ∧
      Escape.lowSurrogate (supplementary high low) = low.toNat := by
  obtain ⟨⟨_, _⟩, _, _⟩ := h
  simp only [Escape.highSurrogate, Escape.lowSurrogate, toNat_supplementary]
  omega

end Utf16

namespace Escape

open Utf16

variable {high low unit : UInt16} {n : Nat} {d : Char} {digits text : List Char}

/-- Two units make a pair if the first is a high surrogate and the second is a low one. -/
theorem isPair_iff :
    IsPair high low ↔ isHighSurrogate high.toNat = true ∧ isLowSurrogate low.toNat = true := by
  simp only [IsPair, isHighSurrogate, isLowSurrogate, Bool.and_eq_true, decide_eq_true_eq]
  omega

/-- An escape gives a pair its character. -/
theorem ofPair_toNat (h : IsPair high low) :
    ofPair high.toNat low.toNat = supplementary high low := by
  obtain ⟨hh, hl⟩ := h.surrogates_supplementary
  have beyond : 0x10000 ≤ (supplementary high low).toNat := by
    rw [toNat_supplementary]
    omega
  rw [← hh, ← hl, ofPair_surrogates beyond]

/-- An escape gives a unit outside pairs its character. -/
theorem ofUnit_toNat (unit : UInt16) : ofUnit unit.toNat = single unit := by
  have surrogate : (isHighSurrogate unit.toNat || isLowSurrogate unit.toNat) = true ↔
      0xD800 ≤ unit.toNat ∧ unit.toNat < 0xE000 := by
    simp only [isHighSurrogate, isLowSurrogate, Bool.or_eq_true, Bool.and_eq_true,
      decide_eq_true_eq]
    omega
  simp only [ofUnit, single, surrogate]
  rfl

/-! ### Digits of a unit -/

/-- A text starts with the four digits of a unit. -/
def StartsUnit (unit : UInt16) (text : List Char) : Prop :=
  ∃ digits rest, SpellsUnit unit.toNat digits ∧ text = digits ++ rest

/-- What is read as a digit is the digit of its value, in one case or the other. -/
private theorem isHexDigit_of_hexDigit? (h : hexDigit? d = some n) : n < 16 ∧ IsHexDigit n d := by
  have decimal : ∀ m < 10, Text.hexDigit m = Char.ofNat (48 + m) := by decide
  have lower : ∀ m < 6, Text.hexDigit (m + 10) = Char.ofNat (97 + m) := by decide
  have upper : ∀ m < 6, (Text.hexDigit (m + 10)).toUpper = Char.ofNat (65 + m) := by decide
  have code {m k : Nat} (hm : k + m = d.toNat) : d = Char.ofNat (k + m) := by
    rw [hm, Char.ofNat_toNat]
  -- Each range of digits starts at the code point of its first one.
  change (if 48 ≤ d.toNat ∧ d.toNat ≤ 57 then some (d.toNat - 48) else
    if 97 ≤ d.toNat ∧ d.toNat ≤ 102 then some (d.toNat - 97 + 10) else
    if 65 ≤ d.toNat ∧ d.toNat ≤ 70 then some (d.toNat - 65 + 10) else none) = some n at h
  split at h
  · obtain rfl := Option.some.inj h
    refine ⟨by omega, .inl ?_⟩
    rw [decimal _ (by omega)]
    exact code (by omega)
  split at h
  · obtain rfl := Option.some.inj h
    refine ⟨by omega, .inl ?_⟩
    rw [lower _ (by omega)]
    exact code (by omega)
  split at h
  · obtain rfl := Option.some.inj h
    refine ⟨by omega, .inr ?_⟩
    rw [upper _ (by omega)]
    exact code (by omega)
  · cases h

/-- The digits that an escape finds spell the unit that it reads. -/
theorem exists_startsUnit_of_unit? (h : unit? text = some n) :
    ∃ unit : UInt16, unit.toNat = n ∧ StartsUnit unit text := by
  match text with
  | a :: b :: c :: d :: rest =>
    simp only [unit?, Option.bind_eq_bind, Option.bind_eq_some_iff, Option.pure_def,
      Option.some.injEq] at h
    obtain ⟨na, ha, nb, hb, nc, hc, nd, hd, hn⟩ := h
    obtain ⟨_, da⟩ := isHexDigit_of_hexDigit? ha
    obtain ⟨_, db⟩ := isHexDigit_of_hexDigit? hb
    obtain ⟨_, dc⟩ := isHexDigit_of_hexDigit? hc
    obtain ⟨_, dd⟩ := isHexDigit_of_hexDigit? hd
    have places : n / 4096 = na ∧ n / 256 % 16 = nb ∧ n / 16 % 16 = nc ∧ n % 16 = nd := by omega
    have value : (UInt16.ofNat n).toNat = n :=
      UInt16.toNat_ofNat_of_lt' (by rw [UInt16.size]; omega)
    refine ⟨.ofNat n, value, [a, b, c, d], rest, ?_, rfl⟩
    rw [SpellsUnit, value, places.1, places.2.1, places.2.2.1, places.2.2.2]
    exact .cons da (.cons db (.cons dc (.cons dd .nil)))
  | [] | [_] | [_, _] | [_, _, _] => cases h

private theorem StartsUnit.unit?_eq (h : StartsUnit unit text) : unit? text = some unit.toNat := by
  obtain ⟨digits, rest, spelled, rfl⟩ := h
  exact spelled.unit?_append unit.toNat_lt rest

/-- The digits of a unit start it, whatever follows. -/
theorem SpellsUnit.startsUnit (h : SpellsUnit unit.toNat digits) (rest : List Char) :
    StartsUnit unit (digits ++ rest) :=
  ⟨digits, rest, h, rfl⟩

/-- A text starts with the digits of at most one unit. -/
theorem StartsUnit.unique {other : UInt16} (h : StartsUnit unit text)
    (ho : StartsUnit other text) : unit = other :=
  UInt16.toNat_inj.mp (Option.some.inj (h.unit?_eq.symm.trans ho.unit?_eq))

/-- No unit is read where none is spelled. -/
theorem unit?_eq_none_iff : unit? text = none ↔ ∀ unit, ¬StartsUnit unit text := by
  constructor
  · intro h unit starts
    rw [starts.unit?_eq] at h
    cases h
  · intro h
    cases hu : unit? text with
    | none => rfl
    | some n =>
      obtain ⟨unit, -, starts⟩ := exists_startsUnit_of_unit? hu
      exact absurd starts (h unit)

/-- A text starts with an escape of the second half that a unit needs for a pair. -/
def Completes (high : UInt16) (text : List Char) : Prop :=
  ∃ low rest, IsPair high low ∧ StartsUnit low rest ∧ text = '\\' :: 'u' :: rest

/-- A low surrogate that is read is spelled there, as an escape of its own. -/
theorem exists_startsUnit_of_lowUnit? (h : lowUnit? text = some n) :
    ∃ (low : UInt16) (rest : List Char), low.toNat = n ∧ isLowSurrogate n = true ∧
      StartsUnit low rest ∧ text = '\\' :: 'u' :: rest := by
  unfold lowUnit? at h
  split at h
  · next rest =>
    obtain ⟨hu, hl⟩ := Option.filter_eq_some_iff.mp h
    obtain ⟨low, rfl, starts⟩ := exists_startsUnit_of_unit? hu
    exact ⟨low, rest, rfl, hl, starts, rfl⟩
  · cases h

/-- Behind a high surrogate no low one is read, unless an escape completes the pair. -/
theorem lowUnit?_eq_none_of_not_completes (hh : isHighSurrogate unit.toNat = true)
    (h : ¬Completes unit text) : lowUnit? text = none := by
  cases hl : lowUnit? text with
  | none => rfl
  | some n =>
    obtain ⟨low, rest, rfl, hlow, starts, rfl⟩ := exists_startsUnit_of_lowUnit? hl
    exact absurd ⟨low, rest, isPair_iff.mpr ⟨hh, hlow⟩, starts, rfl⟩ h

end Escape
end TerseMarkup
