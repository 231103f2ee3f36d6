import TerseMarkup.Proofs.CodeUnits

/-!
# Raw bodies in segments

A raw body is read from left to right in segments, each of which stands for one character. Most
segments are told by their own text. An escaped unit and a kept backslash are told by what follows
too, since a pair or four digits there would make another segment of it. Every text is split in one
way, and reading it gives what its segments stand for. For escaped units that is the text of a
lenient decoder, which is the main statement, `decode_of_spellsUnits`.
-/

namespace TerseMarkup.Escape

open Utf16

/-- A part of a raw body that is read at once. -/
inductive Segment where
  /-- A character other than a backslash. -/
  | plain (c : Char) (other : c ≠ '\\')
  /-- Two escaped units that form a pair. -/
  | pair (high low : UInt16) (highDigits lowDigits : List Char) (paired : IsPair high low)
      (first : SpellsUnit high.toNat highDigits) (second : SpellsUnit low.toNat lowDigits)
  /-- An escaped unit on its own. -/
  | codeUnit (unit : UInt16) (digits : List Char) (spelled : SpellsUnit unit.toNat digits)
  /-- A backslash before a `u` without four digits. The `u` is read on its own. -/
  | keptBeforeU
  /-- A backslash and the character after it, which is not `u`. -/
  | escaped (c : Char) (letter : c ≠ 'u')
  /-- A backslash at the end of the body. -/
  | keptAtEnd

namespace Segment

variable {s t : Segment} {passed rest : List Char}

/-- The characters of a segment. -/
def text : Segment → List Char
  | plain c _ => [c]
  | pair _ _ highDigits lowDigits _ _ _ => '\\' :: 'u' :: (highDigits ++ '\\' :: 'u' :: lowDigits)
  | codeUnit _ digits _ => '\\' :: 'u' :: digits
  | keptBeforeU => ['\\']
  | escaped c _ => ['\\', c]
  | keptAtEnd => ['\\']

/-- The character that a segment stands for. -/
def value : Segment → Char
  | plain c _ => c
  | pair high low _ _ _ _ _ => supplementary high low
  | codeUnit unit _ _ => single unit
  | keptBeforeU => '\\'
  | escaped c _ => ofLetter c
  | keptAtEnd => '\\'

/-- What may follow a segment. -/
def Fits : Segment → List Char → Prop
  | plain _ _, _ => True
  | pair _ _ _ _ _ _ _, _ => True
  | codeUnit unit _ _, rest => ¬Completes unit rest
  | keptBeforeU, rest => ∃ more, rest = 'u' :: more ∧ ∀ unit, ¬StartsUnit unit more
  | escaped _ _, _ => True
  | keptAtEnd, rest => rest = []

private theorem text_ne_nil (s : Segment) : s.text ≠ [] := by
  cases s <;> exact List.cons_ne_nil _ _

/-! ### Reading a segment -/

/-- At the backslash of a segment, either the segment is read as a whole, or no escape is found and
the backslash is all there is to it. -/
private theorem read?_passed (fits : s.Fits rest) (h : s.text = '\\' :: passed) :
    read? (passed ++ rest) = some (s.value, passed.length) ∨
      passed = [] ∧ s.value = '\\' ∧ read? rest = none := by
  cases s with
  | plain c other => exact absurd (List.cons.inj h).1 other
  | pair high low highDigits lowDigits paired first second =>
    obtain rfl := (List.cons.inj h).2
    obtain ⟨hh, hl⟩ := isPair_iff.mp paired
    have length : ('u' :: (highDigits ++ '\\' :: 'u' :: lowDigits)).length = 11 := by
      simp [first.length_digits, second.length_digits]
    rw [value, ← ofPair_toNat paired, length, ← first.read?_pair second hh hl rest]
    simp
  | codeUnit unit digits spelled =>
    obtain rfl := (List.cons.inj h).2
    have length : ('u' :: digits).length = 5 := by simp [spelled.length_digits]
    have alone := fun hh ↦ lowUnit?_eq_none_of_not_completes hh fits
    rw [value, ← ofUnit_toNat, length, ← spelled.read?_alone unit.toNat_lt rest alone]
    exact .inl rfl
  | keptBeforeU =>
    obtain rfl := (List.cons.inj h).2
    obtain ⟨more, rfl, none⟩ := fits
    refine .inr ⟨rfl, rfl, ?_⟩
    simp only [read?, unit?_eq_none_iff.mpr none]
  | escaped c letter =>
    obtain rfl := (List.cons.inj h).2
    exact .inl (read?_letter letter rest)
  | keptAtEnd =>
    obtain rfl := (List.cons.inj h).2
    obtain rfl : rest = [] := fits
    exact .inr ⟨rfl, rfl, rfl⟩

/-- Only a plain segment starts with another character than a backslash. -/
private theorem eq_plain_or_exists_passed (s : Segment) :
    (∃ c other, s = plain c other) ∨ ∃ passed, s.text = '\\' :: passed := by
  cases s with
  | plain c other => exact .inl ⟨c, other, rfl⟩
  | _ => exact .inr ⟨_, rfl⟩

/-- A segment is read as its character, and reading goes on behind it. -/
theorem decode_append (s : Segment) (rest : List Char) (fits : s.Fits rest) :
    decode (s.text ++ rest) = s.value :: decode rest := by
  rcases s.eq_plain_or_exists_passed with ⟨c, other, rfl⟩ | ⟨passed, h⟩
  · exact decode_cons other rest
  rcases read?_passed fits h with read | ⟨rfl, hv, read⟩
  · rw [h]
    exact decode_of_read? passed rest read
  · rw [h, hv, List.singleton_append, decode_backslash, read]

/-! ### One segment at each place -/

/-- How many characters the first segment of a text takes. -/
private def lengthAt : List Char → Nat
  | '\\' :: tail => ((read? tail).map (·.2)).getD 0 + 1
  | _ => 1

private theorem length_text_eq_lengthAt (fits : s.Fits rest) :
    s.text.length = lengthAt (s.text ++ rest) := by
  rcases s.eq_plain_or_exists_passed with ⟨c, other, rfl⟩ | ⟨passed, h⟩
  · rw [text, List.singleton_append, lengthAt]
    · rfl
    · intro tail he
      exact other (List.cons.inj he).1
  rw [h, List.cons_append, lengthAt]
  rcases read?_passed fits h with read | ⟨rfl, -, read⟩
  · rw [read]
    rfl
  · rw [List.nil_append, read]
    rfl

/-- The number of characters of a segment, by its kind. -/
private def size : Segment → Nat
  | plain _ _ | keptBeforeU | keptAtEnd => 1
  | escaped _ _ => 2
  | codeUnit _ _ _ => 6
  | pair _ _ _ _ _ _ _ => 12

private theorem length_text (s : Segment) : s.text.length = s.size := by
  cases s with
  | pair _ _ _ _ _ first second =>
    simp [text, size, first.length_digits, second.length_digits]
  | codeUnit _ _ spelled => simp [text, size, spelled.length_digits]
  | _ => rfl

/-- The text of a segment and what follows it tell its kind and its parts. -/
private theorem eq_of_text_eq (hs : s.Fits rest) (ht : t.Fits rest) (h : s.text = t.text) :
    s = t := by
  have hsize : s.size = t.size := by rw [← length_text, ← length_text, h]
  have kept : keptAtEnd.Fits rest → ¬keptBeforeU.Fits rest := by
    rintro rfl ⟨more, hu, -⟩
    cases hu
  cases s with
  | plain c other =>
    cases t with
    | plain d =>
      obtain rfl := (List.cons.inj h).1
      rfl
    | keptBeforeU | keptAtEnd => exact absurd (List.cons.inj h).1 other
    | _ => cases hsize
  | pair high low highDigits lowDigits paired first second =>
    cases t with
    | pair high' low' highDigits' lowDigits' paired' first' second' =>
      have tails : highDigits ++ '\\' :: 'u' :: lowDigits =
          highDigits' ++ '\\' :: 'u' :: lowDigits' := (List.cons.inj (List.cons.inj h).2).2
      have length : highDigits.length = highDigits'.length :=
        first.length_digits.trans first'.length_digits.symm
      obtain ⟨rfl, tail⟩ := List.append_inj tails length
      obtain rfl : lowDigits = lowDigits' := (List.cons.inj (List.cons.inj tail).2).2
      obtain rfl := (first.startsUnit []).unique (first'.startsUnit [])
      obtain rfl := (second.startsUnit []).unique (second'.startsUnit [])
      rfl
    | _ => cases hsize
  | codeUnit unit digits spelled =>
    cases t with
    | codeUnit unit' digits' spelled' =>
      obtain rfl : digits = digits' := (List.cons.inj (List.cons.inj h).2).2
      obtain rfl := (spelled.startsUnit []).unique (spelled'.startsUnit [])
      rfl
    | _ => cases hsize
  | keptBeforeU =>
    cases t with
    | plain d other => exact absurd (List.cons.inj h).1.symm other
    | keptBeforeU => rfl
    | keptAtEnd => exact absurd hs (kept ht)
    | _ => cases hsize
  | escaped c letter =>
    cases t with
    | escaped d =>
      obtain rfl := (List.cons.inj (List.cons.inj h).2).1
      rfl
    | _ => cases hsize
  | keptAtEnd =>
    cases t with
    | plain d other => exact absurd (List.cons.inj h).1.symm other
    | keptBeforeU => exact absurd ht (kept hs)
    | keptAtEnd => rfl
    | _ => cases hsize

/-- A text starts with at most one segment. -/
theorem unique {other : List Char} (hs : s.Fits rest) (ht : t.Fits other)
    (h : s.text ++ rest = t.text ++ other) : s = t ∧ rest = other := by
  have length : s.text.length = t.text.length := by
    rw [length_text_eq_lengthAt hs, length_text_eq_lengthAt ht, h]
  obtain ⟨htext, rfl⟩ := List.append_inj h length
  exact ⟨eq_of_text_eq hs ht htext, rfl⟩

/-- A text that is not empty starts with a segment. -/
private theorem exists_of_cons (c : Char) (tail : List Char) :
    ∃ (s : Segment) (rest : List Char), c :: tail = s.text ++ rest ∧ s.Fits rest := by
  by_cases backslash : c = '\\'
  · subst c
    match tail with
    | [] => exact ⟨keptAtEnd, [], rfl, rfl⟩
    | d :: tail =>
      by_cases letter : d = 'u'
      · subst d
        by_cases digits : ∃ unit, StartsUnit unit tail
        · obtain ⟨unit, digits, rest, spelled, rfl⟩ := digits
          by_cases completes : Completes unit rest
          · obtain ⟨low, _, paired, ⟨lowDigits, rest, spelledLow, rfl⟩, rfl⟩ := completes
            exact ⟨pair unit low digits lowDigits paired spelled spelledLow, rest, by simp [text],
              trivial⟩
          · exact ⟨codeUnit unit digits spelled, rest, rfl, completes⟩
        · exact ⟨keptBeforeU, 'u' :: tail, rfl, tail, rfl, fun unit h ↦ digits ⟨unit, h⟩⟩
      · exact ⟨escaped d letter, tail, rfl, trivial⟩
  · exact ⟨plain c backslash, tail, rfl, trivial⟩

end Segment

/-! ### Splitting a body -/

/-- A raw body is split into segments. -/
inductive Segmented : List Char → List Segment → Prop
  | nil : Segmented [] []
  | cons {s : Segment} {rest : List Char} {segments : List Segment} (fits : s.Fits rest)
      (more : Segmented rest segments) : Segmented (s.text ++ rest) (s :: segments)

namespace Segmented

variable {raw first second : List Char} {segments others before after : List Segment}

/-- A body is read as what its segments stand for. -/
theorem decode_eq (h : Segmented raw segments) : decode raw = segments.map Segment.value := by
  induction h with
  | nil => rfl
  | @cons s rest _ fits _ ih => rw [s.decode_append rest fits, ih, List.map_cons]

/-- A body is the text of its segments. -/
private theorem flatMap_text (h : Segmented raw segments) :
    segments.flatMap Segment.text = raw := by
  induction h with
  | nil => rfl
  | cons _ _ ih => rw [List.flatMap_cons, ih]

private theorem eq_nil_of_nil (h : Segmented [] segments) : segments = [] := by
  cases segments with
  | nil => rfl
  | cons s segments => exact absurd (List.append_eq_nil_iff.mp h.flatMap_text).1 s.text_ne_nil

/-- A body is split in one way at most. -/
theorem unique (h : Segmented raw segments) (ho : Segmented raw others) : segments = others := by
  induction h generalizing others with
  | nil => exact ho.eq_nil_of_nil.symm
  | @cons s rest segments fits more ih =>
    generalize hraw : s.text ++ rest = raw at ho
    cases ho with
    | nil => exact absurd (List.append_eq_nil_iff.mp hraw).1 s.text_ne_nil
    | cons fits' more' =>
      obtain ⟨rfl, rfl⟩ := Segment.unique fits fits' hraw
      rw [ih more']

/-- Every text is split in some way. -/
theorem exists_segments (raw : List Char) : ∃ segments, Segmented raw segments := by
  match raw with
  | [] => exact ⟨[], .nil⟩
  | c :: tail =>
    obtain ⟨s, rest, h, fits⟩ := Segment.exists_of_cons c tail
    have shorter : rest.length < (c :: tail).length := by
      have := List.length_pos_iff.mpr s.text_ne_nil
      rw [h, List.length_append]
      omega
    obtain ⟨segments, more⟩ := exists_segments rest
    exact ⟨s :: segments, h ▸ .cons fits more⟩
  termination_by raw.length
  decreasing_by exact shorter

/-- Behind some of its segments, a body is split into the others. -/
private theorem exists_rest (h : Segmented raw (before ++ after)) :
    ∃ rest, raw = before.flatMap Segment.text ++ rest ∧ Segmented rest after := by
  induction before generalizing raw with
  | nil => exact ⟨raw, rfl, h⟩
  | cons s before ih =>
    rw [List.cons_append] at h
    cases h with
    | cons fits more =>
      obtain ⟨rest, rfl, hrest⟩ := ih more
      exact ⟨rest, by simp, hrest⟩

/-- A body is read in two parts if its segments up to the cut are those of the first part. -/
theorem decode_append (hf : Segmented first before)
    (h : Segmented (first ++ second) (before ++ after)) :
    decode (first ++ second) = decode first ++ decode second := by
  obtain ⟨rest, hr, hrest⟩ := h.exists_rest
  rw [hf.flatMap_text] at hr
  obtain rfl := List.append_cancel_left hr
  rw [h.decode_eq, hf.decode_eq, hrest.decode_eq, List.map_append]

end Segmented

/-! ### Escaped code units -/

/-- Units are written one after the other, each with four digits of any case. -/
inductive SpellsUnits : List UInt16 → List Char → Prop
  | nil : SpellsUnits [] []
  | cons {unit : UInt16} {units : List UInt16} {digits raw : List Char}
      (first : SpellsUnit unit.toNat digits) (more : SpellsUnits units raw) :
      SpellsUnits (unit :: units) ('\\' :: 'u' :: (digits ++ raw))

/-- Escaped units are read as the text that lenient decoding gives them. -/
theorem decode_of_spellsUnits {units : List UInt16} {raw : List Char} (h : SpellsUnits units raw) :
    decode raw = decodeLossy units := by
  -- The recursion takes one unit or two, as the segments do.
  fun_induction decodeLossy units generalizing raw with
  | case1 =>
    cases h
    rfl
  | case2 unit =>
    cases h with
    | cons first more =>
      cases more
      refine (Segment.codeUnit unit _ first).decode_append [] ?_
      rintro ⟨_, _, _, _, h⟩
      cases h
  | case3 high low rest paired ih =>
    cases h with
    | cons first more =>
      cases more with
      | @cons _ _ _ tail second more =>
        rw [← ih more]
        have read := (Segment.pair high low _ _ paired first second).decode_append tail trivial
        simpa [Segment.text, Segment.value] using read
  | case4 high low rest unpaired ih =>
    cases h with
    | cons first more =>
      rw [← ih more]
      refine (Segment.codeUnit high _ first).decode_append _ ?_
      cases more with
      | cons second more =>
        rintro ⟨other, text, paired, starts, h⟩
        obtain rfl := (List.cons.inj (List.cons.inj h).2).2
        obtain rfl := starts.unique (second.startsUnit _)
        exact unpaired paired

/-- A first half before a pair, a second half behind it, a letter and a first half at the end. -/
theorem decode_of_unpaired_surrogates :
    let raw := ['\\', 'u', 'D', '8', '0', '0', '\\', 'u', 'd', '8', '3', 'D', '\\', 'u', 'D', 'e',
      '0', '0', '\\', 'u', 'd', 'C', '0', '0', '\\', 'u', '0', '0', '4', '1', '\\', 'u', 'd', 'b',
      'f', 'F']
    SpellsUnits [0xD800, 0xD83D, 0xDE00, 0xDC00, 0x41, 0xDBFF] raw ∧
      decode raw = ['\ufffd', '😀', '\ufffd', 'A', '\ufffd'] := by
  intro raw
  have digits : SpellsUnit (0xD800 : UInt16).toNat ['D', '8', '0', '0'] ∧
      SpellsUnit (0xD83D : UInt16).toNat ['d', '8', '3', 'D'] ∧
      SpellsUnit (0xDE00 : UInt16).toNat ['D', 'e', '0', '0'] ∧
      SpellsUnit (0xDC00 : UInt16).toNat ['d', 'C', '0', '0'] ∧
      SpellsUnit (0x41 : UInt16).toNat ['0', '0', '4', '1'] ∧
      SpellsUnit (0xDBFF : UInt16).toNat ['d', 'b', 'f', 'F'] := by decide
  obtain ⟨first, second, third, fourth, fifth, sixth⟩ := digits
  have spelled : SpellsUnits [0xD800, 0xD83D, 0xDE00, 0xDC00, 0x41, 0xDBFF] raw :=
    .cons first <| .cons second <| .cons third <| .cons fourth <| .cons fifth <| .cons sixth .nil
  exact ⟨spelled, decode_of_spellsUnits spelled⟩

end TerseMarkup.Escape
