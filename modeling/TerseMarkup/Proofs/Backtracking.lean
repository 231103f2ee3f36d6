import TerseMarkup.Cursor.Basic
import TerseMarkup.Proofs.ClosingQuote

/-!
# The closing quote as a pattern

What may stand in a string literal is said best by a pattern, `(\\.|.)*?"`, whose choices are tried
in a fixed order and taken back one by one where the rest does not match. Tried that way, a line of
backslashes without a quote takes a number of attempts that is exponential in its length. The main
statement, `Literal.byteLength_body?_eq_quoteOffset?`, says that the search from the end of the
line, which looks at each character once, stops at the quote where the pattern first matches.
-/

namespace TerseMarkup

/-! ### Patterns and their first match -/

/-- Patterns over characters, with the order in which their choices are tried. -/
inductive Pattern where
  /-- One character of a class. -/
  | one (accepts : Char → Bool)
  /-- A pattern and right after it another. -/
  | followedBy (first second : Pattern)
  /-- A pattern or, where that leads nowhere, another. -/
  | orElse (first second : Pattern)
  /-- No round of a pattern or, where that leads nowhere, one round and then again. -/
  | lazily (round : Pattern)

namespace Pattern

variable {α : Type} (next : Cursor → Option α) (c : Cursor)

/-- The outcome of the first way to match a pattern at a cursor after which the rest of the match
succeeds too. That rest is `next`, asked at the cursor behind the pattern. A round without text
leads nowhere. -/
def firstMatch? : Pattern → (Cursor → Option α) → Cursor → Option α
  | one accepts, next, c =>
    match c.rest with
    | [] => none
    | d :: rest => if accepts d then next ⟨c.offset + d.utf8Size, rest⟩ else none
  | followedBy first second, next, c =>
    first.firstMatch? (fun behind ↦ second.firstMatch? next behind) c
  | orElse first second, next, c => (first.firstMatch? next c).or (second.firstMatch? next c)
  | lazily round, next, c =>
    (next c).or (round.firstMatch? (fun behind ↦
      if behind.rest.length < c.rest.length then (lazily round).firstMatch? next behind
      else none) c)
  termination_by pattern _ c => (sizeOf pattern, c.rest.length)

private theorem firstMatch?_one_nil (accepts : Char → Bool) (offset : Nat) :
    (one accepts).firstMatch? next ⟨offset, []⟩ = none := by
  rw [firstMatch?]

private theorem firstMatch?_one_cons (accepts : Char → Bool) (offset : Nat) (d : Char)
    (rest : List Char) :
    (one accepts).firstMatch? next ⟨offset, d :: rest⟩ =
      if accepts d then next ⟨offset + d.utf8Size, rest⟩ else none := by
  rw [firstMatch?]

private theorem firstMatch?_followedBy (first second : Pattern) :
    (followedBy first second).firstMatch? next c =
      first.firstMatch? (second.firstMatch? next) c := by
  rw [firstMatch?]

private theorem firstMatch?_orElse (first second : Pattern) :
    (orElse first second).firstMatch? next c =
      (first.firstMatch? next c).or (second.firstMatch? next c) := by
  rw [firstMatch?]

private theorem firstMatch?_lazily (round : Pattern) :
    (lazily round).firstMatch? next c =
      (next c).or (round.firstMatch? (fun behind ↦
        if behind.rest.length < c.rest.length then (lazily round).firstMatch? next behind
        else none) c) := by
  rw [firstMatch?]

/-- One given character. -/
def char (d : Char) : Pattern := one (· == d)

/-- Any character but a line break. -/
def dot : Pattern := one fun d ↦ !Text.isLineBreak d

/-- One round of a literal's body, `\\.|.`. -/
def bodyRound : Pattern := orElse (followedBy (char '\\') dot) dot

/-- What follows the opening quote of a literal, `(\\.|.)*?"`. -/
def literalEnd : Pattern := followedBy (lazily bodyRound) (char '"')

/-- The byte offset of the quote that the first match of `(\\.|.)*?"` at a cursor ends with. -/
def quoteOffset? (c : Cursor) : Option Nat :=
  literalEnd.firstMatch? (fun behind ↦ some (behind.offset - '"'.utf8Size)) c

/-! ### The first match as a recursion -/

/-- A literal closes here, or else behind the rounds that start here. -/
private theorem quoteOffset?_eq (c : Cursor) :
    quoteOffset? c =
      ((char '"').firstMatch? (fun behind ↦ some (behind.offset - '"'.utf8Size)) c).or
        (bodyRound.firstMatch? (fun behind ↦
          if behind.rest.length < c.rest.length then quoteOffset? behind else none) c) := by
  simp only [quoteOffset?, literalEnd, firstMatch?_followedBy]
  rw [firstMatch?_lazily]

variable (offset : Nat) {d : Char} {rest : List Char}

/-- No choice passes the end of the line. -/
private theorem firstMatch?_dot_of_firstLine_eq_nil (h : Literal.firstLine rest = []) :
    dot.firstMatch? next ⟨offset, rest⟩ = none := by
  cases rest with
  | nil => exact firstMatch?_one_nil next _ offset
  | cons d rest =>
    have line : Text.isLineBreak d = true := by simpa [Literal.firstLine] using h
    rw [dot, firstMatch?_one_cons, line]
    rfl

private theorem firstMatch?_char_of_ne {e : Char} (h : d ≠ e) :
    (char e).firstMatch? next ⟨offset, d :: rest⟩ = none := by
  rw [char, firstMatch?_one_cons, if_neg (by simpa using h)]

private theorem firstMatch?_char_self :
    (char d).firstMatch? next ⟨offset, d :: rest⟩ = next ⟨offset + d.utf8Size, rest⟩ := by
  rw [char, firstMatch?_one_cons, if_pos (beq_self_eq_true d)]

private theorem firstMatch?_dot (h : Text.isLineBreak d = false) :
    dot.firstMatch? next ⟨offset, d :: rest⟩ = next ⟨offset + d.utf8Size, rest⟩ := by
  rw [dot, firstMatch?_one_cons, h]
  rfl

/-- Nothing closes at the end of the line. -/
private theorem quoteOffset?_of_firstLine_eq_nil (h : Literal.firstLine rest = []) :
    quoteOffset? ⟨offset, rest⟩ = none := by
  rw [quoteOffset?_eq, bodyRound, firstMatch?_orElse, firstMatch?_followedBy,
    firstMatch?_dot_of_firstLine_eq_nil _ _ h]
  cases rest with
  | nil => simp only [char, firstMatch?_one_nil, Option.or_none]
  | cons d rest =>
    have ne {e : Char} (he : Text.isLineBreak e = false) : d ≠ e := by
      rintro rfl
      simp [Literal.firstLine, he] at h
    rw [firstMatch?_char_of_ne _ _ (ne rfl), firstMatch?_char_of_ne _ _ (ne rfl)]
    rfl

private theorem quoteOffset?_quote : quoteOffset? ⟨offset, '"' :: rest⟩ = some offset := by
  rw [quoteOffset?_eq, firstMatch?_char_self, Option.some_or, Nat.add_sub_cancel]

/-- Where no quote stands, the choices of a round are tried one after the other. -/
private theorem quoteOffset?_of_ne_quote (quote : d ≠ '"') :
    quoteOffset? ⟨offset, d :: rest⟩ =
      ((char '\\').firstMatch? (dot.firstMatch? fun behind ↦
          if behind.rest.length < rest.length + 1 then quoteOffset? behind else none)
        ⟨offset, d :: rest⟩).or
      (dot.firstMatch? (fun behind ↦
          if behind.rest.length < rest.length + 1 then quoteOffset? behind else none)
        ⟨offset, d :: rest⟩) := by
  rw [quoteOffset?_eq, firstMatch?_char_of_ne _ _ quote, Option.none_or, bodyRound,
    firstMatch?_orElse, firstMatch?_followedBy]
  rfl

/-- A character that is no backslash is passed in one way. -/
private theorem quoteOffset?_plain (quote : d ≠ '"') (backslash : d ≠ '\\')
    (line : Text.isLineBreak d = false) :
    quoteOffset? ⟨offset, d :: rest⟩ = quoteOffset? ⟨offset + d.utf8Size, rest⟩ := by
  rw [quoteOffset?_of_ne_quote offset quote, firstMatch?_char_of_ne _ _ backslash, Option.none_or,
    firstMatch?_dot _ _ line]
  exact if_pos (Nat.lt_succ_self _)

/-- A backslash is passed together with the character after it or, where that leads nowhere,
alone. -/
private theorem quoteOffset?_backslash (line : Text.isLineBreak d = false) :
    quoteOffset? ⟨offset, '\\' :: d :: rest⟩ =
      (quoteOffset? ⟨offset + '\\'.utf8Size + d.utf8Size, rest⟩).or
        (quoteOffset? ⟨offset + '\\'.utf8Size, d :: rest⟩) := by
  rw [quoteOffset?_of_ne_quote offset (by decide), firstMatch?_char_self, firstMatch?_dot _ _ line,
    firstMatch?_dot _ _ rfl]
  simp only [List.length_cons]
  rw [if_pos (by omega), if_pos (by omega)]

/-- A backslash at the end of the line closes nothing. -/
private theorem quoteOffset?_backslash_of_firstLine_eq_nil (h : Literal.firstLine rest = []) :
    quoteOffset? ⟨offset, '\\' :: rest⟩ = none := by
  rw [quoteOffset?_of_ne_quote offset (by decide), firstMatch?_char_self,
    firstMatch?_dot_of_firstLine_eq_nil _ _ h, Option.none_or, firstMatch?_dot _ _ rfl,
    quoteOffset?_of_firstLine_eq_nil _ h, ite_self]

end Pattern

/-! ### The body as a recursion -/

namespace Literal

variable {d : Char} {text : List Char}

private theorem firstLine_cons (line : Text.isLineBreak d = false) :
    firstLine (d :: text) = d :: firstLine text := by
  rw [firstLine, List.takeWhile_cons, line]
  rfl

private theorem exists_cons_of_firstLine_ne_nil (h : firstLine text ≠ []) :
    ∃ d rest, text = d :: rest ∧ Text.isLineBreak d = false := by
  cases text with
  | nil => exact absurd rfl h
  | cons d rest =>
    refine ⟨d, rest, rfl, ?_⟩
    rw [← Bool.not_eq_true]
    intro line
    exact h (by simp [firstLine, line])

private theorem body?_of_firstLine_eq_nil (h : firstLine text = []) : body? text = none := by
  rw [body?, h]
  rfl

private theorem body?_backslash_of_firstLine_eq_nil (h : firstLine text = []) :
    body? ('\\' :: text) = none := by
  rw [body?, firstLine_cons rfl, h]
  rfl

/-- A character that is no backslash belongs to the body. -/
private theorem body?_plain (quote : d ≠ '"') (backslash : d ≠ '\\')
    (line : Text.isLineBreak d = false) : body? (d :: text) = (body? text).map (d :: ·) := by
  rw [body?, firstLine_cons line, closingQuote?_plain quote backslash, body?, Option.map_map,
    Option.map_map]
  rfl

/-- A backslash takes the character after it into the body or, where that leaves no quote to close
with, only itself. -/
private theorem body?_backslash (line : Text.isLineBreak d = false) :
    body? ('\\' :: d :: text) =
      ((body? text).map (['\\', d] ++ ·)).or ((body? (d :: text)).map ('\\' :: ·)) := by
  simp only [body?, firstLine_cons line, firstLine_cons (d := '\\') rfl, closingQuote?_backslash,
    List.tail_cons, Option.map_or, Option.map_map]
  rfl

/-- The search and the pattern stop at the same quote, wherever the body starts. -/
private theorem quoteOffset?_eq_map_body? (text : List Char) (offset : Nat) :
    Pattern.quoteOffset? ⟨offset, text⟩ =
      (body? text).map fun body ↦ offset + Text.byteLength body := by
  -- A backslash may take the next character with it, so the induction reaches two places ahead.
  induction text using lineInduction generalizing offset with
  | nil => exact Pattern.quoteOffset?_of_firstLine_eq_nil offset rfl
  | cons d text ih ihTail =>
    by_cases quote : d = '"'
    · subst d
      rw [Pattern.quoteOffset?_quote]
      rfl
    by_cases line : Text.isLineBreak d = true
    · have ended : firstLine (d :: text) = [] := by simp [firstLine, line]
      rw [Pattern.quoteOffset?_of_firstLine_eq_nil offset ended, body?_of_firstLine_eq_nil ended]
      rfl
    rw [Bool.not_eq_true] at line
    by_cases backslash : d = '\\'
    · subst d
      by_cases ended : firstLine text = []
      · rw [Pattern.quoteOffset?_backslash_of_firstLine_eq_nil offset ended,
          body?_backslash_of_firstLine_eq_nil ended]
        rfl
      obtain ⟨e, rest, rfl, next⟩ := exists_cons_of_firstLine_ne_nil ended
      rw [Pattern.quoteOffset?_backslash offset next, body?_backslash next, ih, Option.map_or,
        Option.map_map, Option.map_map]
      rw [List.tail_cons] at ihTail
      rw [ihTail]
      congr 2
      · funext body
        simp [Nat.add_assoc]
      · funext body
        simp [Nat.add_assoc]
    · rw [Pattern.quoteOffset?_plain offset quote backslash line, body?_plain quote backslash line,
        ih, Option.map_map]
      congr 1
      funext body
      simp [Nat.add_assoc]

/-- The search for the closing quote finds the byte offset of the quote that the first match of
`(\\.|.)*?"` ends with, and finds none where the pattern has no match. -/
theorem byteLength_body?_eq_quoteOffset? (text : List Char) :
    (body? text).map Text.byteLength = Pattern.quoteOffset? (Cursor.start text) := by
  rw [Cursor.start, quoteOffset?_eq_map_body?]
  simp only [Nat.zero_add]

end Literal
end TerseMarkup
