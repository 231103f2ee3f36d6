import Mathlib.Data.List.TakeWhile
import TerseMarkup.Literal.Quote

/-!
# Where string literals close

The search for a closing quote is turned from its two distances into a recursion over the line,
and from it come the facts that readers of literals use. A line without a quote closes no
literal. A body made of escapes and plain characters closes at the first quote behind it,
whatever follows. Any body keeps its closing quote when the text behind it changes, unless the line
gets a quote there that it did not have.
-/

namespace TerseMarkup.Literal

/-! ### The search as a recursion -/

private theorem foldr_before_next (line : List Char) :
    (line.foldr QuoteAhead.before .atLineEnd).next = closingQuote? line.tail := by
  cases line with
  | nil => rfl
  | cons c line => rfl

/-- No literal closes on an empty line. -/
@[simp] theorem closingQuote?_nil : closingQuote? [] = none := rfl

/-- A quote right ahead closes a literal. -/
@[simp] theorem closingQuote?_quote (line : List Char) :
    closingQuote? ('"' :: line) = some 0 := rfl

/-- A backslash hides the character after it, unless that leaves no quote to close with. -/
theorem closingQuote?_backslash (line : List Char) :
    closingQuote? ('\\' :: line) =
      ((closingQuote? line.tail).map (· + 2)).or ((closingQuote? line).map (· + 1)) := by
  rw [← foldr_before_next]
  rfl

/-- A character that is neither a quote nor a backslash puts the closing quote one further off. -/
theorem closingQuote?_plain {c : Char} (hq : c ≠ '"') (hb : c ≠ '\\') (line : List Char) :
    closingQuote? (c :: line) = (closingQuote? line).map (· + 1) := by
  simp only [closingQuote?, List.foldr_cons, QuoteAhead.before, hq, hb, ↓reduceIte]

/-- The search looks one character past the next one, so inductions over a line need both. -/
theorem lineInduction {P : List Char → Prop} (nil : P [])
    (cons : ∀ c line, P line → P line.tail → P (c :: line)) (line : List Char) : P line := by
  have both : P line ∧ P line.tail := by
    induction line with
    | nil => exact ⟨nil, nil⟩
    | cons c line ih => exact ⟨cons c line ih.1 ih.2, ih.1⟩
  exact both.1

/-- A literal closes at a quote. -/
private theorem exists_quote_of_closingQuote? {line : List Char} {n : Nat}
    (h : closingQuote? line = some n) :
    ∃ body rest, line = body ++ '"' :: rest ∧ body.length = n := by
  induction line using lineInduction generalizing n with
  | nil => simp at h
  | cons c line ih iht =>
    by_cases hq : c = '"'
    · subst c
      simp only [closingQuote?_quote, Option.some.injEq] at h
      exact ⟨[], line, rfl, h⟩
    by_cases hb : c = '\\'
    · subst c
      rw [closingQuote?_backslash, Option.or_eq_some_iff] at h
      rcases h with h | ⟨-, h⟩
      · obtain ⟨m, hm, rfl⟩ := Option.map_eq_some_iff.mp h
        obtain ⟨body, rest, hl, rfl⟩ := iht hm
        cases line with
        | nil => simp at hl
        | cons d line =>
          rw [List.tail_cons] at hl
          exact ⟨'\\' :: d :: body, rest, by rw [hl]; rfl, rfl⟩
      · obtain ⟨m, hm, rfl⟩ := Option.map_eq_some_iff.mp h
        obtain ⟨body, rest, rfl, rfl⟩ := ih hm
        exact ⟨'\\' :: body, rest, rfl, rfl⟩
    · rw [closingQuote?_plain hq hb] at h
      obtain ⟨m, hm, rfl⟩ := Option.map_eq_some_iff.mp h
      obtain ⟨body, rest, rfl, rfl⟩ := ih hm
      exact ⟨c :: body, rest, rfl, rfl⟩

/-- A literal stays open exactly on a line without quotes. -/
theorem closingQuote?_eq_none_iff {line : List Char} : closingQuote? line = none ↔ '"' ∉ line := by
  constructor
  · intro h
    induction line with
    | nil => simp
    | cons c line ih =>
      by_cases hq : c = '"'
      · subst c
        simp at h
      by_cases hb : c = '\\'
      · subst c
        simp only [closingQuote?_backslash, Option.or_eq_none_iff, Option.map_eq_none_iff] at h
        simp [ih h.2]
      · simp only [closingQuote?_plain hq hb, Option.map_eq_none_iff] at h
        simp [ih h, Ne.symm hq]
  · intro h
    cases hc : closingQuote? line with
    | none => rfl
    | some n =>
      obtain ⟨body, rest, rfl, -⟩ := exists_quote_of_closingQuote? hc
      exact absurd (by simp) h

/-- A literal stays closed by the same quote when the text behind that quote changes, unless this
brings a quote to its line where there was none. -/
private theorem closingQuote?_of_quote_mem {body rest other : List Char}
    (h : closingQuote? (body ++ '"' :: rest) = some body.length) (hq : '"' ∈ other → '"' ∈ rest) :
    closingQuote? (body ++ '"' :: other) = some body.length := by
  induction body using lineInduction with
  | nil => rfl
  | cons c body ih iht =>
    rw [List.cons_append] at h ⊢
    by_cases hquote : c = '"'
    · subst c
      simp at h
    by_cases hb : c = '\\'
    · subst c
      rw [closingQuote?_backslash] at h ⊢
      cases body with
      | nil =>
        -- The backslash hides the quote, unless no other quote follows on the line.
        have hr : closingQuote? rest = none := by
          cases hc : closingQuote? rest with
          | none => rfl
          | some n => simp [hc] at h
        have ho : closingQuote? other = none :=
          closingQuote?_eq_none_iff.mpr fun hm ↦ closingQuote?_eq_none_iff.mp hr (hq hm)
        simp [ho]
      | cons d body =>
        simp only [List.cons_append, List.tail_cons] at h iht ⊢
        cases hc : closingQuote? (body ++ '"' :: rest) with
        | none => exact absurd (by simp) (closingQuote?_eq_none_iff.mp hc)
        | some n =>
          have hn : n = body.length := by simpa [hc] using h
          simp [iht (hn ▸ hc)]
    · rw [closingQuote?_plain hquote hb] at h ⊢
      simp [ih (by simpa using h)]

/-! ### Bodies -/

/-- Escapes and plain characters on one line: a backslash with the character after it, or a
character that is neither a backslash nor a quote. -/
inductive Units : List Char → Prop
  | nil : Units []
  | plain {c : Char} {body : List Char} (quote : c ≠ '"') (backslash : c ≠ '\\')
      (line : Text.isLineBreak c = false) (rest : Units body) : Units (c :: body)
  | escaped {c : Char} {body : List Char} (line : Text.isLineBreak c = false)
      (rest : Units body) : Units ('\\' :: c :: body)

private theorem Units.not_isLineBreak {body : List Char} (h : Units body) :
    ∀ c ∈ body, Text.isLineBreak c = false := by
  induction h with
  | nil => simp
  | plain _ _ line _ ih =>
    intro d hd
    rcases List.mem_cons.mp hd with rfl | hd
    · exact line
    · exact ih d hd
  | escaped line _ ih =>
    intro d hd
    rcases List.mem_cons.mp hd with rfl | hd
    · rfl
    rcases List.mem_cons.mp hd with rfl | hd
    · exact line
    · exact ih d hd

/-- Units leave the search to what follows them, as long as a quote is left there. -/
theorem Units.closingQuote?_append {units line : List Char} (h : Units units) (hq : '"' ∈ line) :
    Literal.closingQuote? (units ++ line) =
      (Literal.closingQuote? line).map (· + units.length) := by
  induction h with
  | nil => simp
  | plain quote backslash _ _ ih =>
    rw [List.cons_append, closingQuote?_plain quote backslash, ih, Option.map_map]
    rfl
  | escaped _ _ ih =>
    rw [List.cons_append, closingQuote?_backslash, List.cons_append, List.tail_cons, ih]
    cases hc : Literal.closingQuote? line with
    | none => exact absurd hq (closingQuote?_eq_none_iff.mp hc)
    | some n => rfl

/-- Units close at the quote behind them. -/
theorem Units.closingQuote? {body : List Char} (h : Units body) (rest : List Char) :
    closingQuote? (body ++ '"' :: rest) = some body.length := by
  rw [h.closingQuote?_append (by simp)]
  simp

/-- The first line holds no line break. -/
theorem not_isLineBreak_of_mem_firstLine {c : Char} {text : List Char} (h : c ∈ firstLine text) :
    Text.isLineBreak c = false := by
  simpa using List.mem_takeWhile_imp h

/-- A text without line breaks lies on the first line, with the line that goes on behind it. -/
theorem firstLine_append {body : List Char} (h : ∀ c ∈ body, Text.isLineBreak c = false)
    (rest : List Char) : firstLine (body ++ rest) = body ++ firstLine rest := by
  rw [firstLine, List.takeWhile_append_of_pos (by intro c hc; simp [h c hc])]
  rfl

private theorem firstLine_quote (rest : List Char) :
    firstLine ('"' :: rest) = '"' :: firstLine rest := rfl

/-- Cutting a text short cuts its first line short, or leaves it as it is. -/
theorem firstLine_isPrefix_append (kept cut : List Char) :
    firstLine kept <+: firstLine (kept ++ cut) := by
  unfold firstLine
  rw [List.takeWhile_append]
  split
  · exact (List.takeWhile_prefix _).trans (List.prefix_append _ _)
  · exact List.prefix_rfl

/-- A raw body lies on one line and has a quote behind it, and it is the part of its line before
the closing quote. -/
theorem body?_eq_some_iff {text body : List Char} :
    body? text = some body ↔
      ∃ rest, text = body ++ '"' :: rest ∧ (∀ c ∈ body, Text.isLineBreak c = false) ∧
        closingQuote? (body ++ '"' :: firstLine rest) = some body.length := by
  constructor
  · intro h
    rw [body?, Option.map_eq_some_iff] at h
    obtain ⟨n, hn, rfl⟩ := h
    obtain ⟨body, rest, hl, rfl⟩ := exists_quote_of_closingQuote? hn
    have hm : ∀ c ∈ body, Text.isLineBreak c = false := by
      intro c hc
      apply not_isLineBreak_of_mem_firstLine
      rw [hl]
      exact List.mem_append_left _ hc
    have ht : text = body ++ '"' :: (rest ++ text.dropWhile fun c ↦ !Text.isLineBreak c) := by
      rw [← List.cons_append, ← List.append_assoc, ← hl, firstLine,
        List.takeWhile_append_dropWhile]
    rw [hl, List.take_left]
    refine ⟨_, ht, hm, ?_⟩
    rw [← firstLine_quote, ← firstLine_append hm, ← ht]
    exact hn
  · rintro ⟨rest, rfl, hb, hc⟩
    rw [body?, firstLine_append hb, firstLine_quote, hc, Option.map_some, List.take_left]

/-- Units are the raw body before the quote behind them, whatever follows. -/
theorem Units.body? {body : List Char} (h : Units body) (rest : List Char) :
    body? (body ++ '"' :: rest) = some body :=
  body?_eq_some_iff.mpr ⟨rest, rfl, h.not_isLineBreak, h.closingQuote? _⟩

/-- A raw body stays one before another text, unless that brings a quote to its line where there
was none. -/
theorem body?_of_quote_mem {body rest other : List Char}
    (h : body? (body ++ '"' :: rest) = some body)
    (hq : '"' ∈ firstLine other → '"' ∈ firstLine rest) :
    body? (body ++ '"' :: other) = some body := by
  obtain ⟨found, hf, hb, hc⟩ := body?_eq_some_iff.mp h
  obtain rfl : rest = found := by simpa using hf
  exact body?_eq_some_iff.mpr ⟨other, rfl, hb, closingQuote?_of_quote_mem hc hq⟩

/-- A raw body without backslashes consists of plain characters. -/
theorem units_of_body? {body rest : List Char} (h : body? (body ++ '"' :: rest) = some body)
    (hn : '\\' ∉ body) : Units body := by
  obtain ⟨found, hf, hb, hc⟩ := body?_eq_some_iff.mp h
  clear h hf
  induction body with
  | nil => exact .nil
  | cons c body ih =>
    have hbackslash : c ≠ '\\' := by
      rintro rfl
      exact hn (by simp)
    have hquote : c ≠ '"' := by
      rintro rfl
      simp at hc
    rw [List.cons_append, closingQuote?_plain hquote hbackslash] at hc
    refine .plain hquote hbackslash (hb c (by simp)) (ih ?_ ?_ ?_)
    · exact fun hm ↦ hn (List.mem_cons_of_mem _ hm)
    · exact fun d hd ↦ hb d (List.mem_cons_of_mem _ hd)
    · simpa using hc

end TerseMarkup.Literal
