import TerseMarkup.Proofs.Seeking

/-!
# What a string literal may hold

The search for a closing quote works its way from the end of a line to its start, while a reader
goes from left to right. To that reader a raw body is a sequence of units, each a backslash with the
character after it or a plain character. Behind the units there may be one more backslash, but only
before the last quote of the line. A line with a quote starts with exactly one such body, and
`Seeker.read_string_iff_isBody` says that this is what reading a literal gives.
-/

namespace TerseMarkup

namespace Literal

variable {c : Char} {line body rest text : List Char}

/-! ### The two shapes of a body -/

/-- Units and behind them a backslash that hides nothing. -/
def LoneBackslash (body : List Char) : Prop :=
  ∃ units, Units units ∧ body = units ++ ['\\']

/-- A line starts with a raw body and a quote behind it. Where the body ends in a backslash that
hides nothing, that quote is the last one on the line. -/
def IsBody (line body : List Char) : Prop :=
  ∃ rest, line = body ++ '"' :: rest ∧ (Units body ∨ LoneBackslash body ∧ '"' ∉ rest)

private theorem Units.of_cons (h : Units (c :: body)) (backslash : c ≠ '\\') : Units body := by
  cases h with
  | plain _ _ _ rest => exact rest
  | escaped => exact absurd rfl backslash

private theorem Units.of_escaped (h : Units ('\\' :: c :: body)) : Units body := by
  cases h with
  | plain _ backslash => exact absurd rfl backslash
  | escaped _ rest => exact rest

/-- Whether the last backslash hides a character is read off from the left in only one way. -/
private theorem Units.not_loneBackslash (h : Units body) : ¬LoneBackslash body := by
  rintro ⟨units, hu, rfl⟩
  induction hu with
  | nil =>
    cases h with
    | plain _ backslash => exact backslash rfl
  | plain _ backslash _ _ ih => exact ih (h.of_cons backslash)
  | escaped _ _ ih => exact ih h.of_escaped

private theorem isBody_nil (rest : List Char) : IsBody ('"' :: rest) [] :=
  ⟨rest, rfl, .inl .nil⟩

private theorem isBody_loneBackslash (h : '"' ∉ rest) : IsBody ('\\' :: '"' :: rest) ['\\'] :=
  ⟨rest, rfl, .inr ⟨⟨[], .nil, rfl⟩, h⟩⟩

private theorem IsBody.plain (h : IsBody line body) (quote : c ≠ '"') (backslash : c ≠ '\\')
    (hc : Text.isLineBreak c = false) : IsBody (c :: line) (c :: body) := by
  obtain ⟨rest, rfl, hu | ⟨⟨units, hu, rfl⟩, last⟩⟩ := h
  · exact ⟨rest, rfl, .inl (.plain quote backslash hc hu)⟩
  · exact ⟨rest, rfl, .inr ⟨⟨c :: units, .plain quote backslash hc hu, rfl⟩, last⟩⟩

private theorem IsBody.escaped (h : IsBody line body) (hc : Text.isLineBreak c = false) :
    IsBody ('\\' :: c :: line) ('\\' :: c :: body) := by
  obtain ⟨rest, rfl, hu | ⟨⟨units, hu, rfl⟩, last⟩⟩ := h
  · exact ⟨rest, rfl, .inl (.escaped hc hu)⟩
  · exact ⟨rest, rfl, .inr ⟨⟨'\\' :: c :: units, .escaped hc hu, rfl⟩, last⟩⟩

/-! ### The search finds the body -/

/-- Where a line starts with a body, the search stops at the quote behind it. -/
private theorem IsBody.closingQuote? (h : IsBody line body) :
    Literal.closingQuote? line = some body.length := by
  obtain ⟨rest, rfl, hu | ⟨⟨units, hu, rfl⟩, last⟩⟩ := h
  · exact hu.closingQuote? rest
  · have hidden : Literal.closingQuote? rest = none := closingQuote?_eq_none_iff.mpr last
    rw [List.append_assoc, hu.closingQuote?_append (by simp), List.singleton_append,
      closingQuote?_backslash, List.tail_cons, hidden]
    simp [Nat.add_comm]

/-- A line starts with at most one body. -/
private theorem IsBody.unique {other : List Char} (h : IsBody line body) (ho : IsBody line other) :
    body = other := by
  have length : body.length = other.length :=
    Option.some.inj (h.closingQuote?.symm.trans ho.closingQuote?)
  obtain ⟨rest, hl, -⟩ := h
  obtain ⟨rest', hl', -⟩ := ho
  exact List.append_inj_left (hl.symm.trans hl') length

private theorem IsBody.mem (h : IsBody line body) (hc : c ∈ body) : c ∈ line := by
  obtain ⟨rest, rfl, -⟩ := h
  exact List.mem_append_left _ hc

/-- The search stops behind a body. -/
private theorem exists_isBody_of_closingQuote? {n : Nat}
    (hl : ∀ c ∈ line, Text.isLineBreak c = false)
    (h : closingQuote? line = some n) : ∃ body, IsBody line body := by
  induction line using lineInduction generalizing n with
  | nil => cases h
  | cons c line ih ihTail =>
    have hc := hl c List.mem_cons_self
    have hline : ∀ d ∈ line, Text.isLineBreak d = false :=
      fun d hd ↦ hl d (List.mem_cons_of_mem c hd)
    by_cases quote : c = '"'
    · subst c
      exact ⟨[], isBody_nil line⟩
    by_cases backslash : c = '\\'
    · subst c
      cases line with
      | nil => cases h
      | cons d line =>
        cases hd : closingQuote? line with
        | some m =>
          -- The backslash hides `d`, and the body goes on behind it.
          have hrest : ∀ e ∈ line, Text.isLineBreak e = false :=
            fun e he ↦ hline e (List.mem_cons_of_mem d he)
          obtain ⟨body, hb⟩ := ihTail hrest hd
          exact ⟨'\\' :: d :: body, hb.escaped (hline d List.mem_cons_self)⟩
        | none =>
          -- No quote follows `d`, so only `d` itself can be the one that closes.
          have last : '"' ∉ line := closingQuote?_eq_none_iff.mp hd
          have found : '"' ∈ d :: line := by
            by_contra hq
            rw [closingQuote?_backslash, List.tail_cons, hd, closingQuote?_eq_none_iff.mpr hq] at h
            cases h
          obtain rfl : '"' = d := (List.mem_cons.mp found).resolve_right last
          exact ⟨['\\'], isBody_loneBackslash last⟩
    · rw [closingQuote?_plain quote backslash] at h
      obtain ⟨m, hm, -⟩ := Option.map_eq_some_iff.mp h
      obtain ⟨body, hb⟩ := ih hline hm
      exact ⟨c :: body, hb.plain quote backslash hc⟩

private theorem IsBody.body? (h : IsBody (firstLine text) body) :
    Literal.body? text = some body := by
  have hc := h.closingQuote?
  obtain ⟨rest, hl, -⟩ := h
  rw [Literal.body?, hc, hl, Option.map_some, List.take_left]

/-- The raw body of a literal is the body that its first line starts with. -/
private theorem body?_eq_some_iff_isBody :
    body? text = some body ↔ IsBody (firstLine text) body := by
  constructor
  · intro h
    obtain ⟨n, hn, -⟩ := Option.map_eq_some_iff.mp h
    obtain ⟨other, ho⟩ :=
      exists_isBody_of_closingQuote? (fun _ ↦ not_isLineBreak_of_mem_firstLine) hn
    obtain rfl : other = body := Option.some.inj (ho.body?.symm.trans h)
    exact ho
  · exact IsBody.body?

private theorem body?_eq_none_iff : body? text = none ↔ '"' ∉ firstLine text := by
  rw [body?, Option.map_eq_none_iff, closingQuote?_eq_none_iff]

/-! ### Quotes in a body -/

/-- A quote among units stands behind a backslash that no other backslash hides. -/
private theorem Units.exists_backslash {before after : List Char} (h : Units body)
    (hb : body = before ++ '"' :: after) : ∃ units, Units units ∧ before = units ++ ['\\'] := by
  induction h generalizing before with
  | nil => simp at hb
  | @plain c body quote backslash line _ ih =>
    cases before with
    | nil => exact absurd (List.cons.inj hb).1 quote
    | cons d before =>
      obtain ⟨rfl, hrest⟩ := List.cons.inj hb
      obtain ⟨units, hu, rfl⟩ := ih hrest
      exact ⟨c :: units, .plain quote backslash line hu, rfl⟩
  | @escaped c body line _ ih =>
    match before with
    | [] => simp at hb
    | [d] =>
      obtain ⟨rfl, -⟩ := List.cons.inj hb
      exact ⟨[], .nil, rfl⟩
    | d :: e :: before =>
      obtain ⟨rfl, htail⟩ := List.cons.inj hb
      obtain ⟨rfl, hrest⟩ := List.cons.inj htail
      obtain ⟨units, hu, rfl⟩ := ih hrest
      exact ⟨'\\' :: c :: units, .escaped line hu, rfl⟩

/-- A quote in a body stands among its units, so the same holds there. -/
private theorem IsBody.exists_backslash {before after : List Char} (h : IsBody line body)
    (hb : body = before ++ '"' :: after) : ∃ units, Units units ∧ before = units ++ ['\\'] := by
  obtain ⟨rest, -, hu | ⟨⟨units, hu, rfl⟩, -⟩⟩ := h
  · exact hu.exists_backslash hb
  · rcases List.eq_nil_or_concat after with rfl | ⟨after, d, rfl⟩
    · simp at hb
    · rw [List.concat_eq_append, ← List.cons_append, ← List.append_assoc] at hb
      exact hu.exists_backslash (List.append_inj_left' hb rfl)

end Literal

/-! ### Reading a literal -/

/-- At an opening quote, a seeker reads the raw body of the text behind it. -/
private theorem Seeker.perform_string (before text : List Char) :
    ((⟨before ++ '"' :: text, Text.byteLength before⟩ : Seeker).perform (.read .string)).1 =
      .token (Literal.body? text) := by
  rw [perform, look_of_cursor? (cursor?_append before ('"' :: text)), readToken_fst,
    show Terminal.string.lexeme? (Cursor.skipBlanks ⟨_, '"' :: text⟩).rest =
      (Literal.body? text).map fun body ↦ '"' :: (body ++ ['"']) from rfl]
  cases Literal.body? text with
  | none => rfl
  | some body => simp [Terminal.value]

/-- Behind an opening quote, a literal is missed exactly where no quote is left on the line. Else
its raw body is the only body that the line starts with, of one shape or the other but not both. No
line break stands in it, and no quote that is not behind a backslash of its own. -/
theorem Seeker.read_string_iff_isBody (before text : List Char) :
    let line := Literal.firstLine text
    let answer :=
      ((⟨before ++ '"' :: text, Text.byteLength before⟩ : Seeker).perform (.read .string)).1
    (answer = .token none ↔ '"' ∉ line) ∧
      ('"' ∈ line → ∃ body, answer = .token (some body) ∧ Literal.IsBody line body ∧
        (∀ other, Literal.IsBody line other → other = body) ∧
        ¬(Literal.Units body ∧ Literal.LoneBackslash body)) ∧
      ∀ body, answer = .token (some body) → (∀ c ∈ body, Text.isLineBreak c = false) ∧
        ∀ start rest, body = start ++ '"' :: rest →
          ∃ units, Literal.Units units ∧ start = units ++ ['\\'] := by
  intro line answer
  have read : answer = .token (Literal.body? text) := perform_string before text
  have found {body : List Char} (h : answer = .token (some body)) : Literal.IsBody line body := by
    rw [read] at h
    exact Literal.body?_eq_some_iff_isBody.mp (Answer.token.inj h)
  refine ⟨?_, fun quote ↦ ?_, fun body h ↦ ⟨fun c hc ↦ ?_, fun start rest hb ↦ ?_⟩⟩
  · rw [read, Answer.token.injEq, Literal.body?_eq_none_iff]
  · cases hb : Literal.body? text with
    | none => exact absurd quote (Literal.body?_eq_none_iff.mp hb)
    | some body =>
      rw [hb] at read
      exact ⟨body, read, found read, fun other ho ↦ ho.unique (found read),
        fun both ↦ both.1.not_loneBackslash both.2⟩
  · exact Literal.not_isLineBreak_of_mem_firstLine ((found h).mem hc)
  · exact (found h).exists_backslash hb

end TerseMarkup
