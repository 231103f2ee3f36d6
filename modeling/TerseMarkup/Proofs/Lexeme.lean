import TerseMarkup.Proofs.ClosingQuote
import TerseMarkup.Terminal

/-!
# Lexemes

What the tokens of a terminal look like, said without the functions that read them: `Spells` gives
the class of a terminal, and `IsLexeme` adds where a token ends, which is behind the longest text
of the class or, for a string literal, behind its closing quote. The main statement,
`lexeme?_eq_some_iff`, says that reading finds exactly these.

The rest is about what a lexeme depends on: its first character, and the text behind it.
-/

namespace TerseMarkup.Terminal

/-- The texts in the class of a terminal. -/
def Spells : Terminal → List Char → Prop
  | name, text => text ≠ [] ∧ ∀ c ∈ text, Text.isNameChar c = true
  | identifier, text => ∃ hyphen first more, text = hyphen ++ first :: more ∧
      (hyphen = [] ∨ hyphen = ['-']) ∧ Text.isIdentifierStart first = true ∧
        ∀ c ∈ more, Text.isIdentifierChar c = true
  | string, text => ∃ body, text = '"' :: (body ++ ['"'])
  | char c, text => text = [c]

instance (text : List Char) : Decidable (name.Spells text) :=
  decidable_of_iff (text ≠ [] ∧ text.all Text.isNameChar = true) (by rw [List.all_eq_true, Spells])

/-- A text of the class that no longer one with the same start is in. -/
def IsLongest (t : Terminal) (lexeme rest : List Char) : Prop :=
  t.Spells lexeme ∧ ∀ more later, rest = more ++ later → t.Spells (lexeme ++ more) → more = []

/-- A token before the rest of a text. -/
def IsLexeme : Terminal → List Char → List Char → Prop
  | string, lexeme, rest => ∃ body, lexeme = '"' :: (body ++ ['"']) ∧
      Literal.body? (body ++ '"' :: rest) = some body
  | t, lexeme, rest => t.IsLongest lexeme rest

/-! ### Names and identifiers -/

/-- A text that does not go on with a character of a class. -/
def Stops (p : Char → Bool) (rest : List Char) : Prop := ∀ c, rest.head? = some c → p c = false

private theorem takeWhile_eq_nil {p : Char → Bool} {rest : List Char} (h : Stops p rest) :
    rest.takeWhile p = [] := by
  cases rest with
  | nil => rfl
  | cons c rest => simp [h c rfl]

private theorem takeWhile_append_stops {p : Char → Bool} {run rest : List Char}
    (hr : ∀ c ∈ run, p c = true) (hs : Stops p rest) : (run ++ rest).takeWhile p = run := by
  rw [List.takeWhile_append_of_pos hr, takeWhile_eq_nil hs, List.append_nil]

/-- A run stops before a character outside its class. -/
theorem stops_cons {p : Char → Bool} {c : Char} (h : p c = false) (rest : List Char) :
    Stops p (c :: rest) := by
  rintro _ ⟨⟩
  exact h

/-- A run of a class is read in one way from a text that does not go on with the class. -/
theorem run_inj {p : Char → Bool} {run other rest behind : List Char}
    (hr : ∀ c ∈ run, p c = true) (ho : ∀ c ∈ other, p c = true) (hs : Stops p rest)
    (hb : Stops p behind) (h : run ++ rest = other ++ behind) : run = other ∧ rest = behind := by
  obtain rfl : run = other := by
    rw [← takeWhile_append_stops hr hs, h, takeWhile_append_stops ho hb]
  exact ⟨rfl, List.append_cancel_left h⟩

private theorem exists_takeWhile (p : Char → Bool) (text : List Char) :
    ∃ rest, text = text.takeWhile p ++ rest ∧ Stops p rest := by
  refine ⟨text.dropWhile p, List.takeWhile_append_dropWhile.symm, ?_⟩
  intro c hc
  have := List.head?_dropWhile_not p text
  rw [hc] at this
  simpa using this

private theorem name?_eq_some_iff {text lexeme : List Char} :
    name? text = some lexeme ↔
      ∃ rest, text = lexeme ++ rest ∧ name.Spells lexeme ∧ Stops Text.isNameChar rest := by
  constructor
  · intro h
    obtain ⟨rest, ht, hs⟩ := exists_takeWhile Text.isNameChar text
    unfold name? at h
    split at h
    · cases h
    · next hne =>
      obtain rfl := Option.some.inj h
      exact ⟨rest, ht, ⟨hne, fun c hc ↦ List.mem_takeWhile_imp hc⟩, hs⟩
  · rintro ⟨rest, rfl, ⟨hn, hc⟩, hs⟩
    rw [name?, takeWhile_append_stops hc hs]
    split
    · exact absurd rfl hn
    · rfl

/-- An identifier that starts with a hyphen needs a start behind it. -/
theorem identifier?_hyphen (c : Char) (text : List Char) :
    identifier? ('-' :: c :: text) =
      if Text.isIdentifierStart c then some ('-' :: c :: text.takeWhile Text.isIdentifierChar)
      else none := by
  rw [identifier?]

/-- Any other identifier begins with its start. -/
theorem identifier?_cons {c : Char} (h : c ≠ '-') (text : List Char) :
    identifier? (c :: text) =
      if Text.isIdentifierStart c then some (c :: text.takeWhile Text.isIdentifierChar)
      else none := by
  unfold identifier?
  split
  · next he => exact absurd (List.cons.inj he).1 h
  · next he =>
    obtain ⟨rfl, rfl⟩ := List.cons.inj he
    rfl
  · next he => cases he

private theorem ne_hyphen_of_isIdentifierStart {c : Char}
    (h : Text.isIdentifierStart c = true) : c ≠ '-' := by
  rintro rfl
  exact absurd h (by decide)

private theorem identifier?_eq_some_iff {text lexeme : List Char} :
    identifier? text = some lexeme ↔
      ∃ rest, text = lexeme ++ rest ∧ identifier.Spells lexeme ∧
        Stops Text.isIdentifierChar rest := by
  constructor
  · intro h
    unfold identifier? at h
    split at h
    · next c more =>
      split at h
      · next hc =>
        obtain rfl := Option.some.inj h
        obtain ⟨rest, ht, hs⟩ := exists_takeWhile Text.isIdentifierChar more
        refine ⟨rest, by rw [List.cons_append, List.cons_append, ← ht],
          ⟨['-'], c, _, rfl, .inr rfl, hc, fun d hd ↦ List.mem_takeWhile_imp hd⟩, hs⟩
      · cases h
    · next c more _ =>
      split at h
      · next hc =>
        obtain rfl := Option.some.inj h
        obtain ⟨rest, ht, hs⟩ := exists_takeWhile Text.isIdentifierChar more
        exact ⟨rest, by rw [List.cons_append, ← ht],
          ⟨[], c, _, rfl, .inl rfl, hc, fun d hd ↦ List.mem_takeWhile_imp hd⟩, hs⟩
      · cases h
    · cases h
  · rintro ⟨rest, rfl, ⟨hyphen, first, more, rfl, hy, hf, hm⟩, hs⟩
    rcases hy with rfl | rfl
    · simp only [List.nil_append, List.cons_append]
      rw [identifier?_cons (ne_hyphen_of_isIdentifierStart hf), if_pos hf,
        takeWhile_append_stops hm hs]
    · simp only [List.nil_append, List.cons_append]
      rw [identifier?_hyphen, if_pos hf, takeWhile_append_stops hm hs]

/-! ### Longest matches -/

-- A class that is closed under adding characters of `p`, and under no others.
private theorem isLongest_iff {t : Terminal} {p : Char → Bool}
    (add : ∀ lexeme c, t.Spells lexeme → p c = true → t.Spells (lexeme ++ [c]))
    (only : ∀ lexeme c more, t.Spells lexeme → t.Spells (lexeme ++ c :: more) → p c = true)
    {lexeme rest : List Char} :
    t.IsLongest lexeme rest ↔ t.Spells lexeme ∧ Stops p rest := by
  constructor
  · rintro ⟨hl, hm⟩
    refine ⟨hl, ?_⟩
    intro c hc
    cases rest with
    | nil => cases hc
    | cons d later =>
      obtain rfl := Option.some.inj hc
      apply Bool.eq_false_iff.mpr
      intro hd
      exact List.cons_ne_nil d [] (hm [d] later rfl (add lexeme d hl hd))
  · rintro ⟨hl, hs⟩
    refine ⟨hl, ?_⟩
    rintro (_ | ⟨c, more⟩) later rfl hm
    · rfl
    · have hc := only lexeme c more hl hm
      rw [hs c rfl] at hc
      cases hc

/-- A name is a token where no character follows that could continue it. -/
theorem isLexeme_name_iff {lexeme rest : List Char} :
    name.IsLexeme lexeme rest ↔ name.Spells lexeme ∧ Stops Text.isNameChar rest := by
  change name.IsLongest lexeme rest ↔ _
  apply isLongest_iff
  · rintro text c ⟨-, ht⟩ hc
    refine ⟨by simp, ?_⟩
    intro d hd
    rcases List.mem_append.mp hd with hd | hd
    · exact ht d hd
    · rw [List.mem_singleton.mp hd]
      exact hc
  · intro text c more _ hm
    exact hm.2 c (by simp)

/-- An identifier is a token where no character follows that could continue it. -/
theorem isLexeme_identifier_iff {lexeme rest : List Char} :
    identifier.IsLexeme lexeme rest ↔
      identifier.Spells lexeme ∧ Stops Text.isIdentifierChar rest := by
  change identifier.IsLongest lexeme rest ↔ _
  apply isLongest_iff
  · rintro text c ⟨hyphen, first, more, rfl, hy, hf, ht⟩ hc
    refine ⟨hyphen, first, more ++ [c], by simp, hy, hf, ?_⟩
    intro d hd
    rcases List.mem_append.mp hd with hd | hd
    · exact ht d hd
    · rw [List.mem_singleton.mp hd]
      exact hc
  · rintro text c more ⟨hyphen, first, tail, rfl, hy, hf, -⟩
      ⟨hyphen', first', tail', he, hy', hf', ht'⟩
    -- The hyphen cannot be the start of an identifier, so both begin alike.
    have hmem : tail' = tail ++ c :: more := by
      rcases hy with rfl | rfl <;> rcases hy' with rfl | rfl
      · simpa using (List.cons.inj he).2.symm
      · exact absurd (List.cons.inj he).1 (ne_hyphen_of_isIdentifierStart hf)
      · exact absurd (List.cons.inj he).1.symm (ne_hyphen_of_isIdentifierStart hf')
      · simpa using (List.cons.inj (List.cons.inj he).2).2.symm
    exact ht' c (by simp [hmem])

/-- A single character is a token wherever it stands. -/
theorem isLexeme_char_iff {c : Char} {lexeme rest : List Char} :
    (char c).IsLexeme lexeme rest ↔ lexeme = [c] := by
  constructor
  · exact And.left
  · rintro rfl
    refine ⟨rfl, ?_⟩
    intro more later _ hm
    exact (List.append_right_eq_self.mp hm)

/-- Reading at the start of a text finds exactly the token there. -/
theorem lexeme?_eq_some_iff {t : Terminal} {text lexeme : List Char} :
    t.lexeme? text = some lexeme ↔ ∃ rest, text = lexeme ++ rest ∧ t.IsLexeme lexeme rest := by
  cases t with
  | name => simp only [lexeme?, name?_eq_some_iff, isLexeme_name_iff]
  | identifier =>
    simp only [lexeme?, identifier?_eq_some_iff, isLexeme_identifier_iff]
  | string =>
    simp only [lexeme?, IsLexeme]
    constructor
    · intro h
      unfold string? at h
      split at h
      · next after =>
        obtain ⟨body, hb, rfl⟩ := Option.map_eq_some_iff.mp h
        obtain ⟨rest, rfl, -⟩ := Literal.body?_eq_some_iff.mp hb
        exact ⟨rest, by simp, body, rfl, hb⟩
      · cases h
    · rintro ⟨rest, rfl, body, rfl, hb⟩
      simp [string?, hb]
  | char c =>
    simp only [lexeme?, isLexeme_char_iff]
    constructor
    · intro h
      split at h
      · next hc =>
        obtain ⟨tail, rfl⟩ := List.head?_eq_some_iff.mp hc
        exact ⟨tail, by simp [← Option.some.inj h], (Option.some.inj h).symm⟩
      · cases h
    · rintro ⟨rest, rfl, rfl⟩
      simp

/-- A text is a token before another exactly if it is what reading finds there. -/
theorem isLexeme_iff_lexeme? {t : Terminal} {lexeme rest : List Char} :
    t.IsLexeme lexeme rest ↔ t.lexeme? (lexeme ++ rest) = some lexeme := by
  rw [lexeme?_eq_some_iff]
  constructor
  · intro h
    exact ⟨rest, rfl, h⟩
  · rintro ⟨found, he, hl⟩
    rwa [List.append_cancel_left he]

instance (t : Terminal) (lexeme rest : List Char) : Decidable (t.IsLexeme lexeme rest) :=
  decidable_of_iff _ isLexeme_iff_lexeme?.symm

/-! ### What a lexeme depends on -/

/-- The characters that a lexeme may start with. -/
def starts : Terminal → Char → Bool
  | name, c => Text.isNameChar c
  | identifier, c => c == '-' || Text.isIdentifierStart c
  | string, c => c == '"'
  | char d, c => c == d

/-- A lexeme begins with a character that starts its terminal. -/
theorem exists_starts_of_lexeme? {t : Terminal} {text lexeme : List Char}
    (h : t.lexeme? text = some lexeme) : ∃ c tail, text = c :: tail ∧ t.starts c = true := by
  obtain ⟨rest, rfl, hl⟩ := lexeme?_eq_some_iff.mp h
  cases t with
  | name =>
    obtain ⟨⟨hn, hc⟩, -⟩ := hl
    cases lexeme with
    | nil => exact absurd rfl hn
    | cons c lexeme => exact ⟨c, lexeme ++ rest, rfl, hc c (by simp)⟩
  | identifier =>
    obtain ⟨⟨hyphen, first, more, rfl, hy, hf, -⟩, -⟩ := hl
    rcases hy with rfl | rfl
    · exact ⟨first, more ++ rest, rfl, by simp [starts, hf]⟩
    · exact ⟨'-', first :: more ++ rest, rfl, by simp [starts]⟩
  | string =>
    obtain ⟨body, rfl, -⟩ := hl
    exact ⟨'"', body ++ ['"'] ++ rest, rfl, rfl⟩
  | char c =>
    obtain ⟨rfl, -⟩ := hl
    exact ⟨c, rest, rfl, by simp [starts]⟩

/-- No lexeme starts with a blank, apart from a blank that is a token itself. -/
theorem isBlank_of_starts {t : Terminal} {c : Char} (h : t.starts c = true)
    (ht : ∀ d, t = char d → Text.isBlank d = false) : Text.isBlank c = false := by
  cases t with
  | name => exact Text.isBlank_of_isIdentifierChar (Text.isIdentifierChar_of_isNameChar h)
  | identifier =>
    apply Text.isBlank_of_isIdentifierChar
    simp only [starts, Bool.or_eq_true] at h
    rcases h with h | h
    · simp [Text.isIdentifierChar, h]
    · exact Text.isIdentifierChar_of_isIdentifierStart h
  | string =>
    obtain rfl : c = '"' := by simpa [starts] using h
    rfl
  | char d =>
    obtain rfl : c = d := by simpa [starts] using h
    exact ht c rfl

/-- Whether a name, an identifier or a single character is there shows in the first character,
unless that is a hyphen. -/
theorem exists_lexeme?_of_starts {t : Terminal} {c : Char} (hs : t.starts c = true)
    (ht : t ≠ string) (hc : c ≠ '-' ∨ t ≠ identifier) (text : List Char) :
    ∃ lexeme, t.lexeme? (c :: text) = some lexeme := by
  cases t with
  | name =>
    simp only [starts] at hs
    simp [lexeme?, name?, hs]
  | identifier =>
    have hf : Text.isIdentifierStart c = true := by
      rcases hc with hc | hc
      · simpa [starts, hc] using hs
      · exact absurd rfl hc
    exact ⟨_, (identifier?_cons (ne_hyphen_of_isIdentifierStart hf) text).trans (if_pos hf)⟩
  | string => exact absurd rfl ht
  | char d =>
    obtain rfl : c = d := by simpa [starts] using hs
    exact ⟨[c], by simp [lexeme?]⟩

/-- A token stays one when the text behind it goes on with the same character. A string literal
without backslashes stays one whatever follows. -/
theorem isLexeme_of_head? {t : Terminal} {lexeme rest other : List Char}
    (h : t.IsLexeme lexeme rest) (hh : other.head? = rest.head?) (hb : '\\' ∉ lexeme) :
    t.IsLexeme lexeme other := by
  cases t with
  | name =>
    rw [isLexeme_name_iff] at h ⊢
    exact ⟨h.1, fun c hc ↦ h.2 c (hh ▸ hc)⟩
  | identifier =>
    rw [isLexeme_identifier_iff] at h ⊢
    exact ⟨h.1, fun c hc ↦ h.2 c (hh ▸ hc)⟩
  | string =>
    obtain ⟨body, rfl, hr⟩ := h
    have hu := Literal.units_of_body? hr fun hm ↦ hb (by simp [hm])
    exact ⟨body, rfl, hu.body? other⟩
  | char c => exact isLexeme_char_iff.mpr (isLexeme_char_iff.mp h)

/-- A text behind which tokens end as they do behind another: it starts with a blank or alike, and
its first line has a quote only if that of the other has one. -/
structure Looser (rest other : List Char) : Prop where
  head : ∀ c, other.head? = some c → Text.isBlank c = true ∨ rest.head? = some c
  quote : '"' ∈ Literal.firstLine other → '"' ∈ Literal.firstLine rest

/-- A text in place of which anything may stand that starts with a line break. -/
private theorem looser_lineBreak {c : Char} (hb : Text.isBlank c = true)
    (hl : Text.isLineBreak c = true) (rest other : List Char) : Looser rest (c :: other) where
  head := by
    rintro _ ⟨⟩
    exact .inl hb
  quote h := by simp [Literal.firstLine, hl] at h

/-- The end of the text sets the fewest conditions. -/
theorem looser_nil (rest : List Char) : Looser rest [] := ⟨nofun, nofun⟩

private theorem Looser.cons {rest other : List Char} (h : Looser rest other) (c : Char) :
    Looser (c :: rest) (c :: other) where
  head d hd := .inr hd
  quote hq := by
    cases hl : Text.isLineBreak c with
    | true => simp [Literal.firstLine, hl] at hq
    | false =>
      simp only [Literal.firstLine, List.takeWhile_cons, hl, Bool.not_false, ↓reduceIte,
        List.mem_cons] at hq ⊢
      exact hq.imp_right h.quote

/-- A text in front leaves the comparison as it is. -/
theorem Looser.append {rest other : List Char} (h : Looser rest other) (front : List Char) :
    Looser (front ++ rest) (front ++ other) := by
  induction front with
  | nil => exact h
  | cons c front ih => exact ih.cons c

/-- A text may go on behind its end with a line break. -/
theorem looser_append_lineBreak {c : Char} (hb : Text.isBlank c = true)
    (hl : Text.isLineBreak c = true) (rest other : List Char) :
    Looser rest (rest ++ c :: other) := by
  have h := (looser_lineBreak hb hl [] other).append rest
  rwa [List.append_nil] at h

private theorem Stops.of_looser {p : Char → Bool} {rest other : List Char} (h : Stops p rest)
    (hp : ∀ c, p c = true → Text.isIdentifierChar c = true) (hl : Looser rest other) :
    Stops p other := by
  intro c hc
  rcases hl.head c hc with hb | hr
  · rw [← Bool.not_eq_true]
    intro hpc
    rw [Text.isBlank_of_isIdentifierChar (hp c hpc)] at hb
    cases hb
  · exact h c hr

/-- A token stays one before a looser text. -/
theorem isLexeme_of_looser {t : Terminal} {lexeme rest other : List Char}
    (h : t.IsLexeme lexeme rest) (hl : Looser rest other) : t.IsLexeme lexeme other := by
  cases t with
  | name =>
    rw [isLexeme_name_iff] at h ⊢
    exact ⟨h.1, h.2.of_looser (fun _ ↦ Text.isIdentifierChar_of_isNameChar) hl⟩
  | identifier =>
    rw [isLexeme_identifier_iff] at h ⊢
    exact ⟨h.1, h.2.of_looser (fun _ ↦ id) hl⟩
  | string =>
    obtain ⟨body, rfl, hr⟩ := h
    exact ⟨body, rfl, Literal.body?_of_quote_mem hr hl.quote⟩
  | char c => exact isLexeme_char_iff.mpr (isLexeme_char_iff.mp h)

/-- A token stays one when the text behind it is cut short by a line feed. -/
theorem isLexeme_of_cut {t : Terminal} {lexeme kept cut : List Char}
    (h : t.IsLexeme lexeme (kept ++ cut)) (other : List Char) :
    t.IsLexeme lexeme (kept ++ '\n' :: other) :=
  isLexeme_of_looser h ((looser_lineBreak rfl rfl cut other).append kept)

/-- A token stays one when the text behind it is cut short. -/
theorem isLexeme_of_append {t : Terminal} {lexeme kept cut : List Char}
    (h : t.IsLexeme lexeme (kept ++ cut)) : t.IsLexeme lexeme kept := by
  have hl := isLexeme_of_looser h ((looser_nil cut).append kept)
  rwa [List.append_nil] at hl

private theorem exists_string?_append {text lexeme : List Char} (h : string? text = some lexeme)
    (cut : List Char) : ∃ longer, string? (text ++ cut) = some longer := by
  unfold string? at h
  split at h
  · next tail =>
    obtain ⟨body, hb, -⟩ := Option.map_eq_some_iff.mp h
    have hquote : '"' ∈ Literal.firstLine tail := by
      obtain ⟨n, hn, -⟩ := Option.map_eq_some_iff.mp hb
      by_contra hq
      rw [Literal.closingQuote?_eq_none_iff.mpr hq] at hn
      cases hn
    have hmore := (Literal.firstLine_isPrefix_append tail cut).subset hquote
    cases hc : Literal.closingQuote? (Literal.firstLine (tail ++ cut)) with
    | none => exact absurd hmore (Literal.closingQuote?_eq_none_iff.mp hc)
    | some n => exact ⟨_, by simp only [List.cons_append, string?, Literal.body?, hc]; rfl⟩
  · cases h

/-- A text that starts with a token does so too when it goes on behind its end, though the token
may be longer. -/
theorem exists_lexeme?_append {t : Terminal} {text lexeme : List Char}
    (h : t.lexeme? text = some lexeme) (cut : List Char) :
    ∃ longer, t.lexeme? (text ++ cut) = some longer := by
  obtain ⟨c, tail, rfl, hs⟩ := exists_starts_of_lexeme? h
  by_cases ht : t = string
  · subst ht
    exact exists_string?_append h cut
  by_cases hh : c ≠ '-' ∨ t ≠ identifier
  · exact exists_lexeme?_of_starts hs ht hh (tail ++ cut)
  · obtain ⟨rfl, rfl⟩ : c = '-' ∧ t = identifier := by simpa using hh
    obtain ⟨rest, hr, ⟨hyphen, first, more, rfl, hy, hf, -⟩, -⟩ := lexeme?_eq_some_iff.mp h
    rcases hy with rfl | rfl
    · exact absurd (List.cons.inj hr).1.symm (ne_hyphen_of_isIdentifierStart hf)
    · rw [hr]
      exact ⟨_, (identifier?_hyphen first _).trans (if_pos hf)⟩

end TerseMarkup.Terminal
