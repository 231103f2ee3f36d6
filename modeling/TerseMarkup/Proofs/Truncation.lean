import TerseMarkup.Proofs.ExpectedParts

/-!
# Texts that end where reading stopped

A run looks no further than to the furthest place where it misses something and to where it ends.
If the text ends at such a place, the run does not notice. `Local` says so for a rule, and each
production keeps it. So the end of a text is expected exactly where the text before is a document,
which is the main statement, `endOfText_mem_iff_parse`.
-/

namespace TerseMarkup

/-! ### Cursors in a shorter text -/

/-- A cursor in a text and the one at the same place of a shorter text, which ends before some
character that is no blank. -/
structure Cursor.CutAt (stop : Nat) (removed : List Char) (c short : Cursor) : Prop where
  offset : short.offset = c.offset
  rest : c.rest = short.rest ++ removed
  stop : short.offset + Text.byteLength short.rest = stop
  blank : ∀ d, removed.head? = some d → Text.isBlank d = false

namespace Cursor.CutAt

variable {stop : Nat} {removed : List Char} {c short : Cursor}

/-- Both cursors move over the same text. -/
private theorem move (h : CutAt stop removed c short) {passed rest : List Char}
    (hr : short.rest = passed ++ rest) :
    CutAt stop removed ⟨c.offset + Text.byteLength passed, rest ++ removed⟩
      ⟨short.offset + Text.byteLength passed, rest⟩ where
  offset := by rw [h.offset]
  rest := rfl
  stop := by
    have hs := h.stop
    rw [hr, Text.byteLength_append] at hs
    simp only
    omega
  blank := h.blank

private theorem blanks_eq (h : CutAt stop removed c short) : c.blanks = short.blanks := by
  have hnone : removed.takeWhile Text.isBlank = [] := by
    cases hremoved : removed with
    | nil => rfl
    | cons d tail => simp [h.blank d (by rw [hremoved]; rfl)]
  unfold blanks
  rw [h.rest, List.takeWhile_append, hnone, List.append_nil]
  split
  · next hl => exact ((List.takeWhile_prefix _).eq_of_length hl).symm
  · rfl

private theorem skipBlanks (h : CutAt stop removed c short) :
    CutAt stop removed c.skipBlanks short.skipBlanks := by
  have hshort : short.rest = short.blanks ++ short.skipBlanks.rest :=
    List.takeWhile_append_dropWhile.symm
  have hrest : c.skipBlanks.rest = short.skipBlanks.rest ++ removed := by
    have hc : c.rest = c.blanks ++ c.skipBlanks.rest := List.takeWhile_append_dropWhile.symm
    rw [h.rest, h.blanks_eq, hshort, List.append_assoc] at hc
    exact (List.append_cancel_left hc).symm
  have hc : c.skipBlanks =
      ⟨c.offset + Text.byteLength short.blanks, short.skipBlanks.rest ++ removed⟩ := by
    rw [← h.blanks_eq, ← hrest]
    rfl
  rw [hc]
  exact h.move hshort

private theorem tokenStart_eq (h : CutAt stop removed c short) : short.tokenStart = c.tokenStart :=
  h.skipBlanks.offset

/-- The shorter text has nothing but blanks left exactly if the next token starts at its end. -/
private theorem skipBlanks_rest_eq_nil_iff (h : CutAt stop removed c short) :
    short.skipBlanks.rest = [] ↔ stop = c.tokenStart := by
  have hs := h.skipBlanks.stop
  rw [← h.tokenStart_eq, tokenStart, ← Text.byteLength_eq_zero_iff]
  omega

/-- A token that ends before the shorter text does is read in both. -/
private theorem read? (h : CutAt stop removed c short) {t : Terminal} {lexeme : List Char}
    {next : Cursor} (hread : c.read? t = some (lexeme, next)) (hle : next.tokenStart ≤ stop) :
    ∃ next', short.read? t = some (lexeme, next') ∧ CutAt stop removed next next' := by
  obtain ⟨rest, hr, hl, rfl⟩ := read?_eq_some_iff.mp hread
  have hs := h.skipBlanks
  rw [tokenStart_skipBlanks] at hle
  have hend : c.skipBlanks.offset + Text.byteLength lexeme ≤ stop :=
    Nat.le_trans (leadsTo_skipBlanks ⟨_, rest⟩).offset_le hle
  obtain ⟨kept, hshort, rfl⟩ : ∃ kept, short.skipBlanks.rest = lexeme ++ kept ∧
      rest = kept ++ removed := by
    rw [hs.rest] at hr
    rcases List.append_eq_append_iff.mp hr with ⟨more, rfl, hmore⟩ | ⟨kept, hshort, rfl⟩
    · -- A longer token would end behind the shorter text.
      have hstop := hs.stop
      rw [Text.byteLength_append, ← hs.offset] at hend
      obtain rfl : more = [] := Text.byteLength_eq_zero_iff.mp (by omega)
      exact ⟨[], by rw [List.append_nil, List.append_nil], hmore.symm⟩
    · exact ⟨kept, hshort, rfl⟩
  have hmove := (hs.move hshort).skipBlanks
  exact ⟨_, read?_eq_some_iff.mpr ⟨kept, hshort, Terminal.isLexeme_of_append hl, rfl⟩, hmove⟩

/-- A token that is missed in the longer text is missed in the shorter one. -/
private theorem read?_eq_none (h : CutAt stop removed c short) {t : Terminal}
    (hread : c.read? t = none) : short.read? t = none := by
  rw [read?_eq_none_iff] at hread ⊢
  cases hl : t.lexeme? short.skipBlanks.rest with
  | none => rfl
  | some lexeme =>
    obtain ⟨longer, hlonger⟩ := Terminal.exists_lexeme?_append hl removed
    rw [← h.skipBlanks.rest, hread] at hlonger
    cases hlonger

end Cursor.CutAt

/-! ### Attempts in a shorter text -/

/-- An attempt in a text and one in a shorter text that end alike, as far as the first stays in the
shorter text. -/
structure Attempt.CutAt {α : Type} (stop : Nat) (removed : List Char) (a b : Attempt Furthest α) :
    Prop where
  found : ∀ value next, a.outcome = .found value next → next.tokenStart ≤ stop →
    ∃ next', b.outcome = .found value next' ∧ next.CutAt stop removed next'
  nothing : a.outcome = .nothing → b.outcome = .nothing

private theorem Attempt.CutAt.stay {α : Type} {stop : Nat} {removed : List Char} {c short : Cursor}
    (h : c.CutAt stop removed short) (value : α) (j j' : Furthest) :
    CutAt stop removed ⟨.found value c, j⟩ ⟨.found value short, j'⟩ := by
  refine ⟨fun result next hf _ ↦ ?_, nofun⟩
  obtain ⟨rfl, rfl⟩ := Outcome.found.inj hf
  exact ⟨short, rfl, h⟩

/-- A rule that does not notice that a text ends, if it misses nothing behind that place. -/
structure Rule.Local {α : Type} (limit : Nat) (rule : Rule Furthest α) : Prop where
  regular : (Rule.regular limit).rules.Holds rule rule
  cut : ∀ {stop removed c short}, c.CutAt stop removed short → (rule c).journal.AtMost stop →
    (rule c).CutAt stop removed (rule short)

namespace Rule

variable {α β : Type} {limit : Nat}

private theorem local_pure (value : α) : (pure value : Rule Furthest α).Local limit where
  regular := (Rule.regular limit).rules.pure value
  cut hc _ := .stay hc value _ _

private theorem local_terminal (t : Terminal) :
    (terminal t : Rule Furthest (List Char)).Local limit where
  regular := (Rule.regular limit).rules.terminal t
  cut {_ _ c short} hc _ := by
    constructor
    · intro value next hf hle
      obtain ⟨lexeme, hr, rfl⟩ := outcome_terminal_eq_found.mp hf
      obtain ⟨next', hr', hnext⟩ := hc.read? hr hle
      exact ⟨next', outcome_terminal_eq_found.mpr ⟨lexeme, hr', rfl⟩, hnext⟩
    · intro hn
      rw [outcome_terminal_eq_nothing] at hn ⊢
      exact hc.read?_eq_none hn

private theorem local_tokenStart : (tokenStart : Rule Furthest Nat).Local limit where
  regular := (Rule.regular limit).rules.tokenStart
  cut hc _ := by
    rw [tokenStart_apply, tokenStart_apply, hc.tokenStart_eq]
    exact .stay hc _ _ _

private theorem local_opened (opener depth : Nat) :
    (opened opener depth : Rule Furthest Unit).Local limit where
  regular c := .found (.refl c) (Furthest.ahead_none c)
  cut hc _ := .stay hc () _ _

private theorem Local.bind {first : Rule Furthest α} {second : α → Rule Furthest β}
    (hf : first.Local limit) (hs : ∀ value, (second value).Local limit) :
    (first >>= second).Local limit where
  regular := (Rule.regular limit).rules.bind hf.regular fun value ↦ (hs value).regular
  cut {stop removed c short} hc hj := by
    have hfirst := hf.cut hc
    rcases hr : first c with ⟨outcome, journal⟩
    rw [hr] at hfirst
    cases outcome with
    | found value next =>
      rw [bind_of_found hr] at hj ⊢
      obtain ⟨hearlier, hlater⟩ := Furthest.atMost_append.mp hj
      have hregular : (second value next).Regular limit next := (hs value).regular next
      constructor
      · intro result last hlast hle
        have hnext := (hregular.leads result last hlast).tokenStart_le
        obtain ⟨next', hn', hc'⟩ := (hfirst hearlier).found value next rfl (Nat.le_trans hnext hle)
        obtain ⟨last', hl', hc'⟩ := ((hs value).cut hc' hlater).found result last hlast hle
        exact ⟨last', outcome_bind_eq_found.mpr ⟨value, next', hn', hl'⟩, hc'⟩
      · intro hn
        obtain ⟨failure, hfailure, hnext⟩ := hregular.exists_missed hn
        have hle := Nat.le_trans hnext (hlater failure hfailure)
        obtain ⟨next', hn', hc'⟩ := (hfirst hearlier).found value next rfl hle
        have hnothing := ((hs value).cut hc' hlater).nothing hn
        exact outcome_bind_eq_nothing.mpr (.inr ⟨value, next', hn', hnothing⟩)
    | nothing =>
      rw [bind_of_nothing hr] at hj ⊢
      exact ⟨nofun, fun _ ↦ outcome_bind_eq_nothing.mpr (.inl ((hfirst hj).nothing rfl))⟩
    | tooDeep mark =>
      rw [bind_of_tooDeep hr]
      exact ⟨nofun, nofun⟩

private theorem Local.orElse {first second : Rule Furthest α} (hf : first.Local limit)
    (hs : second.Local limit) : (Rule.orElse first second).Local limit where
  regular := (Rule.regular limit).rules.orElse hf.regular hs.regular
  cut {stop removed c short} hc hj := by
    have hfirst := hf.cut hc
    rcases hr : first c with ⟨outcome, journal⟩
    rw [hr] at hfirst
    cases outcome with
    | found value next =>
      rw [orElse_of_found hr] at hj ⊢
      refine ⟨fun result last hlast hle ↦ ?_, nofun⟩
      obtain ⟨last', hl', hc'⟩ := (hfirst hj).found result last hlast hle
      exact ⟨last', outcome_orElse_eq_found.mpr (.inl hl'), hc'⟩
    | nothing =>
      rw [orElse_of_nothing hr] at hj ⊢
      obtain ⟨hearlier, hlater⟩ := Furthest.atMost_append.mp hj
      have hnone := (hfirst hearlier).nothing rfl
      have hsecond := hs.cut hc hlater
      constructor
      · intro result last hlast hle
        obtain ⟨last', hl', hc'⟩ := hsecond.found result last hlast hle
        exact ⟨last', outcome_orElse_eq_found.mpr (.inr ⟨hnone, hl'⟩), hc'⟩
      · intro hn
        exact outcome_orElse_eq_nothing.mpr ⟨hnone, hsecond.nothing hn⟩
    | tooDeep mark =>
      rw [orElse_of_tooDeep hr]
      exact ⟨nofun, nofun⟩

private theorem Local.optional {rule : Rule Furthest α} (h : rule.Local limit) :
    rule.optional.Local limit where
  regular := (Rule.regular limit).rules.optional h.regular
  cut {stop removed c short} hc hj := by
    have hrule := h.cut hc
    rcases hr : rule c with ⟨outcome, journal⟩
    rw [hr] at hrule
    cases outcome with
    | found value next =>
      rw [optional_of_found hr] at hj ⊢
      refine ⟨fun result last hlast hle ↦ ?_, nofun⟩
      obtain ⟨rfl, rfl⟩ := Outcome.found.inj hlast
      obtain ⟨last', hl', hc'⟩ := (hrule hj).found value next rfl hle
      exact ⟨last', outcome_optional_eq_found.mpr (.inl ⟨value, hl', rfl⟩), hc'⟩
    | nothing =>
      rw [optional_of_nothing hr] at hj ⊢
      refine ⟨fun result last hlast _ ↦ ?_, nofun⟩
      obtain ⟨rfl, rfl⟩ := Outcome.found.inj hlast
      have hnone := (hrule hj).nothing rfl
      exact ⟨short, outcome_optional_eq_found.mpr (.inr ⟨hnone, rfl, rfl⟩), hc⟩
    | tooDeep mark =>
      rw [optional_of_tooDeep hr]
      exact ⟨nofun, nofun⟩

private theorem Local.named {rule : Rule Furthest α} (h : rule.Local limit) (p : Production) :
    (Rule.named p rule).Local limit where
  regular := (Rule.regular limit).rules.named p h.regular
  cut hc hj := by
    have hrule := h.cut hc (Furthest.atMost_enclose.mp hj)
    exact ⟨hrule.found, hrule.nothing⟩

/-- A repetition ends in the shorter text after as many rounds. -/
private theorem Local.many {rule : Rule Furthest α} (h : rule.Local limit) (hs : rule.Shortens) :
    rule.many.Local limit where
  regular := (Rule.regular limit).rules.many h.regular
  cut {stop removed c short} hc hj := by
    refine ⟨fun values last hf hle ↦ ?_, fun hn ↦ absurd hn (outcome_many_ne_nothing rule c)⟩
    rcases hmany : rule.many c with ⟨outcome, journal⟩
    rw [hmany] at hf hj
    obtain rfl : outcome = .found values last := hf
    induction hl : c.rest.length using Nat.strongRecOn generalizing c short values journal with
    | ind n ih =>
      subst hl
      rcases exists_of_many_eq_found hs hmany with ⟨hround, rfl, rfl⟩ |
        ⟨value, next, more, earlier, later, hround, hmore, rfl, rfl⟩
      · have hnone := (h.cut hc (by rw [hround]; exact hj)).nothing (by rw [hround])
        exact ⟨short, (outcome_many_eq_found hs).mpr (.inl ⟨hnone, rfl, rfl⟩), hc⟩
      · obtain ⟨hearlier, hlater⟩ := Furthest.atMost_append.mp hj
        have hregular : (rule.many next).Regular limit next :=
          (Rule.regular limit).rules.many h.regular next
        have hnext := (hregular.leads more last (by rw [hmore])).tokenStart_le
        obtain ⟨next', hn', hc'⟩ := (h.cut hc (by rw [hround]; exact hearlier)).found value next
          (by rw [hround]) (Nat.le_trans hnext hle)
        have hshort := hs c value next (by rw [hround])
        obtain ⟨last', hl', hlast⟩ := ih _ hshort hc' more later hlater hmore rfl
        exact ⟨last', (outcome_many_eq_found hs).mpr
          (.inr ⟨value, next', more, hn', hl', rfl⟩), hlast⟩

private theorem Local.map {rule : Rule Furthest α} (h : rule.Local limit) (f : α → β) :
    (f <$> rule).Local limit :=
  h.bind fun value ↦ local_pure (f value)

private theorem local_char (expected : Char) : (char expected : Rule Furthest Unit).Local limit :=
  (local_terminal _).bind fun _ ↦ local_pure ()

end Rule

/-! ### The grammar in a shorter text -/

namespace Grammar

open Rule

variable {limit : Nat}

private theorem local_name : (name : Rule Furthest String).Local limit :=
  (local_terminal _).bind fun _ ↦ local_pure _

private theorem local_identifier : (identifier : Rule Furthest String).Local limit :=
  (local_terminal _).bind fun _ ↦ local_pure _

private theorem local_string : (string : Rule Furthest String).Local limit :=
  (local_terminal _).bind fun _ ↦ local_pure _

private theorem local_className : (className : Rule Furthest String).Local limit :=
  ((local_char _).bind fun _ ↦ local_identifier).named _

private theorem local_elementId : (elementId : Rule Furthest String).Local limit :=
  ((local_char _).bind fun _ ↦ local_identifier).named _

private theorem local_selectors :
    (selectors : Rule Furthest (Option String × Option String)).Local limit := by
  apply local_className.optional.bind
  intro first
  apply local_elementId.optional.bind
  intro id
  split
  · exact local_className.optional.bind fun _ ↦ local_pure _
  · exact local_pure _

private theorem local_attributePair : (attributePair : Rule Furthest Attribute).Local limit :=
  (local_name.bind fun _ ↦ (local_char _).bind fun _ ↦ local_string.bind fun _ ↦
    local_pure _).named _

private theorem local_attributeList :
    (attributeList : Rule Furthest (List Attribute)).Local limit := by
  have hnext : (nextAttribute : Rule Furthest Attribute).Local limit :=
    (local_char _).bind fun _ ↦ local_attributePair
  exact ((local_char _).bind fun _ ↦ local_attributePair.bind fun _ ↦
    (hnext.many shortens_nextAttribute).bind fun _ ↦ (local_char _).bind fun _ ↦
      local_pure _).named _

private theorem local_tagHead : (tagHead : Rule Furthest TagHead).Local limit :=
  local_name.bind fun _ ↦ local_selectors.bind fun _ ↦ local_attributeList.optional.bind fun _ ↦
    local_pure _

/-- The insides of blocks do not notice that a text ends, and they move forward. -/
structure Inside.Local (limit : Nat) (inside : Inside Furthest) : Prop where
  forward : inside.Forward
  single : ∀ opener, (inside.single opener).Local limit
  block : ∀ opener, (inside.block opener).Local limit

namespace Inside.Local

variable {inside : Inside Furthest}

private theorem local_block (h : inside.Local limit) : (Grammar.block inside).Local limit := by
  have hcolon : (colonBlock inside).Local limit :=
    local_tokenStart.bind fun opener ↦ (local_char _).bind fun _ ↦ h.single opener
  have hbraces : (bracedBlock inside).Local limit :=
    (local_tokenStart.bind fun opener ↦ (local_char _).bind fun _ ↦ (h.block opener).bind fun _ ↦
      (local_char _).bind fun _ ↦ local_pure _).named _
  exact ((hcolon.map _).orElse (hbraces.map _)).named _

private theorem local_statement (h : inside.Local limit) : (statement inside).Local limit := by
  have htag : (tag inside).Local limit :=
    (local_tagHead.bind fun _ ↦ h.local_block.optional.bind fun _ ↦ local_pure _).named _
  exact (htag.orElse (local_string.map _)).named _

private theorem local_statements (h : inside.Local limit) : (statements inside).Local limit :=
  h.local_statement.many (shortens_statement h.forward)

end Inside.Local

private theorem Inside.local_within {room depth : Nat} (h : room + depth = limit) :
    (Inside.within room depth : Inside Furthest).Local limit := by
  induction room generalizing depth with
  | zero =>
    obtain ⟨hsingle, hblock⟩ := regular_within h
    exact ⟨forward_within Furthest 0 depth, fun opener ↦ ⟨hsingle opener, fun _ _ ↦ ⟨nofun, nofun⟩⟩,
      fun opener ↦ ⟨hblock opener, fun _ _ ↦ ⟨nofun, nofun⟩⟩⟩
  | succ room ih =>
    have deeper := ih (show room + (depth + 1) = limit by omega)
    exact ⟨forward_within Furthest (room + 1) depth,
      fun opener ↦ (local_opened opener _).bind fun _ ↦ deeper.local_statement,
      fun opener ↦ (local_opened opener _).bind fun _ ↦ deeper.local_statements⟩

end Grammar

/-! ### Documents -/

namespace Document

variable {limit : Nat} {before after : List Char} {values : List Statement} {last : Cursor}
  {furthest : Furthest}

/-- A text that ends where reading stopped has the same statements. -/
private theorem exists_attempt_of_cut
    (h : attempt Furthest limit (before ++ after) = ⟨.found values last, furthest⟩)
    (hj : furthest.AtMost (Text.byteLength before)) (hle : last.tokenStart ≤ Text.byteLength before)
    (hb : ∀ d, after.head? = some d → Text.isBlank d = false) :
    ∃ last' furthest', attempt Furthest limit before = ⟨.found values last', furthest'⟩ ∧
      last.CutAt (Text.byteLength before) after last' := by
  have hstart : (Cursor.start (before ++ after)).CutAt (Text.byteLength before) after
      (.start before) := ⟨rfl, rfl, Nat.zero_add _, hb⟩
  have hlocal : (Grammar.statements (.within limit 0)).Local limit :=
    (Grammar.Inside.local_within (Nat.add_zero limit)).local_statements
  have hjournal : (attempt Furthest limit (before ++ after)).journal.AtMost
      (Text.byteLength before) := by
    rw [h]
    exact hj
  obtain ⟨last', hf, hlast⟩ := (hlocal.cut hstart hjournal).found values last
    (congrArg Attempt.outcome h) hle
  rcases hshort : attempt Furthest limit before with ⟨outcome, furthest'⟩
  obtain rfl : outcome = .found values last' := (congrArg Attempt.outcome hshort).symm.trans hf
  exact ⟨last', furthest', rfl, hlast⟩

/-- The text before a failure is a document exactly if the failure lies where the statements end,
and it has no other statements then. -/
private theorem parseWithin_before_miss
    (h : attempt Furthest limit (before ++ after) = ⟨.found values last, furthest⟩)
    (hplace : Text.byteLength before = (furthest.miss last.tokenStart .endOfText).offset)
    (hb : ∀ d, after.head? = some d → Text.isBlank d = false) {document : Document} :
    parseWithin limit before = .ok document ↔
      document = ⟨values⟩ ∧ Text.byteLength before = last.tokenStart := by
  have hmissed : Furthest.AtMost (furthest ++ Journal.missed last.tokenStart .endOfText)
      (Text.byteLength before) := by
    rw [← Furthest.some_miss, Furthest.atMost_some, hplace]
  obtain ⟨hj, hle⟩ := Furthest.atMost_append.mp hmissed
  obtain ⟨last', furthest', hshort, hlast⟩ := exists_attempt_of_cut h hj (hle _ rfl) hb
  rw [parseWithin_of_found hshort, ← hlast.skipBlanks_rest_eq_nil_iff]
  split
  · next hr => simp [hr, eq_comm]
  · next hr => simp [hr]

/-- The end of the text is expected exactly where the document could have ended: if the text before
the error is a document. That document has the statements which were read before the error. -/
theorem endOfText_mem_iff_parse {source : String} {error : SyntaxError}
    (h : parse source = .error error) (hn : error.expected ≠ ["at most 128 nested blocks"]) :
    ∃ before after values last, source.toList = before ++ after ∧
      Text.byteLength before = error.position.offset ∧
      ((Reader.start maxNesting source.toList).attempt Furthest).outcome = .found values last ∧
      ("EOF" ∈ error.expected ↔ ∃ document, parse (String.ofList before) = .ok document) ∧
      ∀ document, parse (String.ofList before) = .ok document → document = ⟨values⟩ := by
  rcases exists_of_parseWithin_eq_error h with ⟨mark, furthest, -, rfl⟩ |
    ⟨values, last, furthest, hattempt, -, rfl⟩
  · exact absurd rfl hn
  obtain ⟨d, hd, ho⟩ := exists_leadsTo_miss hattempt
  obtain ⟨before, hsource, hlength⟩ := hd.exists_split
  have hparse (document : Document) : parse (String.ofList before) = .ok document ↔
      document = ⟨values⟩ ∧ Text.byteLength before = last.tokenStart := by
    rw [parse, String.toList_ofList]
    rw [hsource] at hattempt
    exact parseWithin_before_miss hattempt (hlength.trans ho.symm) fun _ ↦ Text.isBlank_of_ahead
  refine ⟨before, d.skipBlanks.rest, values, last, hsource, ?_, congrArg Attempt.outcome hattempt,
    ?_, fun document hok ↦ ((hparse document).mp hok).1⟩
  · rw [offset_report hd ho, ho, hlength]
  · rw [endOfText_mem_expected_iff hattempt, ho, ← hlength]
    simp only [hparse, exists_eq_left]

/-- A bracket behind a tag that could still be given a body. -/
theorem endOfText_mem_of_stray_bracket :
    parse "\"x\" a.b #c ]" =
        .error ⟨⟨11, 1, 12⟩, ["attributes", "block", "statement", "EOF"]⟩ ∧
      ∃ before after values last, "\"x\" a.b #c ]".toList = before ++ after ∧
        Text.byteLength before = 11 ∧
        ((Reader.start maxNesting "\"x\" a.b #c ]".toList).attempt Furthest).outcome =
          .found values last ∧
        ("EOF" ∈ ["attributes", "block", "statement", "EOF"] ↔
          ∃ document, parse (String.ofList before) = .ok document) ∧
        ∀ document, parse (String.ofList before) = .ok document → document = ⟨values⟩ :=
  have h := eq_error_of_decide (by decide +kernel)
  ⟨h, endOfText_mem_iff_parse h (by decide)⟩

end Document
end TerseMarkup
