import Mathlib.Data.List.DropRight
import TerseMarkup.Proofs.Lexeme
import TerseMarkup.Proofs.RuleRelation

/-!
# Rules move forward

A rule that finds something has moved its cursor over a part of the text, and every production
that reads a token has left less text than it found. So each repetition of the grammar unrolls
round by round.
-/

namespace TerseMarkup

/-! ### Cursors -/

/-- The first character of a text that is not a blank. -/
def Text.ahead (text : List Char) : Option Char := (text.dropWhile Text.isBlank).head?

/-- The character ahead is not a blank. -/
theorem Text.isBlank_of_ahead {text : List Char} {d : Char} (h : Text.ahead text = some d) :
    Text.isBlank d = false := by
  have hn := List.head?_dropWhile_not Text.isBlank text
  rw [show (text.dropWhile Text.isBlank).head? = some d from h] at hn
  simpa using hn

namespace Cursor

/-- The second cursor is the first one moved over some of the text ahead. -/
def LeadsTo (c next : Cursor) : Prop :=
  ∃ passed, c.rest = passed ++ next.rest ∧ next.offset = c.offset + Text.byteLength passed

/-- No text has to be passed to stay. -/
theorem LeadsTo.refl (c : Cursor) : c.LeadsTo c := ⟨[], rfl, rfl⟩

/-- One way leads on from where another ends. -/
theorem LeadsTo.trans {c next last : Cursor} (h : c.LeadsTo next) (h' : next.LeadsTo last) :
    c.LeadsTo last := by
  obtain ⟨passed, hr, ho⟩ := h
  obtain ⟨passed', hr', ho'⟩ := h'
  refine ⟨passed ++ passed', by rw [hr, hr', List.append_assoc], ?_⟩
  rw [ho', ho, Text.byteLength_append, Nat.add_assoc]

/-- What is ahead gets no longer on the way. -/
theorem LeadsTo.length_le {c next : Cursor} (h : c.LeadsTo next) :
    next.rest.length ≤ c.rest.length := by
  obtain ⟨passed, hr, -⟩ := h
  rw [hr, List.length_append]
  omega

/-- Offsets grow on the way. -/
theorem LeadsTo.offset_le {c next : Cursor} (h : c.LeadsTo next) : c.offset ≤ next.offset := by
  obtain ⟨passed, -, ho⟩ := h
  omega

/-- To skip blanks leads forward. -/
theorem leadsTo_skipBlanks (c : Cursor) : c.LeadsTo c.skipBlanks :=
  ⟨c.blanks, List.takeWhile_append_dropWhile.symm, rfl⟩

private theorem dropWhile_isBlank_skipBlanks (c : Cursor) :
    c.skipBlanks.rest.dropWhile Text.isBlank = c.skipBlanks.rest :=
  List.dropWhile_idempotent Text.isBlank c.rest

private theorem blanks_skipBlanks (c : Cursor) : c.skipBlanks.blanks = [] := by
  have h : c.skipBlanks.blanks ++ c.skipBlanks.rest.dropWhile Text.isBlank = c.skipBlanks.rest :=
    List.takeWhile_append_dropWhile
  rw [dropWhile_isBlank_skipBlanks] at h
  exact List.append_left_eq_self.mp h

/-- Behind the blanks there are none to skip. -/
@[simp] theorem skipBlanks_skipBlanks (c : Cursor) : c.skipBlanks.skipBlanks = c.skipBlanks := by
  rw [skipBlanks, blanks_skipBlanks, dropWhile_isBlank_skipBlanks]
  rfl

/-- The token ahead starts at the same place behind the blanks. -/
@[simp] theorem tokenStart_skipBlanks (c : Cursor) : c.skipBlanks.tokenStart = c.tokenStart := by
  rw [tokenStart, skipBlanks_skipBlanks]
  rfl

/-- A token is read alike before the blanks and behind them. -/
@[simp] theorem read?_skipBlanks (c : Cursor) (t : Terminal) :
    c.skipBlanks.read? t = c.read? t := by
  rw [read?, skipBlanks_skipBlanks]
  rfl

/-- The character ahead is the same before the blanks and behind them. -/
@[simp] theorem ahead_skipBlanks (c : Cursor) :
    Text.ahead c.skipBlanks.rest = Text.ahead c.rest := by
  rw [Text.ahead, dropWhile_isBlank_skipBlanks]
  rfl

/-- What is skipped are blanks. -/
theorem isBlank_of_mem_blanks {c : Cursor} : ∀ d ∈ c.blanks, Text.isBlank d = true :=
  fun _ hd ↦ List.mem_takeWhile_imp hd

/-- The character ahead is the first one behind the blanks. -/
theorem head?_skipBlanks (c : Cursor) : c.skipBlanks.rest.head? = Text.ahead c.rest := rfl

/-- The text goes on where a character is ahead. -/
theorem skipBlanks_ne_nil_of_ahead {c : Cursor} {d : Char} (h : Text.ahead c.rest = some d) :
    c.skipBlanks.rest ≠ [] := by
  intro hr
  rw [← head?_skipBlanks, hr] at h
  cases h

/-- Reading a token passes the blanks before it, its lexeme and the blanks behind it. -/
theorem read?_eq_some_iff {t : Terminal} {c next : Cursor} {lexeme : List Char} :
    c.read? t = some (lexeme, next) ↔
      ∃ rest, c.skipBlanks.rest = lexeme ++ rest ∧ t.IsLexeme lexeme rest ∧
        next = skipBlanks ⟨c.skipBlanks.offset + Text.byteLength lexeme, rest⟩ := by
  simp only [read?, Option.map_eq_some_iff, Terminal.lexeme?_eq_some_iff, Prod.mk.injEq, advance]
  constructor
  · rintro ⟨found, ⟨rest, hr, hl⟩, rfl, rfl⟩
    exact ⟨rest, hr, hl, by rw [hr, List.drop_left]⟩
  · rintro ⟨rest, hr, hl, rfl⟩
    exact ⟨lexeme, ⟨rest, hr, hl⟩, rfl, by rw [hr, List.drop_left]⟩

/-- A token is missed where there is no lexeme behind the blanks. -/
theorem read?_eq_none_iff {t : Terminal} {c : Cursor} :
    c.read? t = none ↔ t.lexeme? c.skipBlanks.rest = none := by
  rw [read?, Option.map_eq_none_iff]

/-- A token that is read starts with the character ahead. -/
theorem ahead_of_read? {t : Terminal} {c next : Cursor} {lexeme : List Char}
    (h : c.read? t = some (lexeme, next)) :
    ∃ d, Text.ahead c.rest = some d ∧ t.starts d = true := by
  obtain ⟨rest, hr, hl, -⟩ := read?_eq_some_iff.mp h
  obtain ⟨d, tail, he, hs⟩ :=
    Terminal.exists_starts_of_lexeme? (Terminal.lexeme?_eq_some_iff.mpr ⟨rest, rfl, hl⟩)
  refine ⟨d, ?_, hs⟩
  rw [Text.ahead, show c.rest.dropWhile Text.isBlank = d :: tail from hr.trans he]
  rfl

/-- A token is not there if the text ahead starts with another character. -/
theorem read?_eq_none_of_ahead {t : Terminal} {c : Cursor}
    (h : ∀ d, Text.ahead c.rest = some d → t.starts d = false) : c.read? t = none := by
  cases hr : c.read? t with
  | none => rfl
  | some found =>
    obtain ⟨d, hd, hs⟩ := ahead_of_read? hr
    rw [h d hd] at hs
    cases hs

/-- A character that is not ahead cannot be read. -/
theorem read?_char_eq_none {c : Cursor} {d : Char} (h : Text.ahead c.rest ≠ some d) :
    c.read? (.char d) = none := by
  apply read?_eq_none_of_ahead
  intro e he
  simp only [Terminal.starts, beq_eq_false_iff_ne, ne_eq]
  rintro rfl
  exact h he

/-- Blanks are skipped before a token, so a blank is never read as one. -/
theorem read?_blank_eq_none {d : Char} (h : Text.isBlank d = true) (c : Cursor) :
    c.read? (.char d) = none := by
  apply read?_char_eq_none
  intro ha
  rw [Text.isBlank_of_ahead ha] at h
  cases h

/-- A token that is missing shows in the character ahead, unless that is a quote or a hyphen. -/
theorem starts_eq_false_of_read? {t : Terminal} {c : Cursor} {d : Char} (h : c.read? t = none)
    (hd : Text.ahead c.rest = some d) (ht : t ≠ .string) (hi : d ≠ '-' ∨ t ≠ .identifier) :
    t.starts d = false := by
  cases hs : t.starts d with
  | false => rfl
  | true =>
    obtain ⟨tail, hr⟩ := List.head?_eq_some_iff.mp hd
    obtain ⟨lexeme, hl⟩ := Terminal.exists_lexeme?_of_starts hs ht hi tail
    rw [read?_eq_none_iff, show c.skipBlanks.rest = d :: tail from hr, hl] at h
    cases h

/-- Reading a token moves from where it starts to where the next one starts. -/
theorem skipBlanks_leadsTo_of_read? {t : Terminal} {c next : Cursor} {lexeme : List Char}
    (h : c.read? t = some (lexeme, next)) : c.skipBlanks.LeadsTo next.skipBlanks := by
  obtain ⟨rest, hr, -, rfl⟩ := read?_eq_some_iff.mp h
  rw [skipBlanks_skipBlanks]
  exact LeadsTo.trans ⟨lexeme, hr, rfl⟩ (leadsTo_skipBlanks _)

/-- To read a token leads forward. -/
theorem leadsTo_of_read? {t : Terminal} {c next : Cursor} {lexeme : List Char}
    (h : c.read? t = some (lexeme, next)) : c.LeadsTo next := by
  obtain ⟨rest, hr, -, rfl⟩ := read?_eq_some_iff.mp h
  refine c.leadsTo_skipBlanks.trans (LeadsTo.trans ?_ (leadsTo_skipBlanks _))
  exact ⟨lexeme, hr, rfl⟩

/-- Behind a token, the next one starts further on. -/
theorem tokenStart_lt_of_read? {t : Terminal} {c next : Cursor} {lexeme : List Char}
    (h : c.read? t = some (lexeme, next)) : c.tokenStart < next.tokenStart := by
  obtain ⟨rest, hr, hl, rfl⟩ := read?_eq_some_iff.mp h
  rw [tokenStart_skipBlanks]
  obtain ⟨d, lexeme, rfl⟩ := List.exists_cons_of_ne_nil
    (Terminal.ne_nil_of_lexeme? (Terminal.lexeme?_eq_some_iff.mpr ⟨rest, rfl, hl⟩))
  have hle := (leadsTo_skipBlanks
    ⟨c.skipBlanks.offset + Text.byteLength (d :: lexeme), rest⟩).offset_le
  have hpos := d.utf8Size_pos
  simp only [Text.byteLength_cons] at hle
  simp only [tokenStart, Text.byteLength_cons]
  omega

end Cursor

/-! ### Rules -/

namespace Rule

variable {ρ α β : Type}

/-- A rule that moves over text to find something. -/
def Forward (rule : Rule ρ α) : Prop :=
  ∀ c value next, (rule c).outcome = .found value next → c.LeadsTo next

variable [Journal ρ]

private theorem Forward.manyUpTo {rule : Rule ρ α} (h : rule.Forward) (text : List Char) :
    (manyUpTo text rule).Forward := by
  induction text with
  | nil =>
    intro c values last hf
    rcases hr : rule c with ⟨outcome, journal⟩
    cases outcome <;> simp only [Rule.manyUpTo, hr] at hf
    · obtain ⟨-, rfl⟩ := Outcome.found.inj hf
      exact h c _ _ (by rw [hr])
    · obtain ⟨-, rfl⟩ := Outcome.found.inj hf
      exact .refl c
    · cases hf
  | cons d text ih =>
    intro c values last hf
    rcases hr : rule c with ⟨outcome, journal⟩
    cases outcome with
    | found value next =>
      have hn := h c value next (by rw [hr])
      rcases hm : Rule.manyUpTo text rule next with ⟨outcome, more⟩
      cases outcome <;> simp only [Rule.manyUpTo, hr, hm] at hf
      · obtain ⟨-, rfl⟩ := Outcome.found.inj hf
        exact hn.trans (ih next _ _ (by rw [hm]))
      · cases hf
      · cases hf
    | nothing =>
      simp only [Rule.manyUpTo, hr] at hf
      obtain ⟨-, rfl⟩ := Outcome.found.inj hf
      exact .refl c
    | tooDeep mark =>
      simp only [Rule.manyUpTo, hr] at hf
      cases hf

/-- A repetition leads forward if each round does. -/
theorem Forward.many {rule : Rule ρ α} (h : rule.Forward) : rule.many.Forward :=
  fun c ↦ h.manyUpTo c.rest c

/-- A sequence leads forward if its parts do. -/
theorem Forward.bind {first : Rule ρ α} {second : α → Rule ρ β} (hf : first.Forward)
    (hs : ∀ value, (second value).Forward) : (first >>= second).Forward := by
  intro c result last h
  obtain ⟨value, next, h, h'⟩ := outcome_bind_eq_found.mp h
  exact (hf c value next h).trans (hs value next result last h')

/-- Alternatives lead forward if both do. -/
theorem Forward.orElse {first second : Rule ρ α} (hf : first.Forward) (hs : second.Forward) :
    (Rule.orElse first second).Forward := by
  intro c value next h
  rcases outcome_orElse_eq_found.mp h with h | ⟨-, h⟩
  · exact hf c value next h
  · exact hs c value next h

omit [Journal ρ] in
/-- An option leads forward if it does so when there is something. -/
theorem Forward.optional {rule : Rule ρ α} (hr : rule.Forward) : rule.optional.Forward := by
  intro c result next h
  rcases outcome_optional_eq_found.mp h with ⟨value, h, -⟩ | ⟨-, -, rfl⟩
  · exact hr c value next h
  · exact .refl next

/-- Moving forward is kept by every way to compose rules. -/
def forward (ρ : Type) [Journal ρ] : RuleRelation ρ ρ where
  Holds rule _ := rule.Forward
  pure value := by
    intro c _ next hf
    obtain ⟨-, rfl⟩ := Outcome.found.inj hf
    exact .refl c
  bind hf hs := hf.bind hs
  orElse hf hs := hf.orElse hs
  optional hr := hr.optional
  many hr := hr.many
  named _ _ _ hr := hr
  terminal t := by
    intro c value next h
    obtain ⟨lexeme, h, -⟩ := outcome_terminal_eq_found.mp h
    exact Cursor.leadsTo_of_read? h
  tokenStart := by
    intro c _ next hf
    obtain ⟨-, rfl⟩ := Outcome.found.inj hf
    exact .refl c

/-- A sequence leaves less text if its first rule does. -/
private theorem Shortens.bind {first : Rule ρ α} {second : α → Rule ρ β} (hf : first.Shortens)
    (hs : ∀ value, (second value).Forward) : (first >>= second).Shortens := by
  intro c result last h
  obtain ⟨value, next, h, h'⟩ := outcome_bind_eq_found.mp h
  exact Nat.lt_of_le_of_lt (hs value next result last h').length_le (hf c value next h)

private theorem shortens_terminal (t : Terminal) : (terminal t : Rule ρ (List Char)).Shortens := by
  intro c value next h
  obtain ⟨lexeme, h, -⟩ := outcome_terminal_eq_found.mp h
  exact Cursor.length_lt_of_read? h

/-- Behind a character there is less text. -/
theorem shortens_char (expected : Char) : (char expected : Rule ρ Unit).Shortens :=
  (shortens_terminal _).bind fun _ ↦ (forward ρ).pure ()

end Rule

namespace Grammar

variable {ρ : Type} [Journal ρ]

/-- The insides of blocks move forward. -/
def Inside.Forward (inside : Inside ρ) : Prop := (Rule.forward ρ).Insides inside inside

/-- The inside of a block leads forward, however many blocks may open. -/
theorem Inside.forward_within (ρ : Type) [Journal ρ] (room depth : Nat) :
    (Inside.within room depth : Inside ρ).Forward := by
  apply RuleRelation.insides_within
  · intro opener depth c value next h
    obtain ⟨-, rfl⟩ := Outcome.found.inj h
    exact .refl c
  · intro α mark c value next h
    cases h

/-- Behind a further attribute there is less text. -/
theorem shortens_nextAttribute : (nextAttribute : Rule ρ Attribute).Shortens :=
  (Rule.shortens_char _).bind fun _ ↦ (Rule.forward ρ).attributePair

private theorem shortens_tagHead : (tagHead : Rule ρ TagHead).Shortens := by
  refine Rule.Shortens.bind ?_ fun _ ↦ (Rule.forward ρ).bind (Rule.forward ρ).selectors fun _ ↦
    (Rule.forward ρ).bind ((Rule.forward ρ).optional (Rule.forward ρ).attributeList) fun _ ↦
      (Rule.forward ρ).pure _
  exact (Rule.shortens_terminal _).bind fun _ ↦ (Rule.forward ρ).pure _

private theorem shortens_tag {inside : Inside ρ} (h : inside.Forward) : (tag inside).Shortens := by
  have hs : Rule.Shortens (do
      let head ← tagHead
      let body ← (block inside).optional
      return .tag head (body.getD .absent) : Rule ρ Statement) :=
    shortens_tagHead.bind fun _ ↦ (Rule.forward ρ).bind ((Rule.forward ρ).optional h.blocks.block)
      fun _ ↦ (Rule.forward ρ).pure _
  exact hs

/-- Behind a statement there is less text. -/
theorem shortens_statement {inside : Inside ρ} (h : inside.Forward) :
    (statement inside).Shortens := by
  intro c value next hf
  rw [statement, Rule.outcome_named, Rule.outcome_orElse_eq_found] at hf
  rcases hf with hf | ⟨-, hf⟩
  · exact shortens_tag h c value next hf
  · have hs : Rule.Shortens (Statement.text <$> (string : Rule ρ String)) :=
      ((Rule.shortens_terminal _).bind fun _ ↦ (Rule.forward ρ).pure _).bind
        fun _ ↦ (Rule.forward ρ).pure _
    exact hs c value next hf

end Grammar
end TerseMarkup
