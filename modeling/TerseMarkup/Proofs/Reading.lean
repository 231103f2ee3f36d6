import TerseMarkup.Document.Reader
import TerseMarkup.Proofs.RuleOutcome

/-!
# How reading a document ends

The statements of a document are read first. Then the text has to end, or a block was too deep:
these are the only two ways to go on, because a repetition always finds a list. An error is
reported with its offset, which is the length of the text before it.
-/

namespace TerseMarkup

/-! ### Places in a text -/

/-- The offset of a place between two texts is the length of the first. -/
theorem Position.offset_locate_append (before after : List Char) :
    (Position.locate (before ++ after) (Text.byteLength before)).offset =
      Text.byteLength before := by
  rw [Position.locate_append]
  rfl

/-! ### Reading a document -/

namespace Document

variable {limit : Nat} {source : List Char} {values : List Statement} {last : Cursor}
  {furthest : Furthest} {mark : TooDeep}

/-- Read the statements of a text. -/
def attempt (ρ : Type) [Journal ρ] (limit : Nat) (source : List Char) :
    Attempt ρ (List Statement) :=
  Grammar.statements (.within limit 0) (.start source)

/-- The syntax error that reports a failure in a text. -/
def report (source : List Char) (failure : Failure) : SyntaxError :=
  ⟨Position.locate source failure.offset, failure.expected.map Expectation.label⟩

/-- How a text is read whose statements were tried: it has to end behind them, and a block that
is too deep is reported in place of all else. -/
def conclude (source : List Char) : Attempt Furthest (List Statement) →
    Except SyntaxError Document
  | ⟨.found values last, furthest⟩ => finish values last furthest
  | ⟨.nothing, furthest⟩ => finish [] (.start source) furthest
  | ⟨.tooDeep mark, _⟩ => .error (report source ⟨mark.opener, [.nestingAtMost mark.limit]⟩)
where
  finish (values : List Statement) (last : Cursor) (furthest : Furthest) :
      Except SyntaxError Document :=
    if last.skipBlanks.rest = [] then .ok ⟨values⟩
    else .error (report source (furthest.miss last.tokenStart .endOfText))

/-- A text is read by trying its statements and concluding from that. -/
theorem parseWithin_eq_conclude (limit : Nat) (source : List Char) :
    parseWithin limit source = conclude source (attempt Furthest limit source) := by
  have ha : (Reader.start limit source).attempt Furthest = attempt Furthest limit source := rfl
  have ht : (Reader.start limit source).tooDeep = none := rfl
  rcases h : attempt Furthest limit source with ⟨outcome, furthest⟩
  rw [h] at ha
  cases outcome <;>
    simp only [parseWithin, Reader.next, ht, ha, Reader.finish, List.isEmpty_iff] <;> rfl

/-- Behind the statements the text has to end, or the furthest failure is reported. -/
theorem parseWithin_of_found (h : attempt Furthest limit source = ⟨.found values last, furthest⟩) :
    parseWithin limit source =
      if last.skipBlanks.rest = [] then .ok ⟨values⟩
      else .error (report source (furthest.miss last.tokenStart .endOfText)) := by
  rw [parseWithin_eq_conclude, h]
  rfl

/-- A block that is too deep is reported at its opener. -/
theorem parseWithin_of_tooDeep (h : attempt Furthest limit source = ⟨.tooDeep mark, furthest⟩) :
    parseWithin limit source =
      .error (report source ⟨mark.opener, [.nestingAtMost mark.limit]⟩) := by
  rw [parseWithin_eq_conclude, h]
  rfl

/-- The statements of a text are always found, if only none of them. -/
theorem outcome_attempt_ne_nothing (ρ : Type) [Journal ρ] (limit : Nat) (source : List Char) :
    (attempt ρ limit source).outcome ≠ .nothing :=
  Rule.outcome_many_ne_nothing _ _

/-- A document is read if its statements are, and nothing but blanks is left then. -/
theorem parseWithin_eq_ok_iff {document : Document} :
    parseWithin limit source = .ok document ↔
      ∃ last, (attempt Furthest limit source).outcome = .found document.statements last ∧
        last.skipBlanks.rest = [] := by
  have hn := outcome_attempt_ne_nothing Furthest limit source
  rcases h : attempt Furthest limit source with ⟨outcome, furthest⟩
  rw [h] at hn
  cases outcome with
  | nothing => exact absurd rfl hn
  | tooDeep mark => simp [parseWithin_of_tooDeep h]
  | found values last =>
    rw [parseWithin_of_found h]
    constructor
    · intro he
      split at he
      · next hr =>
        obtain rfl := Except.ok.inj he
        exact ⟨last, rfl, hr⟩
      · cases he
    · rintro ⟨stop, he, hr⟩
      obtain ⟨rfl, rfl⟩ := Outcome.found.inj he
      rw [if_pos hr]

/-- An error is found by comparing errors only. -/
theorem eq_error_of_decide {result : Except SyntaxError Document} {error : SyntaxError}
    (h : (match result with
      | .ok _ => false
      | .error found => decide (found = error)) = true) : result = .error error := by
  cases result with
  | ok document => cases h
  | error found => rw [of_decide_eq_true h]

end Document
end TerseMarkup
