import TerseMarkup.Proofs.Completion
import TerseMarkup.Proofs.Simulation

/-!
# Where a syntax error is reported

The reader reports the furthest place where something was missed, or the opener of a block that
was too deep. Both are where the machine halts. So the text before an error can be completed to a
document, and the error could not have been reported any earlier or later: the main statement is
`position_of_parse_eq_error`.
-/

namespace TerseMarkup

/-! ### Reading and the machine -/

/-- One more thing that is missed, no further than the furthest. -/
private theorem Furthest.Tops.offset_miss {furthest : Furthest} {places : List Nat}
    {offset place : Nat}
    (h : furthest.Tops places) (hle : ∀ place' ∈ places, place' ≤ place) (ho : offset ≤ place)
    (hm : place ∈ places ∨ offset = place) (what : Expectation) :
    (furthest.miss offset what).offset = place := by
  cases furthest with
  | none =>
    obtain rfl : places = [] := h
    rcases hm with hm | rfl
    · cases hm
    · rfl
  | some failure =>
    obtain ⟨hf, hmax⟩ := h
    rw [miss, Failure.offset_merge]
    rcases hm with hm | rfl
    · rw [Nat.le_antisymm (hle _ hf) (hmax _ hm)]
      exact Nat.max_eq_left ho
    · exact Nat.max_eq_right (hle _ hf)

namespace Machine

private theorem halt_closing_nil (limit : Nat) (c : Cursor) : halt limit ⟨.closing, []⟩ c =
    if c.skipBlanks.rest = [] then none else some c.tokenStart := by
  have hs : step limit ⟨.closing, []⟩ c = none := by
    unfold step
    cases Text.ahead c.rest with
    | none => rfl
    | some d => rfl
  rw [halt_of_stuck hs]
  simp [accepts]

/-- The machine before a text. -/
def run (limit : Nat) (source : List Char) : Option Nat :=
  halt limit ⟨.statement, []⟩ (.start source)

end Machine

namespace Document

/-- Either a text is read and the machine gets to its end, or a syntax error is reported where the
machine halts. -/
theorem parseWithin_run (limit : Nat) (source : List Char) :
    (∃ document, parseWithin limit source = .ok document ∧ Machine.run limit source = none) ∨
      ∃ error place, parseWithin limit source = .error error ∧
        Machine.run limit source = some place ∧
          error.position = Position.locate source place := by
  have hfollows : Machine.FollowsAt limit Machine.tagMarks Machine.Never ⟨.statement, []⟩
      ⟨.closing, []⟩ (.start source) (attempt Footprint limit source) :=
    Machine.follows_statements_within limit (.start source)
  have hfurthest := attempt_eq_replay Furthest limit source
  rw [attempt_eq_replay] at hfollows
  rcases htrace : attempt Trace limit source with ⟨outcome, trace⟩
  rw [htrace] at hfollows hfurthest
  have htops := Trace.tops_replay trace
  cases hfollows with
  | @passes values last _ hp =>
    have hrun : Machine.run limit source = _ := hp.halt.trans (Machine.halt_closing_nil limit last)
    have hparse := parseWithin_of_found hfurthest
    by_cases hrest : last.skipBlanks.rest = []
    · rw [if_pos hrest] at hrun hparse
      exact .inl ⟨_, hparse, hrun⟩
    · rw [if_neg hrest] at hrun hparse
      refine .inr ⟨_, _, hparse, hrun, ?_⟩
      rw [report, htops.offset_miss hp.footprint.misses (Nat.le_refl _) (.inr rfl)]
  | @jams values last _ hj =>
    obtain ⟨place, hf, hlt, m, -, ha⟩ := hj
    have hparse := parseWithin_of_found hfurthest
    rw [if_neg (Cursor.skipBlanks_ne_nil_of_ahead ha)] at hparse
    refine .inr ⟨_, place, hparse, hf.halt, ?_⟩
    rw [report, htops.offset_miss hf.footprint.misses (Nat.le_of_lt hlt) (.inl hf.missed)]
  | nothing h => exact h.elim
  | tooDeep h => exact .inr ⟨_, _, parseWithin_of_tooDeep hfurthest, h.halt, rfl⟩

/-- The text before a syntax error can be completed to a document, and no document starts with that
text and the character behind it. A quote or a hyphen there is left out, for what it starts depends
on what follows, and so is a backslash before, for which quote it hides depends on that too. -/
theorem position_of_parse_eq_error {source : String} {error : SyntaxError}
    (h : parse source = .error error) :
    ∃ before after, source.toList = before ++ after ∧
      Text.byteLength before = error.position.offset ∧
      (∃ more document, parse (String.ofList (before ++ more)) = .ok document) ∧
      ∀ c rest, after = c :: rest → c ≠ '"' → c ≠ '-' → '\\' ∉ before →
        ∀ more document, parse (String.ofList (before ++ c :: more)) ≠ .ok document := by
  rcases parseWithin_run maxNesting source.toList with ⟨document, hok, -⟩ | ⟨e, place, he, hrun, hp⟩
  · rw [parse, hok] at h
    cases h
  obtain rfl : e = error := Except.error.inj (he.symm.trans h)
  obtain ⟨before, after, htext, hlength, ⟨more, hmore⟩, hstops⟩ :=
    Machine.exists_haltsBetween (q := ⟨.statement, []⟩) nofun hrun
  have hsource : source.toList = before ++ after := htext
  obtain rfl : Text.byteLength before = place := by simpa [Cursor.start] using hlength
  refine ⟨before, after, hsource, ?_, ⟨'\n' :: more, ?_⟩, ?_⟩
  · rw [hp, hsource, Position.offset_locate_append]
  · have hnone : Machine.run maxNesting (before ++ '\n' :: more) = none := hmore 0
    rcases parseWithin_run maxNesting (before ++ '\n' :: more) with ⟨d, hok, -⟩ | ⟨_, _, _, hr, -⟩
    · exact ⟨d, by rw [parse, String.toList_ofList, hok]⟩
    · rw [hnone] at hr
      cases hr
  · intro c rest hafter hquote hhyphen hbackslash more document hok
    rw [parse, String.toList_ofList] at hok
    have hsome : Machine.run maxNesting (before ++ c :: more) = some (Text.byteLength before) :=
      hstops c rest hafter hquote hhyphen hbackslash more
    rcases parseWithin_run maxNesting (before ++ c :: more) with ⟨_, _, hr⟩ | ⟨_, _, he, -⟩
    · rw [hsome] at hr
      cases hr
    · rw [hok] at he
      cases he

/-- A bracket where only the body of a tag, a statement or the end of the text may follow. -/
theorem position_of_stray_bracket :
    parse "a.b]" = .error ⟨⟨3, 1, 4⟩, ["id", "attributes", "block", "statement", "EOF"]⟩ ∧
      ∃ before after, "a.b]".toList = before ++ after ∧ Text.byteLength before = 3 ∧
        (∃ more document, parse (String.ofList (before ++ more)) = .ok document) ∧
        ∀ c rest, after = c :: rest → c ≠ '"' → c ≠ '-' → '\\' ∉ before →
          ∀ more document, parse (String.ofList (before ++ c :: more)) ≠ .ok document :=
  have h := eq_error_of_decide (by decide +kernel)
  ⟨h, position_of_parse_eq_error h⟩

end Document
end TerseMarkup
