import TerseMarkup.Proofs.ExpectedParts
import TerseMarkup.Proofs.OtherTexts

/-!
# Document after document

A reader keeps the place up to which it has read and the first block that was too deep. After one
document it stands where no statement starts, or it has met a block that was too deep, and in both
cases the next document leaves it as it is. So all later documents end alike. The main statement,
`take_start`, says how.
-/

namespace TerseMarkup.Reader

variable {r later : Reader} {result : Except SyntaxError Document} {limit : Nat}
  {source : List Char} {values : List Statement} {last : Cursor} {furthest : Furthest}
  {mark : TooDeep}

/-! ### Readers that stay where they are -/

private theorem take_succ_of_next (h : r.next = (result, later)) (n : Nat) :
    r.take (n + 1) = result :: later.take n := by
  rw [take, h]

private theorem take_of_next (h : r.next = (result, r)) (n : Nat) :
    r.take n = List.replicate n result := by
  induction n with
  | zero => rfl
  | succ n ih => rw [take_succ_of_next h, ih, List.replicate_succ]

/-- A block that was too deep is reported again and again. -/
theorem next_of_tooDeep (h : r.tooDeep = some mark) :
    r.next = (.error (r.reportTooDeep mark), r) := by
  simp only [next, h]

/-- A reader before which no statement starts stays there. -/
private theorem next_of_stuck {c : Cursor} (hc : c.skipBlanks = c)
    (hs : (Grammar.statement (Grammar.Inside.within limit 0 : Grammar.Inside Furthest) c).outcome =
      .nothing) (source : List Char) :
    next ⟨source, limit, c, none⟩ = (if c.rest = [] then .ok ⟨[]⟩ else .error
      (Document.report source ⟨c.tokenStart, [.production .statement, .endOfText]⟩),
        ⟨source, limit, c, none⟩) := by
  rcases hround : Grammar.statement (Grammar.Inside.within limit 0 : Grammar.Inside Furthest) c
    with ⟨outcome, journal⟩
  rw [hround] at hs
  obtain rfl : outcome = .nothing := hs
  obtain rfl := Grammar.eq_of_statement_eq_nothing hround
  have ha : attempt Furthest ⟨source, limit, c, none⟩ = _ := Rule.many_of_nothing hround
  have ho : c.offset = c.tokenStart := by rw [Cursor.tokenStart, hc]
  have hm : Furthest.miss (some ⟨c.tokenStart, [.production .statement]⟩) c.tokenStart
      .endOfText = ⟨c.tokenStart, [.production .statement, .endOfText]⟩ :=
    (Failure.merge_of_eq (by rfl)).trans (by simp)
  simp only [next, ha, finish, hc, ho, hm, List.isEmpty_iff]
  rfl

/-! ### Readers at the start of a text -/

/-- Behind the statements that were read, the next token starts no other. -/
private theorem next_start_of_found
    (h : Document.attempt Furthest limit source = ⟨.found values last, furthest⟩) :
    (start limit source).next =
      (Document.parseWithin limit source, ⟨source, limit, last.skipBlanks, none⟩) := by
  have ha : (start limit source).attempt Furthest = _ := h
  have ht : (start limit source).tooDeep = none := rfl
  refine Prod.ext rfl ?_
  simp only [next, ht, ha]
  rfl

private theorem take_start_of_found
    (h : Document.attempt Furthest limit source = ⟨.found values last, furthest⟩) (n : Nat) :
    (start limit source).take (n + 1) = Document.parseWithin limit source ::
      List.replicate n (if last.skipBlanks.rest = [] then .ok ⟨[]⟩ else .error
        (Document.report source ⟨last.tokenStart, [.production .statement, .endOfText]⟩)) := by
  have hshort := Grammar.shortens_statement (Grammar.Inside.forward_within Furthest limit 0)
  have hs := Rule.outcome_eq_nothing_of_many hshort (congrArg Attempt.outcome h)
  rw [← Grammar.statement_skipBlanks] at hs
  have hstay := next_of_stuck (Cursor.skipBlanks_skipBlanks last) hs source
  rw [take_succ_of_next (next_start_of_found h), take_of_next hstay, Cursor.tokenStart_skipBlanks]

private theorem take_start_of_tooDeep
    (h : Document.attempt Furthest limit source = ⟨.tooDeep mark, furthest⟩) (n : Nat) :
    (start limit source).take n = List.replicate n (Document.parseWithin limit source) := by
  have ha : (start limit source).attempt Furthest = _ := h
  have ht : (start limit source).tooDeep = none := rfl
  have hnext : (start limit source).next = (Document.parseWithin limit source,
      ⟨source, limit, .start source, some mark⟩) := by
    refine Prod.ext rfl ?_
    simp only [next, ht, ha]
    rfl
  cases n with
  | zero => rfl
  | succ n =>
    have hstay : next ⟨source, limit, .start source, some mark⟩ = _ := next_of_tooDeep rfl
    rw [take_succ_of_next hnext, take_of_next hstay, Document.parseWithin_of_tooDeep h]
    rfl

/-- The documents that a reader gives one after the other. Behind a document there are only empty
ones. A block that is too deep is reported again and again. Behind any other error all errors are
alike: they expect a statement or the end of the text where the statements before the first error
end. The text up to there is a document, and it is the place of the first error exactly if the end
of the text was expected then. -/
theorem take_start (source : String) :
    match Document.parse source with
    | .ok document => ∀ n, (start maxNesting source.toList).take (n + 1) =
        .ok document :: List.replicate n (.ok ⟨[]⟩)
    | .error error =>
      if error.expected = ["at most 128 nested blocks"] then
        ∀ n, (start maxNesting source.toList).take n = List.replicate n (.error error)
      else
        ∃ later before after, (∀ n, (start maxNesting source.toList).take (n + 1) =
          .error error :: List.replicate n (.error later)) ∧
        later.expected = ["statement", "EOF"] ∧ source.toList = before ++ after ∧
        Text.byteLength before = later.position.offset ∧
        later.position.offset ≤ error.position.offset ∧
        (∃ document, Document.parse (String.ofList before) = .ok document) ∧
        (later.position.offset = error.position.offset ↔ "EOF" ∈ error.expected) := by
  have hn := Document.outcome_attempt_ne_nothing Furthest maxNesting source.toList
  rcases hattempt : Document.attempt Furthest maxNesting source.toList with ⟨outcome, furthest⟩
  rw [hattempt] at hn
  cases outcome with
  | nothing => exact absurd rfl hn
  | tooDeep mark =>
    have htake := take_start_of_tooDeep hattempt
    have hregular := Document.regular_attempt maxNesting source.toList
    rw [hattempt] at hregular
    rw [Document.parseWithin_of_tooDeep hattempt, hregular.refused mark rfl] at htake
    rw [Document.parse, Document.parseWithin_of_tooDeep hattempt, hregular.refused mark rfl]
    exact htake
  | found values last =>
    have htake := take_start_of_found hattempt
    rw [Document.parseWithin_of_found hattempt] at htake
    rw [Document.parse, Document.parseWithin_of_found hattempt]
    by_cases hr : last.skipBlanks.rest = []
    · simp only [if_pos hr] at htake ⊢
      exact htake
    · simp only [if_neg hr, if_neg (Document.expected_ne_of_found hattempt)] at htake ⊢
      obtain ⟨d, hd, ho⟩ := Document.exists_leadsTo_miss hattempt
      have hlast := Document.leadsTo_of_found hattempt
      obtain ⟨before, hsource, hlength⟩ := hlast.exists_split
      have hlater : (Document.report source.toList
          ⟨last.tokenStart, [.production .statement, .endOfText]⟩).position.offset =
            last.tokenStart := Document.offset_report hlast rfl
      have hparse : Document.parseWithin maxNesting before = .ok ⟨values⟩ := by
        apply Document.parseWithin_of_cut
        rw [← hsource, hattempt]
      refine ⟨_, before, last.skipBlanks.rest, htake, rfl, hsource, ?_, ?_, ⟨⟨values⟩, ?_⟩, ?_⟩
      · rw [hlater, hlength]
      · rw [hlater, Document.offset_report hd ho]
        exact Document.tokenStart_le_offset_miss hattempt
      · rw [Document.parse, String.toList_ofList, hparse]
      · rw [hlater, Document.offset_report hd ho, Document.endOfText_mem_expected_iff hattempt]
        exact eq_comm

end TerseMarkup.Reader
