import TerseMarkup.Proofs.LineAndColumn
import TerseMarkup.Proofs.ProductionFrame
import TerseMarkup.Proofs.Session

/-!
# Productions after any documents

A parser that has read some documents is ready for every production, and so far it gave what the
reader of documents gives. Two facts tie them together: while no block was too deep both stand at
the same place, and the parser has no failure left over from an earlier document unless the text has
ended. The main statement, `frame_of_documents`, says what each production does in such a state.
-/

namespace TerseMarkup

private theorem Seeker.offset_mem_boundaries {s : Seeker} {c : Cursor} (h : s.cursor? = some c) :
    s.offset ∈ Text.boundaries s.source := by
  obtain ⟨⟨passed, hs, hp⟩, ho⟩ := cursor?_eq_some_iff.mp h
  refine ⟨passed, c.rest, hs, ?_⟩
  rw [← ho, hp]
  exact (Nat.zero_add _).symm

/-! ### The end of a document -/

namespace Reader

variable {r : Reader} {values : List Statement} {last : Cursor} {furthest : Furthest}

/-- A reader succeeds where nothing but blanks is left. -/
theorem finish_of_end (h : last.skipBlanks.rest.isEmpty = true) :
    r.finish values last furthest = (.ok ⟨values⟩, { r with cursor := last.skipBlanks }) := by
  simp only [finish, h, if_true]

/-- A reader reports the furthest failure where the text goes on, and the end of the text is missed
there. -/
theorem finish_of_rest (h : last.skipBlanks.rest.isEmpty = false) :
    r.finish values last furthest =
      (.error (r.report (furthest.miss last.tokenStart .endOfText)),
        { r with cursor := last.skipBlanks }) := by
  simp only [finish, h, Bool.false_eq_true, if_false]
  rfl

end Reader

namespace Parser

variable {n rounds : Nat} {s later : Parser} {c last : Cursor} {r : Reader} {opener : Nat}
  {values : List Statement}

/-- Behind a mark a parser reports nothing else. -/
theorem finish_of_tooDeep (h : s.tooDeep = some opener) :
    finish values s = some (.error ⟨Position.locate s.scanner.source opener,
      [(Expectation.nestingAtMost maxNesting).label]⟩, { s with furthest := none }) := by
  simp only [finish, h]
  rfl

/-- A parser succeeds where nothing but blanks is left. -/
theorem finish_of_end (h : s.tooDeep = none) (hc : s.scanner.cursor? = some c)
    (he : c.skipBlanks.rest.isEmpty = true) :
    finish values s =
      some (.ok ⟨values⟩, { s with scanner := s.scanner.goTo c.skipBlanks }) := by
  simp only [finish, h, Seeker.perform, Seeker.look_of_cursor? hc, he]

/-- A parser reports the furthest failure where the text goes on, and notes the end of the text as
missed there. -/
theorem finish_of_rest (h : s.tooDeep = none) (hc : s.scanner.cursor? = some c)
    (he : c.skipBlanks.rest.isEmpty = false) :
    finish values s =
      some (.error ⟨Position.locate s.scanner.source
          (s.furthest.miss c.tokenStart .endOfText).offset,
          (s.furthest.miss c.tokenStart .endOfText).expected.map Expectation.label⟩,
        { s with
          scanner := s.scanner.goTo c.skipBlanks
          furthest := none
          log := s.log ++ [.missed c.tokenStart .endOfText] }) := by
  simp only [finish, h, Seeker.perform, Seeker.look_of_cursor? hc, he]
  rfl

/-- A parser and a reader of documents that are equally far. -/
structure Tracks (s : Parser) (r : Reader) : Prop where
  source_eq : r.source = s.scanner.source
  limit_eq : r.limit = maxNesting
  depth_eq : s.depth = 0
  unmarked : s.tooDeep = none → r.tooDeep = none ∧ s.scanner.cursor? = some r.cursor ∧
    (s.furthest = none ∨ r.cursor.rest = [])
  marked : ∀ opener, s.tooDeep = some opener → r.tooDeep = some ⟨opener, maxNesting⟩

private theorem Keeps.skipBlanks (hk : s.Keeps later) (hc : later.scanner.cursor? = some last)
    (furthest : Furthest) (log : List Note) :
    s.Keeps { later with scanner := later.scanner.goTo last.skipBlanks, furthest, log } := by
  refine ⟨hk.source_eq, ⟨_, Seeker.cursor?_goTo hc last.leadsTo_skipBlanks⟩, ?_, hk.depth_eq,
    hk.raised_le, hk.tooDeep_eq⟩
  have hle := last.leadsTo_skipBlanks.offset_le
  rw [(Seeker.cursor?_eq_some_iff.mp hc).2] at hle
  exact hk.offset_le.trans hle

private theorem Tracks.skipBlanks (ht : Tracks s r) (hr : r.tooDeep = none) (hk : s.Keeps later)
    (hc : later.scanner.cursor? = some last) (hm : later.tooDeep = none) {furthest : Furthest}
    (hf : furthest = none ∨ last.skipBlanks.rest = []) (log : List Note) :
    Tracks { later with scanner := later.scanner.goTo last.skipBlanks, furthest, log }
      { r with cursor := last.skipBlanks } where
  source_eq := ht.source_eq.trans hk.source_eq.symm
  limit_eq := ht.limit_eq
  depth_eq := hk.depth_eq.trans ht.depth_eq
  unmarked _ := ⟨hr, Seeker.cursor?_goTo hc last.leadsTo_skipBlanks, hf⟩
  marked := by
    rw [hm]
    exact nofun

/-- Both end a document alike. What the parser missed before counts only where the text goes on, and
there it is nothing. -/
private theorem Tracks.finish {journal : Furthest} (ht : Tracks s r) (values : List Statement)
    (hmark : s.tooDeep = none) (hk : s.Keeps later) (hc : later.scanner.cursor? = some last)
    (hl : r.cursor.LeadsTo last) (hm : later.tooDeep = none)
    (hj : later.furthest = s.furthest ++ journal) :
    ∃ after, finish values later = some ((r.finish values last journal).1, after) ∧
      s.Keeps after ∧ Tracks after (r.finish values last journal).2 := by
  obtain ⟨hreader, -, hfurthest⟩ := ht.unmarked hmark
  cases he : last.skipBlanks.rest.isEmpty with
  | true =>
    rw [Reader.finish_of_end he, finish_of_end hm hc he]
    exact ⟨_, rfl, hk.skipBlanks hc _ _,
      ht.skipBlanks hreader hk hc hm (.inr (List.isEmpty_iff.mp he)) _⟩
  | false =>
    have hnone : s.furthest = none := by
      refine hfurthest.resolve_right fun hrest ↦ ?_
      have hle := (hl.trans last.leadsTo_skipBlanks).length_le
      rw [hrest, List.length_nil, Nat.le_zero, List.length_eq_zero_iff] at hle
      rw [hle] at he
      cases he
    have hjournal : later.furthest = journal := by
      rw [hj, hnone]
      exact LawfulJournal.empty_append journal
    rw [Reader.finish_of_rest he, finish_of_rest hm hc he, hjournal, hk.source_eq, ← ht.source_eq]
    exact ⟨_, rfl, hk.skipBlanks hc _ _, ht.skipBlanks hreader hk hc hm (.inl rfl) _⟩

/-- A block that was too deep is reported at its opener. -/
private theorem Tracks.finish_of_tooDeep (ht : Tracks s r) (hk : s.Keeps later)
    (hm : later.tooDeep = some opener) (values : List Statement) :
    ∃ after, Parser.finish values later =
        some (.error (r.reportTooDeep ⟨opener, maxNesting⟩), after) ∧
      s.Keeps after ∧ Tracks after { r with tooDeep := some ⟨opener, maxNesting⟩ } := by
  have hsource := ht.source_eq.trans hk.source_eq.symm
  refine ⟨{ later with furthest := none }, ?_, ?_, ?_⟩
  · rw [Parser.finish_of_tooDeep hm, Reader.reportTooDeep, Reader.report, hsource]
    rfl
  · exact ⟨hk.source_eq, hk.cursor, hk.offset_le, hk.depth_eq, hk.raised_le, hk.tooDeep_eq⟩
  · refine ⟨hsource, ht.limit_eq, hk.depth_eq.trans ht.depth_eq, ?_, ?_⟩
    · rw [hm]
      exact nofun
    · intro mark hmark
      rw [← Option.some.inj (hm.symm.trans hmark)]

/-! ### Documents -/

/-- One more document. -/
theorem Tracks.next (hs : Ready n s c) (hn : n ≤ rounds) (ht : Tracks s r) :
    ∃ later, s.next rounds = some (r.next.1, later) ∧ s.Keeps later ∧ Tracks later r.next.2 := by
  obtain ⟨found, later, hrun, hk, hagree⟩ := Parsing.safe_document Furthest hn hs
  have hnext : s.next rounds = Parser.finish (found.getD []) later := by
    rw [Parser.next, hrun]
    rfl
  rw [hnext]
  cases hmark : s.tooDeep with
  | some opener =>
    have hreader := ht.marked opener hmark
    obtain ⟨after, hfinish, hkeep, htrack⟩ :=
      ht.finish_of_tooDeep hk (hk.tooDeep_eq opener hmark) (found.getD [])
    rw [← hreader] at htrack
    rw [Reader.next_of_tooDeep hreader]
    exact ⟨after, hfinish, hkeep, htrack⟩
  | none =>
    obtain ⟨hreader, hcursor, -⟩ := ht.unmarked hmark
    have ha : s.Agrees (Grammar.statements (Parsing.insideAt Furthest s.depth) c) found later :=
      hagree hmark
    obtain rfl := Option.some.inj (hs.cursor.symm.trans hcursor)
    have hattempt : Grammar.statements (Parsing.insideAt Furthest s.depth) r.cursor =
        r.attempt Furthest := by
      rw [Reader.attempt, ht.limit_eq, Parsing.insideAt, ht.depth_eq, Nat.sub_zero]
    rw [hattempt] at ha
    generalize hr : r.attempt Furthest = attempt at ha
    cases ha with
    | nothing => exact absurd (congrArg Attempt.outcome hr) (Rule.outcome_many_ne_nothing _ _)
    | @tooDeep opener _ _ _ hm =>
      obtain ⟨after, hfinish, hkeep, htrack⟩ := ht.finish_of_tooDeep hk hm (found.getD [])
      have hread : r.next = (.error (r.reportTooDeep ⟨opener, maxNesting⟩),
          { r with tooDeep := some ⟨opener, maxNesting⟩ }) := by
        simp only [Reader.next, hreader, hr]
      rw [hread]
      exact ⟨after, hfinish, hkeep, htrack⟩
    | @found values last journal _ hc hm hj =>
      have hl : r.cursor.LeadsTo last :=
        (Grammar.Inside.forward_within Furthest r.limit 0).blocks.statements r.cursor values last
          (congrArg Attempt.outcome hr)
      obtain ⟨after, hfinish, hkeep, htrack⟩ := ht.finish values hmark hk hc hl hm hj
      have hread : r.next = r.finish values last journal := by
        simp only [Reader.next, hreader, hr]
      rw [hread]
      exact ⟨after, hfinish, hkeep, htrack⟩

/-- A parser gives the documents that a reader gives. -/
private theorem Tracks.documents (hs : Ready n s c) (hn : n ≤ rounds) (ht : Tracks s r)
    (calls : Nat) :
    ∃ later reader, s.documents rounds calls = some (r.take calls, later) ∧ s.Keeps later ∧
      Tracks later reader := by
  induction calls generalizing s c r with
  | zero => exact ⟨s, r, rfl, hs.keeps, ht⟩
  | succ calls ih =>
    obtain ⟨later, hnext, hk, ht'⟩ := ht.next hs hn
    obtain ⟨d, hd⟩ := hk.cursor
    obtain ⟨last, reader, hmore, hk', htrack⟩ := ih (hs.of_keeps hk hd) ht'
    refine ⟨last, reader, ?_, hk.trans hk', htrack⟩
    rw [Parser.documents, hnext, Option.bind_eq_bind, Option.bind_some]
    simp only [hmore]
    rfl

/-! ### Productions -/

/-- What a production leaves behind: the same text and a place in it between two characters, which
is further if something was found and the same if not; the same number of open blocks, which was
never above the limit on the way; and a mark that was there before. -/
structure Frame {α : Type} (s : Parser) (result : Option α) (later : Parser) : Prop where
  source_eq : later.scanner.source = s.scanner.source
  offset_mem : later.scanner.offset ∈ Text.boundaries later.scanner.source
  stays : result = none → later.scanner.offset = s.scanner.offset
  moves : result ≠ none → s.scanner.offset < later.scanner.offset
  depth_eq : later.depth = s.depth
  raised_le : ∀ depth ∈ later.raised, depth ≤ maxNesting
  tooDeep_eq : ∀ opener, s.tooDeep = some opener → later.tooDeep = some opener

private theorem exists_frame {α : Type} {step : Parsing α} {rule : Nat → Rule Furthest α}
    (h : Parsing.Framed n step rule) (hs : Ready n s c) :
    ∃ result later, step s = some (result, later) ∧ s.Frame result later ∧
      (s.tooDeep = none → s.Agrees (rule s.depth c) result later) := by
  obtain ⟨result, later, hrun, hk, hagree⟩ := h.safe hs
  obtain ⟨d, hd⟩ := hk.cursor
  refine ⟨result, later, hrun, ?_, hagree⟩
  refine ⟨hk.source_eq, Seeker.offset_mem_boundaries hd, ?_, ?_, hk.depth_eq, hk.raised_le,
    hk.tooDeep_eq⟩
  · rintro rfl
    rw [h.stays hs hrun]
  · intro hfound
    obtain ⟨value, rfl⟩ := Option.ne_none_iff_exists'.mp hfound
    exact h.moves hs hrun

/-- Both start at the same place. -/
theorem tracks_start (source : List Char) :
    Tracks (start source) (Reader.start maxNesting source) where
  source_eq := rfl
  limit_eq := rfl
  depth_eq := rfl
  unmarked _ := ⟨rfl, Seeker.cursor?_eq_some_iff.mpr ⟨.refl _, rfl⟩, .inl rfl⟩
  marked := nofun

/-- A parser at the start is ready for all of its text. -/
theorem ready_start {source : List Char} (h : Text.byteLength source < n) :
    Ready n (start source) (.start source) where
  cursor := Seeker.cursor?_eq_some_iff.mpr ⟨.refl _, rfl⟩
  ahead := h.trans_eq (Nat.zero_add n).symm
  depth_le := Nat.zero_le _
  raised_le := nofun

/-- A parser that has read any number of documents has given what the reader of documents gives. It
stands between two characters of its text, no block is open, and it can go on: the next document and
each production and token have a result within as many rounds as the text has bytes, and one more.
What a production leaves behind is framed, and it is what the rule of the grammar finds there as
long as no block was too deep. -/
theorem frame_of_documents (source : List Char) (calls : Nat) {rounds : Nat}
    (h : Text.byteLength source < rounds) :
    ∃ s c, (start source).documents rounds calls =
        some ((Reader.start maxNesting source).take calls, s) ∧
      s.scanner.source = source ∧ s.scanner.cursor? = some c ∧
      s.scanner.offset ∈ Text.boundaries source ∧ s.depth = 0 ∧
      (∃ result later, s.next rounds = some (result, later) ∧ s.Keeps later) ∧
      (∀ t, ∃ result later, Parsing.terminal t s = some (result, later) ∧ s.Frame result later) ∧
      ∀ p : Production, ∃ result later, p.parsing rounds s = some (result, later) ∧
        s.Frame result later ∧
        (s.tooDeep = none → s.Agrees (p.rule (.within maxNesting 0) c) result later) := by
  have hstart := ready_start h
  obtain ⟨s, reader, hdocuments, hk, ht⟩ :=
    (tracks_start source).documents hstart (Nat.le_refl rounds) calls
  obtain ⟨c, hc⟩ := hk.cursor
  have hs := hstart.of_keeps hk hc
  have hdepth : s.depth = 0 := hk.depth_eq
  have hsource : s.scanner.source = source := hk.source_eq
  refine ⟨s, c, hdocuments, hsource, hc, ?_, hdepth, ?_, ?_, ?_⟩
  · rw [← hsource]
    exact Seeker.offset_mem_boundaries hc
  · obtain ⟨later, hnext, hkeep, -⟩ := ht.next hs (Nat.le_refl rounds)
    exact ⟨_, later, hnext, hkeep⟩
  · intro t
    have hterminal : Parsing.Framed rounds (Parsing.terminal t)
        fun _ ↦ (Rule.terminal t : Rule Furthest _) := Parsing.framed_terminal t
    obtain ⟨result, later, hrun, hframe, -⟩ := exists_frame hterminal hs
    exact ⟨result, later, hrun, hframe⟩
  · intro p
    have hframe := exists_frame (Parsing.framed_parsing p (Nat.le_refl rounds)) hs
    rwa [hdepth] at hframe

/-- A document with a block in a block, behind which the text goes on. -/
theorem frame_of_documents_nested : Text.byteLength "p\x7bb:\"é\"\x7d \x7d".toList < 12 ∧
    ∃ s, (start "p\x7bb:\"é\"\x7d \x7d".toList).documents 12 2 =
        some ((Reader.start maxNesting "p\x7bb:\"é\"\x7d \x7d".toList).take 2, s) ∧
      s.scanner.offset ∈ Text.boundaries "p\x7bb:\"é\"\x7d \x7d".toList := by
  have hlength : Text.byteLength "p\x7bb:\"é\"\x7d \x7d".toList < 12 := by decide
  obtain ⟨s, -, hdocuments, -, -, hboundary, -⟩ :=
    frame_of_documents "p\x7bb:\"é\"\x7d \x7d".toList 2 hlength
  exact ⟨hlength, s, hdocuments, hboundary⟩

end Parser
end TerseMarkup
