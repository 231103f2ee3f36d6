import TerseMarkup.Proofs.Simulation
import TerseMarkup.Proofs.Unlimited

/-!
# What the limit of nesting does

Compare a run with a limit to the run without one. As long as no block is opened beyond the limit
they are the same, down to their traces. Where the first such block is opened the run with the
limit ends, and nothing that would follow counts. Blocks are opened from left to right, so this
first block is the first one in the text as well: the main statement is `parse_of_openings`.
-/

namespace TerseMarkup

/-! ### Cutting a run off -/

/-- The first block of a run that is beyond a limit. -/
def Trace.firstBeyond (limit : Nat) (trace : Trace) : Option Opening :=
  (Trace.replay Footprint trace).openings.find? fun opening ↦ limit < opening.depth

namespace Trace

variable {limit : Nat} {trace more : Trace} {opening : Opening}

@[simp] private theorem firstBeyond_empty : firstBeyond limit ∅ = none := by
  change firstBeyond limit [] = none
  simp [firstBeyond]

@[simp] private theorem firstBeyond_append : firstBeyond limit (trace ++ more) =
    (firstBeyond limit trace).or (firstBeyond limit more) := by
  simp [firstBeyond]

@[simp] private theorem firstBeyond_missed (offset : Nat) (what : Expectation) :
    firstBeyond limit (Journal.missed offset what) = none := by
  simp [firstBeyond]

private theorem firstBeyond_opened (opener depth : Nat) :
    firstBeyond limit (Journal.opened opener depth) =
      if limit < depth then some ⟨opener, depth⟩ else none := by
  by_cases h : limit < depth <;> simp [firstBeyond, h]

@[simp] private theorem firstBeyond_enclose (p : Production) (succeeded : Bool) :
    firstBeyond limit (Journal.enclose p succeeded trace) = firstBeyond limit trace := by
  rw [firstBeyond, replay_enclose]
  rfl

private theorem firstBeyond_of_append (h : firstBeyond limit trace = some opening) (more : Trace) :
    firstBeyond limit (trace ++ more) = some opening := by
  rw [firstBeyond_append, h, Option.some_or]

end Trace

/-- How an attempt with a limit compares to the attempt without it. -/
inductive Cut (limit : Nat) {α : Type} : Attempt Trace α → Attempt Trace α → Prop
  | same {attempt : Attempt Trace α} (h : Trace.firstBeyond limit attempt.journal = none) :
      Cut limit attempt attempt
  | beyond {whole : Attempt Trace α} {opening : Opening} {journal : Trace}
      (h : Trace.firstBeyond limit whole.journal = some opening) :
      Cut limit ⟨.tooDeep ⟨opening.offset, limit⟩, journal⟩ whole

/-- What is read before both does not matter if it stays below the limit. -/
private theorem Cut.append {limit : Nat} {α : Type} {part whole : Attempt Trace α} {trace : Trace}
    (h : Cut limit part whole) (ht : Trace.firstBeyond limit trace = none) :
    Cut limit ⟨part.outcome, trace ++ part.journal⟩ ⟨whole.outcome, trace ++ whole.journal⟩ := by
  cases h with
  | same hn => exact .same (by rw [Trace.firstBeyond_append, ht, hn, Option.none_or])
  | beyond hb => exact .beyond (by rw [Trace.firstBeyond_append, ht, hb, Option.none_or])

namespace Rule

/-- To be cut off at the first block beyond a limit is kept by every way to compose rules. -/
def cutting (limit : Nat) : AttemptRelation Trace Trace where
  At _ part whole := Cut limit part whole
  pure value c := .same Trace.firstBeyond_empty
  bind {_ _ first first' second second'} hf hs c := by
    have hc := hf c
    rcases hp : first c with ⟨outcome, journal⟩
    rcases hw : first' c with ⟨outcome', journal'⟩
    rw [hp, hw] at hc
    cases hc with
    | same hn =>
      cases outcome with
      | nothing =>
        rw [bind_of_nothing hp, bind_of_nothing hw]
        exact .same hn
      | tooDeep mark =>
        rw [bind_of_tooDeep hp, bind_of_tooDeep hw]
        exact .same hn
      | found value next =>
        rw [bind_of_found hp, bind_of_found hw]
        exact (hs value next).append hn
    | beyond hb =>
      rw [bind_of_tooDeep hp]
      cases outcome' with
      | nothing =>
        rw [bind_of_nothing hw]
        exact .beyond hb
      | tooDeep mark =>
        rw [bind_of_tooDeep hw]
        exact .beyond hb
      | found value next =>
        rw [bind_of_found hw]
        exact .beyond (Trace.firstBeyond_of_append hb _)
  orElse {_ first second first' second'} hf hs c := by
    have hc := hf c
    rcases hp : first c with ⟨outcome, journal⟩
    rcases hw : first' c with ⟨outcome', journal'⟩
    rw [hp, hw] at hc
    cases hc with
    | same hn =>
      cases outcome with
      | found value next =>
        rw [orElse_of_found hp, orElse_of_found hw]
        exact .same hn
      | tooDeep mark =>
        rw [orElse_of_tooDeep hp, orElse_of_tooDeep hw]
        exact .same hn
      | nothing =>
        rw [orElse_of_nothing hp, orElse_of_nothing hw]
        exact (hs c).append hn
    | beyond hb =>
      rw [orElse_of_tooDeep hp]
      cases outcome' with
      | found value next =>
        rw [orElse_of_found hw]
        exact .beyond hb
      | tooDeep mark =>
        rw [orElse_of_tooDeep hw]
        exact .beyond hb
      | nothing =>
        rw [orElse_of_nothing hw]
        exact .beyond (Trace.firstBeyond_of_append hb _)
  optional {_ rule rule'} h c := by
    have hc := h c
    rcases hp : rule c with ⟨outcome, journal⟩
    rcases hw : rule' c with ⟨outcome', journal'⟩
    rw [hp, hw] at hc
    cases hc with
    | same hn => cases outcome <;> simp only [optional, hp, hw] <;> exact .same hn
    | beyond hb => cases outcome' <;> simp only [optional, hp, hw] <;> exact .beyond hb
  named p rule rule' h c := by
    have hc := h c
    unfold named
    generalize rule c = part at hc
    generalize rule' c = whole at hc
    cases hc with
    | same hn => exact .same (by rw [Trace.firstBeyond_enclose, hn])
    | beyond hb => exact .beyond (by rw [Trace.firstBeyond_enclose, hb])
  terminal t c := by
    cases hr : c.read? t with
    | none =>
      rw [terminal_of_none hr]
      exact .same (Trace.firstBeyond_missed _ _)
    | some found =>
      rw [terminal_of_read hr]
      exact .same Trace.firstBeyond_empty
  tokenStart c := .same Trace.firstBeyond_empty

/-- A block beyond the limit is where the run with the limit ends. -/
private theorem cut_opened {α : Type} {limit depth : Nat} (h : limit < depth) (opener : Nat)
    (inside : Rule Trace α) (c : Cursor) :
    Cut limit ((refuse ⟨opener, limit⟩ : Rule Trace α) c)
      ((do opened opener depth; inside) c) := by
  have hb : Trace.firstBeyond limit (Journal.opened opener depth) = some ⟨opener, depth⟩ := by
    rw [Trace.firstBeyond_opened, if_pos h]
  rw [bind_of_found (opened_apply opener depth c)]
  exact @Cut.beyond limit α _ ⟨opener, depth⟩ _ (Trace.firstBeyond_of_append hb _)

end Rule

/-- With more room the inside of a block is read on beyond the limit. -/
private theorem Grammar.cut_within {limit room depth : Nat} (extra : Nat)
    (h : room + depth = limit) :
    (Rule.cutting limit).rules.Insides (.within room depth) (.within (room + extra) depth) := by
  induction room generalizing depth with
  | zero =>
    obtain rfl : depth = limit := by omega
    cases extra with
    | zero =>
      exact ⟨fun _ _ ↦ .same Trace.firstBeyond_empty, fun _ _ ↦ .same Trace.firstBeyond_empty⟩
    | succ extra =>
      exact ⟨fun opener ↦ Rule.cut_opened (Nat.lt_succ_self _) opener _,
        fun opener ↦ Rule.cut_opened (Nat.lt_succ_self _) opener _⟩
  | succ room ih =>
    have deeper := (ih (show room + (depth + 1) = limit by omega)).blocks
    have ho (opener : Nat) : (Rule.cutting limit).rules.Holds (Rule.opened opener (depth + 1))
        (Rule.opened opener (depth + 1)) := by
      intro c
      exact .same (by rw [Rule.opened_apply, Trace.firstBeyond_opened, if_neg (by omega)])
    rw [Nat.succ_add]
    exact ⟨fun opener ↦ (Rule.cutting limit).bind (ho opener) fun _ ↦ deeper.statement,
      fun opener ↦ (Rule.cutting limit).bind (ho opener) fun _ ↦ deeper.statements⟩

/-! ### Reading with a limit -/

/-- The colon or brace at which a block opens, as a part of the text. -/
private theorem Machine.OpensAt.exists_append {source : List Char} {place : Nat}
    (h : OpensAt (.start source) place) :
    ∃ before mark after, source = before ++ mark :: after ∧ (mark = ':' ∨ mark = '\x7b') ∧
      Text.byteLength before = place := by
  obtain ⟨opener, hl, rfl, hm⟩ := h
  obtain ⟨before, hr, ho⟩ := (Cursor.leadsTo_skipBlanks _).trans hl
  have hlength : Text.byteLength before = opener.offset := by simpa [Cursor.start] using ho.symm
  rcases hm with hm | hm
  · obtain ⟨after, ha⟩ := List.head?_eq_some_iff.mp hm
    exact ⟨before, _, after, ha ▸ hr, .inl rfl, hlength⟩
  · obtain ⟨after, ha⟩ := List.head?_eq_some_iff.mp hm
    exact ⟨before, _, after, ha ▸ hr, .inr rfl, hlength⟩

namespace Document

/-- The blocks that are opened while a text is read without a limit, in the order in which it
happens. Those of a part that is given up count too. -/
def openings (source : List Char) : List Opening :=
  (attemptUnlimited Footprint source).journal.openings

/-- A tag with a colon and one in braces nest, two in a row do not. -/
example : openings "a:b\x7bc:d e:f\x7d".toList = [⟨1, 1⟩, ⟨3, 2⟩, ⟨5, 3⟩, ⟨9, 3⟩] := by
  decide +kernel

variable {limit : Nat} {source : List Char} {opening : Opening}

private theorem cut_attempt (limit : Nat) (source : List Char) :
    ∃ whole : Attempt Trace (List Statement), Cut limit (attempt Trace limit source) whole ∧
      attemptUnlimited Furthest source = whole.replay Furthest ∧
        Trace.firstBeyond limit whole.journal =
          (openings source).find? fun opening ↦ limit < opening.depth := by
  have hu (ρ : Type) [Journal ρ] [LawfulJournal ρ] : attemptUnlimited ρ source =
      (attempt Trace (limit + source.length) source).replay ρ := by
    rw [← attempt_eq_replay, attempt_eq_attemptUnlimited ρ (Nat.le_add_left _ _)]
  refine ⟨_, (Grammar.cut_within source.length (Nat.add_zero limit)).blocks.statements
    (.start source), hu Furthest, ?_⟩
  rw [openings, hu Footprint]
  rfl

/-- A limit makes no difference to a text whose blocks stay within it. -/
private theorem parseWithin_of_openings_le
    (h : ∀ opening ∈ openings source, opening.depth ≤ limit) :
    parseWithin limit source = parseUnlimited source := by
  obtain ⟨whole, hc, hu, hf⟩ := cut_attempt limit source
  have hn : Trace.firstBeyond limit whole.journal = none := by
    rw [hf, List.find?_eq_none]
    intro opening ho
    simpa using h opening ho
  rw [parseWithin_eq_conclude, attempt_eq_replay, parseUnlimited, hu]
  generalize attempt Trace limit source = part at hc
  cases hc with
  | same => rfl
  | beyond hb =>
    rw [hn] at hb
    cases hb

/-- The first block beyond the limit is reported, whatever follows it. -/
private theorem parseWithin_of_find?
    (h : (openings source).find? (fun opening ↦ limit < opening.depth) = some opening) :
    parseWithin limit source = .error (report source ⟨opening.offset, [.nestingAtMost limit]⟩) := by
  obtain ⟨whole, hc, -, hf⟩ := cut_attempt limit source
  rw [parseWithin_eq_conclude, attempt_eq_replay]
  rw [h] at hf
  generalize attempt Trace limit source = part at hc
  cases hc with
  | same hn =>
    rw [hn] at hf
    cases hf
  | beyond hb =>
    obtain rfl := Option.some.inj (hb.symm.trans hf)
    rfl

/-- Blocks are opened from left to right, each at a colon or a brace. -/
private theorem between_openings (source : List Char) :
    ∃ stop, Machine.Between (.start source) stop (attemptUnlimited Footprint source).journal := by
  rw [← attempt_eq_attemptUnlimited Footprint (Nat.le_refl source.length)]
  have hf : Machine.FollowsAt source.length Machine.tagMarks Machine.Never ⟨.statement, []⟩
      ⟨.closing, []⟩ (.start source) (attempt Footprint source.length source) :=
    Machine.follows_statements_within source.length (.start source)
  generalize attempt Footprint source.length source = attempt at hf
  cases hf with
  | passes h => exact ⟨_, h.footprint⟩
  | jams h =>
    obtain ⟨place, hf, -⟩ := h
    exact ⟨place, hf.footprint⟩
  | nothing h => exact h.elim
  | tooDeep h => exact ⟨_, h.footprint⟩

/-- The first block that is opened beyond a limit is the first one in the text. -/
private theorem exists_find?_openings (h : ∃ opening ∈ openings source, limit < opening.depth) :
    ∃ first ∈ openings source, limit < first.depth ∧
      (openings source).find? (fun opening ↦ limit < opening.depth) = some first ∧
        ∀ opening ∈ openings source, limit < opening.depth → first.offset ≤ opening.offset := by
  obtain ⟨stop, hbetween⟩ := between_openings source
  obtain ⟨deep, hd, hdeep⟩ := h
  cases hf : (openings source).find? fun opening ↦ limit < opening.depth with
  | none => exact absurd (decide_eq_true hdeep) (List.find?_eq_none.mp hf deep hd)
  | some first =>
    obtain ⟨hp, earlier, later, hs, he⟩ := List.find?_eq_some_iff_append.mp hf
    have hsorted : (earlier ++ first :: later).Pairwise (·.offset < ·.offset) :=
      hs ▸ hbetween.sorted
    refine ⟨first, List.mem_of_find?_eq_some hf, of_decide_eq_true hp, rfl, fun opening ho hb ↦ ?_⟩
    rcases List.mem_append.mp (hs ▸ ho) with ho | ho
    · have hn := he opening ho
      rw [decide_eq_true hb] at hn
      cases hn
    · rcases List.mem_cons.mp ho with rfl | ho
      · exact Nat.le_refl _
      · have hlater := (List.pairwise_append.mp hsorted).2.1
        exact Nat.le_of_lt (List.rel_of_pairwise_cons hlater ho)

/-- Without a limit each block opens without a check, and nothing else is different. A text whose
blocks stay within the limit is read as without it. Any other is refused at the first colon or
brace of the text that opens a block beyond the limit. -/
theorem parse_of_openings (source : String) :
    (∀ (ρ : Type) [Journal ρ] (depth : Nat), (Grammar.Inside.unlimited depth : Grammar.Inside ρ) =
      .opening depth (.unlimited (depth + 1))) ∧
    ((∀ opening ∈ openings source.toList, opening.depth ≤ maxNesting) →
      parse source = parseUnlimited source.toList) ∧
    ((∃ opening ∈ openings source.toList, maxNesting < opening.depth) →
      ∃ before mark after error, source.toList = before ++ mark :: after ∧
        (mark = ':' ∨ mark = '\x7b') ∧
        (∃ opening ∈ openings source.toList,
          maxNesting < opening.depth ∧ opening.offset = Text.byteLength before) ∧
        (∀ opening ∈ openings source.toList,
          maxNesting < opening.depth → Text.byteLength before ≤ opening.offset) ∧
        parse source = .error error ∧ error.position.offset = Text.byteLength before ∧
        error.expected = ["at most 128 nested blocks"]) := by
  refine ⟨fun _ _ ↦ Grammar.Inside.unlimited_eq, parseWithin_of_openings_le, fun h ↦ ?_⟩
  obtain ⟨first, hmem, hbeyond, hfind, hfirst⟩ := exists_find?_openings h
  obtain ⟨stop, hbetween⟩ := between_openings source.toList
  obtain ⟨before, mark, after, hsource, hmark, hlength⟩ :=
    (hbetween.openings first hmem).1.exists_append
  refine ⟨before, mark, after, _, hsource, hmark, ⟨first, hmem, hbeyond, hlength.symm⟩,
    hlength ▸ hfirst, parseWithin_of_find? hfind, ?_, rfl⟩
  change (Position.locate source.toList first.offset).offset = _
  rw [← hlength, hsource, Position.offset_locate_append]

/-- One colon more than the limit allows, and nothing behind the last one. -/
theorem parse_of_colons :
    (∃ opening ∈ openings (List.replicate 129 ['a', ':']).flatten, maxNesting < opening.depth) ∧
      ∃ error, parse (String.ofList (List.replicate 129 ['a', ':']).flatten) = .error error ∧
        error.expected = ["at most 128 nested blocks"] := by
  have hdeep : (openings (List.replicate 129 ['a', ':']).flatten).any
      (fun opening ↦ maxNesting < opening.depth) = true := by
    decide +kernel
  obtain ⟨opening, ho, hd⟩ := List.any_eq_true.mp hdeep
  have h := (parse_of_openings (String.ofList (List.replicate 129 ['a', ':']).flatten)).2.2
  rw [String.toList_ofList] at h
  obtain ⟨_, _, _, error, -, -, -, -, he, -, hx⟩ := h ⟨opening, ho, of_decide_eq_true hd⟩
  exact ⟨⟨opening, ho, of_decide_eq_true hd⟩, error, he, hx⟩

end Document
end TerseMarkup
