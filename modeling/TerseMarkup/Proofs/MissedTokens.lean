import Mathlib.Data.List.Nodup
import TerseMarkup.Proofs.FurthestPlace

/-!
# Errors from missed tokens

The trace of a run tells of each token that was tried and was not there, in order, with all the
productions around the try. Each such miss is blamed on the outermost production around it that
failed, or else on the token itself. The main statement, `expected_of_misses`, computes a syntax
error from the misses alone: it lies at the greatest offset, and it names what the misses there are
blamed on, each once and in order. Nothing in this depends on how failures are kept while a
document is read. That a parser which reads in place misses the same is `Parser.misses_log`.
-/

namespace TerseMarkup

/-! ### Misses -/

/-- A token that was tried and was not there. -/
structure Miss where
  /-- Where the token would have started. -/
  offset : Nat
  what : Expectation
  /-- The productions around the try, the outermost first, and whether each succeeded. -/
  enclosing : List (Production × Bool)
  deriving DecidableEq, Repr

namespace Miss

/-- The outermost production that failed around a miss, or else what was missed. -/
def blamed (miss : Miss) : Expectation :=
  match miss.enclosing.find? fun enclosure ↦ !enclosure.2 with
  | some enclosure => .production enclosure.1
  | none => miss.what

/-- What a message names for a miss. -/
def label (miss : Miss) : String := miss.blamed.label

/-- A miss inside of one more production. -/
def within (p : Production) (succeeded : Bool) (miss : Miss) : Miss :=
  { miss with enclosing := (p, succeeded) :: miss.enclosing }

end Miss

mutual

/-- The misses of an event. -/
def Event.misses : Event → List Miss
  | .missed offset what => [⟨offset, what, []⟩]
  | .opened _ _ => []
  | .production p succeeded events => (Trace.misses events).map (Miss.within p succeeded)

/-- The misses of a run, in the order in which they happened. -/
def Trace.misses : List Event → List Miss
  | [] => []
  | event :: events => event.misses ++ Trace.misses events

end

@[simp] private theorem Trace.misses_append (trace more : Trace) :
    Trace.misses (trace ++ more) = Trace.misses trace ++ Trace.misses more := by
  induction trace with
  | nil => rw [List.nil_append, misses, List.nil_append]
  | cons event events ih => rw [List.cons_append, misses, ih, misses, List.append_assoc]

/-! ### The failure of some misses -/

namespace Furthest

/-- The furthest failure of one miss. -/
def ofMiss (miss : Miss) : Furthest := some ⟨miss.offset, [miss.blamed]⟩

/-- The furthest failure of misses, one after the other. -/
def ofMisses : List Miss → Furthest
  | [] => ∅
  | miss :: misses => ofMiss miss ++ ofMisses misses

private theorem ofMisses_append (misses more : List Miss) :
    ofMisses (misses ++ more) = ofMisses misses ++ ofMisses more := by
  induction misses with
  | nil => rw [List.nil_append, ofMisses, LawfulJournal.empty_append]
  | cons miss misses ih =>
    rw [List.cons_append, ofMisses, ih, ofMisses, LawfulJournal.append_assoc]

-- A production that fails is named once for all that it misses at its furthest place.
private theorem enclose_append (p : Production) (succeeded : Bool) (furthest other : Furthest) :
    (furthest ++ other).enclose p succeeded =
      furthest.enclose p succeeded ++ other.enclose p succeeded := by
  cases succeeded with
  | true => rfl
  | false =>
    cases furthest with
    | none => rfl
    | some earlier =>
      cases other with
      | none => rfl
      | some later =>
        change some (Failure.mk (earlier.merge later).offset [.production p]) =
          some (Failure.merge ⟨earlier.offset, _⟩ ⟨later.offset, _⟩)
        rw [Failure.offset_merge]
        rcases Nat.lt_trichotomy earlier.offset later.offset with h | h | h
        · rw [Failure.merge_of_gt (by exact h), Nat.max_eq_right (Nat.le_of_lt h)]
        · rw [Failure.merge_of_eq (by exact h), h, Nat.max_self]
          simp
        · rw [Failure.merge_of_lt (by exact h), Nat.max_eq_left (Nat.le_of_lt h)]

private theorem ofMisses_within (p : Production) (succeeded : Bool) (misses : List Miss) :
    ofMisses (misses.map (Miss.within p succeeded)) = (ofMisses misses).enclose p succeeded := by
  induction misses with
  | nil => cases succeeded <;> rfl
  | cons miss misses ih =>
    rw [List.map_cons, ofMisses, ih, ofMisses, enclose_append]
    cases succeeded <;> rfl

end Furthest

mutual

private theorem Event.replay_furthest : (event : Event) →
    event.replay Furthest = Furthest.ofMisses event.misses
  | .missed offset what => by
    rw [Event.replay, Event.misses]
    rfl
  | .opened offset depth => by
    rw [Event.replay, Event.misses]
    rfl
  | .production p succeeded events => by
    rw [Event.replay, Event.misses, Furthest.ofMisses_within, ← Trace.replay_furthest events]
    rfl

/-- The furthest failure of a run is that of its misses. -/
private theorem Trace.replay_furthest : (trace : List Event) →
    Trace.replay Furthest trace = Furthest.ofMisses (Trace.misses trace)
  | [] => by
    rw [Trace.replay, Trace.misses]
    rfl
  | event :: events => by
    rw [Trace.replay, Trace.misses, Furthest.ofMisses_append, Event.replay_furthest event,
      Trace.replay_furthest events]

end

/-! ### Labels without repetition -/

section

variable {α β : Type} [DecidableEq α] [DecidableEq β]

private theorem filter_eraseDups (p : α → Bool) (values : List α) :
    values.eraseDups.filter p = (values.filter p).eraseDups := by
  induction hn : values.length using Nat.strongRecOn generalizing values with
  | ind n ih =>
    cases values with
    | nil => rfl
    | cons value values =>
      have hlt : (values.filter fun other ↦ !other == value).length < n := by
        have hle := List.length_filter_le (fun other ↦ !other == value) values
        rw [List.length_cons] at hn
        omega
      have hrest := ih _ hlt _ rfl
      rw [List.filter_filter] at hrest
      by_cases hp : p value = true
      · rw [List.eraseDups_cons, List.filter_cons_of_pos hp, List.filter_cons_of_pos hp, hrest,
          List.eraseDups_cons, List.filter_filter]
        simp only [Bool.and_comm]
      · rw [List.eraseDups_cons, List.filter_cons_of_neg hp, List.filter_cons_of_neg hp, hrest]
        congr 1
        apply List.filter_congr
        intro other _
        by_cases ho : other = value
        · subst ho
          simp [hp]
        · simp [ho]

/-- Names that tell values apart repeat where the values do. -/
private theorem eraseDups_map {f : α → β} {values : List α}
    (h : ∀ a ∈ values, ∀ b ∈ values, f a = f b → a = b) :
    (values.map f).eraseDups = values.eraseDups.map f := by
  induction hn : values.length using Nat.strongRecOn generalizing values with
  | ind n ih =>
    cases values with
    | nil => rfl
    | cons value values =>
      have hlt : (values.filter fun other ↦ !other == value).length < n := by
        have hle := List.length_filter_le (fun other ↦ !other == value) values
        rw [List.length_cons] at hn
        omega
      have hmem {a : α} (ha : a ∈ values.filter fun other ↦ !other == value) :
          a ∈ value :: values :=
        List.mem_cons_of_mem _ (List.mem_of_mem_filter ha)
      have hrest := ih _ hlt (fun a ha b hb ↦ h a (hmem ha) b (hmem hb)) rfl
      rw [List.map_cons, List.eraseDups_cons, List.eraseDups_cons, List.map_cons, ← hrest,
        List.filter_map]
      congr 3
      apply List.filter_congr
      intro other ho
      by_cases he : other = value
      · subst he
        simp
      · have hf : f other ≠ f value := fun hf ↦
          he (h other (List.mem_cons_of_mem _ ho) value List.mem_cons_self hf)
        simp [he, hf]

end

/-! ### The greatest offset -/

/-- A failure at the greatest offset of some misses, which expects what the misses there are blamed
on, each once. -/
structure Failure.Sums (failure : Failure) (misses : List Miss) : Prop where
  reached : ∃ miss ∈ misses, miss.offset = failure.offset
  furthest : ∀ miss ∈ misses, miss.offset ≤ failure.offset
  expected : failure.expected =
    ((misses.filter fun miss ↦ miss.offset = failure.offset).map Miss.blamed).eraseDups

namespace Failure.Sums

variable {failure : Failure} {misses : List Miss} {miss : Miss}

private theorem singleton (miss : Miss) : Sums ⟨miss.offset, [miss.blamed]⟩ [miss] where
  reached := ⟨miss, List.mem_singleton_self miss, rfl⟩
  furthest other ho := by rw [List.mem_singleton.mp ho]
  expected := by simp [List.eraseDups_cons]

/-- One more miss, before the others. -/
private theorem cons (h : failure.Sums misses) (miss : Miss) :
    (Failure.merge ⟨miss.offset, [miss.blamed]⟩ failure).Sums (miss :: misses) := by
  obtain ⟨⟨other, hm, ho⟩, hle, he⟩ := h
  rcases Nat.lt_trichotomy miss.offset failure.offset with hlt | heq | hgt
  · rw [merge_of_gt (by exact hlt)]
    refine ⟨⟨other, List.mem_cons_of_mem _ hm, ho⟩, ?_, ?_⟩
    · rw [List.forall_mem_cons]
      exact ⟨Nat.le_of_lt hlt, hle⟩
    · rw [he, List.filter_cons_of_neg (by simpa using Nat.ne_of_lt hlt)]
  · rw [merge_of_eq (by exact heq)]
    refine ⟨⟨miss, List.mem_cons_self, rfl⟩, ?_, ?_⟩
    · rw [List.forall_mem_cons]
      exact ⟨Nat.le_refl _, fun other ho ↦ heq ▸ hle other ho⟩
    · rw [List.filter_cons_of_pos (by simp), List.map_cons, List.eraseDups_cons,
        ← filter_eraseDups, heq, ← he]
      simp only [List.singleton_append, List.mem_singleton, List.cons.injEq, true_and]
      apply List.filter_congr
      intro what _
      by_cases hw : what = miss.blamed <;> simp [hw]
  · -- All others lie before the new miss.
    rw [merge_of_lt (by exact hgt)]
    have hnone : misses.filter (fun other ↦ other.offset = miss.offset) = [] := by
      rw [List.filter_eq_nil_iff]
      intro other ho
      have hle := hle other ho
      simp only [decide_eq_true_eq]
      omega
    refine ⟨⟨miss, List.mem_cons_self, rfl⟩, ?_, ?_⟩
    · rw [List.forall_mem_cons]
      exact ⟨Nat.le_refl _, fun other ho ↦ Nat.le_trans (hle other ho) (Nat.le_of_lt hgt)⟩
    · rw [List.filter_cons_of_pos (by simp), hnone]
      simp [List.eraseDups_cons]

end Failure.Sums

/-- Misses have a failure that sums them up, unless there are none. -/
private theorem Furthest.exists_sums {misses : List Miss} (h : misses ≠ []) :
    ∃ failure, ofMisses misses = some failure ∧ failure.Sums misses := by
  induction misses with
  | nil => exact absurd rfl h
  | cons miss misses ih =>
    by_cases hm : misses = []
    · subst hm
      exact ⟨_, rfl, .singleton miss⟩
    · obtain ⟨failure, hf, hs⟩ := ih hm
      refine ⟨_, ?_, hs.cons miss⟩
      rw [ofMisses, hf]
      rfl

/-! ### Names -/

namespace Expectation

/-- The expectations that come with neither a character nor a number. -/
def plain : List Expectation :=
  [.terminal .name, .terminal .identifier, .terminal .string, .production .statement,
    .production .tag, .production .className, .production .id, .production .attributeList,
    .production .attributePair, .production .block, .production .bracedBlock, .endOfText]

private theorem mem_plain {what : Expectation} (hn : ∀ n, what ≠ .nestingAtMost n)
    (hc : ∀ c, what ≠ .terminal (.char c)) : what ∈ plain := by
  cases what with
  | terminal t =>
    cases t with
    | char c => exact absurd rfl (hc c)
    | _ => decide
  | production p => cases p <;> decide
  | endOfText => decide
  | nestingAtMost n => exact absurd rfl (hn n)

private theorem nodup_label_plain : (plain.map label).Nodup := by decide

/-- Only the name of a single character starts with an apostrophe. -/
private theorem head?_label_of_mem {what : Expectation} (h : what ∈ plain) :
    what.label.toList.head? ≠ some '\'' := by
  have hall : ∀ name ∈ plain.map label, name.toList.head? ≠ some '\'' := by decide
  exact hall _ (List.mem_map_of_mem h)

/-- Tokens, productions and the end of the text all have names of their own. -/
private theorem label_inj {what other : Expectation} (hw : ∀ n, what ≠ .nestingAtMost n)
    (ho : ∀ n, other ≠ .nestingAtMost n) (h : what.label = other.label) : what = other := by
  have quoted (c : Char) : (terminal (.char c)).label.toList.head? = some '\'' := by
    simp [label, Terminal.label]
  by_cases hc : ∃ c, what = .terminal (.char c)
  · obtain ⟨c, rfl⟩ := hc
    by_cases hd : ∃ d, other = .terminal (.char d)
    · obtain ⟨d, rfl⟩ := hd
      simpa [label, Terminal.label] using h
    · exact absurd (h ▸ quoted c) (head?_label_of_mem (mem_plain ho (not_exists.mp hd)))
  · have hm := mem_plain hw (not_exists.mp hc)
    by_cases hd : ∃ d, other = .terminal (.char d)
    · obtain ⟨d, rfl⟩ := hd
      exact absurd (h ▸ quoted d) (head?_label_of_mem hm)
    · exact List.inj_on_of_nodup_map nodup_label_plain hm (mem_plain ho (not_exists.mp hd)) h

end Expectation

/-! ### Tokens -/

namespace Trace

@[simp] private theorem misses_empty : misses (∅ : Trace) = [] := by
  change misses [] = []
  rw [misses]

@[simp] private theorem misses_missed (offset : Nat) (what : Expectation) :
    misses (Journal.missed offset what : Trace) = [⟨offset, what, []⟩] := by
  change misses [.missed offset what] = _
  rw [misses, misses, Event.misses, List.append_nil]

@[simp] private theorem misses_opened (offset depth : Nat) :
    misses (Journal.opened offset depth : Trace) = [] := by
  change misses [.opened offset depth] = _
  rw [misses, misses, Event.misses, List.append_nil]

@[simp] private theorem misses_enclose (p : Production) (succeeded : Bool) (trace : Trace) :
    misses (Journal.enclose p succeeded trace : Trace) =
      (misses trace).map (Miss.within p succeeded) := by
  change misses [.production p succeeded trace] = _
  rw [misses, misses, Event.misses, List.append_nil]

/-- All that a run has missed are tokens. -/
def MissesTokens (trace : Trace) : Prop := ∀ miss ∈ misses trace, ∃ t, miss.what = .terminal t

private theorem MissesTokens.append {trace more : Trace} (h : trace.MissesTokens)
    (h' : more.MissesTokens) : MissesTokens (trace ++ more) := by
  intro miss hm
  rw [misses_append] at hm
  rcases List.mem_append.mp hm with hm | hm
  · exact h miss hm
  · exact h' miss hm

private theorem missesTokens_empty : MissesTokens ∅ := by
  intro miss hm
  rw [misses_empty] at hm
  cases hm

end Trace

/-- To miss nothing but tokens is kept by every way to compose rules. -/
def Rule.missingTokens : AttemptRelation Trace Trace where
  At _ a _ := a.journal.MissesTokens
  pure _ _ := Trace.missesTokens_empty
  bind {_ _ first _ second _} hf hs c := by
    have hc := hf c
    rcases hr : first c with ⟨outcome, journal⟩
    rw [hr] at hc
    cases outcome with
    | found value next =>
      rw [bind_of_found hr]
      exact hc.append (hs value next)
    | nothing =>
      rw [bind_of_nothing hr]
      exact hc
    | tooDeep mark =>
      rw [bind_of_tooDeep hr]
      exact hc
  orElse {_ first _ _ _} hf hs c := by
    have hc := hf c
    rcases hr : first c with ⟨outcome, journal⟩
    rw [hr] at hc
    cases outcome with
    | found value next =>
      rw [orElse_of_found hr]
      exact hc
    | nothing =>
      rw [orElse_of_nothing hr]
      exact hc.append (hs c)
    | tooDeep mark =>
      rw [orElse_of_tooDeep hr]
      exact hc
  optional {_ rule _} h c := by
    have hc := h c
    rcases hr : rule c with ⟨outcome, journal⟩
    rw [hr] at hc
    cases outcome <;> simp only [optional, hr] <;> exact hc
  named p rule _ h c := by
    intro miss hm
    simp only [named, Trace.misses_enclose, List.mem_map] at hm
    obtain ⟨inner, hi, rfl⟩ := hm
    exact h c inner hi
  terminal t c := by
    cases hr : c.read? t with
    | none =>
      rw [terminal_of_none hr]
      intro miss hm
      rw [Trace.misses_missed, List.mem_singleton] at hm
      exact ⟨t, by rw [hm]⟩
    | some found =>
      rw [terminal_of_read hr]
      exact Trace.missesTokens_empty
  tokenStart _ := Trace.missesTokens_empty

/-! ### Documents -/

namespace Document

/-- All that is tried and missed while a text is read, in the order in which it happens. The end of
the text is tried behind the statements. -/
def misses (limit : Nat) (source : List Char) : List Miss :=
  match attempt Trace limit source with
  | ⟨.found _ last, trace⟩ =>
    if last.skipBlanks.rest = [] then Trace.misses trace
    else Trace.misses trace ++ [⟨last.tokenStart, .endOfText, []⟩]
  | ⟨_, trace⟩ => Trace.misses trace

variable {limit : Nat} {source : List Char}

private theorem missesTokens_attempt (limit : Nat) (source : List Char) :
    (attempt Trace limit source).journal.MissesTokens := by
  have hi : Rule.missingTokens.rules.Insides (Grammar.Inside.within limit 0)
      (Grammar.Inside.within limit 0) := by
    apply RuleRelation.insides_within
    · intro opener depth c miss hm
      rw [Rule.opened_apply, Trace.misses_opened] at hm
      cases hm
    · intro α mark c
      exact Trace.missesTokens_empty
  exact hi.blocks.statements (.start source)

private theorem what_ne_nestingAtMost {miss : Miss} (h : miss ∈ misses limit source) (n : Nat) :
    miss.what ≠ .nestingAtMost n := by
  have htokens := missesTokens_attempt limit source
  unfold misses at h
  rcases hattempt : attempt Trace limit source with ⟨outcome, trace⟩
  rw [hattempt] at h htokens
  have htrace (hm : miss ∈ Trace.misses trace) : miss.what ≠ .nestingAtMost n := by
    obtain ⟨t, ht⟩ := htokens miss hm
    rw [ht]
    nofun
  cases outcome with
  | nothing => exact htrace h
  | tooDeep mark => exact htrace h
  | found values last =>
    simp only at h
    split at h
    · exact htrace h
    · rcases List.mem_append.mp h with h | h
      · exact htrace h
      · rw [List.mem_singleton.mp h]
        nofun

/-- The name in a message tells what is blamed. -/
private theorem blamed_eq_of_label_eq {miss other : Miss} (hm : miss ∈ misses limit source)
    (ho : other ∈ misses limit source) (h : miss.label = other.label) :
    miss.blamed = other.blamed := by
  have hblamed {m : Miss} (hm : m ∈ misses limit source) (n : Nat) :
      m.blamed ≠ .nestingAtMost n := by
    unfold Miss.blamed
    split
    · nofun
    · exact what_ne_nestingAtMost hm n
  exact Expectation.label_inj (hblamed hm) (hblamed ho) h

/-- A text that does not end behind its statements fails as its misses say. -/
private theorem sums_miss {values : List Statement} {last : Cursor} {furthest : Furthest}
    (h : attempt Furthest limit source = ⟨.found values last, furthest⟩)
    (hr : last.skipBlanks.rest ≠ []) :
    (furthest.miss last.tokenStart .endOfText).Sums (misses limit source) := by
  have hreplay := attempt_eq_replay Furthest limit source
  rcases htrace : attempt Trace limit source with ⟨outcome, trace⟩
  rw [h, htrace] at hreplay
  obtain ⟨rfl, rfl⟩ := Attempt.mk.inj hreplay
  have hmisses : misses limit source =
      Trace.misses trace ++ [⟨last.tokenStart, .endOfText, []⟩] := by
    simp only [misses, htrace, if_neg hr]
  have hne : misses limit source ≠ [] := by
    rw [hmisses]
    exact List.append_ne_nil_of_right_ne_nil _ (List.cons_ne_nil _ _)
  obtain ⟨failure, hf, hs⟩ := Furthest.exists_sums hne
  have hmiss : Furthest.ofMisses (misses limit source) =
      some (Furthest.miss (Trace.replay Furthest trace) last.tokenStart .endOfText) := by
    rw [hmisses, Furthest.ofMisses_append, Furthest.some_miss, Trace.replay_furthest]
    rfl
  obtain rfl := Option.some.inj (hf.symm.trans hmiss)
  exact hs

/-- A syntax error, unless it is for the limit of nesting, is reported at the greatest offset at
which anything was missed. It names what the misses there are blamed on: the outermost production
that failed around each, or else the token itself, in order and without repetition. -/
theorem expected_of_misses {source : String} {error : SyntaxError}
    (h : parse source = .error error) (hn : error.expected ≠ ["at most 128 nested blocks"]) :
    (∃ miss ∈ misses maxNesting source.toList, miss.offset = error.position.offset) ∧
    (∀ miss ∈ misses maxNesting source.toList, miss.offset ≤ error.position.offset) ∧
    error.expected = (((misses maxNesting source.toList).filter
      fun miss ↦ miss.offset = error.position.offset).map Miss.label).eraseDups := by
  rcases exists_of_parseWithin_eq_error h with
    ⟨mark, furthest, -, rfl⟩ | ⟨values, last, furthest, hattempt, hrest, rfl⟩
  · exact absurd rfl hn
  obtain ⟨d, hl, ho⟩ := exists_leadsTo_miss hattempt
  rw [offset_report hl ho]
  have hsums := sums_miss hattempt hrest
  refine ⟨hsums.reached, hsums.furthest, ?_⟩
  rw [report, hsums.expected, ← eraseDups_map, List.map_map]
  · rfl
  · intro what hw other ho
    obtain ⟨miss, hm, rfl⟩ := List.mem_map.mp hw
    obtain ⟨miss', hm', rfl⟩ := List.mem_map.mp ho
    exact blamed_eq_of_label_eq (List.mem_of_mem_filter hm) (List.mem_of_mem_filter hm')

/-- A class that breaks inside of an open block is blamed on the block, and what is missed before
does not count. -/
theorem expected_of_broken_class :
    parse "a\x7bb." = .error ⟨⟨4, 1, 5⟩, ["block"]⟩ ∧
      (∃ miss ∈ misses maxNesting "a\x7bb.".toList, miss.offset = 4) ∧
      (∀ miss ∈ misses maxNesting "a\x7bb.".toList, miss.offset ≤ 4) ∧
      ["block"] = (((misses maxNesting "a\x7bb.".toList).filter
        fun miss ↦ miss.offset = 4).map Miss.label).eraseDups :=
  have h := eq_error_of_decide (by decide +kernel)
  ⟨h, expected_of_misses h (by decide)⟩

end Document
end TerseMarkup
