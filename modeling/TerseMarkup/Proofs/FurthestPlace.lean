import TerseMarkup.Proofs.Progress
import TerseMarkup.Proofs.Replay

/-!
# Where failures lie

What every attempt to read something keeps to, whatever the rule is: it moves forward, it misses
something only where a token ahead would start, and to find nothing it has to miss something. A
block is refused in the name of the limit. So the furthest failure of a document splits its text
between two characters, and behind the split there is no blank.
-/

namespace TerseMarkup

/-! ### Token starts -/

namespace Cursor

variable {c next : Cursor} {source : List Char}

private theorem byteLength_takeWhile_le (p : Char → Bool) (text : List Char) :
    Text.byteLength (text.takeWhile p) ≤ Text.byteLength text := by
  have h := congrArg Text.byteLength (List.takeWhile_append_dropWhile (p := p) (l := text))
  rw [Text.byteLength_append] at h
  omega

/-- Further on, the next token starts no earlier. -/
theorem LeadsTo.tokenStart_le (h : c.LeadsTo next) : c.tokenStart ≤ next.tokenStart := by
  obtain ⟨passed, hr, ho⟩ := h
  simp only [tokenStart, skipBlanks, blanks]
  rw [hr, ho]
  rw [List.takeWhile_append]
  split
  · rw [Text.byteLength_append]
    omega
  · have hle := byteLength_takeWhile_le Text.isBlank passed
    omega

/-- The start of a token splits a text. -/
theorem LeadsTo.exists_split (h : (start source).LeadsTo c) :
    ∃ before, source = before ++ c.skipBlanks.rest ∧ Text.byteLength before = c.tokenStart := by
  obtain ⟨before, hr, ho⟩ := h.trans c.leadsTo_skipBlanks
  refine ⟨before, hr, ?_⟩
  simpa [start, tokenStart] using ho.symm

end Cursor

/-! ### Furthest failures -/

namespace Furthest

variable {furthest other : Furthest} {c next : Cursor} {n : Nat}

/-- A failure, if there is one, where a token ahead of a cursor would start. -/
def Ahead (furthest : Furthest) (c : Cursor) : Prop :=
  ∀ failure, furthest = some failure → ∃ d, c.LeadsTo d ∧ failure.offset = d.tokenStart

/-- A failure, if there is one, no further than a place. -/
def AtMost (furthest : Furthest) (n : Nat) : Prop :=
  ∀ failure, furthest = some failure → failure.offset ≤ n

/-- Where nothing failed, every failure lies at most at any place. -/
@[simp] theorem atMost_none (n : Nat) : AtMost none n := nofun

/-- A failure lies at most at a place if its offset does. -/
@[simp] theorem atMost_some {failure : Failure} : AtMost (some failure) n ↔ failure.offset ≤ n := by
  simp [AtMost]

/-- Two runs stay before a place if both of them do. -/
@[simp] theorem atMost_append :
    (furthest ++ other).AtMost n ↔ furthest.AtMost n ∧ other.AtMost n := by
  cases furthest with
  | none => exact ⟨fun h ↦ ⟨atMost_none n, h⟩, And.right⟩
  | some earlier =>
    cases other with
    | none => exact ⟨fun h ↦ ⟨h, atMost_none n⟩, And.left⟩
    | some later =>
      change AtMost (some (earlier.merge later)) n ↔ _
      rw [atMost_some, atMost_some, atMost_some, Failure.offset_merge, Nat.max_le]

/-- A production changes what was expected, not where. -/
@[simp] theorem atMost_enclose {p : Production} {succeeded : Bool} :
    (furthest.enclose p succeeded).AtMost n ↔ furthest.AtMost n := by
  cases succeeded with
  | true => exact Iff.rfl
  | false => cases furthest <;> simp [enclose, AtMost]

/-- Where nothing failed, every failure is ahead. -/
theorem ahead_none (c : Cursor) : Ahead none c := nofun

private theorem Ahead.of_leadsTo (h : furthest.Ahead next) (hl : c.LeadsTo next) :
    furthest.Ahead c := by
  intro failure hf
  obtain ⟨d, hd, ho⟩ := h failure hf
  exact ⟨d, hl.trans hd, ho⟩

private theorem Ahead.append (h : furthest.Ahead c) (h' : other.Ahead c) :
    (furthest ++ other).Ahead c := by
  cases furthest with
  | none => exact h'
  | some earlier =>
    cases other with
    | none => exact h
    | some later =>
      intro failure hf
      obtain rfl : earlier.merge later = failure := Option.some.inj hf
      rw [Failure.offset_merge]
      rcases Nat.le_total earlier.offset later.offset with hle | hle
      · rw [Nat.max_eq_right hle]
        exact h' later rfl
      · rw [Nat.max_eq_left hle]
        exact h earlier rfl

private theorem Ahead.enclose (h : furthest.Ahead c) (p : Production) (succeeded : Bool) :
    (furthest.enclose p succeeded).Ahead c := by
  cases succeeded with
  | true => exact h
  | false =>
    intro failure hf
    obtain ⟨inner, hi, rfl⟩ := Option.map_eq_some_iff.mp hf
    exact h inner hi

private theorem exists_append_eq_some_right {failure : Failure} (h : other = some failure) :
    ∃ failure', furthest ++ other = some failure' := by
  subst h
  cases furthest with
  | none => exact ⟨failure, rfl⟩
  | some earlier => exact ⟨earlier.merge failure, rfl⟩

/-- One more miss is a run of its own. -/
theorem some_miss (furthest : Furthest) (offset : Nat) (what : Expectation) :
    some (furthest.miss offset what) = furthest ++ (Journal.missed offset what : Furthest) := by
  cases furthest <;> rfl

end Furthest

/-! ### Attempts -/

/-- What every attempt of the grammar at a cursor keeps to. -/
structure Attempt.Regular {α : Type} (limit : Nat) (c : Cursor) (a : Attempt Furthest α) :
    Prop where
  leads : ∀ value next, a.outcome = .found value next → c.LeadsTo next
  ahead : a.journal.Ahead c
  missed : a.outcome = .nothing → ∃ failure, a.journal = some failure
  refused : ∀ mark, a.outcome = .tooDeep mark → mark.limit = limit

namespace Attempt.Regular

variable {α : Type} {limit : Nat} {c next : Cursor} {a : Attempt Furthest α} {j : Furthest}

/-- An attempt behind a run that has moved to its start. -/
private theorem behind (h : Regular limit next a) (hl : c.LeadsTo next) (hj : j.Ahead c) :
    Regular limit c ⟨a.outcome, j ++ a.journal⟩ where
  leads value last hf := hl.trans (h.leads value last hf)
  ahead := hj.append (h.ahead.of_leadsTo hl)
  missed hn := by
    obtain ⟨failure, hf⟩ := h.missed hn
    exact Furthest.exists_append_eq_some_right hf
  refused := h.refused

/-- An attempt that finds something is regular if it goes forward and fails ahead only. -/
theorem found {value : α} (hl : c.LeadsTo next) (hj : j.Ahead c) :
    Regular limit c ⟨.found value next, j⟩ where
  leads _ _ hf := by
    obtain ⟨-, rfl⟩ := Outcome.found.inj hf
    exact hl
  ahead := hj
  missed := nofun
  refused := nofun

private theorem nothing {failure : Failure} (hj : Furthest.Ahead (some failure) c) :
    Regular limit c (⟨.nothing, some failure⟩ : Attempt Furthest α) where
  leads := nofun
  ahead := hj
  missed _ := ⟨failure, rfl⟩
  refused := nofun

private theorem tooDeep {mark : TooDeep} (hj : j.Ahead c) (hm : mark.limit = limit) :
    Regular limit c (⟨.tooDeep mark, j⟩ : Attempt Furthest α) where
  leads := nofun
  ahead := hj
  missed := nofun
  refused _ he := by
    obtain rfl := Outcome.tooDeep.inj he
    exact hm

/-- The failure behind which nothing was found. -/
theorem exists_missed (h : Regular limit c a) (hn : a.outcome = .nothing) :
    ∃ failure, a.journal = some failure ∧ c.tokenStart ≤ failure.offset := by
  obtain ⟨failure, hf⟩ := h.missed hn
  obtain ⟨d, hl, ho⟩ := h.ahead failure hf
  exact ⟨failure, hf, ho ▸ hl.tokenStart_le⟩

end Attempt.Regular

namespace Rule

/-- To keep to this is kept by every way to compose rules. -/
def regular (limit : Nat) : AttemptRelation Furthest Furthest where
  At c a _ := a.Regular limit c
  pure value c := .found (.refl c) (Furthest.ahead_none c)
  bind {_ _ first _ second _} hf hs c := by
    have hc := hf c
    rcases hr : first c with ⟨outcome, journal⟩
    rw [hr] at hc
    cases outcome with
    | found value next =>
      rw [bind_of_found hr]
      exact (hs value next).behind (hc.leads value next rfl) hc.ahead
    | nothing =>
      rw [bind_of_nothing hr]
      obtain ⟨failure, rfl⟩ := hc.missed rfl
      exact .nothing hc.ahead
    | tooDeep mark =>
      rw [bind_of_tooDeep hr]
      exact .tooDeep hc.ahead (hc.refused mark rfl)
  orElse {_ first second _ _} hf hs c := by
    have hc := hf c
    rcases hr : first c with ⟨outcome, journal⟩
    rw [hr] at hc
    cases outcome with
    | found value next =>
      rw [orElse_of_found hr]
      exact hc
    | nothing =>
      rw [orElse_of_nothing hr]
      exact (hs c).behind (.refl c) hc.ahead
    | tooDeep mark =>
      rw [orElse_of_tooDeep hr]
      exact hc
  optional {_ rule _} h c := by
    have hc := h c
    rcases hr : rule c with ⟨outcome, journal⟩
    rw [hr] at hc
    cases outcome with
    | found value next =>
      rw [optional_of_found hr]
      exact .found (hc.leads value next rfl) hc.ahead
    | nothing =>
      rw [optional_of_nothing hr]
      exact .found (.refl c) hc.ahead
    | tooDeep mark =>
      rw [optional_of_tooDeep hr]
      exact .tooDeep hc.ahead (hc.refused mark rfl)
  named p rule _ h c := by
    have hc := h c
    refine ⟨hc.leads, hc.ahead.enclose p _, fun hn ↦ ?_, hc.refused⟩
    obtain ⟨failure, hf⟩ := hc.missed hn
    have hn' : (rule c).outcome = .nothing := hn
    refine ⟨⟨failure.offset, [.production p]⟩, ?_⟩
    simp only [named]
    rw [hn', hf]
    rfl
  terminal t c := by
    cases hr : c.read? t with
    | none =>
      rw [terminal_of_none hr]
      refine .nothing fun failure hf ↦ ⟨c, .refl c, ?_⟩
      obtain rfl := Option.some.inj hf
      rfl
    | some found =>
      rw [terminal_of_read hr]
      exact .found (Cursor.leadsTo_of_read? hr) (Furthest.ahead_none c)
  tokenStart c := .found (.refl c) (Furthest.ahead_none c)

end Rule

/-- The insides of blocks keep to this, as long as the limit is that of all blocks around them. -/
theorem Grammar.regular_within {limit room depth : Nat} (h : room + depth = limit) :
    (Rule.regular limit).rules.Insides (Inside.within room depth) (Inside.within room depth) := by
  induction room generalizing depth with
  | zero =>
    have hm (opener : Nat) : (⟨opener, depth⟩ : TooDeep).limit = limit := by
      simp only
      omega
    exact ⟨fun opener c ↦ .tooDeep (Furthest.ahead_none c) (hm opener),
      fun opener c ↦ .tooDeep (Furthest.ahead_none c) (hm opener)⟩
  | succ room ih =>
    have deeper := (ih (show room + (depth + 1) = limit by omega)).blocks
    have ho (opener : Nat) : (Rule.regular limit).rules.Holds (Rule.opened opener (depth + 1))
        (Rule.opened opener (depth + 1)) :=
      fun c ↦ .found (.refl c) (Furthest.ahead_none c)
    exact ⟨fun opener ↦ (Rule.regular limit).bind (ho opener) fun _ ↦ deeper.statement,
      fun opener ↦ (Rule.regular limit).bind (ho opener) fun _ ↦ deeper.statements⟩

/-! ### Documents -/

namespace Document

variable {limit : Nat} {source : List Char}

/-- Reading the statements of a text keeps to this. -/
theorem regular_attempt (limit : Nat) (source : List Char) :
    (attempt Furthest limit source).Regular limit (.start source) :=
  (Grammar.regular_within (Nat.add_zero limit)).blocks.statements (.start source)

/-- A failure at the start of a token is reported there. -/
theorem offset_report {failure : Failure} {d : Cursor} (hl : (Cursor.start source).LeadsTo d)
    (ho : failure.offset = d.tokenStart) :
    (report source failure).position.offset = failure.offset := by
  obtain ⟨before, hs, hb⟩ := hl.exists_split
  rw [report, ho, ← hb]
  conv => lhs; rw [hs]
  exact Position.offset_locate_append before _

variable {values : List Statement} {last : Cursor} {furthest : Furthest}

/-- The statements of a text are read from its start onwards. -/
theorem leadsTo_of_found (h : attempt Furthest limit source = ⟨.found values last, furthest⟩) :
    (Cursor.start source).LeadsTo last :=
  (regular_attempt limit source).leads values last (congrArg Attempt.outcome h)

/-- The failure of a text that does not end behind its statements lies at the start of a token. -/
theorem exists_leadsTo_miss (h : attempt Furthest limit source = ⟨.found values last, furthest⟩) :
    ∃ d, (Cursor.start source).LeadsTo d ∧
      (furthest.miss last.tokenStart .endOfText).offset = d.tokenStart := by
  have hlast : Furthest.Ahead (Journal.missed last.tokenStart .endOfText) (.start source) := by
    intro failure hf
    obtain rfl := Option.some.inj hf
    exact ⟨last, leadsTo_of_found h, rfl⟩
  have hahead := (regular_attempt limit source).ahead
  rw [h] at hahead
  exact hahead.append hlast _ (Furthest.some_miss _ _ _).symm

/-- A document that cannot be read was tried up to where its statements end, unless a block was too
deep. -/
theorem exists_of_parseWithin_eq_error {error : SyntaxError}
    (h : parseWithin limit source = .error error) :
    (∃ mark furthest, attempt Furthest limit source = ⟨.tooDeep mark, furthest⟩ ∧
      error = report source ⟨mark.opener, [.nestingAtMost limit]⟩) ∨
    ∃ values last furthest, attempt Furthest limit source = ⟨.found values last, furthest⟩ ∧
      last.skipBlanks.rest ≠ [] ∧
        error = report source (furthest.miss last.tokenStart .endOfText) := by
  have hn := outcome_attempt_ne_nothing Furthest limit source
  have hregular := regular_attempt limit source
  rcases ha : attempt Furthest limit source with ⟨outcome, furthest⟩
  rw [ha] at hn hregular
  cases outcome with
  | nothing => exact absurd rfl hn
  | tooDeep mark =>
    rw [parseWithin_of_tooDeep ha] at h
    refine .inl ⟨mark, furthest, rfl, ?_⟩
    rw [← hregular.refused mark rfl]
    exact (Except.error.inj h).symm
  | found values last =>
    rw [parseWithin_of_found ha] at h
    split at h
    · cases h
    · next hr => exact .inr ⟨values, last, furthest, rfl, hr, (Except.error.inj h).symm⟩

end Document
end TerseMarkup
