import TerseMarkup.Proofs.FurthestPlace
import TerseMarkup.Proofs.RecursiveDescent
import TerseMarkup.Proofs.Seeking

/-!
# What a step of a parser leaves behind

Each step of a parser keeps the text, stays between two characters, never goes back behind where it
started, restores the number of open blocks and keeps a mark. All this holds of composed steps
because it holds of their parts, and so does the other half of what is proved here: as long as no
block was too deep, a step ends as the rule of the grammar for it does, and it writes what the rule
writes. This is said of any journal that a parser keeps in its state.

That a step has a result at all is part of each statement. The bytes ahead bound how many rounds it
takes, since each round of a loop comes behind a token.
-/

namespace TerseMarkup

/-! ### States -/

namespace Parser

/-- A journal that a parser keeps in its state. -/
class Writes (ρ : Type) [Journal ρ] extends LawfulJournal ρ where
  /-- What is written so far. -/
  written : Parser → ρ
  written_congr : ∀ {s later : Parser}, later.furthest = s.furthest → later.log = s.log →
    written later = written s
  written_expect : ∀ (s : Parser) (offset : Nat) (what : Expectation),
    written (Parsing.expect s offset what) = written s ++ Journal.missed offset what
  /-- A production adds what was written inside of it, enclosed. -/
  written_leave : ∀ {s later : Parser} {p : Production} {journal : ρ} (succeeded : Bool),
    written later = written (s.enter p) ++ journal →
      written (later.leave p succeeded s.furthest) =
        written s ++ Journal.enclose p succeeded journal
  /-- Blocks leave nothing in the journal when they open. -/
  written_opened : ∀ (s : Parser) (opener depth : Nat),
    written s ++ Journal.opened opener depth = written s

export Writes (written)

instance : Writes Furthest where
  written := furthest
  written_congr h _ := h
  written_expect s offset what := Furthest.some_miss s.furthest offset what
  written_leave {s _ p _} succeeded h := congrArg (s.furthest ++ Furthest.enclose p succeeded ·) h
  written_opened s _ _ := LawfulJournal.append_empty s.furthest

variable {ρ : Type} [Journal ρ] [Writes ρ] {n : Nat} {s later last : Parser} {c d : Cursor}

/-- A parser between two characters, with less than so many bytes ahead and no more open blocks than
are allowed. -/
structure Ready (n : Nat) (s : Parser) (c : Cursor) : Prop where
  cursor : s.scanner.cursor? = some c
  ahead : Text.byteLength s.scanner.source < s.scanner.offset + n
  depth_le : s.depth ≤ maxNesting
  raised_le : ∀ depth ∈ s.raised, depth ≤ maxNesting

/-- What each step keeps. -/
structure Keeps (s later : Parser) : Prop where
  source_eq : later.scanner.source = s.scanner.source
  cursor : ∃ c, later.scanner.cursor? = some c
  offset_le : s.scanner.offset ≤ later.scanner.offset
  depth_eq : later.depth = s.depth
  raised_le : ∀ depth ∈ later.raised, depth ≤ maxNesting
  tooDeep_eq : ∀ opener, s.tooDeep = some opener → later.tooDeep = some opener

/-- A step ended as an attempt of a rule did. Behind a mark only the mark matters. -/
inductive Agrees {α : Type} (s : Parser) : Attempt ρ α → Option α → Parser → Prop
  | found {value : α} {next : Cursor} {journal : ρ} {later : Parser} :
    later.scanner.cursor? = some next → later.tooDeep = none →
      written later = written s ++ journal →
        Agrees s ⟨.found value next, journal⟩ (some value) later
  | nothing {journal : ρ} {later : Parser} :
    later.tooDeep = none → written later = written s ++ journal →
      Agrees s ⟨.nothing, journal⟩ none later
  | tooDeep {opener : Nat} {journal : ρ} {result : Option α} {later : Parser} :
    later.tooDeep = some opener → Agrees s ⟨.tooDeep ⟨opener, maxNesting⟩, journal⟩ result later

private theorem not_ready_zero : ¬Ready 0 s c := by
  intro h
  have hle := Seeker.offset_le_of_cursor? h.cursor
  have hlt := h.ahead
  omega

/-- To do nothing keeps everything. -/
theorem Ready.keeps (h : Ready n s c) : Keeps s s :=
  ⟨rfl, ⟨c, h.cursor⟩, Nat.le_refl _, rfl, h.raised_le, fun _ ↦ id⟩

/-- What two steps keep, they keep one after the other. -/
theorem Keeps.trans (h : Keeps s later) (h' : Keeps later last) : Keeps s last where
  source_eq := h'.source_eq.trans h.source_eq
  cursor := h'.cursor
  offset_le := h.offset_le.trans h'.offset_le
  depth_eq := h'.depth_eq.trans h.depth_eq
  raised_le := h'.raised_le
  tooDeep_eq opener hmark := h'.tooDeep_eq opener (h.tooDeep_eq opener hmark)

private theorem Ready.mono {m : Nat} (h : Ready n s c) (hm : n ≤ m) : Ready m s c where
  cursor := h.cursor
  ahead := h.ahead.trans_le (Nat.add_le_add_left hm _)
  depth_le := h.depth_le
  raised_le := h.raised_le

/-- Whether a parser is ready does not depend on what it has written. -/
private theorem Ready.enter (h : Ready n s c) (p : Production) : Ready n (s.enter p) c :=
  ⟨h.cursor, h.ahead, h.depth_le, h.raised_le⟩

/-- A parser stays ready behind a step. -/
theorem Ready.of_keeps (h : Ready n s c) (hk : Keeps s later)
    (hd : later.scanner.cursor? = some d) : Ready n later d where
  cursor := hd
  ahead := by
    have hlt := h.ahead
    have hle := hk.offset_le
    rw [hk.source_eq]
    omega
  depth_le := hk.depth_eq.trans_le h.depth_le
  raised_le := hk.raised_le

/-- One token further, there is one byte less ahead. -/
private theorem Ready.further (h : Ready n s c) (hk : Keeps s later)
    (hd : later.scanner.cursor? = some d) (ho : s.scanner.offset < later.scanner.offset) :
    Ready (n - 1) later d where
  cursor := hd
  ahead := by
    have hlt := h.ahead
    rw [hk.source_eq]
    omega
  depth_le := hk.depth_eq.trans_le h.depth_le
  raised_le := hk.raised_le

/-- The place where a step started can be gone back to. -/
private theorem Keeps.seek_offset (h : Keeps s later) (hc : s.scanner.cursor? = some c) :
    later.scanner.seek s.scanner.offset = s.scanner := by
  have hle := Seeker.offset_le_of_cursor? hc
  rw [Seeker.seek, h.source_eq, Nat.min_eq_left hle]

/-- A step agrees with a sequence if it goes on where the first part ended. -/
private theorem Agrees.after {α : Type} {attempt : Attempt ρ α} {result : Option α} {journal : ρ}
    (h : later.Agrees attempt result last) (hf : written later = written s ++ journal) :
    s.Agrees ⟨attempt.outcome, journal ++ attempt.journal⟩ result last := by
  cases h with
  | found hc hm hj =>
    rw [hf, LawfulJournal.append_assoc] at hj
    exact .found hc hm hj
  | nothing hm hj =>
    rw [hf, LawfulJournal.append_assoc] at hj
    exact .nothing hm hj
  | tooDeep hm => exact .tooDeep hm

end Parser

/-! ### Steps -/

namespace Parsing

open TerseMarkup.Parser

variable {ρ α β : Type} [Journal ρ] [Writes ρ] {n : Nat} {s later : Parser} {c : Cursor}
  {result : Option α} {value : α}

/-- A step has a result. It keeps what is to be kept, and it agrees with an attempt of a rule as
long as no block was too deep. -/
def Ends (step : Parsing α) (s : Parser) (attempt : Attempt ρ α) : Prop :=
  ∃ result later, step s = some (result, later) ∧ s.Keeps later ∧
    (s.tooDeep = none → s.Agrees attempt result later)

/-- A step that ends well wherever a parser is ready for it. The rule depends on how many blocks are
open. -/
def Safe (n : Nat) (step : Parsing α) (rule : Nat → Rule ρ α) : Prop :=
  ∀ ⦃s c⦄, Ready n s c → step.Ends s (rule s.depth c)

/-- A safe step that goes further to find something. -/
structure Moving (n : Nat) (step : Parsing α) (rule : Nat → Rule ρ α) : Prop where
  safe : Safe n step rule
  moves : ∀ {s c value later}, Ready n s c → step s = some (some value, later) →
    s.scanner.offset < later.scanner.offset

/-- A moving step that stays where it is if it fails. -/
structure Framed (n : Nat) (step : Parsing α) (rule : Nat → Rule ρ α) : Prop
    extends Moving n step rule where
  stays : ∀ {s c later}, Ready n s c → step s = some (none, later) → later.scanner = s.scanner

variable {step first : Parsing α} {second : α → Parsing β} {rule : Nat → Rule ρ α}
  {rule' : α → Nat → Rule ρ β}

private theorem Ends.keeps {attempt : Attempt ρ α} (h : step.Ends s attempt)
    (hr : step s = some (result, later)) : s.Keeps later := by
  obtain ⟨_, _, hrun, hkeep, -⟩ := h
  rw [hr] at hrun
  cases hrun
  exact hkeep

private theorem Safe.mono {m : Nat} (h : Safe n step rule) (hm : m ≤ n) : Safe m step rule :=
  fun _ _ hready ↦ h (hready.mono hm)

/-- A step that is framed with more bytes ahead is framed with fewer. -/
theorem Framed.mono {m : Nat} (h : Framed n step rule) (hm : m ≤ n) : Framed m step rule where
  safe := h.safe.mono hm
  moves hready := h.moves (hready.mono hm)
  stays hready := h.stays (hready.mono hm)

/-- With no bytes ahead, not even the end, there is no state to be safe in. -/
theorem safe_zero (step : Parsing α) (rule : Nat → Rule ρ α) : Safe 0 step rule :=
  fun _ _ hready ↦ absurd hready not_ready_zero

/-- With no bytes ahead, not even the end, there is no state to be framed in. -/
theorem framed_zero (step : Parsing α) (rule : Nat → Rule ρ α) : Framed 0 step rule where
  safe := safe_zero step rule
  moves hready := absurd hready not_ready_zero
  stays hready := absurd hready not_ready_zero

/-! ### Sequences -/

/-- A step goes on with what the first one found. -/
theorem bind_of_some (h : first s = some (some value, later)) :
    (first >>= second) s = second value later := by
  change andThen first second s = _
  simp only [andThen, h]

private theorem bind_of_none (h : first s = some (none, later)) :
    (first >>= second) s = some (none, later) := by
  change andThen first second s = _
  simp only [andThen, h]

private theorem exists_of_bind_eq_some {found : β} {last : Parser}
    (h : (first >>= second) s = some (some found, last)) :
    ∃ value later, first s = some (some value, later) ∧
      second value later = some (some found, last) := by
  change andThen first second s = _ at h
  rcases hf : first s with _ | ⟨_ | value, later⟩ <;> simp only [andThen, hf] at h
  · cases h
  · cases h
  · exact ⟨value, later, rfl, h⟩

private theorem cases_of_bind_eq_none {last : Parser}
    (h : (first >>= second) s = some (none, last)) : first s = some (none, last) ∨
      ∃ value later, first s = some (some value, later) ∧
        second value later = some (none, last) := by
  change andThen first second s = _ at h
  rcases hf : first s with _ | ⟨_ | value, later⟩ <;> simp only [andThen, hf] at h
  · cases h
  · cases h
    exact .inl rfl
  · exact .inr ⟨value, later, rfl, h⟩

private theorem Ends.bind {rule : Rule ρ α} {rule' : α → Rule ρ β}
    (h : first.Ends s (rule c))
    (hs : ∀ value later next, first s = some (some value, later) → s.Keeps later →
      later.scanner.cursor? = some next → (second value).Ends later (rule' value next)) :
    (first >>= second).Ends s ((rule >>= rule') c) := by
  obtain ⟨result, later, hrun, hkeep, hagree⟩ := h
  cases result with
  | none =>
    refine ⟨none, later, bind_of_none hrun, hkeep, fun hmark ↦ ?_⟩
    have ha := hagree hmark
    generalize hr : rule c = attempt at ha
    cases ha with
    | nothing hm hj =>
      rw [Rule.bind_of_nothing hr]
      exact .nothing hm hj
    | tooDeep hm =>
      rw [Rule.bind_of_tooDeep hr]
      exact .tooDeep hm
  | some value =>
    obtain ⟨next, hnext⟩ := hkeep.cursor
    obtain ⟨result, last, hrun', hkeep', hagree'⟩ := hs value later next hrun hkeep hnext
    refine ⟨result, last, (bind_of_some hrun).trans hrun', hkeep.trans hkeep', fun hmark ↦ ?_⟩
    have ha := hagree hmark
    generalize hr : rule c = attempt at ha
    cases ha with
    | found hc hm hj =>
      obtain rfl := Option.some.inj (hnext.symm.trans hc)
      rw [Rule.bind_of_found hr]
      exact (hagree' hm).after hj
    | tooDeep hm =>
      -- The mark was left in the first part, and the second part keeps it.
      rw [Rule.bind_of_tooDeep hr]
      exact .tooDeep (hkeep'.tooDeep_eq _ hm)

/-- To find a value and change nothing is safe. -/
theorem Safe.pure (value : α) : Safe n (pure value) fun _ ↦ (pure value : Rule ρ α) := by
  intro s c hready
  refine ⟨some value, s, rfl, hready.keeps, fun hmark ↦ .found hready.cursor hmark ?_⟩
  exact (LawfulJournal.append_empty (written s)).symm

/-- Two safe steps are safe one after the other. -/
theorem Safe.bind (hf : Safe n first rule) (hs : ∀ value, Safe n (second value) (rule' value)) :
    Safe n (first >>= second) fun depth ↦ rule depth >>= fun value ↦ rule' value depth := by
  intro s c hready
  apply (hf hready).bind
  intro value later next _ hkeep hnext
  rw [← hkeep.depth_eq]
  exact hs value (hready.of_keeps hkeep hnext)

/-- Behind a step that has gone further, the others need one round less. -/
theorem Moving.bind (hf : Moving n first rule)
    (hs : ∀ value, Safe (n - 1) (second value) (rule' value)) :
    Moving n (first >>= second) fun depth ↦ rule depth >>= fun value ↦ rule' value depth where
  safe := by
    intro s c hready
    apply (hf.safe hready).bind
    intro value later next hrun hkeep hnext
    rw [← hkeep.depth_eq]
    exact hs value (hready.further hkeep hnext (hf.moves hready hrun))
  moves := by
    intro s c found last hready hrun
    obtain ⟨value, later, hfirst, hsecond⟩ := exists_of_bind_eq_some hrun
    have hkeep := (hf.safe hready).keeps hfirst
    have hmoves := hf.moves hready hfirst
    obtain ⟨next, hnext⟩ := hkeep.cursor
    have hkeep' := (hs value (hready.further hkeep hnext hmoves)).keeps hsecond
    exact hmoves.trans_le hkeep'.offset_le

/-- A safe step before one that goes further goes further. -/
theorem Safe.bind_moving (hf : Safe n first rule)
    (hs : ∀ value, Moving n (second value) (rule' value)) :
    Moving n (first >>= second) fun depth ↦ rule depth >>= fun value ↦ rule' value depth where
  safe := hf.bind fun value ↦ (hs value).safe
  moves := by
    intro s c found last hready hrun
    obtain ⟨value, later, hfirst, hsecond⟩ := exists_of_bind_eq_some hrun
    have hkeep := (hf hready).keeps hfirst
    obtain ⟨next, hnext⟩ := hkeep.cursor
    exact hkeep.offset_le.trans_lt ((hs value).moves (hready.of_keeps hkeep hnext) hsecond)

private theorem Safe.map (f : α → β) (h : Safe n step rule) :
    Safe n (f <$> step) fun depth ↦ f <$> rule depth :=
  h.bind fun value ↦ Safe.pure (f value)

/-- What is made of a value does not matter to where a step ends. -/
theorem Moving.map (f : α → β) (h : Moving n step rule) :
    Moving n (f <$> step) fun depth ↦ f <$> rule depth :=
  h.bind fun value ↦ Safe.pure (f value)

/-- What is made of a value does not matter to what a step leaves behind. -/
theorem Framed.map (f : α → β) (h : Framed n step rule) :
    Framed n (f <$> step) fun depth ↦ f <$> rule depth where
  toMoving := h.toMoving.map f
  stays := by
    intro s c later hready hrun
    rcases cases_of_bind_eq_none hrun with hstep | ⟨value, last, -, hpure⟩
    · exact h.stays hready hstep
    · cases hpure

/-! ### Alternatives -/

private theorem orElse_of_some {other : Parsing α} (h : step s = some (some value, later)) :
    orElse step other s = some (some value, later) := by
  simp only [orElse, h]

private theorem orElse_of_none {other : Parsing α} (h : step s = some (none, later)) :
    orElse step other s = other later := by
  simp only [orElse, h]

private theorem cases_of_orElse_eq_some {other : Parsing α} {last : Parser}
    (h : orElse step other s = some (some value, last)) :
    step s = some (some value, last) ∨
      ∃ later, step s = some (none, later) ∧ other later = some (some value, last) := by
  rcases hs : step s with _ | ⟨_ | found, later⟩ <;> simp only [orElse, hs] at h
  · cases h
  · exact .inr ⟨later, rfl, h⟩
  · exact .inl h

private theorem Ends.orElse {other : Parsing α} {rule rule' : Rule ρ α} (h : step.Ends s (rule c))
    (ho : ∀ later, step s = some (none, later) → s.Keeps later → other.Ends later (rule' c)) :
    (orElse step other).Ends s (Rule.orElse rule rule' c) := by
  obtain ⟨result, later, hrun, hkeep, hagree⟩ := h
  cases result with
  | some value =>
    refine ⟨some value, later, orElse_of_some hrun, hkeep, fun hmark ↦ ?_⟩
    have ha := hagree hmark
    generalize hr : rule c = attempt at ha
    cases ha with
    | found hc hm hj =>
      rw [Rule.orElse_of_found hr]
      exact .found hc hm hj
    | tooDeep hm =>
      rw [Rule.orElse_of_tooDeep hr]
      exact .tooDeep hm
  | none =>
    obtain ⟨result, last, hrun', hkeep', hagree'⟩ := ho later hrun hkeep
    refine ⟨result, last, (orElse_of_none hrun).trans hrun', hkeep.trans hkeep', fun hmark ↦ ?_⟩
    have ha := hagree hmark
    generalize hr : rule c = attempt at ha
    cases ha with
    | nothing hm hj =>
      rw [Rule.orElse_of_nothing hr]
      exact (hagree' hm).after hj
    | tooDeep hm =>
      rw [Rule.orElse_of_tooDeep hr]
      exact .tooDeep (hkeep'.tooDeep_eq _ hm)

/-- An alternative starts where the first one failed, since that one went back. -/
theorem Moving.orElse {other : Parsing α} {rule' : Nat → Rule ρ α}
    (hf : Framed n step rule) (ho : Moving n other rule') :
    Moving n (orElse step other) fun depth ↦ Rule.orElse (rule depth) (rule' depth) := by
  have hready' {s later : Parser} {c : Cursor} (hready : Ready n s c) (hkeep : s.Keeps later)
      (hrun : step s = some (none, later)) : Ready n later c := by
    apply hready.of_keeps hkeep
    rw [hf.stays hready hrun]
    exact hready.cursor
  constructor
  · intro s c hready
    apply (hf.safe hready).orElse
    intro later hrun hkeep
    rw [← hkeep.depth_eq]
    exact ho.safe (hready' hready hkeep hrun)
  · intro s c value last hready hrun
    rcases cases_of_orElse_eq_some hrun with hstep | ⟨later, hstep, hother⟩
    · exact hf.moves hready hstep
    · have hkeep := (hf.safe hready).keeps hstep
      exact hkeep.offset_le.trans_lt (ho.moves (hready' hready hkeep hstep) hother)

/-! ### Options and repetitions -/

section

variable {test : Parser → Bool}

private theorem optionalIf_of_true (ht : test s = true) (h : step s = some (result, later)) :
    optionalIf test step s = some (some result, later) := by
  rw [optionalIf, if_pos ht, h, Option.map_some]

private theorem optionalIf_of_false (ht : test s = false) :
    optionalIf test step s = some (some none, s) := by
  rw [optionalIf, ht, if_neg Bool.false_ne_true]

private theorem eq_of_optionalIf_eq_some
    (h : optionalIf test step s = some (some (some value), later)) :
    step s = some (some value, later) := by
  cases htest : test s with
  | false =>
    rw [optionalIf_of_false htest] at h
    cases h
  | true =>
    rw [optionalIf, if_pos htest] at h
    obtain ⟨⟨_, _⟩, hstep, he⟩ := Option.map_eq_some_iff.mp h
    cases he
    exact hstep

/-- An option that is never tried may be left out. -/
theorem Safe.skip {next : Option α → Parsing β} {rule : Nat → Rule ρ β}
    (ht : ∀ s, test s = false) (h : Safe n (next none) rule) :
    Safe n (optionalIf test step >>= next) rule := by
  intro s c hready
  obtain ⟨result, later, hrun, hends⟩ := h hready
  exact ⟨result, later, (bind_of_some (optionalIf_of_false (ht s))).trans hrun, hends⟩

private theorem Safe.optionalIf (ht : ∀ s, s.tooDeep = none → test s = true)
    (h : Framed n step rule) : Safe n (optionalIf test step) fun depth ↦ (rule depth).optional := by
  intro s c hready
  cases htest : test s with
  | false =>
    refine ⟨some none, s, optionalIf_of_false htest, hready.keeps, fun hmark ↦ ?_⟩
    rw [ht s hmark] at htest
    cases htest
  | true =>
    obtain ⟨result, later, hrun, hkeep, hagree⟩ := h.safe hready
    refine ⟨some result, later, optionalIf_of_true htest hrun, hkeep, fun hmark ↦ ?_⟩
    change s.Agrees ((rule s.depth).optional c) _ _
    have ha := hagree hmark
    generalize hr : rule s.depth c = attempt at ha
    cases ha with
    | found hc hm hj =>
      rw [Rule.optional_of_found hr]
      exact .found hc hm hj
    | nothing hm hj =>
      rw [Rule.optional_of_nothing hr]
      refine .found ?_ hm hj
      rw [h.stays hready hrun]
      exact hready.cursor
    | tooDeep hm =>
      rw [Rule.optional_of_tooDeep hr]
      exact .tooDeep hm

/-- An option is safe, since without a value it stays where it is. -/
theorem Framed.optional (h : Framed n step rule) :
    Safe n (optional step) fun depth ↦ (rule depth).optional :=
  Safe.optionalIf (fun _ _ ↦ rfl) h

/-- What follows an option needs one round less if there was something. -/
theorem Safe.optionalIf_bind {next : Option α → Parsing β}
    {rule' : Option α → Nat → Rule ρ β} (ht : ∀ s, s.tooDeep = none → test s = true)
    (h : Framed n step rule)
    (hsome : ∀ value, Safe (n - 1) (next (some value)) (rule' (some value)))
    (hnone : Safe n (next none) (rule' none)) :
    Safe n (Parsing.optionalIf test step >>= next)
      fun depth ↦ (rule depth).optional >>= fun value ↦ rule' value depth := by
  intro s c hready
  apply (Safe.optionalIf ht h hready).bind
  intro value later d hrun hkeep hd
  rw [← hkeep.depth_eq]
  cases value with
  | none => exact hnone (hready.of_keeps hkeep hd)
  | some value =>
    apply hsome value
    apply hready.further hkeep hd
    exact h.moves hready (eq_of_optionalIf_eq_some hrun)

/-- A repetition ends, since each of its rounds goes further. -/
theorem Safe.repeated (ht : ∀ s, s.tooDeep = none → test s = true)
    (hs : ∀ depth, (rule depth).Shortens) {rounds : Nat} (h : Framed n step rule)
    (hn : n ≤ rounds) : Safe n (repeated test step rounds) fun depth ↦ (rule depth).many := by
  induction rounds generalizing n with
  | zero =>
    obtain rfl := Nat.le_zero.mp hn
    exact safe_zero _ _
  | succ rounds ih =>
    have hmany : (fun depth ↦ (rule depth).many) = fun depth ↦ (rule depth).optional >>=
        fun result ↦ result.elim (Pure.pure []) fun value ↦ (value :: ·) <$> (rule depth).many :=
      funext fun depth ↦ Rule.many_eq_bind (hs depth)
    rw [hmany]
    apply Safe.optionalIf_bind ht h
    · intro value
      exact (ih (h.mono (Nat.sub_le n 1)) (by omega)).map (value :: ·)
    · exact Safe.pure []

end

/-! ### Steps that go back -/

private theorem attempt_of_some (h : step s = some (some value, later)) :
    attempt step s = some (some value, later) := by
  simp only [attempt, h]

private theorem attempt_of_none (h : step s = some (none, later)) (hk : s.Keeps later)
    (hc : s.scanner.cursor? = some c) :
    attempt step s = some (none, { later with scanner := s.scanner }) := by
  simp only [attempt, h, hk.seek_offset hc]

private theorem eq_of_attempt_eq_some (h : attempt step s = some (some value, later)) :
    step s = some (some value, later) := by
  rcases hs : step s with _ | ⟨_ | found, last⟩ <;> simp only [attempt, hs] at h
  · cases h
  · cases h
  · exact h

private theorem exists_of_attempt_eq_none (h : attempt step s = some (none, later)) :
    ∃ last, step s = some (none, last) ∧
      later.scanner = last.scanner.seek s.scanner.offset := by
  rcases hs : step s with _ | ⟨_ | found, last⟩ <;> simp only [attempt, hs] at h
  · cases h
  · cases h
    exact ⟨last, rfl, rfl⟩
  · cases h

/-- A step that goes back when it fails is framed. -/
theorem Moving.attempt (h : Moving n step rule) : Framed n (attempt step) rule where
  safe := by
    intro s c hready
    obtain ⟨result, later, hrun, hkeep, hagree⟩ := h.safe hready
    cases result with
    | some value => exact ⟨some value, later, attempt_of_some hrun, hkeep, hagree⟩
    | none =>
      refine ⟨none, _, attempt_of_none hrun hkeep hready.cursor, ?_, fun hmark ↦ ?_⟩
      · exact ⟨rfl, ⟨c, hready.cursor⟩, Nat.le_refl _, hkeep.depth_eq, hkeep.raised_le,
          hkeep.tooDeep_eq⟩
      · have ha := hagree hmark
        generalize rule s.depth c = attempt at ha ⊢
        cases ha with
        | nothing hm hj =>
          refine .nothing hm (.trans ?_ hj)
          exact Writes.written_congr rfl rfl
        | tooDeep hm => exact .tooDeep hm
  moves hready hrun := h.moves hready (eq_of_attempt_eq_some hrun)
  stays := by
    intro s c later hready hrun
    obtain ⟨last, hstep, hseek⟩ := exists_of_attempt_eq_none hrun
    rw [hseek, ((h.safe hready).keeps hstep).seek_offset hready.cursor]

private theorem described_of_attempt {p : Production}
    (h : attempt step (s.enter p) = some (result, later)) :
    described p step s = some (result, later.leave p result.isSome s.furthest) := by
  rw [described, h, Option.map_some]

private theorem exists_of_described {p : Production}
    (h : described p step s = some (result, later)) :
    ∃ inner, attempt step (s.enter p) = some (result, inner) ∧
      later.scanner = inner.scanner := by
  rw [described] at h
  obtain ⟨⟨_, inner⟩, hrun, he⟩ := Option.map_eq_some_iff.mp h
  cases he
  exact ⟨inner, hrun, rfl⟩

/-- A named production is framed, and it writes as the production of the grammar does. -/
theorem Moving.described (p : Production) (h : Moving n step rule) :
    Framed n (described p step) fun depth ↦ Rule.named p (rule depth) where
  safe := by
    intro s c hready
    obtain ⟨result, later, hrun, hkeep, hagree⟩ := h.attempt.safe (hready.enter p)
    refine ⟨result, _, described_of_attempt hrun, ?_, fun hmark ↦ ?_⟩
    · exact ⟨hkeep.source_eq, hkeep.cursor, hkeep.offset_le, hkeep.depth_eq, hkeep.raised_le,
        hkeep.tooDeep_eq⟩
    · have ha : (s.enter p).Agrees (rule s.depth c) result later := hagree hmark
      change s.Agrees ⟨(rule s.depth c).outcome,
        Journal.enclose p (rule s.depth c).outcome.isFound (rule s.depth c).journal⟩ _ _
      generalize rule s.depth c = attempt at ha ⊢
      cases ha with
      | found hc hm hj => exact .found hc hm (Writes.written_leave true hj)
      | nothing hm hj => exact .nothing hm (Writes.written_leave false hj)
      | tooDeep hm => exact .tooDeep hm
  moves := by
    intro s c value later hready hrun
    obtain ⟨inner, hstep, he⟩ := exists_of_described hrun
    have hmoves := h.attempt.moves (hready.enter p) hstep
    rwa [he]
  stays := by
    intro s c later hready hrun
    obtain ⟨inner, hstep, he⟩ := exists_of_described hrun
    have hstays := h.attempt.stays (hready.enter p) hstep
    rwa [he]

/-! ### Blocks -/

private theorem nested_of_marked {opener mark : Nat} (h : s.tooDeep = some mark) :
    nested opener step s = some (none, s) := by
  rw [nested, h, Option.isSome_some, if_pos rfl]

private theorem nested_of_full {opener : Nat} (h : s.tooDeep = none) (hd : s.depth = maxNesting) :
    nested opener step s = some (none, { s with tooDeep := some opener }) := by
  rw [nested, h, Option.isSome_none, if_neg Bool.false_ne_true, if_pos hd]

private theorem nested_of_lt {opener : Nat} (h : s.tooDeep = none) (hd : s.depth < maxNesting)
    (hs : step { s with depth := s.depth + 1, raised := s.raised ++ [s.depth + 1] } =
      some (result, later)) :
    nested opener step s = some (result, { later with depth := later.depth - 1 }) := by
  have hclear : ¬s.tooDeep.isSome = true := by
    rw [h]
    exact Bool.false_ne_true
  rw [nested, if_neg hclear, if_neg hd.ne, hs, Option.map_some]

/-- One more block may open below the limit. -/
private theorem Ready.deeper (h : Ready n s c) (hd : s.depth < maxNesting) :
    Ready n { s with depth := s.depth + 1, raised := s.raised ++ [s.depth + 1] } c where
  cursor := h.cursor
  ahead := h.ahead
  depth_le := hd
  raised_le := by
    intro depth hmem
    rcases List.mem_append.mp hmem with hmem | hmem
    · exact h.raised_le depth hmem
    · rw [List.mem_singleton.mp hmem]
      exact hd

/-- What is written inside of a block is all that a block writes. -/
private theorem written_nested {inner last : Parser} {journal : ρ} {opener depth : Nat}
    (h : written later = written inner ++ journal)
    (hs : inner.furthest = s.furthest ∧ inner.log = s.log)
    (hl : last.furthest = later.furthest ∧ last.log = later.log) :
    written last = written s ++ (Journal.opened opener depth ++ journal) := by
  calc written last
    _ = written later := Writes.written_congr hl.1 hl.2
    _ = written s ++ journal := by rw [h, Writes.written_congr hs.1 hs.2]
    _ = written s ++ (Journal.opened opener depth ++ journal) := by
      rw [← LawfulJournal.append_assoc, Writes.written_opened]

/-- A block restores the number of open blocks, and never raises it above the limit. -/
theorem Safe.nested (h : Safe n step rule) (opener : Nat) {outer : Nat → Rule ρ α}
    (hopen : ∀ depth < maxNesting,
      outer depth = Rule.opened opener (depth + 1) >>= fun _ ↦ rule (depth + 1))
    (hfull : outer maxNesting = Rule.refuse ⟨opener, maxNesting⟩) :
    Safe n (nested opener step) outer := by
  intro s c hready
  cases hmark : s.tooDeep with
  | some mark =>
    refine ⟨none, s, nested_of_marked hmark, hready.keeps, ?_⟩
    rw [hmark]
    exact nofun
  | none =>
    rcases hready.depth_le.eq_or_lt with hd | hd
    -- At the limit the rule refuses the block, and the parser only marks it.
    · refine ⟨none, _, nested_of_full hmark hd, ?_, fun _ ↦ ?_⟩
      · refine ⟨rfl, ⟨c, hready.cursor⟩, Nat.le_refl _, rfl, hready.raised_le, ?_⟩
        rw [hmark]
        exact nofun
      · rw [hd, hfull]
        exact .tooDeep rfl
    · obtain ⟨result, later, hrun, hkeep, hagree⟩ := h (Ready.deeper hready hd)
      refine ⟨result, _, nested_of_lt hmark hd hrun, ?_, fun _ ↦ ?_⟩
      · exact ⟨hkeep.source_eq, hkeep.cursor, hkeep.offset_le,
          congrArg (· - 1) hkeep.depth_eq, hkeep.raised_le, hkeep.tooDeep_eq⟩
      · rw [hopen s.depth hd, Rule.bind_of_found (Rule.opened_apply opener (s.depth + 1) c)]
        have ha := hagree hmark
        generalize rule (s.depth + 1) c = attempt at ha ⊢
        cases ha with
        | found hc hm hj => exact .found hc hm (written_nested hj ⟨rfl, rfl⟩ ⟨rfl, rfl⟩)
        | nothing hm hj => exact .nothing hm (written_nested hj ⟨rfl, rfl⟩ ⟨rfl, rfl⟩)
        | tooDeep hm => exact .tooDeep hm

end Parsing
end TerseMarkup
