import TerseMarkup.Proofs.Reading
import TerseMarkup.Proofs.RuleRelation

/-!
# Journals from traces

A trace forgets nothing: whatever another journal would hold after a run can be computed from the
trace of that run, event by event. The main statement, `replayed`, says so for every journal whose
appending is associative, and it says too that no outcome depends on the journal. One more journal
is of use, the footprint of a run: the places where something was missed and the blocks that were
opened. The furthest failure lies at the greatest of these places.
-/

namespace TerseMarkup

instance : LawfulJournal Trace where
  empty_append _ := List.nil_append _
  append_empty _ := List.append_nil _
  append_assoc := List.append_assoc

/-! ### Replaying -/

mutual

/-- What another journal holds after an event. -/
def Event.replay (ρ : Type) [Journal ρ] : Event → ρ
  | .missed offset what => Journal.missed offset what
  | .opened offset depth => Journal.opened offset depth
  | .production p succeeded events => Journal.enclose p succeeded (Trace.replay ρ events)

/-- What another journal holds after the events of a trace. -/
def Trace.replay (ρ : Type) [Journal ρ] : List Event → ρ
  | [] => ∅
  | event :: events => event.replay ρ ++ Trace.replay ρ events

end

namespace Trace

variable (ρ : Type) [Journal ρ] [LawfulJournal ρ]

omit [LawfulJournal ρ] in
/-- An empty trace leaves an empty journal. -/
@[simp] theorem replay_nil : replay ρ [] = ∅ := by
  rw [replay]

/-- Traces are replayed one after the other. -/
@[simp] theorem replay_append (trace more : Trace) :
    replay ρ (trace ++ more) = replay ρ trace ++ replay ρ more := by
  induction trace with
  | nil => rw [List.nil_append, replay, LawfulJournal.empty_append]
  | cons event events ih => rw [List.cons_append, replay, ih, replay, LawfulJournal.append_assoc]

private theorem replay_singleton (event : Event) : replay ρ [event] = event.replay ρ := by
  rw [replay, replay, LawfulJournal.append_empty]

/-- A miss is replayed as a miss. -/
@[simp] theorem replay_missed (offset : Nat) (what : Expectation) :
    replay ρ (Journal.missed offset what : Trace) = Journal.missed offset what := by
  rw [show (Journal.missed offset what : Trace) = [.missed offset what] from rfl,
    replay_singleton, Event.replay]

/-- A block that opens is replayed as one. -/
@[simp] theorem replay_opened (offset depth : Nat) :
    replay ρ (Journal.opened offset depth : Trace) = Journal.opened offset depth := by
  rw [show (Journal.opened offset depth : Trace) = [.opened offset depth] from rfl,
    replay_singleton, Event.replay]

/-- What happened inside of a production is replayed inside of it. -/
@[simp] theorem replay_enclose (p : Production) (succeeded : Bool) (inner : Trace) :
    replay ρ (Journal.enclose p succeeded inner : Trace) =
      Journal.enclose p succeeded (replay ρ inner) := by
  rw [show (Journal.enclose p succeeded inner : Trace) = [.production p succeeded inner] from rfl,
    replay_singleton, Event.replay]

end Trace

/-- An attempt with another journal than its trace. -/
def Attempt.replay {α : Type} (ρ : Type) [Journal ρ] (attempt : Attempt Trace α) : Attempt ρ α :=
  ⟨attempt.outcome, Trace.replay ρ attempt.journal⟩

namespace Rule

/-- Every journal of a run is the replay of its trace. -/
def replayed (ρ : Type) [Journal ρ] [LawfulJournal ρ] : AttemptRelation Trace ρ where
  At _ attempt attempt' := attempt' = attempt.replay ρ
  pure value c := by simp [Attempt.replay]
  bind {_ _ first first' second second'} hf hs c := by
    have hc := hf c
    rcases hr : first c with ⟨outcome, journal⟩
    rw [hr] at hc
    cases outcome with
    | found value next => simp [bind_of_found hr, bind_of_found hc, hs value next, Attempt.replay]
    | nothing => simp [bind_of_nothing hr, bind_of_nothing hc, Attempt.replay]
    | tooDeep mark => simp [bind_of_tooDeep hr, bind_of_tooDeep hc, Attempt.replay]
  orElse {_ first _ first' _} hf hs c := by
    have hc := hf c
    rcases hr : first c with ⟨outcome, journal⟩
    rw [hr] at hc
    cases outcome with
    | found value next => simp [orElse_of_found hr, orElse_of_found hc, Attempt.replay]
    | nothing => simp [orElse_of_nothing hr, orElse_of_nothing hc, hs c, Attempt.replay]
    | tooDeep mark => simp [orElse_of_tooDeep hr, orElse_of_tooDeep hc, Attempt.replay]
  optional {_ rule rule'} h c := by
    have hc := h c
    rcases hr : rule c with ⟨outcome, journal⟩
    rw [hr] at hc
    cases outcome with
    | found value next => simp [optional_of_found hr, optional_of_found hc, Attempt.replay]
    | nothing => simp [optional_of_nothing hr, optional_of_nothing hc, Attempt.replay]
    | tooDeep mark => simp [optional_of_tooDeep hr, optional_of_tooDeep hc, Attempt.replay]
  named _ _ _ h c := by simp [named, h c, Attempt.replay]
  terminal t c := by
    cases hr : c.read? t with
    | none => simp [terminal_of_none hr, Attempt.replay]
    | some found => simp [terminal_of_read hr, Attempt.replay]
  tokenStart c := by simp [Attempt.replay]

end Rule

private theorem Grammar.replayed_within (ρ : Type) [Journal ρ] [LawfulJournal ρ]
    (room depth : Nat) :
    (Rule.replayed ρ).rules.Insides (Inside.within room depth) (Inside.within room depth) := by
  apply RuleRelation.insides_within
  · intro opener depth c
    simp [Rule.replayed, Attempt.replay]
  · intro α mark c
    simp [Rule.replayed, Attempt.replay]

/-- A document is read alike with every journal. -/
theorem Document.attempt_eq_replay (ρ : Type) [Journal ρ] [LawfulJournal ρ] (limit : Nat)
    (source : List Char) : attempt ρ limit source = (attempt Trace limit source).replay ρ :=
  (Grammar.replayed_within ρ limit 0).blocks.statements (.start source)

/-! ### The furthest failure -/

namespace Failure

/-- A later failure at an earlier place does not count. -/
theorem merge_of_lt {earlier later : Failure} (h : later.offset < earlier.offset) :
    earlier.merge later = earlier :=
  if_pos h

/-- A failure further on replaces the one before it. -/
theorem merge_of_gt {earlier later : Failure} (h : earlier.offset < later.offset) :
    earlier.merge later = later := by
  rw [merge, if_neg (Nat.lt_asymm h), if_pos h]

/-- At one place, what is expected is collected without repetition. -/
theorem merge_of_eq {earlier later : Failure} (h : earlier.offset = later.offset) :
    earlier.merge later =
      ⟨earlier.offset, earlier.expected ++ later.expected.filter (· ∉ earlier.expected)⟩ := by
  rw [merge, if_neg (by omega), if_neg (by omega)]

/-- Of two failures the place of the further one remains. -/
theorem offset_merge (earlier later : Failure) :
    (earlier.merge later).offset = max earlier.offset later.offset := by
  rcases Nat.lt_trichotomy earlier.offset later.offset with h | h | h
  · rw [merge_of_gt h, Nat.max_eq_right (Nat.le_of_lt h)]
  · rw [merge_of_eq h, h, Nat.max_self]
  · rw [merge_of_lt h, Nat.max_eq_left (Nat.le_of_lt h)]

-- What is new behind two lists is what is new behind the second and then behind the first.
private theorem filter_notMem_append (first second third : List Expectation) :
    third.filter (· ∉ first ++ second.filter (· ∉ first)) =
      (third.filter (· ∉ second)).filter (· ∉ first) := by
  rw [List.filter_filter]
  apply List.filter_congr
  intro what _
  by_cases hf : what ∈ first <;> by_cases hs : what ∈ second <;> simp [hf, hs]

private theorem merge_assoc (first second third : Failure) :
    (first.merge second).merge third = first.merge (second.merge third) := by
  rcases Nat.lt_trichotomy first.offset second.offset with h | h | h
  · rw [merge_of_gt h]
    rcases Nat.lt_trichotomy second.offset third.offset with h' | h' | h'
    · rw [merge_of_gt h', merge_of_gt (Nat.lt_trans h h')]
    · rw [merge_of_eq h', merge_of_gt]
      exact h
    · rw [merge_of_lt h', merge_of_gt h]
  · rw [merge_of_eq h]
    rcases Nat.lt_trichotomy second.offset third.offset with h' | h' | h'
    · rw [merge_of_gt h', merge_of_gt (h ▸ h'), merge_of_gt]
      exact h ▸ h'
    · rw [merge_of_eq h', merge_of_eq (by exact h.trans h'), merge_of_eq (by exact h)]
      rw [filter_notMem_append, List.filter_append, List.append_assoc]
    · rw [merge_of_lt h', merge_of_eq h, merge_of_lt]
      exact h ▸ h'
  · rw [merge_of_lt h]
    rcases Nat.lt_trichotomy second.offset third.offset with h' | h' | h'
    · rw [merge_of_gt h']
    · rw [merge_of_eq h', merge_of_lt (h' ▸ h), merge_of_lt]
      exact h
    · rw [merge_of_lt h', merge_of_lt h, merge_of_lt (Nat.lt_trans h' h)]

end Failure

instance : LawfulJournal Furthest where
  empty_append _ := rfl
  append_empty journal := by cases journal <;> rfl
  append_assoc first second third := by
    cases first <;> cases second <;> cases third <;> try rfl
    exact congrArg some (Failure.merge_assoc _ _ _)

/-! ### Footprints -/

/-- A block that was opened, and how many were open then. -/
structure Opening where
  offset : Nat
  depth : Nat
  deriving DecidableEq, Repr

/-- The places where a run missed something and the blocks that it opened, both in order. -/
@[ext] structure Footprint where
  misses : List Nat
  openings : List Opening
  deriving DecidableEq, Repr

namespace Footprint

/-- The footprint of two runs, one after the other. -/
def append (earlier later : Footprint) : Footprint :=
  ⟨earlier.misses ++ later.misses, earlier.openings ++ later.openings⟩

instance : Journal Footprint where
  emptyCollection := ⟨[], []⟩
  append := append
  missed offset _ := ⟨[offset], []⟩
  opened offset depth := ⟨[], [⟨offset, depth⟩]⟩
  enclose _ _ inner := inner

instance : LawfulJournal Footprint where
  empty_append _ := rfl
  append_empty journal := by
    apply Footprint.ext
    · exact List.append_nil _
    · exact List.append_nil _
  append_assoc first second third := by
    apply Footprint.ext
    · exact List.append_assoc _ _ _
    · exact List.append_assoc _ _ _

variable (earlier later : Footprint) (offset depth : Nat) (what : Expectation)

/-- A run that does nothing opens no block. -/
@[simp] theorem openings_empty : (∅ : Footprint).openings = [] := rfl

/-- The blocks opened in two runs are those of the first and then those of the second. -/
@[simp] theorem openings_append :
    (earlier ++ later).openings = earlier.openings ++ later.openings := rfl

/-- To miss something opens no block. -/
@[simp] theorem openings_missed : (Journal.missed offset what : Footprint).openings = [] := rfl

/-- To open a block notes where it opens and how many are open then. -/
@[simp] theorem openings_opened :
    (Journal.opened offset depth : Footprint).openings = [⟨offset, depth⟩] := rfl

end Footprint

/-- A failure at the greatest of some places, or none if there are no places. -/
def Furthest.Tops : Furthest → List Nat → Prop
  | none, places => places = []
  | some failure, places => failure.offset ∈ places ∧ ∀ place ∈ places, place ≤ failure.offset

private theorem Furthest.Tops.append {furthest other : Furthest} {places more : List Nat}
    (h : furthest.Tops places) (h' : other.Tops more) :
    (furthest.append other).Tops (places ++ more) := by
  cases furthest with
  | none =>
    obtain rfl : places = [] := h
    exact h'
  | some earlier =>
    cases other with
    | none =>
      obtain rfl : more = [] := h'
      rw [List.append_nil]
      exact h
    | some later =>
      obtain ⟨hm, hle⟩ := h
      obtain ⟨hm', hle'⟩ := h'
      change (earlier.merge later).offset ∈ places ++ more ∧
        ∀ place ∈ places ++ more, place ≤ (earlier.merge later).offset
      rw [Failure.offset_merge]
      constructor
      · rcases Nat.le_total earlier.offset later.offset with h | h
        · rw [Nat.max_eq_right h]
          exact List.mem_append_right _ hm'
        · rw [Nat.max_eq_left h]
          exact List.mem_append_left _ hm
      · intro place hp
        rcases List.mem_append.mp hp with hp | hp
        · exact Nat.le_trans (hle place hp) (Nat.le_max_left _ _)
        · exact Nat.le_trans (hle' place hp) (Nat.le_max_right _ _)

private theorem Furthest.Tops.enclose {furthest : Furthest} {places : List Nat}
    (h : furthest.Tops places) (p : Production) (succeeded : Bool) :
    (furthest.enclose p succeeded).Tops places := by
  cases succeeded with
  | true => exact h
  | false => cases furthest <;> exact h

mutual

/-- The furthest failure of an event lies at the greatest place where it missed something. -/
private theorem Event.tops_replay : (event : Event) →
    (event.replay Furthest).Tops (event.replay Footprint).misses
  | .missed offset what => by
    rw [Event.replay, Event.replay]
    exact ⟨List.mem_singleton_self _, fun place hp ↦ Nat.le_of_eq (List.mem_singleton.mp hp)⟩
  | .opened offset depth => by
    rw [Event.replay, Event.replay]
    rfl
  | .production p succeeded events => by
    rw [Event.replay, Event.replay]
    exact (Trace.tops_replay events).enclose p succeeded

/-- The furthest failure of a run lies at the greatest place where it missed something. -/
theorem Trace.tops_replay : (trace : List Event) →
    (Trace.replay Furthest trace).Tops (Trace.replay Footprint trace).misses
  | [] => by
    rw [Trace.replay, Trace.replay]
    rfl
  | event :: events => by
    rw [Trace.replay, Trace.replay]
    exact (Event.tops_replay event).append (Trace.tops_replay events)

end

end TerseMarkup
