import TerseMarkup.Grammar.Rule

/-!
# What composed rules find

Each combinator of rules is characterised by the attempts of its parts: when it finds a value,
when it finds nothing, and what it has written then. A repetition is unrolled by one round, which
is right for every rule that leaves less text whenever it finds something.
-/

namespace TerseMarkup
namespace Rule

variable {ρ α β : Type}

/-! ### Options -/

/-- An option hands on what was found. -/
theorem optional_of_found {rule : Rule ρ α} {c next : Cursor} {value : α} {journal : ρ}
    (h : rule c = ⟨.found value next, journal⟩) :
    rule.optional c = ⟨.found (some value) next, journal⟩ := by
  simp only [optional, h]

/-- An option goes on without a value where nothing was found. -/
theorem optional_of_nothing {rule : Rule ρ α} {c : Cursor} {journal : ρ}
    (h : rule c = ⟨.nothing, journal⟩) : rule.optional c = ⟨.found none c, journal⟩ := by
  simp only [optional, h]

/-- An option does not get over a block that is too deep. -/
theorem optional_of_tooDeep {rule : Rule ρ α} {c : Cursor} {mark : TooDeep} {journal : ρ}
    (h : rule c = ⟨.tooDeep mark, journal⟩) :
    rule.optional c = ⟨.tooDeep mark, journal⟩ := by
  simp only [optional, h]

/-- An optional rule finds a value or stays where it is. -/
@[simp] theorem outcome_optional_eq_found {rule : Rule ρ α} {c next : Cursor}
    {result : Option α} :
    (rule.optional c).outcome = .found result next ↔
      (∃ value, (rule c).outcome = .found value next ∧ result = some value) ∨
        (rule c).outcome = .nothing ∧ result = none ∧ next = c := by
  rcases h : rule c with ⟨outcome, journal⟩
  cases outcome with
  | found value last =>
    rw [optional_of_found h]
    constructor
    · intro he
      obtain ⟨rfl, rfl⟩ := Outcome.found.inj he
      exact .inl ⟨value, rfl, rfl⟩
    · rintro (⟨_, hf, rfl⟩ | ⟨he, _⟩)
      · obtain ⟨rfl, rfl⟩ := Outcome.found.inj hf
        rfl
      · cases he
  | nothing => simp [optional_of_nothing h, eq_comm]
  | tooDeep mark => simp [optional_of_tooDeep h]

/-! ### Sequences -/

variable [Journal ρ]

/-- A sequence goes on where its first part ended, and writes behind it. -/
theorem bind_of_found {first : Rule ρ α} {second : α → Rule ρ β} {c next : Cursor} {value : α}
    {journal : ρ} (h : first c = ⟨.found value next, journal⟩) :
    (first >>= second) c =
      ⟨(second value next).outcome, journal ++ (second value next).journal⟩ := by
  change andThen first second c = _
  simp only [andThen, h]

/-- A sequence ends where its first part finds nothing. -/
theorem bind_of_nothing {first : Rule ρ α} {second : α → Rule ρ β} {c : Cursor} {journal : ρ}
    (h : first c = ⟨.nothing, journal⟩) : (first >>= second) c = ⟨.nothing, journal⟩ := by
  change andThen first second c = _
  simp only [andThen, h]

/-- A sequence ends where its first part meets a block that is too deep. -/
theorem bind_of_tooDeep {first : Rule ρ α} {second : α → Rule ρ β} {c : Cursor} {mark : TooDeep}
    {journal : ρ} (h : first c = ⟨.tooDeep mark, journal⟩) :
    (first >>= second) c = ⟨.tooDeep mark, journal⟩ := by
  change andThen first second c = _
  simp only [andThen, h]

/-- To make something of a value is to go on without reading. -/
theorem map_eq_bind (f : α → β) (rule : Rule ρ α) :
    f <$> rule = rule >>= fun value ↦ pure (f value) := rfl

/-- A value without reading is found in place, and nothing is written. -/
@[simp] theorem pure_apply (value : α) (c : Cursor) :
    (pure value : Rule ρ α) c = ⟨.found value c, ∅⟩ := rfl

/-- What is found without reading is the value, in place, and nothing is written. -/
theorem eq_of_pure_eq_found {value result : α} {c next : Cursor} {journal : ρ}
    (h : (pure value : Rule ρ α) c = ⟨.found result next, journal⟩) :
    value = result ∧ c = next ∧ ∅ = journal := by
  obtain ⟨hfound, rfl⟩ := Attempt.mk.inj h
  obtain ⟨rfl, rfl⟩ := Outcome.found.inj hfound
  exact ⟨rfl, rfl, rfl⟩

/-- A sequence finds what its second rule finds behind what its first rule finds. -/
@[simp] theorem outcome_bind_eq_found {first : Rule ρ α} {second : α → Rule ρ β}
    {c last : Cursor} {result : β} :
    ((first >>= second) c).outcome = .found result last ↔
      ∃ value next, (first c).outcome = .found value next ∧
        (second value next).outcome = .found result last := by
  rcases h : first c with ⟨outcome, journal⟩
  cases outcome with
  | found value next =>
    rw [bind_of_found h]
    constructor
    · intro he
      exact ⟨value, next, rfl, he⟩
    · rintro ⟨_, _, hf, he⟩
      obtain ⟨rfl, rfl⟩ := Outcome.found.inj hf
      exact he
  | nothing => simp [bind_of_nothing h]
  | tooDeep mark => simp [bind_of_tooDeep h]

/-- What is found is made of what the rule finds. -/
@[simp] theorem outcome_map_eq_found {f : α → β} {rule : Rule ρ α} {c next : Cursor} {result : β} :
    ((f <$> rule) c).outcome = .found result next ↔
      ∃ value, (rule c).outcome = .found value next ∧ f value = result := by
  rw [map_eq_bind, outcome_bind_eq_found]
  constructor
  · rintro ⟨value, last, hf, hp⟩
    simp only [pure_apply, Outcome.found.injEq] at hp
    exact ⟨value, hp.2 ▸ hf, hp.1⟩
  · rintro ⟨value, hf, rfl⟩
    exact ⟨value, next, hf, rfl⟩

/-- A sequence finds nothing where one of its two rules finds nothing. -/
theorem outcome_bind_eq_nothing {first : Rule ρ α} {second : α → Rule ρ β} {c : Cursor} :
    ((first >>= second) c).outcome = .nothing ↔
      (first c).outcome = .nothing ∨ ∃ value next, (first c).outcome = .found value next ∧
        (second value next).outcome = .nothing := by
  rcases h : first c with ⟨outcome, journal⟩
  cases outcome with
  | found value next =>
    rw [bind_of_found h]
    constructor
    · intro he
      exact .inr ⟨value, next, rfl, he⟩
    · rintro (he | ⟨_, _, hf, he⟩)
      · cases he
      · obtain ⟨rfl, rfl⟩ := Outcome.found.inj hf
        exact he
  | nothing => simp [bind_of_nothing h]
  | tooDeep mark => simp [bind_of_tooDeep h]

/-- A sequence looks at a cursor only through its first rule. -/
theorem bind_congr {first : Rule ρ α} {second : α → Rule ρ β} {c d : Cursor}
    (h : first c = first d) : (first >>= second) c = (first >>= second) d := by
  change andThen first second c = andThen first second d
  simp only [andThen, h]

/-- A sequence finds something only if all its parts do, and it writes what they write, in order. -/
theorem exists_of_bind_eq_found {first : Rule ρ α} {second : α → Rule ρ β} {c last : Cursor}
    {result : β} {journal : ρ} (h : (first >>= second) c = ⟨.found result last, journal⟩) :
    ∃ value next earlier later, first c = ⟨.found value next, earlier⟩ ∧
      second value next = ⟨.found result last, later⟩ ∧ journal = earlier ++ later := by
  rcases hf : first c with ⟨outcome, earlier⟩
  cases outcome with
  | found value next =>
    rw [bind_of_found hf] at h
    obtain ⟨ho, rfl⟩ := Attempt.mk.inj h
    exact ⟨value, next, earlier, (second value next).journal, rfl, by rw [← ho], rfl⟩
  | nothing =>
    rw [bind_of_nothing hf] at h
    cases h
  | tooDeep mark =>
    rw [bind_of_tooDeep hf] at h
    cases h

/-! ### Alternatives and names -/

/-- The first alternative counts if it finds something. -/
theorem orElse_of_found {first second : Rule ρ α} {c next : Cursor} {value : α} {journal : ρ}
    (h : first c = ⟨.found value next, journal⟩) :
    orElse first second c = ⟨.found value next, journal⟩ := by
  simp only [orElse, h]

/-- The second alternative is tried in place of one that finds nothing, and writes behind it. -/
theorem orElse_of_nothing {first second : Rule ρ α} {c : Cursor} {journal : ρ}
    (h : first c = ⟨.nothing, journal⟩) :
    orElse first second c = ⟨(second c).outcome, journal ++ (second c).journal⟩ := by
  simp only [orElse, h]

/-- Behind a block that is too deep no alternative is tried. -/
theorem orElse_of_tooDeep {first second : Rule ρ α} {c : Cursor} {mark : TooDeep} {journal : ρ}
    (h : first c = ⟨.tooDeep mark, journal⟩) :
    orElse first second c = ⟨.tooDeep mark, journal⟩ := by
  simp only [orElse, h]

/-- The second alternative counts only where the first one finds nothing. -/
@[simp] theorem outcome_orElse_eq_found {first second : Rule ρ α} {c next : Cursor} {value : α} :
    (orElse first second c).outcome = .found value next ↔
      (first c).outcome = .found value next ∨
        (first c).outcome = .nothing ∧ (second c).outcome = .found value next := by
  rcases h : first c with ⟨outcome, journal⟩
  cases outcome with
  | found value next => simp [orElse_of_found h]
  | nothing => simp [orElse_of_nothing h]
  | tooDeep mark => simp [orElse_of_tooDeep h]

/-- Alternatives find nothing if neither of them does. -/
theorem outcome_orElse_eq_nothing {first second : Rule ρ α} {c : Cursor} :
    (orElse first second c).outcome = .nothing ↔
      (first c).outcome = .nothing ∧ (second c).outcome = .nothing := by
  rcases h : first c with ⟨outcome, journal⟩
  cases outcome with
  | found value next => simp [orElse_of_found h]
  | nothing => simp [orElse_of_nothing h]
  | tooDeep mark => simp [orElse_of_tooDeep h]

/-- The name of a production does not change how it ends. -/
@[simp] theorem outcome_named (p : Production) (rule : Rule ρ α) (c : Cursor) :
    (named p rule c).outcome = (rule c).outcome := rfl

/-! ### Tokens -/

/-- A token that is there is found, and nothing is written. -/
theorem terminal_of_read {t : Terminal} {c next : Cursor} {lexeme : List Char}
    (h : c.read? t = some (lexeme, next)) :
    (terminal t : Rule ρ (List Char)) c = ⟨.found (t.value lexeme) next, ∅⟩ := by
  simp only [terminal, h]

/-- A token that is not there is noted as missed where it would have started. -/
theorem terminal_of_none {t : Terminal} {c : Cursor} (h : c.read? t = none) :
    (terminal t : Rule ρ (List Char)) c =
      ⟨.nothing, Journal.missed c.tokenStart (.terminal t)⟩ := by
  simp only [terminal, h]

/-- A terminal finds the value of its lexeme. -/
@[simp] theorem outcome_terminal_eq_found {t : Terminal} {c next : Cursor} {value : List Char} :
    ((terminal t : Rule ρ (List Char)) c).outcome = .found value next ↔
      ∃ lexeme, c.read? t = some (lexeme, next) ∧ t.value lexeme = value := by
  cases h : c.read? t with
  | none => simp [terminal_of_none h]
  | some found =>
    obtain ⟨lexeme, last⟩ := found
    rw [terminal_of_read h]
    constructor
    · intro he
      obtain ⟨rfl, rfl⟩ := Outcome.found.inj he
      exact ⟨lexeme, rfl, rfl⟩
    · rintro ⟨other, he, rfl⟩
      obtain ⟨rfl, rfl⟩ := Prod.mk.inj (Option.some.inj he)
      rfl

/-- A token is missed where it cannot be read. -/
@[simp] theorem outcome_terminal_eq_nothing {t : Terminal} {c : Cursor} :
    ((terminal t : Rule ρ (List Char)) c).outcome = .nothing ↔ c.read? t = none := by
  cases h : c.read? t with
  | none => simp [terminal_of_none h]
  | some found => simp [terminal_of_read h]

/-- A character that is not there is noted as missed where it would have stood. -/
theorem char_of_none {expected : Char} {c : Cursor} (h : c.read? (.char expected) = none) :
    (char expected : Rule ρ Unit) c =
      ⟨.nothing, Journal.missed c.tokenStart (.terminal (.char expected))⟩ :=
  bind_of_nothing (terminal_of_none h)

/-- A character is found where it can be read. -/
@[simp] theorem outcome_char_eq_found {expected : Char} {c next : Cursor} {value : Unit} :
    ((char expected : Rule ρ Unit) c).outcome = .found value next ↔
      ∃ lexeme, c.read? (.char expected) = some (lexeme, next) := by
  simp only [char, outcome_bind_eq_found, outcome_terminal_eq_found, pure_apply,
    Outcome.found.injEq, true_and]
  constructor
  · rintro ⟨_, _, ⟨lexeme, hr, _⟩, rfl⟩
    exact ⟨lexeme, hr⟩
  · rintro ⟨lexeme, hr⟩
    exact ⟨_, next, ⟨lexeme, hr, rfl⟩, rfl⟩

/-- A character is missed where it cannot be read. -/
@[simp] theorem outcome_char_eq_nothing {expected : Char} {c : Cursor} :
    ((char expected : Rule ρ Unit) c).outcome = .nothing ↔ c.read? (.char expected) = none := by
  rw [char, outcome_bind_eq_nothing]
  simp

/-- To ask for the place of the next token reads and writes nothing. -/
@[simp] theorem tokenStart_apply (c : Cursor) :
    (tokenStart : Rule ρ Nat) c = ⟨.found c.tokenStart c, ∅⟩ := rfl

/-- To open a block reads nothing and notes the block. -/
@[simp] theorem opened_apply (opener depth : Nat) (c : Cursor) :
    (opened opener depth : Rule ρ Unit) c = ⟨.found () c, Journal.opened opener depth⟩ := rfl

/-- To refuse a block ends the reading there, and nothing is written. -/
@[simp] theorem refuse_apply (mark : TooDeep) (c : Cursor) :
    (refuse mark : Rule ρ α) c = ⟨.tooDeep mark, ∅⟩ := rfl

/-! ### Repetitions -/

/-- A rule that leaves less text whenever it finds something. -/
def Shortens (rule : Rule ρ α) : Prop :=
  ∀ c value next, (rule c).outcome = .found value next → next.rest.length < c.rest.length

private theorem manyUpTo_of_le {rule : Rule ρ α} (hs : Shortens rule) (text other : List Char)
    (c : Cursor) (ht : c.rest.length ≤ text.length) (ho : c.rest.length ≤ other.length) :
    manyUpTo text rule c = manyUpTo other rule c := by
  -- Both bounds outlast the text ahead, so neither ends a repetition early.
  induction text generalizing other c with
  | nil =>
    have hf : ∀ value next, (rule c).outcome ≠ .found value next := by
      intro value next he
      have hlt := hs c value next he
      simp only [List.length_nil] at ht
      omega
    cases other with
    | nil => rfl
    | cons d more =>
      rcases h : rule c with ⟨outcome, journal⟩
      cases outcome with
      | found value next => exact absurd (by rw [h]) (hf value next)
      | nothing => simp only [manyUpTo, h]
      | tooDeep mark => simp only [manyUpTo, h]
  | cons d text ih =>
    rcases h : rule c with ⟨outcome, journal⟩
    cases outcome with
    | nothing => cases other <;> simp only [manyUpTo, h]
    | tooDeep mark => cases other <;> simp only [manyUpTo, h]
    | found value next =>
      have hlt := hs c value next (by rw [h])
      simp only [List.length_cons] at ht
      cases other with
      | nil =>
        simp only [List.length_nil] at ho
        omega
      | cons e more =>
        simp only [List.length_cons] at ho
        simp only [manyUpTo, h, ih more next (by omega) (by omega)]

private theorem manyUpTo_eq_many {rule : Rule ρ α} (hs : Shortens rule) {text : List Char}
    {c : Cursor} (h : c.rest.length ≤ text.length) : manyUpTo text rule c = many rule c :=
  manyUpTo_of_le hs text c.rest c h (Nat.le_refl _)

/-- A repetition ends where its rule finds nothing. -/
theorem many_of_nothing {rule : Rule ρ α} {c : Cursor} {journal : ρ}
    (h : rule c = ⟨.nothing, journal⟩) : many rule c = ⟨.found [] c, journal⟩ := by
  unfold many
  cases c.rest <;> simp only [manyUpTo, h]

/-- A repetition ends where its rule meets a block that is too deep. -/
theorem many_of_tooDeep {rule : Rule ρ α} {c : Cursor} {mark : TooDeep} {journal : ρ}
    (h : rule c = ⟨.tooDeep mark, journal⟩) : many rule c = ⟨.tooDeep mark, journal⟩ := by
  unfold many
  cases c.rest <;> simp only [manyUpTo, h]

/-- A repetition whose first round finds a value goes on behind it. -/
theorem many_of_found {rule : Rule ρ α} (hs : Shortens rule) {c next : Cursor} {value : α}
    {journal : ρ} (h : rule c = ⟨.found value next, journal⟩) :
    many rule c =
      match many rule next with
      | ⟨.found values last, more⟩ => ⟨.found (value :: values) last, journal ++ more⟩
      | ⟨.nothing, more⟩ => ⟨.nothing, journal ++ more⟩
      | ⟨.tooDeep mark, more⟩ => ⟨.tooDeep mark, journal ++ more⟩ := by
  have hlt := hs c value next (by rw [h])
  cases hr : c.rest with
  | nil =>
    rw [hr] at hlt
    simp at hlt
  | cons d text =>
    rw [hr, List.length_cons] at hlt
    have he : manyUpTo text rule next = many rule next := manyUpTo_eq_many hs (by omega)
    rw [many, hr]
    rcases hm : many rule next with ⟨outcome, more⟩
    rw [hm] at he
    cases outcome <;> simp only [manyUpTo, h, he]

/-- A repetition may find no value at all, but it always finds a list. -/
theorem outcome_many_ne_nothing (rule : Rule ρ α) (c : Cursor) :
    (many rule c).outcome ≠ .nothing := by
  have all (text : List Char) : ∀ c, (manyUpTo text rule c).outcome ≠ .nothing := by
    induction text with
    | nil =>
      intro c
      rcases h : rule c with ⟨outcome, journal⟩
      cases outcome <;> simp [manyUpTo, h]
    | cons d text ih =>
      intro c
      rcases h : rule c with ⟨outcome, journal⟩
      cases outcome with
      | nothing => simp [manyUpTo, h]
      | tooDeep mark => simp [manyUpTo, h]
      | found value next =>
        have hn := ih next
        rcases hm : manyUpTo text rule next with ⟨result, more⟩
        rw [hm] at hn
        cases result with
        | nothing => exact absurd rfl hn
        | found values last => simp [manyUpTo, h, hm]
        | tooDeep mark => simp [manyUpTo, h, hm]
  exact all c.rest c

/-- A repetition ends where the next round finds nothing. -/
theorem outcome_many_eq_found {rule : Rule ρ α} (hs : Shortens rule) {c last : Cursor}
    {values : List α} :
    (many rule c).outcome = .found values last ↔
      (rule c).outcome = .nothing ∧ values = [] ∧ last = c ∨
        ∃ value next more, (rule c).outcome = .found value next ∧
          (many rule next).outcome = .found more last ∧ values = value :: more := by
  rcases h : rule c with ⟨outcome, journal⟩
  cases outcome with
  | nothing => simp [many_of_nothing h, eq_comm]
  | tooDeep mark => simp [many_of_tooDeep h]
  | found value next =>
    rw [many_of_found hs h]
    have hn := outcome_many_ne_nothing rule next
    rcases hm : many rule next with ⟨result, more⟩
    rw [hm] at hn
    cases result with
    | nothing => exact absurd rfl hn
    | tooDeep mark =>
      constructor
      · intro he
        cases he
      · rintro (⟨he, _⟩ | ⟨_, _, _, hf, ho, _⟩)
        · cases he
        · obtain ⟨rfl, rfl⟩ := Outcome.found.inj hf
          rw [hm] at ho
          cases ho
    | found others stop =>
      simp only [Outcome.found.injEq, reduceCtorEq, false_and, false_or]
      constructor
      · rintro ⟨rfl, rfl⟩
        exact ⟨value, next, others, ⟨rfl, rfl⟩, by rw [hm], rfl⟩
      · rintro ⟨_, _, rest, ⟨rfl, rfl⟩, ho, rfl⟩
        rw [hm] at ho
        obtain ⟨rfl, rfl⟩ := Outcome.found.inj ho
        exact ⟨rfl, rfl⟩

/-- A repetition that ends was cut into its first round and the others, or ended at once. -/
theorem exists_of_many_eq_found {rule : Rule ρ α} (hs : Shortens rule) {c last : Cursor}
    {values : List α} {journal : ρ} (h : many rule c = ⟨.found values last, journal⟩) :
    rule c = ⟨.nothing, journal⟩ ∧ values = [] ∧ last = c ∨
      ∃ value next more earlier later, rule c = ⟨.found value next, earlier⟩ ∧
        many rule next = ⟨.found more last, later⟩ ∧ values = value :: more ∧
          journal = earlier ++ later := by
  rcases hr : rule c with ⟨outcome, earlier⟩
  cases outcome with
  | nothing =>
    rw [many_of_nothing hr] at h
    obtain ⟨ho, rfl⟩ := Attempt.mk.inj h
    obtain ⟨rfl, rfl⟩ := Outcome.found.inj ho
    exact .inl ⟨rfl, rfl, rfl⟩
  | tooDeep mark =>
    rw [many_of_tooDeep hr] at h
    cases h
  | found value next =>
    rw [many_of_found hs hr] at h
    rcases hm : many rule next with ⟨result, later⟩
    rw [hm] at h
    cases result with
    | nothing => cases h
    | tooDeep mark => cases h
    | found more stop =>
      obtain ⟨ho, rfl⟩ := Attempt.mk.inj h
      obtain ⟨rfl, rfl⟩ := Outcome.found.inj ho
      exact .inr ⟨value, next, more, earlier, later, rfl, hm, rfl, rfl⟩

/-- Where a repetition ends, one more round finds nothing. -/
theorem outcome_eq_nothing_of_many {rule : Rule ρ α} (hs : Shortens rule) {c last : Cursor}
    {values : List α} (h : (many rule c).outcome = .found values last) :
    (rule last).outcome = .nothing := by
  induction hl : c.rest.length using Nat.strongRecOn generalizing c values with
  | ind n ih =>
    rcases (outcome_many_eq_found hs).mp h with ⟨hn, -, rfl⟩ | ⟨value, next, more, hf, hm, -⟩
    · exact hn
    · exact ih _ (hl ▸ hs c value next hf) hm rfl

end Rule
end TerseMarkup
