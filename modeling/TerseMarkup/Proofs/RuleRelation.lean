import TerseMarkup.Grammar.Statement
import TerseMarkup.Proofs.RuleOutcome

/-!
# Relations that the grammar keeps

Many facts about the grammar compare two runs of it, or say of each rule the same thing, and hold
of a composed rule because they hold of its parts. Such a fact is a relation between rules that
every combinator keeps. The main statements say that the grammar keeps it then: statements are
related if their blocks are, and blocks if their insides are.

A repetition is a sequence of options. So a relation that compares two runs cursor by cursor needs
to be kept by sequences and options only.
-/

namespace TerseMarkup

/-- A relation between rules that is kept by every way to compose them. -/
structure RuleRelation (ρ σ : Type) [Journal ρ] [Journal σ] where
  Holds : ∀ {α : Type}, Rule ρ α → Rule σ α → Prop
  pure : ∀ {α : Type} (value : α), Holds (pure value) (pure value)
  bind : ∀ {α β : Type} {first : Rule ρ α} {first' : Rule σ α} {second : α → Rule ρ β}
    {second' : α → Rule σ β}, Holds first first' → (∀ value, Holds (second value) (second' value)) →
      Holds (first >>= second) (first' >>= second')
  orElse : ∀ {α : Type} {first second : Rule ρ α} {first' second' : Rule σ α},
    Holds first first' → Holds second second' →
      Holds (Rule.orElse first second) (Rule.orElse first' second')
  optional : ∀ {α : Type} {rule : Rule ρ α} {rule' : Rule σ α},
    Holds rule rule' → Holds rule.optional rule'.optional
  many : ∀ {α : Type} {rule : Rule ρ α} {rule' : Rule σ α},
    Holds rule rule' → Holds rule.many rule'.many
  named : ∀ {α : Type} (p : Production) {rule : Rule ρ α} {rule' : Rule σ α},
    Holds rule rule' → Holds (Rule.named p rule) (Rule.named p rule')
  terminal : ∀ t : Terminal, Holds (Rule.terminal t) (Rule.terminal t)
  tokenStart : Holds Rule.tokenStart Rule.tokenStart

namespace RuleRelation

open Grammar

variable {ρ σ : Type} [Journal ρ] [Journal σ] (R : RuleRelation ρ σ)

private theorem map {α β : Type} (f : α → β) {rule : Rule ρ α} {rule' : Rule σ α}
    (h : R.Holds rule rule') : R.Holds (f <$> rule) (f <$> rule') :=
  R.bind h fun value ↦ R.pure (f value)

/-- The relation holds of single characters. -/
theorem char (expected : Char) : R.Holds (Rule.char expected) (Rule.char expected) :=
  R.bind (R.terminal _) fun _ ↦ R.pure ()

/-! ### The head of a tag -/

private theorem name : R.Holds name name := R.bind (R.terminal _) fun _ ↦ R.pure _

/-- The relation holds of identifiers. -/
theorem identifier : R.Holds identifier identifier := R.bind (R.terminal _) fun _ ↦ R.pure _

private theorem string : R.Holds string string := R.bind (R.terminal _) fun _ ↦ R.pure _

private theorem className : R.Holds className className :=
  R.named _ (R.bind (R.char _) fun _ ↦ R.identifier)

private theorem elementId : R.Holds elementId elementId :=
  R.named _ (R.bind (R.char _) fun _ ↦ R.identifier)

/-- The relation holds of classes and ids in either order. -/
theorem selectors : R.Holds selectors selectors := by
  refine R.bind (R.optional R.className) fun first ↦ ?_
  refine R.bind (R.optional R.elementId) fun id ↦ ?_
  split
  · exact R.bind (R.optional R.className) fun _ ↦ R.pure _
  · exact R.pure _

/-- The relation holds of attributes. -/
theorem attributePair : R.Holds attributePair attributePair :=
  R.named _ (R.bind R.name fun _ ↦ R.bind (R.char _) fun _ ↦ R.bind R.string fun _ ↦ R.pure _)

/-- The relation holds of further attributes. -/
theorem nextAttribute : R.Holds nextAttribute nextAttribute :=
  R.bind (R.char _) fun _ ↦ R.attributePair

/-- The relation holds of lists of attributes. -/
theorem attributeList : R.Holds attributeList attributeList :=
  R.named _ (R.bind (R.char _) fun _ ↦ R.bind R.attributePair fun _ ↦
    R.bind (R.many R.nextAttribute) fun _ ↦ R.bind (R.char _) fun _ ↦ R.pure _)

private theorem tagHead : R.Holds tagHead tagHead :=
  R.bind R.name fun _ ↦ R.bind R.selectors fun _ ↦
    R.bind (R.optional R.attributeList) fun _ ↦ R.pure _

/-! ### Statements -/

/-- The insides of blocks are related, wherever the blocks open. -/
def Insides (inside : Inside ρ) (inside' : Inside σ) : Prop :=
  (∀ opener, R.Holds (inside.single opener) (inside'.single opener)) ∧
    ∀ opener, R.Holds (inside.block opener) (inside'.block opener)

/-- The two forms of blocks are related. -/
def Blocks (inside : Inside ρ) (inside' : Inside σ) : Prop :=
  R.Holds (colonBlock inside) (colonBlock inside') ∧
    R.Holds (bracedBlock inside) (bracedBlock inside')

variable {R} {inside : Inside ρ} {inside' : Inside σ}

/-- Blocks are related if their insides are. -/
theorem Insides.blocks (h : R.Insides inside inside') : R.Blocks inside inside' := by
  constructor
  · exact R.bind R.tokenStart fun opener ↦ R.bind (R.char _) fun _ ↦ h.1 opener
  · exact R.named _ (R.bind R.tokenStart fun opener ↦ R.bind (R.char _) fun _ ↦
      R.bind (h.2 opener) fun _ ↦ R.bind (R.char _) fun _ ↦ R.pure _)

/-- Bodies are related if blocks are. -/
theorem Blocks.block (h : R.Blocks inside inside') : R.Holds (block inside) (block inside') :=
  R.named _ (R.orElse (R.map _ h.1) (R.map _ h.2))

private theorem Blocks.tag (h : R.Blocks inside inside') : R.Holds (tag inside) (tag inside') :=
  R.named _ (R.bind R.tagHead fun _ ↦ R.bind (R.optional h.block) fun _ ↦ R.pure _)

/-- A statement is related to the other if blocks are. -/
theorem Blocks.statement (h : R.Blocks inside inside') :
    R.Holds (statement inside) (statement inside') :=
  R.named _ (R.orElse h.tag (R.map _ R.string))

/-- Statements in a row are related if blocks are. -/
theorem Blocks.statements (h : R.Blocks inside inside') :
    R.Holds (statements inside) (statements inside') :=
  R.many h.statement

/-- A relation that also holds at each opener and at each refusal holds of the inside of every
block below a limit. -/
theorem insides_within
    (opened : ∀ opener depth, R.Holds (Rule.opened opener depth) (Rule.opened opener depth))
    (refuse : ∀ {α : Type} (mark : TooDeep),
      R.Holds (Rule.refuse mark : Rule ρ α) (Rule.refuse mark : Rule σ α))
    (room depth : Nat) : R.Insides (Inside.within room depth) (Inside.within room depth) := by
  induction room generalizing depth with
  | zero => exact ⟨fun _ ↦ refuse _, fun _ ↦ refuse _⟩
  | succ room ih =>
    have deeper := (ih (depth + 1)).blocks
    exact ⟨fun opener ↦ R.bind (opened opener _) fun _ ↦ deeper.statement,
      fun opener ↦ R.bind (opened opener _) fun _ ↦ deeper.statements⟩

end RuleRelation

/-! ### Repetitions -/

/-- A journal in which it does not matter how consecutive runs are grouped. -/
class LawfulJournal (ρ : Type) [Journal ρ] : Prop where
  empty_append : ∀ journal : ρ, ∅ ++ journal = journal
  append_empty : ∀ journal : ρ, journal ++ ∅ = journal
  append_assoc : ∀ first second third : ρ, first ++ second ++ third = first ++ (second ++ third)

namespace Rule

variable {ρ α : Type} [Journal ρ] [LawfulJournal ρ]

/-- A character that is there is found, and nothing is written. -/
theorem char_of_read {expected : Char} {c next : Cursor} {lexeme : List Char}
    (h : c.read? (.char expected) = some (lexeme, next)) :
    (char expected : Rule ρ Unit) c = ⟨.found () next, ∅⟩ := by
  rw [char, bind_of_found (terminal_of_read h), pure_apply, LawfulJournal.append_empty]

/-- What follows starts in place, and knows where the next token starts. -/
theorem tokenStart_bind {β : Type} (second : Nat → Rule ρ β) (c : Cursor) :
    (tokenStart >>= second) c = second c.tokenStart c := by
  rw [bind_of_found (tokenStart_apply c), LawfulJournal.empty_append]

private theorem manyUpTo_nil (rule : Rule ρ α) :
    manyUpTo [] rule = rule.optional >>= fun value ↦ pure value.toList := by
  funext c
  rcases h : rule c with ⟨outcome, journal⟩
  cases outcome with
  | found value next =>
    rw [bind_of_found (optional_of_found h), pure_apply, LawfulJournal.append_empty]
    simp only [manyUpTo, h, Option.toList_some]
  | nothing =>
    rw [bind_of_found (optional_of_nothing h), pure_apply, LawfulJournal.append_empty]
    simp only [manyUpTo, h, Option.toList_none]
  | tooDeep mark =>
    rw [bind_of_tooDeep (optional_of_tooDeep h)]
    simp only [manyUpTo, h]

/-- A repetition tries one round, and the others behind it. -/
private theorem manyUpTo_cons (d : Char) (text : List Char) (rule : Rule ρ α) :
    manyUpTo (d :: text) rule = rule.optional >>= fun result ↦
      result.elim (pure []) fun value ↦ (value :: ·) <$> manyUpTo text rule := by
  funext c
  rcases h : rule c with ⟨outcome, journal⟩
  cases outcome with
  | nothing =>
    rw [bind_of_found (optional_of_nothing h), Option.elim_none, pure_apply,
      LawfulJournal.append_empty]
    simp only [manyUpTo, h]
  | tooDeep mark =>
    rw [bind_of_tooDeep (optional_of_tooDeep h)]
    simp only [manyUpTo, h]
  | found value next =>
    rw [bind_of_found (optional_of_found h), Option.elim_some, map_eq_bind]
    rcases hm : manyUpTo text rule next with ⟨result, more⟩
    cases result with
    | found values last =>
      rw [bind_of_found hm, pure_apply, LawfulJournal.append_empty]
      simp only [manyUpTo, h, hm]
    | nothing =>
      rw [bind_of_nothing hm]
      simp only [manyUpTo, h, hm]
    | tooDeep mark =>
      rw [bind_of_tooDeep hm]
      simp only [manyUpTo, h, hm]

/-- A repetition of a rule that leaves less text whenever it finds something is one round and the
repetition behind it. -/
theorem many_eq_bind {rule : Rule ρ α} (hs : Shortens rule) :
    many rule = rule.optional >>= fun result ↦
      result.elim (pure []) fun value ↦ (value :: ·) <$> many rule := by
  funext c
  rcases h : rule c with ⟨outcome, journal⟩
  cases outcome with
  | nothing =>
    rw [many_of_nothing h, bind_of_found (optional_of_nothing h), Option.elim_none, pure_apply,
      LawfulJournal.append_empty]
  | tooDeep mark => rw [many_of_tooDeep h, bind_of_tooDeep (optional_of_tooDeep h)]
  | found value next =>
    rw [many_of_found hs h, bind_of_found (optional_of_found h), Option.elim_some, map_eq_bind]
    rcases hm : many rule next with ⟨result, more⟩
    cases result with
    | found values last => rw [bind_of_found hm, pure_apply, LawfulJournal.append_empty]
    | nothing => rw [bind_of_nothing hm]
    | tooDeep mark => rw [bind_of_tooDeep hm]

end Rule

/-- A relation between the attempts at a cursor that is kept by every way to compose rules, but
for repetition. -/
structure AttemptRelation (ρ σ : Type) [Journal ρ] [Journal σ] where
  At : ∀ {α : Type}, Cursor → Attempt ρ α → Attempt σ α → Prop
  pure : ∀ {α : Type} (value : α) (c : Cursor),
    At c ((pure value : Rule ρ α) c) ((pure value : Rule σ α) c)
  bind : ∀ {α β : Type} {first : Rule ρ α} {first' : Rule σ α} {second : α → Rule ρ β}
    {second' : α → Rule σ β}, (∀ c, At c (first c) (first' c)) →
      (∀ value c, At c (second value c) (second' value c)) →
        ∀ c, At c ((first >>= second) c) ((first' >>= second') c)
  orElse : ∀ {α : Type} {first second : Rule ρ α} {first' second' : Rule σ α},
    (∀ c, At c (first c) (first' c)) → (∀ c, At c (second c) (second' c)) →
      ∀ c, At c (Rule.orElse first second c) (Rule.orElse first' second' c)
  optional : ∀ {α : Type} {rule : Rule ρ α} {rule' : Rule σ α},
    (∀ c, At c (rule c) (rule' c)) → ∀ c, At c (rule.optional c) (rule'.optional c)
  named : ∀ {α : Type} (p : Production) {rule : Rule ρ α} {rule' : Rule σ α},
    (∀ c, At c (rule c) (rule' c)) → ∀ c, At c (Rule.named p rule c) (Rule.named p rule' c)
  terminal : ∀ (t : Terminal) (c : Cursor), At c (Rule.terminal t c) (Rule.terminal t c)
  tokenStart : ∀ c : Cursor, At c (Rule.tokenStart c) (Rule.tokenStart c)

namespace AttemptRelation

variable {ρ σ : Type} [Journal ρ] [Journal σ] [LawfulJournal ρ] [LawfulJournal σ]
  (R : AttemptRelation ρ σ)

private theorem manyUpTo {α : Type} {rule : Rule ρ α} {rule' : Rule σ α}
    (h : ∀ c, R.At c (rule c) (rule' c)) (text : List Char) :
    ∀ c, R.At c (Rule.manyUpTo text rule c) (Rule.manyUpTo text rule' c) := by
  induction text with
  | nil =>
    rw [Rule.manyUpTo_nil, Rule.manyUpTo_nil]
    exact R.bind (R.optional h) fun _ ↦ R.pure _
  | cons d text ih =>
    rw [Rule.manyUpTo_cons, Rule.manyUpTo_cons]
    refine R.bind (R.optional h) fun result ↦ ?_
    cases result with
    | none => exact R.pure _
    | some value => exact R.bind ih fun _ ↦ R.pure _

/-- The rules whose attempts are related at every cursor. -/
def rules : RuleRelation ρ σ where
  Holds rule rule' := ∀ c, R.At c (rule c) (rule' c)
  pure := R.pure
  bind := R.bind
  orElse := R.orElse
  optional := R.optional
  many h c := R.manyUpTo h c.rest c
  named := R.named
  terminal := R.terminal
  tokenStart := R.tokenStart

end AttemptRelation
end TerseMarkup
