import TerseMarkup.Proofs.Progress
import TerseMarkup.Proofs.Reading

/-!
# Reading without a limit

Every block takes a character of the text to open, so a limit that is not below the number of
characters ahead never comes into play. This gives the grammar without a limit: the inside of a
block is read with as much room as there is text. The main statement, `unlimited_eq`, says that it
is the same grammar, only that each block opens without a check.
-/

namespace TerseMarkup
namespace Rule

variable {ρ α β : Type}

/-- Two rules of which the first moves forward, and which do the same before every text that is
shorter than a bound. -/
structure AgreeBelow (bound : Nat) (rule rule' : Rule ρ α) : Prop where
  forward : rule.Forward
  eq : ∀ c : Cursor, c.rest.length < bound → rule c = rule' c

variable [Journal ρ]

private theorem AgreeBelow.manyUpTo {rule rule' : Rule ρ α} {bound : Nat}
    (h : AgreeBelow bound rule rule') (text : List Char) (c : Cursor) (hc : c.rest.length < bound) :
    manyUpTo text rule c = manyUpTo text rule' c := by
  induction text generalizing c with
  | nil => simp only [Rule.manyUpTo, h.eq c hc]
  | cons d text ih =>
    have he := h.eq c hc
    rcases hr : rule c with ⟨outcome, journal⟩
    rw [hr] at he
    cases outcome with
    | nothing => simp only [Rule.manyUpTo, hr, ← he]
    | tooDeep mark => simp only [Rule.manyUpTo, hr, ← he]
    | found value next =>
      have hle := (h.forward c value next (by rw [hr])).length_le
      simp only [Rule.manyUpTo, hr, ← he, ih next (Nat.lt_of_le_of_lt hle hc)]

/-- To agree before short texts is kept by every way to compose rules. -/
def agreeing (ρ : Type) [Journal ρ] (bound : Nat) : RuleRelation ρ ρ where
  Holds rule rule' := AgreeBelow bound rule rule'
  pure value := ⟨(forward ρ).pure value, fun _ _ ↦ rfl⟩
  bind {_ _ first first' second second'} hf hs := by
    refine ⟨hf.forward.bind fun value ↦ (hs value).forward, fun c hc ↦ ?_⟩
    have he := hf.eq c hc
    rcases hr : first c with ⟨outcome, journal⟩
    rw [hr] at he
    cases outcome with
    | found value next =>
      have hle := (hf.forward c value next (by rw [hr])).length_le
      rw [bind_of_found hr, bind_of_found he.symm,
        (hs value).eq next (Nat.lt_of_le_of_lt hle hc)]
    | nothing => rw [bind_of_nothing hr, bind_of_nothing he.symm]
    | tooDeep mark => rw [bind_of_tooDeep hr, bind_of_tooDeep he.symm]
  orElse hf hs := ⟨hf.forward.orElse hs.forward, fun c hc ↦ by
    simp only [orElse, hf.eq c hc, hs.eq c hc]⟩
  optional h := ⟨h.forward.optional, fun c hc ↦ by simp only [optional, h.eq c hc]⟩
  many h := ⟨h.forward.many, fun c hc ↦ h.manyUpTo c.rest c hc⟩
  named _ _ _ h := ⟨h.forward, fun c hc ↦ by simp only [named, h.eq c hc]⟩
  terminal t := ⟨(forward ρ).terminal t, fun _ _ ↦ rfl⟩
  tokenStart := ⟨(forward ρ).tokenStart, fun _ _ ↦ rfl⟩

/-- Behind a rule that leaves less text, it is enough to agree before less text. -/
private theorem AgreeBelow.bind_of_shortens {first : Rule ρ α} {second second' : α → Rule ρ β}
    {bound : Nat} (hf : first.Shortens) (hw : first.Forward)
    (hs : ∀ value, AgreeBelow bound (second value) (second' value)) :
    AgreeBelow (bound + 1) (first >>= second) (first >>= second') := by
  refine ⟨hw.bind fun value ↦ (hs value).forward, fun c hc ↦ ?_⟩
  rcases hr : first c with ⟨outcome, journal⟩
  cases outcome with
  | found value next =>
    have hlt := hf c value next (by rw [hr])
    rw [bind_of_found hr, bind_of_found hr, (hs value).eq next (by omega)]
  | nothing => rw [bind_of_nothing hr, bind_of_nothing hr]
  | tooDeep mark => rw [bind_of_tooDeep hr, bind_of_tooDeep hr]

private theorem agreeBelow_opened (bound opener depth : Nat) :
    AgreeBelow bound (opened opener depth : Rule ρ Unit) (opened opener depth) := by
  refine ⟨?_, fun _ _ ↦ rfl⟩
  intro c value next h
  obtain ⟨-, rfl⟩ := Outcome.found.inj h
  exact .refl c

end Rule

namespace Grammar

variable {ρ : Type} [Journal ρ]

/-- A block starts with a character, so its inside is read before less text. -/
private theorem agreeing_blocks {inside inside' : Inside ρ} {bound : Nat}
    (h : (Rule.agreeing ρ bound).Insides inside inside') :
    (Rule.agreeing ρ (bound + 1)).Blocks inside inside' := by
  have hchar (d : Char) := (Rule.forward ρ).char d
  constructor
  · refine (Rule.agreeing ρ _).bind (Rule.agreeing ρ _).tokenStart fun opener ↦ ?_
    exact .bind_of_shortens (Rule.shortens_char _) (hchar _) fun _ ↦ h.1 opener
  · refine (Rule.agreeing ρ _).named _ ?_
    refine (Rule.agreeing ρ _).bind (Rule.agreeing ρ _).tokenStart fun opener ↦ ?_
    refine .bind_of_shortens (Rule.shortens_char _) (hchar _) fun _ ↦ ?_
    exact (Rule.agreeing ρ _).bind (h.2 opener) fun _ ↦
      (Rule.agreeing ρ _).bind ((Rule.agreeing ρ _).char _) fun _ ↦ (Rule.agreeing ρ _).pure _

/-- The inside of a block that opens without a check. -/
def Inside.opening (depth : Nat) (deeper : Inside ρ) : Inside ρ where
  single := fun opener ↦ do
    Rule.opened opener (depth + 1)
    statement deeper
  block := fun opener ↦ do
    Rule.opened opener (depth + 1)
    statements deeper

private theorem agreeing_opening {deeper deeper' : Inside ρ} {bound : Nat}
    (h : (Rule.agreeing ρ bound).Insides deeper deeper') (depth : Nat) :
    (Rule.agreeing ρ (bound + 1)).Insides (.opening depth deeper) (.opening depth deeper') := by
  have hb := agreeing_blocks h
  exact ⟨fun opener ↦ (Rule.agreeing ρ _).bind (Rule.agreeBelow_opened _ _ _) fun _ ↦ hb.statement,
    fun opener ↦ (Rule.agreeing ρ _).bind (Rule.agreeBelow_opened _ _ _) fun _ ↦ hb.statements⟩

/-- More room than text makes no difference. -/
private theorem agreeing_within {bound room room' : Nat} (h : bound ≤ room) (h' : bound ≤ room')
    (depth : Nat) :
    (Rule.agreeing ρ bound).Insides (.within room depth) (.within room' depth) := by
  induction bound generalizing room room' depth with
  | zero =>
    have hf := Inside.forward_within ρ room depth
    exact ⟨fun opener ↦ ⟨hf.1 opener, nofun⟩, fun opener ↦ ⟨hf.2 opener, nofun⟩⟩
  | succ bound ih =>
    obtain ⟨room, rfl⟩ := Nat.exists_eq_add_one_of_ne_zero (Nat.ne_zero_of_lt h)
    obtain ⟨room', rfl⟩ := Nat.exists_eq_add_one_of_ne_zero (Nat.ne_zero_of_lt h')
    exact agreeing_opening (ih (by omega) (by omega) (depth + 1)) depth

/-- The inside of a block, read with room for as many more as there are characters ahead. -/
def Inside.unlimited (depth : Nat) : Inside ρ where
  single opener c := (Inside.within (c.rest.length + 1) depth).single opener c
  block opener c := (Inside.within (c.rest.length + 1) depth).block opener c

private theorem agreeing_unlimited {bound room : Nat} (h : bound ≤ room) (depth : Nat) :
    (Rule.agreeing ρ bound).Insides (.within room depth) (.unlimited depth) := by
  have hf := Inside.forward_within ρ room depth
  constructor
  · refine fun opener ↦ ⟨hf.1 opener, fun c hc ↦ ?_⟩
    have ha := agreeing_within (ρ := ρ) (Nat.le_trans hc h) (Nat.le_refl (c.rest.length + 1)) depth
    exact (ha.1 opener).eq c (Nat.lt_succ_self _)
  · refine fun opener ↦ ⟨hf.2 opener, fun c hc ↦ ?_⟩
    have ha := agreeing_within (ρ := ρ) (Nat.le_trans hc h) (Nat.le_refl (c.rest.length + 1)) depth
    exact (ha.2 opener).eq c (Nat.lt_succ_self _)

/-- Without a limit the inside of a block is read by the same productions, and each block in it
opens without a check. -/
theorem Inside.unlimited_eq (depth : Nat) :
    (Inside.unlimited depth : Inside ρ) = .opening depth (.unlimited (depth + 1)) := by
  have ha (c : Cursor) := agreeing_opening
    (agreeing_unlimited (ρ := ρ) (Nat.le_refl c.rest.length) (depth + 1)) depth
  have hs : (Inside.unlimited depth : Inside ρ).single =
      (Inside.opening depth (.unlimited (depth + 1))).single := by
    funext opener c
    exact ((ha c).1 opener).eq c (Nat.lt_succ_self _)
  have hb : (Inside.unlimited depth : Inside ρ).block =
      (Inside.opening depth (.unlimited (depth + 1))).block := by
    funext opener c
    exact ((ha c).2 opener).eq c (Nat.lt_succ_self _)
  exact congr (congrArg Inside.mk hs) hb

end Grammar

namespace Document

/-- Read the statements of a text without a limit of nesting. -/
def attemptUnlimited (ρ : Type) [Journal ρ] (source : List Char) : Attempt ρ (List Statement) :=
  Grammar.statements (.unlimited 0) (.start source)

/-- Read a text that is one document, with blocks nested without a limit. -/
def parseUnlimited (source : List Char) : Except SyntaxError Document :=
  conclude source (attemptUnlimited Furthest source)

/-- A limit not below the number of characters never comes into play. -/
theorem attempt_eq_attemptUnlimited (ρ : Type) [Journal ρ] {limit : Nat} {source : List Char}
    (h : source.length ≤ limit) : attempt ρ limit source = attemptUnlimited ρ source :=
  (Grammar.agreeing_blocks (Grammar.agreeing_unlimited h 0)).statements.eq (.start source)
    (Nat.lt_succ_self _)

end Document
end TerseMarkup
