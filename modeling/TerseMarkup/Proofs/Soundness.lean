import TerseMarkup.Proofs.Derivation
import TerseMarkup.Proofs.Progress

/-!
# What rules find has a derivation

Rules work on cursors and derivations on texts. A cursor stands at a text if both are the same
behind their blanks. What a production finds at a text has a derivation there, and the cursor
behind it stands at the rest of that derivation. The blocks of a statement fit into the room that
was left for them.
-/

namespace TerseMarkup

/-! ### Cursors at texts -/

/-- A cursor before a text, up to the blanks at the start of both. -/
def Cursor.At (c : Cursor) (text : List Char) : Prop :=
  c.skipBlanks.rest = text.dropWhile Text.isBlank

namespace Cursor.At

variable {c next : Cursor} {text rest value lexeme : List Char} {t : Terminal}

/-- A cursor is at the text ahead of it. -/
theorem refl (c : Cursor) : c.At c.rest := rfl

/-- What is read at a text is a token of it. -/
private theorem derivesToken (hc : c.At text) (h : c.read? t = some (lexeme, next)) :
    ∃ rest, DerivesToken t text (t.value lexeme) rest ∧ next.At rest := by
  obtain ⟨rest, hr, hl, rfl⟩ := read?_eq_some_iff.mp h
  refine ⟨rest, ⟨text.takeWhile Text.isBlank, lexeme, ?_, ?_, hl, rfl⟩, ?_⟩
  · exact fun d hd ↦ List.mem_takeWhile_imp hd
  · rw [← hr, hc, List.takeWhile_append_dropWhile]
  · rw [At, skipBlanks_skipBlanks]
    rfl

/-- A token of a text is read there. -/
theorem exists_read? (hc : c.At text) (h : DerivesToken t text value rest)
    (ht : ∀ d, t = .char d → Text.isBlank d = false) :
    ∃ lexeme next, c.read? t = some (lexeme, next) ∧ t.value lexeme = value ∧ next.At rest := by
  obtain ⟨blanks, lexeme, hb, rfl, hl, rfl⟩ := h
  have hlex := Terminal.lexeme?_eq_some_iff.mpr ⟨rest, rfl, hl⟩
  obtain ⟨d, tail, he, hs⟩ := Terminal.exists_starts_of_lexeme? hlex
  have hd : (lexeme ++ rest).dropWhile Text.isBlank = lexeme ++ rest := by
    rw [he, List.dropWhile_cons_of_neg]
    simp [Terminal.isBlank_of_starts hs ht]
  have hr : c.skipBlanks.rest = lexeme ++ rest := by
    rw [hc, List.dropWhile_append_of_pos hb, hd]
  refine ⟨lexeme, _, read?_eq_some_iff.mpr ⟨rest, hr, hl, rfl⟩, rfl, ?_⟩
  rw [At, skipBlanks_skipBlanks]
  rfl

end Cursor.At

/-! ### The head of a tag -/

/-- What a rule finds at a text has a derivation there. -/
def Rule.Sound {ρ α : Type} (rule : Rule ρ α)
    (Derives : List Char → α → List Char → Prop) : Prop :=
  ∀ c next text value, c.At text → (rule c).outcome = .found value next →
    ∃ rest, Derives text value rest ∧ next.At rest

namespace Grammar

open Rule

variable {ρ : Type} [Journal ρ]

private theorem sound_terminal (t : Terminal) :
    (terminal t : Rule ρ (List Char)).Sound (DerivesToken t) := by
  intro c next text value hc h
  obtain ⟨lexeme, hr, rfl⟩ := outcome_terminal_eq_found.mp h
  exact hc.derivesToken hr

private theorem sound_char (expected : Char) :
    (Rule.char expected : Rule ρ Unit).Sound fun text _ ↦ DerivesChar expected text := by
  intro c next text value hc h
  obtain ⟨lexeme, hr⟩ := outcome_char_eq_found.mp h
  obtain ⟨rest, ht, hn⟩ := hc.derivesToken hr
  obtain ⟨-, -, ⟨rfl, -⟩, -⟩ := Cursor.read?_eq_some_iff.mp hr
  exact ⟨rest, ht, hn⟩

private theorem sound_ofList (t : Terminal) :
    (do return String.ofList (← terminal t) : Rule ρ String).Sound fun text name rest ↦
      ∃ raw, DerivesToken t text raw rest ∧ name = String.ofList raw := by
  intro c next text value hc h
  obtain ⟨raw, _, hr, hp⟩ := outcome_bind_eq_found.mp h
  obtain ⟨rfl, rfl⟩ := Outcome.found.inj hp
  obtain ⟨rest, ht, hn⟩ := sound_terminal t _ _ _ _ hc hr
  exact ⟨rest, ⟨raw, ht, rfl⟩, hn⟩

private theorem sound_string : (string : Rule ρ String).Sound DerivesString := by
  intro c next text value hc h
  obtain ⟨raw, _, hr, hp⟩ := outcome_bind_eq_found.mp h
  obtain ⟨rfl, rfl⟩ := Outcome.found.inj hp
  obtain ⟨rest, ht, hn⟩ := sound_terminal .string _ _ _ _ hc hr
  exact ⟨rest, .mk ht, hn⟩

private theorem sound_selector (p : Production) (mark : Char) :
    (named p (do Rule.char mark; identifier) : Rule ρ String).Sound (DerivesSelector mark) := by
  intro c next text value hc h
  rw [outcome_named] at h
  obtain ⟨_, _, h, h'⟩ := outcome_bind_eq_found.mp h
  obtain ⟨middle, hm, hn⟩ := sound_char mark _ _ _ _ hc h
  obtain ⟨rest, ⟨raw, hr, rfl⟩, hl⟩ := sound_ofList .identifier _ _ _ _ hn h'
  exact ⟨rest, .mk hm hr, hl⟩

private theorem sound_className : (className : Rule ρ String).Sound (DerivesSelector '.') :=
  sound_selector _ _

private theorem sound_elementId : (elementId : Rule ρ String).Sound (DerivesSelector '#') :=
  sound_selector _ _

private theorem sound_selectors : (selectors : Rule ρ _).Sound fun text found rest ↦
    DerivesSelectors text found.1 found.2 rest := by
  intro c last text value hc h
  simp only [selectors, outcome_bind_eq_found, outcome_optional_eq_found] at h
  obtain ⟨first, next, hfirst, id, behind, hid, h⟩ := h
  rcases hfirst with ⟨name, hf, rfl⟩ | ⟨-, rfl, rfl⟩
  · obtain ⟨middle, hm, hn⟩ := sound_className _ _ _ _ hc hf
    rcases hid with ⟨id, hi, rfl⟩ | ⟨-, rfl, rfl⟩
    · obtain ⟨rest, hr, hl⟩ := sound_elementId _ _ _ _ hn hi
      obtain ⟨rfl, rfl⟩ := Outcome.found.inj h
      exact ⟨rest, .className hm (.id hr .none), hl⟩
    · obtain ⟨rfl, rfl⟩ := Outcome.found.inj h
      exact ⟨middle, .className hm .none, hn⟩
  · rcases hid with ⟨id, hi, rfl⟩ | ⟨-, rfl, rfl⟩
    · obtain ⟨middle, hm, hn⟩ := sound_elementId _ _ _ _ hc hi
      simp only [Option.isNone_none, Option.isSome_some, Bool.and_true, ↓reduceIte,
        outcome_bind_eq_found, outcome_optional_eq_found] at h
      obtain ⟨second, _, hsecond, hp⟩ := h
      obtain ⟨rfl, rfl⟩ := Outcome.found.inj hp
      rcases hsecond with ⟨name, hs, rfl⟩ | ⟨-, rfl, rfl⟩
      · obtain ⟨rest, hr, hl⟩ := sound_className _ _ _ _ hn hs
        exact ⟨rest, .id hm (.className hr .none), hl⟩
      · exact ⟨middle, .id hm .none, hn⟩
    · obtain ⟨rfl, rfl⟩ := Outcome.found.inj h
      exact ⟨text, .none, hc⟩

private theorem sound_attributePair :
    (attributePair : Rule ρ Attribute).Sound DerivesAttribute := by
  intro c last text value hc h
  simp only [attributePair, outcome_named, outcome_bind_eq_found, pure_apply,
    Outcome.found.injEq] at h
  obtain ⟨name, _, hname, _, _, hcolon, literal, _, hstring, rfl, rfl⟩ := h
  obtain ⟨afterName, ⟨raw, hr, rfl⟩, hn⟩ := sound_ofList .name _ _ _ _ hc hname
  obtain ⟨afterColon, ha, hn⟩ := sound_char ':' _ _ _ _ hn hcolon
  obtain ⟨rest, hs, hn⟩ := sound_string _ _ _ _ hn hstring
  exact ⟨rest, .mk hr ha hs, hn⟩

private theorem sound_moreAttributes :
    (nextAttribute.many : Rule ρ (List Attribute)).Sound DerivesMoreAttributes := by
  intro c last text values hc h
  -- Each round leaves less text, and one round is one constructor.
  induction hl : c.rest.length using Nat.strongRecOn generalizing c text values with
  | ind n ih =>
    rcases (outcome_many_eq_found shortens_nextAttribute).mp h with
      ⟨-, rfl, rfl⟩ | ⟨first, next, more, hf, hm, rfl⟩
    · exact ⟨text, .nil, hc⟩
    · have hlt := shortens_nextAttribute _ _ _ hf
      obtain ⟨_, _, hcomma, hpair⟩ := outcome_bind_eq_found.mp hf
      obtain ⟨afterComma, ha, hn⟩ := sound_char ',' _ _ _ _ hc hcomma
      obtain ⟨middle, hp, hn⟩ := sound_attributePair _ _ _ _ hn hpair
      obtain ⟨rest, hr, hn⟩ := ih _ (hl ▸ hlt) _ _ _ hn hm rfl
      exact ⟨rest, .cons ha hp hr, hn⟩

private theorem sound_attributeList :
    (attributeList : Rule ρ (List Attribute)).Sound DerivesAttributes := by
  intro c last text value hc h
  simp only [attributeList, outcome_named, outcome_bind_eq_found, pure_apply,
    Outcome.found.injEq] at h
  obtain ⟨_, _, hopen, first, _, hfirst, more, _, hmore, _, _, hclose, rfl, rfl⟩ := h
  obtain ⟨afterOpen, ho, hn⟩ := sound_char '[' _ _ _ _ hc hopen
  obtain ⟨middle, hf, hn⟩ := sound_attributePair _ _ _ _ hn hfirst
  obtain ⟨beforeClose, hm, hn⟩ := sound_moreAttributes _ _ _ _ hn hmore
  obtain ⟨rest, hr, hn⟩ := sound_char ']' _ _ _ _ hn hclose
  exact ⟨rest, .mk ho hf hm hr, hn⟩

private theorem sound_tagHead : (tagHead : Rule ρ TagHead).Sound DerivesHead := by
  intro c last text value hc h
  simp only [tagHead, outcome_bind_eq_found, outcome_optional_eq_found, pure_apply,
    Outcome.found.injEq] at h
  obtain ⟨name, _, hname, ⟨className, id⟩, _, hselectors, attributes, _, hattributes, rfl, rfl⟩ := h
  obtain ⟨middle, ⟨raw, hr, rfl⟩, hn⟩ := sound_ofList .name _ _ _ _ hc hname
  obtain ⟨beforeList, hs, hn⟩ := sound_selectors _ _ _ _ hn hselectors
  rcases hattributes with ⟨list, ha, rfl⟩ | ⟨-, rfl, rfl⟩
  · obtain ⟨rest, ha, hn⟩ := sound_attributeList _ _ _ _ hn ha
    exact ⟨rest, .listed hr hs ha, hn⟩
  · exact ⟨beforeList, .plain hr hs, hn⟩

/-! ### Statements -/

/-- What is found inside of blocks has a derivation, and there was room for the blocks. -/
structure Inside.Sound (inside : Inside ρ) (room : Nat) : Prop where
  forward : inside.Forward
  single : ∀ opener, (inside.single opener).Sound fun text statement rest ↦
    DerivesStatement text statement rest ∧ statement.nesting + 1 ≤ room
  block : ∀ opener, (inside.block opener).Sound fun text statements rest ↦
    DerivesStatements text statements rest ∧ Statement.nestingOfList statements + 1 ≤ room

variable {inside : Inside ρ} {room : Nat}

private theorem Inside.Sound.body (h : inside.Sound room) : (Grammar.block inside).Sound
    fun text body rest ↦ DerivesBody text body rest ∧ body.nesting ≤ room := by
  intro c last text value hc hf
  simp only [Grammar.block, outcome_named, outcome_orElse_eq_found, outcome_map_eq_found] at hf
  rcases hf with ⟨statement, hf, rfl⟩ | ⟨-, statements, hf, rfl⟩
  · simp only [colonBlock, outcome_bind_eq_found, tokenStart_apply, Outcome.found.injEq] at hf
    obtain ⟨opener, _, ⟨rfl, rfl⟩, _, _, hcolon, hsingle⟩ := hf
    obtain ⟨middle, hm, hn⟩ := sound_char ':' _ _ _ _ hc hcolon
    obtain ⟨rest, ⟨hs, hroom⟩, hn⟩ := h.single _ _ _ _ _ hn hsingle
    exact ⟨rest, ⟨.single hm hs, hroom⟩, hn⟩
  · simp only [bracedBlock, outcome_named, outcome_bind_eq_found, tokenStart_apply, pure_apply,
      Outcome.found.injEq] at hf
    obtain ⟨opener, _, ⟨rfl, rfl⟩, _, _, hopen, _, _, hblock, _, _, hclose, rfl, rfl⟩ := hf
    obtain ⟨middle, hm, hn⟩ := sound_char _ _ _ _ _ hc hopen
    obtain ⟨beforeClose, ⟨hs, hroom⟩, hn⟩ := h.block _ _ _ _ _ hn hblock
    obtain ⟨rest, hr, hn⟩ := sound_char _ _ _ _ _ hn hclose
    exact ⟨rest, ⟨.block hm hs hr, hroom⟩, hn⟩

private theorem Inside.Sound.statement (h : inside.Sound room) : (Grammar.statement inside).Sound
    fun text statement rest ↦ DerivesStatement text statement rest ∧ statement.nesting ≤ room := by
  intro c last text value hc hf
  simp only [Grammar.statement, outcome_named, outcome_orElse_eq_found, outcome_map_eq_found] at hf
  rcases hf with hf | ⟨-, literal, hf, rfl⟩
  · simp only [tag, outcome_named, outcome_bind_eq_found, outcome_optional_eq_found, pure_apply,
      Outcome.found.injEq] at hf
    obtain ⟨head, _, hhead, body, _, hbody, rfl, rfl⟩ := hf
    obtain ⟨middle, hm, hn⟩ := sound_tagHead _ _ _ _ hc hhead
    rcases hbody with ⟨body, hb, rfl⟩ | ⟨-, rfl, rfl⟩
    · obtain ⟨rest, ⟨hr, hroom⟩, hn⟩ := h.body _ _ _ _ hn hb
      exact ⟨rest, ⟨.tag hm hr, hroom⟩, hn⟩
    · exact ⟨middle, ⟨.tag hm .absent, Nat.zero_le _⟩, hn⟩
  · obtain ⟨rest, hr, hn⟩ := sound_string _ _ _ _ hc hf
    exact ⟨rest, ⟨.text hr, Nat.zero_le _⟩, hn⟩

/-- Statements that are read are derived, and their blocks keep to the room there is. -/
theorem Inside.Sound.statements (h : inside.Sound room) : (Grammar.statements inside).Sound
    fun text statements rest ↦
      DerivesStatements text statements rest ∧ Statement.nestingOfList statements ≤ room := by
  intro c last text values hc hf
  have hs := shortens_statement h.forward
  induction hl : c.rest.length using Nat.strongRecOn generalizing c text values with
  | ind n ih =>
    rcases (outcome_many_eq_found hs).mp hf with
      ⟨-, rfl, rfl⟩ | ⟨first, next, more, hfirst, hmore, rfl⟩
    · exact ⟨text, ⟨.nil, Nat.zero_le _⟩, hc⟩
    · have hlt := hs _ _ _ hfirst
      obtain ⟨middle, ⟨hm, hroom⟩, hn⟩ := h.statement _ _ _ _ hc hfirst
      obtain ⟨rest, ⟨hr, hroom'⟩, hn⟩ := ih _ (hl ▸ hlt) _ _ _ hn hmore rfl
      exact ⟨rest, ⟨.cons hm hr, Nat.max_le.mpr ⟨hroom, hroom'⟩⟩, hn⟩

/-- The inside of a block that is read is derived, and its blocks keep to the room there is. -/
theorem Inside.sound_within (room depth : Nat) :
    (Inside.within room depth : Inside ρ).Sound room := by
  induction room generalizing depth with
  | zero =>
    refine ⟨forward_within _ _ _, ?_, ?_⟩
    · intro opener c next text value _ hf
      cases hf
    · intro opener c next text value _ hf
      cases hf
  | succ room ih =>
    have deeper := ih (depth + 1)
    refine ⟨forward_within _ _ _, ?_, ?_⟩
    · intro opener c next text value hc hf
      obtain ⟨_, _, hopened, hf⟩ := outcome_bind_eq_found.mp hf
      obtain ⟨-, rfl⟩ := Outcome.found.inj hopened
      obtain ⟨rest, ⟨hr, hroom⟩, hn⟩ := deeper.statement _ _ _ _ hc hf
      exact ⟨rest, ⟨hr, Nat.succ_le_succ hroom⟩, hn⟩
    · intro opener c next text value hc hf
      obtain ⟨_, _, hopened, hf⟩ := outcome_bind_eq_found.mp hf
      obtain ⟨-, rfl⟩ := Outcome.found.inj hopened
      obtain ⟨rest, ⟨hr, hroom⟩, hn⟩ := deeper.statements _ _ _ _ hc hf
      exact ⟨rest, ⟨hr, Nat.succ_le_succ hroom⟩, hn⟩

end Grammar
end TerseMarkup
