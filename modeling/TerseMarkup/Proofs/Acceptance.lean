import TerseMarkup.Proofs.Reading
import TerseMarkup.Proofs.Soundness

/-!
# Reading accepts exactly the derivable texts

A rule tries its forms in order and gives up an optional part as soon as that part breaks. It
still finds every derivation, because the character ahead decides: no optional part of a tag
starts with a character that may follow the tag. The main statement, `parse_eq_ok_iff_derives`,
says that reading gives a document exactly if the text derives it and its blocks are not nested
too deep, and that no text derives two documents.
-/

namespace TerseMarkup

/-! ### The character ahead -/

/-- A text with which a list of statements ends: a closing brace, or nothing. -/
def Text.EndsBlock (text : List Char) : Prop :=
  Text.ahead text = none ∨ Text.ahead text = some '\x7d'

/-- A text with which no optional part of a tag starts. -/
def Text.EndsTag (text : List Char) : Prop :=
  ∀ c ∈ ['.', '#', '[', ':', '\x7b'], Text.ahead text ≠ some c

variable {text rest value : List Char} {t : Terminal} {c : Cursor}

private theorem DerivesToken.ahead (h : DerivesToken t text value rest)
    (ht : ∀ d, t = .char d → Text.isBlank d = false) :
    ∃ d, Text.ahead text = some d ∧ t.starts d = true := by
  obtain ⟨blanks, lexeme, hb, rfl, hl, rfl⟩ := h
  obtain ⟨d, tail, he, hs⟩ :=
    Terminal.exists_starts_of_lexeme? (Terminal.lexeme?_eq_some_iff.mpr ⟨rest, rfl, hl⟩)
  refine ⟨d, ?_, hs⟩
  rw [Text.ahead, List.dropWhile_append_of_pos hb, he, List.dropWhile_cons_of_neg]
  · rfl
  · simp [Terminal.isBlank_of_starts hs ht]

private theorem DerivesChar.ahead {d : Char} (h : DerivesChar d text rest)
    (hd : Text.isBlank d = false) : Text.ahead text = some d := by
  obtain ⟨e, he, hs⟩ := DerivesToken.ahead h (by rintro _ ⟨⟩; exact hd)
  obtain rfl : e = d := by simpa [Terminal.starts] using hs
  exact he

private theorem Cursor.At.ahead_eq (hc : c.At text) : Text.ahead c.rest = Text.ahead text :=
  congrArg List.head? hc

private theorem Cursor.At.read?_eq_none (hc : c.At text)
    (h : ∀ d, Text.ahead text = some d → t.starts d = false) : c.read? t = none :=
  Cursor.read?_eq_none_of_ahead fun d hd ↦ h d (hc.ahead_eq ▸ hd)

private theorem Cursor.At.read?_char_eq_none {d : Char} (hc : c.At text)
    (h : Text.ahead text ≠ some d) : c.read? (.char d) = none :=
  Cursor.read?_char_eq_none (hc.ahead_eq ▸ h)

/-- What has a derivation at a text is found there by a rule. -/
def Rule.Complete {ρ α : Type} (rule : Rule ρ α)
    (Derives : List Char → α → List Char → Prop) : Prop :=
  ∀ c text value rest, c.At text → Derives text value rest →
    ∃ next, (rule c).outcome = .found value next ∧ next.At rest

namespace Grammar

open Rule

-- Where a rule ends is not known before it has run, so its journal is named in each statement.
variable (ρ : Type) [Journal ρ]

/-! ### The head of a tag -/

private theorem complete_terminal (t : Terminal) (ht : ∀ d, t = .char d → Text.isBlank d = false) :
    (terminal t : Rule ρ (List Char)).Complete (DerivesToken t) := by
  intro c text value rest hc h
  obtain ⟨lexeme, next, hr, rfl, hn⟩ := hc.exists_read? h ht
  exact ⟨next, outcome_terminal_eq_found.mpr ⟨lexeme, hr, rfl⟩, hn⟩

private theorem complete_char {d : Char} (hd : Text.isBlank d = false) :
    (Rule.char d : Rule ρ Unit).Complete fun text _ ↦ DerivesChar d text := by
  intro c text value rest hc h
  obtain ⟨lexeme, next, hr, -, hn⟩ := hc.exists_read? h (by rintro _ ⟨⟩; exact hd)
  exact ⟨next, outcome_char_eq_found.mpr ⟨lexeme, hr⟩, hn⟩

private theorem complete_ofList (t : Terminal) (ht : ∀ d, t = .char d → Text.isBlank d = false) :
    (do return String.ofList (← terminal t) : Rule ρ String).Complete fun text name rest ↦
      ∃ raw, DerivesToken t text raw rest ∧ name = String.ofList raw := by
  rintro c text _ rest hc ⟨raw, h, rfl⟩
  obtain ⟨next, hf, hn⟩ := complete_terminal ρ t ht c text raw rest hc h
  exact ⟨next, outcome_bind_eq_found.mpr ⟨raw, next, hf, rfl⟩, hn⟩

private theorem complete_name : (name : Rule ρ String).Complete fun text name rest ↦
    ∃ raw, DerivesToken .name text raw rest ∧ name = String.ofList raw :=
  complete_ofList ρ .name nofun

private theorem complete_string : (string : Rule ρ String).Complete DerivesString := by
  rintro c text _ rest hc ⟨h⟩
  obtain ⟨next, hf, hn⟩ := complete_terminal ρ .string nofun c text _ rest hc h
  exact ⟨next, outcome_bind_eq_found.mpr ⟨_, next, hf, rfl⟩, hn⟩

private theorem complete_selector (p : Production) {mark : Char} (hm : Text.isBlank mark = false) :
    (named p (do Rule.char mark; identifier) : Rule ρ String).Complete (DerivesSelector mark) := by
  rintro c text _ rest hc ⟨hmark, hname⟩
  obtain ⟨next, hf, hn⟩ := complete_char ρ hm c _ () _ hc hmark
  obtain ⟨last, hl, hr⟩ := complete_ofList ρ .identifier nofun next _ _ _ hn ⟨_, hname, rfl⟩
  exact ⟨last, outcome_bind_eq_found.mpr ⟨(), next, hf, hl⟩, hr⟩

private theorem complete_className : (className : Rule ρ String).Complete (DerivesSelector '.') :=
  complete_selector ρ _ rfl

private theorem complete_elementId : (elementId : Rule ρ String).Complete (DerivesSelector '#') :=
  complete_selector ρ _ rfl

private theorem selector_eq_nothing (p : Production) (mark : Char) {c : Cursor}
    {text : List Char} (hc : c.At text) (h : Text.ahead text ≠ some mark) :
    ((named p (do Rule.char mark; identifier) : Rule ρ String) c).outcome = .nothing := by
  rw [outcome_named, outcome_bind_eq_nothing, outcome_char_eq_nothing]
  exact .inl (hc.read?_char_eq_none h)

private theorem ahead_of_selector {mark : Char} {text rest : List Char} {name : String}
    (h : DerivesSelector mark text name rest) (hm : Text.isBlank mark = false) :
    Text.ahead text = some mark := by
  obtain ⟨hmark, -⟩ := h
  exact hmark.ahead hm

private theorem complete_selectors : (selectors : Rule ρ _).Complete fun text found rest ↦
    DerivesSelectors text found.1 found.2 rest ∧
      Text.ahead rest ≠ some '.' ∧ Text.ahead rest ≠ some '#' := by
  rintro c text ⟨className, id⟩ rest hc ⟨h, hdot, hhash⟩
  simp only [selectors, outcome_bind_eq_found, outcome_optional_eq_found]
  cases h with
  | none =>
    have hclass := selector_eq_nothing ρ .className _ hc hdot
    have hid := selector_eq_nothing ρ .id _ hc hhash
    exact ⟨c, ⟨_, _, .inr ⟨hclass, rfl, rfl⟩, _, _, .inr ⟨hid, rfl, rfl⟩, rfl⟩, hc⟩
  | className first others =>
    obtain ⟨next, hfirst, hn⟩ := complete_className ρ _ _ _ _ hc first
    cases others with
    | none =>
      have hid := selector_eq_nothing ρ .id _ hn hhash
      exact ⟨next, ⟨_, _, .inl ⟨_, hfirst, rfl⟩, _, _, .inr ⟨hid, rfl, rfl⟩, rfl⟩, hn⟩
    | id second others =>
      obtain ⟨last, hsecond, hl⟩ := complete_elementId ρ _ _ _ _ hn second
      cases others
      exact ⟨last, ⟨_, _, .inl ⟨_, hfirst, rfl⟩, _, _, .inl ⟨_, hsecond, rfl⟩, rfl⟩, hl⟩
  | id first others =>
    have hclass := selector_eq_nothing ρ .className '.' hc (by
      rw [ahead_of_selector first rfl]
      decide)
    obtain ⟨next, hfirst, hn⟩ := complete_elementId ρ _ _ _ _ hc first
    cases others with
    | none =>
      have hagain := selector_eq_nothing ρ .className _ hn hdot
      refine ⟨next, ⟨_, _, .inr ⟨hclass, rfl, rfl⟩, _, _, .inl ⟨_, hfirst, rfl⟩, ?_⟩, hn⟩
      simp only [Option.isNone_none, Option.isSome_some, Bool.and_true, ↓reduceIte,
        outcome_bind_eq_found, outcome_optional_eq_found]
      exact ⟨_, _, .inr ⟨hagain, rfl, rfl⟩, rfl⟩
    | className second others =>
      obtain ⟨last, hsecond, hl⟩ := complete_className ρ _ _ _ _ hn second
      cases others
      refine ⟨last, ⟨_, _, .inr ⟨hclass, rfl, rfl⟩, _, _, .inl ⟨_, hfirst, rfl⟩, ?_⟩, hl⟩
      simp only [Option.isNone_none, Option.isSome_some, Bool.and_true, ↓reduceIte,
        outcome_bind_eq_found, outcome_optional_eq_found]
      exact ⟨_, _, .inl ⟨_, hsecond, rfl⟩, rfl⟩

private theorem complete_attributePair :
    (attributePair : Rule ρ Attribute).Complete DerivesAttribute := by
  rintro c text _ rest hc ⟨hname, hcolon, hvalue⟩
  obtain ⟨_, hn, hc⟩ := complete_name ρ _ _ _ _ hc ⟨_, hname, rfl⟩
  obtain ⟨_, hp, hc⟩ := complete_char ρ rfl _ _ () _ hc hcolon
  obtain ⟨last, hs, hc⟩ := complete_string ρ _ _ _ _ hc hvalue
  simp only [attributePair, outcome_named, outcome_bind_eq_found]
  exact ⟨last, ⟨_, _, hn, _, _, hp, _, _, hs, rfl⟩, hc⟩

private theorem complete_moreAttributes : (nextAttribute.many : Rule ρ (List Attribute)).Complete
    fun text more rest ↦ DerivesMoreAttributes text more rest ∧ Text.ahead rest ≠ some ',' := by
  rintro c text more rest hc ⟨h, hcomma⟩
  induction h generalizing c with
  | nil =>
    refine ⟨c, (outcome_many_eq_found shortens_nextAttribute).mpr (.inl ⟨?_, rfl, rfl⟩), hc⟩
    rw [nextAttribute, outcome_bind_eq_nothing, outcome_char_eq_nothing]
    exact .inl (hc.read?_char_eq_none hcomma)
  | cons comma first _ ih =>
    obtain ⟨_, hp, hc⟩ := complete_char ρ rfl _ _ () _ hc comma
    obtain ⟨next, hf, hc⟩ := complete_attributePair ρ _ _ _ _ hc first
    obtain ⟨last, hm, hc⟩ := ih next hc hcomma
    refine ⟨last, (outcome_many_eq_found shortens_nextAttribute).mpr (.inr ?_), hc⟩
    exact ⟨_, next, _, outcome_bind_eq_found.mpr ⟨(), _, hp, hf⟩, hm, rfl⟩

private theorem complete_attributeList :
    (attributeList : Rule ρ (List Attribute)).Complete DerivesAttributes := by
  rintro c text _ rest hc ⟨hopen, hfirst, hmore, hclose⟩
  have hcomma := hclose.ahead rfl
  obtain ⟨_, ho, hc⟩ := complete_char ρ rfl _ _ () _ hc hopen
  obtain ⟨_, hf, hc⟩ := complete_attributePair ρ _ _ _ _ hc hfirst
  obtain ⟨_, hm, hc⟩ := complete_moreAttributes ρ _ _ _ _ hc ⟨hmore, by rw [hcomma]; decide⟩
  obtain ⟨last, hl, hc⟩ := complete_char ρ rfl _ _ () _ hc hclose
  simp only [attributeList, outcome_named, outcome_bind_eq_found]
  exact ⟨last, ⟨_, _, ho, _, _, hf, _, _, hm, _, _, hl, rfl⟩, hc⟩

private theorem ahead_of_attributes {text rest : List Char} {attributes : List Attribute}
    (h : DerivesAttributes text attributes rest) : Text.ahead text = some '[' := by
  obtain ⟨hopen, -⟩ := h
  exact hopen.ahead rfl

private theorem complete_tagHead : (tagHead : Rule ρ TagHead).Complete fun text head rest ↦
    DerivesHead text head rest ∧ ∀ c ∈ ['.', '#', '['], Text.ahead rest ≠ some c := by
  rintro c text head rest hc ⟨h, hrest⟩
  simp only [tagHead, outcome_bind_eq_found, outcome_optional_eq_found]
  cases h with
  | plain hname hselectors =>
    obtain ⟨_, hn, hc⟩ := complete_name ρ _ _ _ _ hc ⟨_, hname, rfl⟩
    obtain ⟨last, hs, hc⟩ := complete_selectors ρ _ _ (_, _) _ hc
      ⟨hselectors, hrest '.' (by simp), hrest '#' (by simp)⟩
    have ha : ((attributeList : Rule ρ _) last).outcome = .nothing := by
      rw [attributeList, outcome_named, outcome_bind_eq_nothing, outcome_char_eq_nothing]
      exact .inl (hc.read?_char_eq_none (hrest '[' (by simp)))
    exact ⟨last, ⟨_, _, hn, _, _, hs, _, _, .inr ⟨ha, rfl, rfl⟩, rfl⟩, hc⟩
  | listed hname hselectors hlist =>
    have hahead := ahead_of_attributes hlist
    obtain ⟨_, hn, hc⟩ := complete_name ρ _ _ _ _ hc ⟨_, hname, rfl⟩
    obtain ⟨_, hs, hc⟩ := complete_selectors ρ _ _ (_, _) _ hc
      ⟨hselectors, by rw [hahead]; decide, by rw [hahead]; decide⟩
    obtain ⟨last, hl, hc⟩ := complete_attributeList ρ _ _ _ _ hc hlist
    exact ⟨last, ⟨_, _, hn, _, _, hs, _, _, .inl ⟨_, hl, rfl⟩, rfl⟩, hc⟩

/-! ### Statements -/

private theorem endsTag_of_starts {text : List Char} {d : Char} (h : Text.ahead text = some d)
    (hd : d ∉ ['.', '#', '[', ':', '\x7b']) : Text.EndsTag text := by
  intro e he heq
  rw [h] at heq
  exact hd (Option.some.inj heq ▸ he)

private theorem endsTag_of_endsBlock {text : List Char} (h : Text.EndsBlock text) :
    Text.EndsTag text := by
  rcases h with h | h
  · intro c _ hc
    rw [h] at hc
    cases hc
  · exact endsTag_of_starts h (by decide)

private theorem endsTag_of_name {text rest name : List Char}
    (h : DerivesToken .name text name rest) : Text.EndsTag text := by
  obtain ⟨d, hd, hs⟩ := h.ahead nofun
  refine endsTag_of_starts hd ?_
  intro hm
  simp only [List.mem_cons, List.not_mem_nil, or_false] at hm
  rcases hm with rfl | rfl | rfl | rfl | rfl <;> exact absurd hs (by decide)

private theorem ahead_of_string {text rest : List Char} {value : String}
    (h : DerivesString text value rest) : Text.ahead text = some '"' := by
  obtain ⟨hliteral⟩ := h
  obtain ⟨d, hd, hs⟩ := hliteral.ahead nofun
  rw [hd, show d = '"' by simpa [Terminal.starts] using hs]

private theorem endsTag_of_statement {text rest : List Char} {statement : Statement}
    (h : DerivesStatement text statement rest) : Text.EndsTag text := by
  cases h with
  | text h => exact endsTag_of_starts (ahead_of_string h) (by decide)
  | tag h _ =>
    cases h with
    | plain h _ => exact endsTag_of_name h
    | listed h _ _ => exact endsTag_of_name h

private theorem endsTag_of_statements {text rest : List Char} {statements : List Statement}
    (h : DerivesStatements text statements rest) (hr : Text.EndsBlock rest) :
    Text.EndsTag text := by
  cases h with
  | nil => exact endsTag_of_endsBlock hr
  | cons h _ => exact endsTag_of_statement h

private theorem tag_eq_nothing (inside : Inside ρ) {c : Cursor} (h : c.read? .name = none) :
    ((tag inside) c).outcome = .nothing := by
  rw [tag, outcome_named, outcome_bind_eq_nothing, tagHead, outcome_bind_eq_nothing, name,
    outcome_bind_eq_nothing, outcome_terminal_eq_nothing]
  exact .inl (.inl (.inl h))

private theorem statement_eq_nothing (inside : Inside ρ) {c : Cursor} {text : List Char}
    (hc : c.At text) (h : Text.EndsBlock text) : ((statement inside) c).outcome = .nothing := by
  have unread {t : Terminal} (ht : t.starts '\x7d' = false) : c.read? t = none := by
    apply hc.read?_eq_none
    intro d hd
    rcases h with h | h
    · rw [h] at hd
      cases hd
    · obtain rfl := Option.some.inj (h.symm.trans hd)
      exact ht
  rw [statement, outcome_named, outcome_orElse_eq_nothing, map_eq_bind, outcome_bind_eq_nothing,
    string, outcome_bind_eq_nothing, outcome_terminal_eq_nothing]
  exact ⟨tag_eq_nothing ρ inside (unread rfl), .inl (.inl (unread rfl))⟩

private theorem colonBlock_eq_nothing (inside : Inside ρ) {c : Cursor} {text : List Char}
    (hc : c.At text) (h : Text.ahead text ≠ some ':') :
    ((Body.single <$> colonBlock inside) c).outcome = .nothing := by
  rw [map_eq_bind, outcome_bind_eq_nothing, colonBlock, outcome_bind_eq_nothing]
  refine .inl (.inr ⟨_, _, rfl, ?_⟩)
  rw [outcome_bind_eq_nothing, outcome_char_eq_nothing]
  exact .inl (hc.read?_char_eq_none h)

private theorem block_eq_nothing (inside : Inside ρ) {c : Cursor} {text : List Char}
    (hc : c.At text) (h : Text.EndsTag text) : ((block inside) c).outcome = .nothing := by
  rw [block, outcome_named, outcome_orElse_eq_nothing]
  refine ⟨colonBlock_eq_nothing ρ inside hc (h ':' (by simp)), ?_⟩
  rw [map_eq_bind, outcome_bind_eq_nothing, bracedBlock, outcome_named, outcome_bind_eq_nothing]
  refine .inl (.inr ⟨_, _, rfl, ?_⟩)
  rw [outcome_bind_eq_nothing, outcome_char_eq_nothing]
  exact .inl (hc.read?_char_eq_none (h '\x7b' (by simp)))

-- A head is followed by what starts its body, or by what follows the tag.
private theorem ahead_of_body {text rest : List Char} {body : Body}
    (h : DerivesBody text body rest) (hr : Text.EndsTag rest) :
    ∀ c ∈ ['.', '#', '['], Text.ahead text ≠ some c := by
  intro c hc
  cases h with
  | absent => exact hr c (List.mem_append_left [':', '\x7b'] hc)
  | single h _ =>
    rw [h.ahead rfl]
    rintro ⟨⟩
    exact absurd hc (by decide)
  | block h _ _ =>
    rw [h.ahead rfl]
    rintro ⟨⟩
    exact absurd hc (by decide)

mutual

/-- A statement is found where it has a derivation, if there is room for its blocks. -/
private theorem complete_statement (room depth : Nat) {c : Cursor} {text rest : List Char}
    {statement : Statement} : DerivesStatement text statement rest → statement.nesting ≤ room →
    Text.EndsTag rest → c.At text →
    ∃ next, ((Grammar.statement (Inside.within room depth) : Rule ρ _) c).outcome =
      .found statement next ∧ next.At rest
  | .text h, _, _, hc => by
    have hq : c.read? .name = none := by
      apply hc.read?_eq_none
      intro d hd
      obtain rfl := Option.some.inj ((ahead_of_string h).symm.trans hd)
      rfl
    obtain ⟨next, hf, hn⟩ := complete_string ρ _ _ _ _ hc h
    simp only [Grammar.statement, outcome_named, outcome_orElse_eq_found, outcome_map_eq_found]
    exact ⟨next, .inr ⟨tag_eq_nothing ρ _ hq, _, hf, rfl⟩, hn⟩
  | .tag hhead hbody, hroom, hrest, hc => by
    obtain ⟨_, hh, hc⟩ :=
      complete_tagHead ρ _ _ _ _ hc ⟨hhead, ahead_of_body hbody hrest⟩
    obtain ⟨found, next, hb, rfl, hn⟩ := complete_body room depth hbody hroom hrest hc
    simp only [Grammar.statement, outcome_named, outcome_orElse_eq_found]
    refine ⟨next, .inl ?_, hn⟩
    rw [tag, outcome_named, outcome_bind_eq_found]
    exact ⟨_, _, hh, outcome_bind_eq_found.mpr ⟨found, next, hb, rfl⟩⟩

/-- A body is found where it has a derivation. -/
private theorem complete_body (room depth : Nat) {c : Cursor} {text rest : List Char}
    {body : Body} :
    DerivesBody text body rest → body.nesting ≤ room → Text.EndsTag rest → c.At text →
    ∃ found next, ((block (Inside.within room depth) : Rule ρ _).optional c).outcome =
      .found found next ∧ found.getD .absent = body ∧ next.At rest
  | .absent, _, hrest, hc => by
    refine ⟨none, c, ?_, rfl, hc⟩
    exact outcome_optional_eq_found.mpr (.inr ⟨block_eq_nothing ρ _ hc hrest, rfl, rfl⟩)
  | .single hcolon hstatement, hroom, hrest, hc => by
    cases room with
    | zero => simp [Body.nesting] at hroom
    | succ room =>
      obtain ⟨_, hp, hc⟩ := complete_char ρ rfl _ _ () _ hc hcolon
      obtain ⟨next, hf, hn⟩ := complete_statement room (depth + 1) hstatement
        (Nat.le_of_succ_le_succ hroom) hrest hc
      refine ⟨some _, next, outcome_optional_eq_found.mpr (.inl ⟨_, ?_, rfl⟩), rfl, hn⟩
      rw [block, outcome_named, outcome_orElse_eq_found, outcome_map_eq_found]
      refine .inl ⟨_, ?_, rfl⟩
      simp only [colonBlock, outcome_bind_eq_found]
      exact ⟨_, _, rfl, (), _, hp, outcome_bind_eq_found.mpr ⟨(), _, rfl, hf⟩⟩
  | .block hopen hstatements hclose, hroom, _, hc => by
    cases room with
    | zero => simp [Body.nesting] at hroom
    | succ room =>
      have hcolon := colonBlock_eq_nothing ρ (Inside.within (room + 1) depth) hc
        (by rw [hopen.ahead rfl]; decide)
      obtain ⟨_, hp, hc⟩ := complete_char ρ rfl _ _ () _ hc hopen
      obtain ⟨_, hf, hc⟩ := complete_statements room (depth + 1) hstatements
        (Nat.le_of_succ_le_succ hroom) (.inr (hclose.ahead rfl)) hc
      obtain ⟨next, hl, hn⟩ := complete_char ρ rfl _ _ () _ hc hclose
      refine ⟨some _, next, outcome_optional_eq_found.mpr (.inl ⟨_, ?_, rfl⟩), rfl, hn⟩
      rw [block, outcome_named, outcome_orElse_eq_found]
      refine .inr ⟨hcolon, outcome_map_eq_found.mpr ⟨_, ?_, rfl⟩⟩
      simp only [bracedBlock, outcome_named, outcome_bind_eq_found]
      exact ⟨_, _, rfl, (), _, hp, _, _, outcome_bind_eq_found.mpr ⟨(), _, rfl, hf⟩,
        (), _, hl, rfl⟩

/-- Statements are found where they have a derivation. -/
private theorem complete_statements (room depth : Nat) {c : Cursor} {text rest : List Char}
    {statements : List Statement} : DerivesStatements text statements rest →
    Statement.nestingOfList statements ≤ room → Text.EndsBlock rest → c.At text →
    ∃ next, ((Grammar.statements (Inside.within room depth) : Rule ρ _) c).outcome =
      .found statements next ∧ next.At rest
  | .nil, _, hrest, hc => by
    refine ⟨c, ?_, hc⟩
    have hs := shortens_statement (Inside.forward_within ρ room depth)
    exact (outcome_many_eq_found hs).mpr (.inl ⟨statement_eq_nothing ρ _ hc hrest, rfl, rfl⟩)
  | .cons hfirst hmore, hroom, hrest, hc => by
    obtain ⟨next, hf, hn⟩ := complete_statement room depth hfirst
      (Nat.le_trans (Nat.le_max_left _ _) hroom) (endsTag_of_statements hmore hrest) hc
    obtain ⟨last, hm, hl⟩ := complete_statements room depth hmore
      (Nat.le_trans (Nat.le_max_right _ _) hroom) hrest hn
    have hs := shortens_statement (Inside.forward_within ρ room depth)
    exact ⟨last, (outcome_many_eq_found hs).mpr (.inr ⟨_, next, _, hf, hm, rfl⟩), hl⟩

end

end Grammar

/-! ### Documents -/

namespace Document

/-- What is read as a document is derived by the grammar, and its blocks keep to the limit. -/
theorem derives_of_parseWithin {limit : Nat} {source : List Char} {document : Document}
    (h : parseWithin limit source = .ok document) :
    DerivesDocument source document ∧ document.nesting ≤ limit := by
  obtain ⟨last, hf, he⟩ := parseWithin_eq_ok_iff.mp h
  obtain ⟨rest, ⟨hd, hn⟩, hl⟩ :=
    (Grammar.Inside.sound_within limit 0).statements _ _ _ _ (Cursor.At.refl _) hf
  refine ⟨⟨rest, hd, ?_⟩, hn⟩
  rw [Cursor.At, he] at hl
  exact List.dropWhile_eq_nil_iff.mp hl.symm

/-- What the grammar derives is read, if its blocks keep to the limit. -/
theorem parseWithin_of_derives {limit : Nat} {source : List Char} {document : Document}
    (h : DerivesDocument source document) (hn : document.nesting ≤ limit) :
    parseWithin limit source = .ok document := by
  obtain ⟨rest, hd, hb⟩ := h
  have hr : rest.dropWhile Text.isBlank = [] := List.dropWhile_eq_nil_iff.mpr hb
  obtain ⟨last, hf, hl⟩ := Grammar.complete_statements Furthest limit 0 hd hn
    (.inl (by rw [Text.ahead, hr]; rfl)) (Cursor.At.refl (Cursor.start source))
  exact parseWithin_eq_ok_iff.mpr ⟨last, hf, by rw [hl, hr]⟩

/-- A text is read as a document with blocks up to a limit exactly if it derives that document
and the document keeps the limit. -/
private theorem parseWithin_eq_ok_iff_derives {limit : Nat} {source : List Char}
    {document : Document} : parseWithin limit source = .ok document ↔
      DerivesDocument source document ∧ document.nesting ≤ limit :=
  ⟨derives_of_parseWithin, fun h ↦ parseWithin_of_derives h.1 h.2⟩

/-- No text derives two documents, however deep their blocks are nested. -/
private theorem eq_of_derives {source : List Char} {document other : Document}
    (h : DerivesDocument source document) (ho : DerivesDocument source other) :
    document = other := by
  have hd := parseWithin_of_derives h (Nat.le_max_left document.nesting other.nesting)
  have hp := parseWithin_of_derives ho (Nat.le_max_right document.nesting other.nesting)
  rw [hd] at hp
  exact Except.ok.inj hp

/-- Reading gives a document exactly if the text derives it and its blocks are nested at most
128 levels deep, and no text derives two documents. -/
theorem parse_eq_ok_iff_derives (source : String) :
    (∀ document, parse source = .ok document ↔
      DerivesDocument source.toList document ∧ document.nesting ≤ maxNesting) ∧
    ∀ document other, DerivesDocument source.toList document →
      DerivesDocument source.toList other → document = other :=
  ⟨fun _ ↦ parseWithin_eq_ok_iff_derives, fun _ _ ↦ eq_of_derives⟩

end Document
end TerseMarkup
