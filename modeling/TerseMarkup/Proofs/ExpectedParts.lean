import TerseMarkup.Proofs.ErrorPlace
import TerseMarkup.Proofs.OptionalParts

/-!
# What syntax errors expect

Behind a statement some optional parts of its last tag may still follow, and each of them was tried
there. So an error names them all, with a statement and the end of the text, where the statements
end, or else it names one of them that broke further on. The main statement,
`canonical_of_parse_eq_error`, lists what an error can expect.
-/

namespace TerseMarkup

open Machine (Sees sees_of_read? tagMarks)

/-! ### What may follow a statement -/

/-- The selectors that may still be given behind others. -/
def freeSelectors (className id : Option String) : List Production :=
  (if className.isNone then [.className] else []) ++ if id.isNone then [.id] else []

/-- The optional parts that may follow the head of a tag, but for a body. -/
def TagHead.mayFollow (head : TagHead) : List Production :=
  match head.attributes with
  | none => freeSelectors head.className head.id ++ [.attributeList]
  | some _ => []

mutual

/-- The optional parts that may follow a statement. -/
def Statement.mayFollow : Statement → List Production
  | .text _ => []
  | .tag head body => body.mayFollow (head.mayFollow ++ [.block])

/-- The optional parts that may follow a body, given those that may follow without one. -/
def Body.mayFollow (without : List Production) : Body → List Production
  | .absent => without
  | .single statement => statement.mayFollow
  | .block _ => []

end

/-- The optional parts that may follow the last of some statements. -/
def Statement.mayFollowLast (statements : List Statement) : List Production :=
  statements.getLast?.elim [] Statement.mayFollow

/-- The lists of optional parts that may follow a statement. -/
def outlooks : List (List Production) :=
  [[], [.block], [.attributeList, .block], [.className, .attributeList, .block],
    [.id, .attributeList, .block], [.className, .id, .attributeList, .block]]

private theorem TagHead.mayFollow_mem_outlooks (head : TagHead) :
    head.mayFollow ++ [.block] ∈ outlooks := by
  obtain ⟨name, className, id, attributes⟩ := head
  cases attributes with
  | some list => simp [mayFollow, outlooks]
  | none => cases className <;> cases id <;> simp [mayFollow, freeSelectors, outlooks]

mutual

private theorem Statement.mayFollow_mem_outlooks : (statement : Statement) →
    statement.mayFollow ∈ outlooks
  | .text _ => by simp [Statement.mayFollow, outlooks]
  | .tag head body => by
    rw [Statement.mayFollow]
    exact Body.mayFollow_mem_outlooks head.mayFollow_mem_outlooks body

private theorem Body.mayFollow_mem_outlooks {without : List Production} (h : without ∈ outlooks) :
    (body : Body) → body.mayFollow without ∈ outlooks
  | .absent => by rwa [Body.mayFollow]
  | .single statement => by
    rw [Body.mayFollow]
    exact statement.mayFollow_mem_outlooks
  | .block _ => by simp [Body.mayFollow, outlooks]

end

private theorem Statement.mayFollowLast_mem_outlooks (statements : List Statement) :
    mayFollowLast statements ∈ outlooks := by
  unfold mayFollowLast
  cases statements.getLast? with
  | none => simp [outlooks]
  | some statement => exact statement.mayFollow_mem_outlooks

private theorem statement_notMem_of_mem_outlooks {parts : List Production} (h : parts ∈ outlooks) :
    .statement ∉ parts := by
  revert parts
  decide

/-! ### The head of a tag -/

namespace Grammar

variable {c next : Cursor} {k : Furthest}

private theorem clean_name : (name : Rule Furthest String).Clean :=
  (Rule.clean_terminal _).bind fun _ ↦ Rule.clean_pure _

private theorem clean_identifier : (identifier : Rule Furthest String).Clean :=
  (Rule.clean_terminal _).bind fun _ ↦ Rule.clean_pure _

private theorem clean_string : (string : Rule Furthest String).Clean :=
  (Rule.clean_terminal _).bind fun _ ↦ Rule.clean_pure _

private theorem clean_attributePair : (attributePair : Rule Furthest Attribute).Clean := by
  intro c value next k h
  refine Rule.Clean.bind clean_name (fun _ ↦ ?_) c value next k (Rule.of_named_eq_found h)
  exact (Rule.clean_char _).bind fun _ ↦ clean_string.bind fun _ ↦ Rule.clean_pure _

/-- A class or an id: nothing more of it may follow. -/
private theorem partAt_selector (mark : Char) (c : Cursor) : PartAt [mark] [] (fun _ ↦ []) c
    ((do Rule.char mark; identifier : Rule Furthest String) c) := by
  refine partAt_char 0 (Rule.regular 0).rules.identifier (fun d value next k h ↦ ?_) mark c
  rw [clean_identifier d value next k h]
  exact .of_before (Furthest.before_none _)

private theorem stands_selectors {className id : Option String}
    (h : selectors c = ⟨.found (className, id) next, k⟩) :
    Stands ['.', '#'] (freeSelectors className id) next k := by
  obtain ⟨first, d, j₁, k₁, hclass, htail, rfl⟩ := Rule.exists_of_bind_eq_found h
  obtain ⟨found, d', j₂, k₂, hid, hlast, rfl⟩ := Rule.exists_of_bind_eq_found htail
  have hstart : Stands [] [] c ∅ := .of_before (Furthest.before_none _)
  have hfirst := hstart.optional (partAt_selector '.' c) (by simp) (by decide) (by simp) hclass
  rw [LawfulJournal.empty_append] at hfirst
  rw [← LawfulJournal.append_assoc]
  cases first with
  | some name =>
    have hsecond := hfirst.optional (partAt_selector '#' d) (by simp) (by decide) (by simp) hid
    obtain ⟨⟨⟩, rfl, rfl⟩ := Rule.eq_of_pure_eq_found hlast
    rw [LawfulJournal.append_empty]
    cases id with
    | none => exact hsecond.mono (by simp)
    | some id => exact hsecond.mono (by simp)
  | none =>
    have hsecond := hfirst.optional (partAt_selector '#' d) (by simp) (by decide) (by simp) hid
    cases found with
    | none =>
      obtain ⟨⟨⟩, rfl, rfl⟩ := Rule.eq_of_pure_eq_found hlast
      rw [LawfulJournal.append_empty]
      exact hsecond
    | some name =>
      obtain ⟨second, d'', j₃, k₃, hagain, hpure, rfl⟩ := Rule.exists_of_bind_eq_found hlast
      have hthird := hsecond.optional (partAt_selector '.' d') (by simp) (by decide) (by simp)
        hagain
      obtain ⟨⟨⟩, rfl, rfl⟩ := Rule.eq_of_pure_eq_found hpure
      rw [LawfulJournal.append_empty]
      cases className with
      | none => exact hthird.mono (by simp)
      | some className => exact hthird.mono (by simp)

private theorem partAt_nextAttribute (c : Cursor) :
    PartAt [','] [] (fun _ ↦ []) c ((nextAttribute : Rule Furthest Attribute) c) := by
  refine partAt_char 0 (Rule.regular 0).rules.attributePair (fun d value next k h ↦ ?_) ',' c
  rw [clean_attributePair d value next k h]
  exact .of_before (Furthest.before_none _)

/-- A list of attributes: nothing more of it may follow. -/
private theorem partAt_attributeList (c : Cursor) : PartAt ['['] [] (fun _ ↦ []) c ((do
    Rule.char '['
    let first ← attributePair
    let more ← nextAttribute.many
    Rule.char ']'
    return first :: more : Rule Furthest (List Attribute)) c) := by
  refine partAt_char 0 ?_ (fun d value last k h ↦ ?_) '[' c
  · exact RuleRelation.bind _ (RuleRelation.attributePair _) fun _ ↦
      RuleRelation.bind _ (RuleRelation.many _ (RuleRelation.nextAttribute _)) fun _ ↦
        RuleRelation.bind _ (RuleRelation.char _ _) fun _ ↦ RuleRelation.pure _ _
  · obtain ⟨first, d₁, j₁, k₁, hfirst, htail, rfl⟩ := Rule.exists_of_bind_eq_found h
    obtain ⟨more, d₂, j₂, k₂, hmore, hlast, rfl⟩ := Rule.exists_of_bind_eq_found htail
    obtain ⟨_, d₃, j₃, k₃, hclose, hpure, rfl⟩ := Rule.exists_of_bind_eq_found hlast
    obtain ⟨rfl, rfl, rfl⟩ := Rule.eq_of_pure_eq_found hpure
    obtain ⟨lexeme, hread⟩ := Rule.outcome_char_eq_found.mp (congrArg Attempt.outcome hclose)
    rw [clean_attributePair _ _ _ _ hfirst, Rule.clean_char _ _ _ _ _ hclose]
    have hsees : ¬ Sees d₂ [','] := (sees_of_read? hread).not_sees (by simp)
    have hle := atMost_of_many partAt_nextAttribute (Rule.regular 0).rules.nextAttribute
      shortens_nextAttribute hmore hsees
    refine .of_before (Furthest.AtMost.before ?_ (Cursor.tokenStart_lt_of_read? hread))
    rw [LawfulJournal.append_empty]
    simpa using hle

private theorem stands_tagHead {head : TagHead} (h : tagHead c = ⟨.found head next, k⟩) :
    Stands ['.', '#', '['] head.mayFollow next k := by
  obtain ⟨name, d₁, j₁, k₁, hname, htail, rfl⟩ := Rule.exists_of_bind_eq_found h
  obtain ⟨⟨className, id⟩, d₂, j₂, k₂, hselectors, hlast, rfl⟩ :=
    Rule.exists_of_bind_eq_found htail
  obtain ⟨attributes, d₃, j₃, k₃, hlist, hpure, rfl⟩ := Rule.exists_of_bind_eq_found hlast
  obtain ⟨rfl, rfl, rfl⟩ := Rule.eq_of_pure_eq_found hpure
  have hfree : .attributeList ∉ freeSelectors className id := by
    cases className <;> cases id <;> simp [freeSelectors]
  have hstands := (stands_selectors hselectors).optional (partAt_attributeList d₂) (by simp)
    (by decide) hfree hlist
  rw [clean_name _ _ _ _ hname, LawfulJournal.append_empty]
  cases attributes with
  | none => exact hstands
  | some list => exact hstands.mono (by simp)

/-! ### Statements -/

/-- What is known of the insides of blocks. -/
structure Inside.Awaits (inside : Inside Furthest) (limit : Nat) : Prop where
  regular : (Rule.regular limit).rules.Insides inside inside
  forward : inside.Forward
  single : ∀ opener c value next k, inside.single opener c = ⟨.found value next, k⟩ →
    Stands tagMarks value.mayFollow next k
  block : ∀ opener c values next k, inside.block opener c = ⟨.found values next, k⟩ →
    Stands tagMarks (Statement.mayFollowLast values ++ [.statement]) next k

variable {inside : Inside Furthest} {limit : Nat}

private theorem Inside.Awaits.partAt_colonBlock (h : inside.Awaits limit) (c : Cursor) :
    PartAt [':'] tagMarks Statement.mayFollow c (colonBlock inside c) := by
  rw [colonBlock, Rule.tokenStart_bind]
  exact partAt_char limit (h.regular.1 _) (h.single _) ':' c

private theorem Inside.Awaits.partAt_bracedBlock (h : inside.Awaits limit) (c : Cursor) :
    PartAt ['\x7b'] tagMarks (fun _ ↦ []) c (bracedBlock inside c) := by
  refine PartAt.named ?_ _
  rw [Rule.tokenStart_bind]
  refine partAt_char limit ?_ (fun d values last k hf ↦ ?_) '\x7b' c
  · exact RuleRelation.bind _ (h.regular.2 _) fun _ ↦
      RuleRelation.bind _ (RuleRelation.char _ _) fun _ ↦ RuleRelation.pure _ _
  · obtain ⟨values, d₁, j₁, k₁, hblock, htail, rfl⟩ := Rule.exists_of_bind_eq_found hf
    obtain ⟨_, d₂, j₂, k₂, hclose, hpure, rfl⟩ := Rule.exists_of_bind_eq_found htail
    obtain ⟨rfl, rfl, rfl⟩ := Rule.eq_of_pure_eq_found hpure
    obtain ⟨lexeme, hread⟩ := Rule.outcome_char_eq_found.mp (congrArg Attempt.outcome hclose)
    rw [Rule.clean_char _ _ _ _ _ hclose]
    refine .of_before ?_
    have hbefore := (h.block _ _ _ _ _ hblock).before_of_read? (by decide) hread
    exact hbefore.append (Furthest.before_none _)

/-- The body of a tag: behind a colon, what may follow its statement. -/
private theorem Inside.Awaits.partAt_block (h : inside.Awaits limit) (without : List Production)
    (c : Cursor) : PartAt [':', '\x7b'] tagMarks (Body.mayFollow without) c
      (Rule.orElse (Body.single <$> colonBlock inside) (Body.block <$> bracedBlock inside) c) := by
  have hcolon : PartAt [':'] tagMarks (Body.mayFollow without) c
      ((Body.single <$> colonBlock inside) c) := by
    have he : Body.mayFollow without ∘ Body.single = Statement.mayFollow := by
      funext statement
      rw [Function.comp_apply, Body.mayFollow]
    exact PartAt.map (he ▸ h.partAt_colonBlock c)
  have hbrace : PartAt ['\x7b'] tagMarks (Body.mayFollow without) c
      ((Body.block <$> bracedBlock inside) c) := by
    have he : Body.mayFollow without ∘ Body.block = fun _ ↦ [] := by
      funext statements
      rw [Function.comp_apply, Body.mayFollow]
    exact PartAt.map (he ▸ h.partAt_bracedBlock c)
  exact hcolon.orElse hbrace (by simp)

private theorem Inside.Awaits.stands_tag (h : inside.Awaits limit) {value : Statement}
    (hf : tag inside c = ⟨.found value next, k⟩) : Stands tagMarks value.mayFollow next k := by
  obtain ⟨head, d₁, j₁, k₁, hhead, htail, rfl⟩ :=
    Rule.exists_of_bind_eq_found (Rule.of_named_eq_found hf)
  obtain ⟨body, d₂, j₂, k₂, hbody, hpure, rfl⟩ := Rule.exists_of_bind_eq_found htail
  obtain ⟨rfl, rfl, rfl⟩ := Rule.eq_of_pure_eq_found hpure
  have hfree : .block ∉ head.mayFollow := by
    obtain ⟨name, className, id, attributes⟩ := head
    cases attributes <;> cases className <;> cases id <;>
      simp [TagHead.mayFollow, freeSelectors]
  have hstands := (stands_tagHead hhead).optional
    (h.partAt_block (head.mayFollow ++ [.block]) d₁) (by simp) (by decide) hfree hbody
  rw [LawfulJournal.append_empty, Statement.mayFollow]
  cases body with
  | none =>
    rw [Option.getD_none, Body.mayFollow]
    exact hstands
  | some body => exact hstands

private theorem tag_of_none (inside : Inside Furthest) (h : c.read? .name = none) :
    tag inside c = ⟨.nothing, some ⟨c.tokenStart, [.production .tag]⟩⟩ := by
  have hname : (name : Rule Furthest String) c = _ := Rule.bind_of_nothing (Rule.terminal_of_none h)
  have hhead : (tagHead : Rule Furthest TagHead) c = _ := Rule.bind_of_nothing hname
  simp only [tag, Rule.named, Rule.bind_of_nothing hhead]
  rfl

private theorem statement_of_none (inside : Inside Furthest) (hn : c.read? .name = none)
    (hs : c.read? .string = none) :
    statement inside c = ⟨.nothing, some ⟨c.tokenStart, [.production .statement]⟩⟩ := by
  have hstring : (string : Rule Furthest String) c = _ :=
    Rule.bind_of_nothing (Rule.terminal_of_none hs)
  have htext : (Statement.text <$> (string : Rule Furthest String)) c = _ :=
    Rule.bind_of_nothing hstring
  simp only [statement, Rule.named, Rule.orElse_of_nothing (tag_of_none inside hn), htext]
  change (⟨.nothing, some ⟨(Failure.merge ⟨c.tokenStart, _⟩ ⟨c.tokenStart, _⟩).offset, _⟩⟩ :
    Attempt Furthest Statement) = _
  rw [Failure.offset_merge, Nat.max_self]

/-- A statement is read in the same way from behind the blanks before it. -/
theorem statement_skipBlanks {ρ : Type} [Journal ρ] (inside : Inside ρ) (c : Cursor) :
    statement inside c.skipBlanks = statement inside c := by
  have hterminal (t : Terminal) :
      (Rule.terminal t : Rule ρ _) c.skipBlanks = Rule.terminal t c := by
    simp only [Rule.terminal, Cursor.read?_skipBlanks, Cursor.tokenStart_skipBlanks]
  have hname : (name : Rule ρ String) c.skipBlanks = name c := Rule.bind_congr (hterminal _)
  have hhead : (tagHead : Rule ρ TagHead) c.skipBlanks = tagHead c := Rule.bind_congr hname
  have htag : tag inside c.skipBlanks = tag inside c := by
    simp only [tag, Rule.named, Rule.bind_congr hhead]
  have hstring : (string : Rule ρ String) c.skipBlanks = string c := Rule.bind_congr (hterminal _)
  have htext : (Statement.text <$> (string : Rule ρ String)) c.skipBlanks =
      (Statement.text <$> string) c := Rule.bind_congr hstring
  simp only [statement, Rule.named, Rule.orElse, htag, htext]

/-- A statement is not empty, so the token behind it starts later. -/
private theorem tokenStart_lt_of_statement {ρ : Type} [Journal ρ] {inside : Inside ρ}
    (hi : inside.Forward) {c next : Cursor} {value : Statement}
    (hf : (statement inside c).outcome = .found value next) : c.tokenStart < next.tokenStart := by
  rw [← statement_skipBlanks] at hf
  have hlt := shortens_statement hi _ _ _ hf
  obtain ⟨passed, hr, ho⟩ := hi.blocks.statement _ _ _ hf
  have hle := next.leadsTo_skipBlanks.offset_le
  have hpos : Text.byteLength passed ≠ 0 := by
    intro hzero
    rw [hr, Text.byteLength_eq_zero_iff.mp hzero] at hlt
    exact absurd hlt (Nat.lt_irrefl _)
  simp only [Cursor.tokenStart] at *
  omega

/-- No part of a tag starts where a statement does. -/
private theorem not_sees_of_statement {t : Terminal} {lexeme : List Char}
    (ht : t = .name ∨ t = .string) (h : c.read? t = some (lexeme, next)) : ¬ Sees c tagMarks := by
  rintro ⟨m, hm, ha⟩
  obtain ⟨d, hd, hs⟩ := Cursor.ahead_of_read? h
  obtain rfl := Option.some.inj (ha.symm.trans hd)
  simp only [tagMarks, List.mem_cons, List.not_mem_nil, or_false] at hm
  rcases ht with rfl | rfl <;> rcases hm with rfl | rfl | rfl | rfl | rfl <;>
    exact absurd hs (by decide)

private theorem always_selectors : (selectors : Rule Furthest _).Always := by
  refine (Rule.always_optional _).bind fun first ↦ (Rule.always_optional _).bind fun id ↦ ?_
  split
  · exact (Rule.always_optional _).bind fun _ ↦ Rule.always_pure _
  · exact Rule.always_pure _

/-- A tag is read where its name is, with or without its optional parts. -/
private theorem read?_of_tag_eq_nothing (h : (tag inside c).outcome = .nothing) :
    c.read? .name = none := by
  rw [tag, Rule.outcome_named, Rule.outcome_bind_eq_nothing] at h
  rcases h with h | ⟨head, d, -, h⟩
  · rw [tagHead, Rule.outcome_bind_eq_nothing] at h
    rcases h with h | ⟨_, d, -, h⟩
    · rw [name, Rule.outcome_bind_eq_nothing] at h
      rcases h with h | ⟨_, d, -, h⟩
      · exact Rule.outcome_terminal_eq_nothing.mp h
      · exact absurd h (Rule.always_pure _ d)
    · refine absurd h (always_selectors.bind (fun _ ↦ ?_) d)
      exact (Rule.always_optional _).bind fun _ ↦ Rule.always_pure _
  · exact absurd h ((Rule.always_optional _).bind (fun _ ↦ Rule.always_pure _) d)

/-- Where no statement is found, it is a statement that was expected. -/
theorem eq_of_statement_eq_nothing (h : statement inside c = ⟨.nothing, k⟩) :
    k = some ⟨c.tokenStart, [.production .statement]⟩ := by
  have ho : (statement inside c).outcome = .nothing := congrArg Attempt.outcome h
  rw [statement, Rule.outcome_named, Rule.outcome_orElse_eq_nothing] at ho
  obtain ⟨htag, htext⟩ := ho
  have hstring : c.read? .string = none := by
    cases hr : c.read? .string with
    | none => rfl
    | some read =>
      have hs : (string : Rule Furthest String) c = _ :=
        Rule.bind_of_found (Rule.terminal_of_read hr)
      rw [Rule.map_eq_bind, Rule.bind_of_found hs] at htext
      cases htext
  rw [statement_of_none inside (read?_of_tag_eq_nothing htag) hstring] at h
  exact (Attempt.mk.inj h).2.symm

private theorem Inside.Awaits.stands_statement (h : inside.Awaits limit) {value : Statement}
    (hf : statement inside c = ⟨.found value next, k⟩) :
    ¬ Sees c tagMarks ∧ Stands tagMarks value.mayFollow next k := by
  have horElse := Rule.of_named_eq_found hf
  rcases htag : tag inside c with ⟨outcome, journal⟩
  cases outcome with
  | found value' next' =>
    rw [Rule.orElse_of_found htag] at horElse
    obtain ⟨hvalue, rfl⟩ := Attempt.mk.inj horElse
    obtain ⟨rfl, rfl⟩ := Outcome.found.inj hvalue
    refine ⟨?_, h.stands_tag htag⟩
    cases hname : c.read? .name with
    | none =>
      rw [tag_of_none inside hname] at htag
      cases htag
    | some read => exact not_sees_of_statement (.inl rfl) hname
  | nothing =>
    have hname := read?_of_tag_eq_nothing (congrArg Attempt.outcome htag)
    rw [Rule.orElse_of_nothing (tag_of_none inside hname), Rule.map_eq_bind] at horElse
    cases hstring : c.read? .string with
    | none =>
      have hs : (string : Rule Furthest String) c = _ :=
        Rule.bind_of_nothing (Rule.terminal_of_none hstring)
      rw [Rule.bind_of_nothing hs] at horElse
      cases horElse
    | some read =>
      have hs : (string : Rule Furthest String) c = _ :=
        Rule.bind_of_found (Rule.terminal_of_read hstring)
      rw [Rule.bind_of_found hs] at horElse
      obtain ⟨hvalue, rfl⟩ := Attempt.mk.inj horElse
      obtain ⟨rfl, rfl⟩ := Outcome.found.inj hvalue
      refine ⟨not_sees_of_statement (.inr rfl) hstring, ?_⟩
      rw [Statement.mayFollow]
      refine .of_before (Furthest.AtMost.before ?_ (Cursor.tokenStart_lt_of_read? hstring))
      exact Furthest.atMost_some.mpr (Nat.le_refl _)
  | tooDeep mark =>
    rw [Rule.orElse_of_tooDeep htag] at horElse
    cases horElse

/-- Statements: where they end, all that may follow the last one was tried, and a statement. -/
private theorem Inside.Awaits.stands_statements (h : inside.Awaits limit) {values : List Statement}
    (hf : statements inside c = ⟨.found values next, k⟩) :
    Stands tagMarks (Statement.mayFollowLast values ++ [.statement]) next k := by
  have hs := shortens_statement h.forward
  induction hl : c.rest.length using Nat.strongRecOn generalizing c values k with
  | ind n ih =>
    rcases Rule.exists_of_many_eq_found hs hf with
      ⟨hround, rfl, rfl⟩ | ⟨value, d, more, earlier, later, hround, hmore, rfl, rfl⟩
    · rw [eq_of_statement_eq_nothing hround]
      exact .reaches (.inl rfl)
    · obtain ⟨-, hstands⟩ := h.stands_statement hround
      rcases Rule.exists_of_many_eq_found hs hmore with
        ⟨hlast, rfl, rfl⟩ | ⟨value', d', more', _, _, hnext, hmore', rfl, rfl⟩
      · rw [eq_of_statement_eq_nothing hlast]
        exact hstands.append_missed
          (statement_notMem_of_mem_outlooks value.mayFollow_mem_outlooks)
      · -- Another statement starts behind the first one, so nothing jams there.
        have hrest := ih _ (hl ▸ hs _ _ _ (congrArg Attempt.outcome hround)) hmore rfl
        have hlt := tokenStart_lt_of_statement h.forward (congrArg Attempt.outcome hnext)
        have hle : d'.tokenStart ≤ next.tokenStart :=
          (h.forward.blocks.statements _ _ _ (congrArg Attempt.outcome hmore')).tokenStart_le
        have hearlier := hstands.atMost (h.stands_statement hnext).1
        exact hrest.behind (hearlier.before (Nat.lt_of_lt_of_le hlt hle))

private theorem Inside.awaits_within {limit room depth : Nat} (hl : room + depth = limit) :
    (Inside.within room depth).Awaits limit := by
  induction room generalizing depth with
  | zero =>
    refine ⟨regular_within hl, forward_within _ _ _, ?_, ?_⟩
    · intro opener c value next k h
      cases h
    · intro opener c value next k h
      cases h
  | succ room ih =>
    have deeper := ih (show room + (depth + 1) = limit by omega)
    refine ⟨regular_within hl, forward_within _ _ _, ?_, ?_⟩
    · intro opener c value next k h
      exact deeper.stands_statement h |>.2
    · intro opener c values next k h
      exact deeper.stands_statements h

end Grammar

/-! ### Documents -/

namespace Document

variable {limit : Nat} {source : List Char} {values : List Statement} {last : Cursor}
  {furthest : Furthest}

/-- Where the statements of a text end, all that may follow them is expected there, or one optional
part of the last tag broke further on. -/
theorem miss_of_found (h : attempt Furthest limit source = ⟨.found values last, furthest⟩) :
    furthest.miss last.tokenStart .endOfText =
        ⟨last.tokenStart, (Statement.mayFollowLast values).map .production ++
          [.production .statement, .endOfText]⟩ ∨
      ∃ p ∈ tagParts, ∃ place, furthest.miss last.tokenStart .endOfText =
        ⟨place, [.production p]⟩ ∧ last.tokenStart < place ∧ Sees last tagMarks := by
  have hmiss := Furthest.some_miss furthest last.tokenStart .endOfText
  cases (Grammar.Inside.awaits_within (Nat.add_zero limit)).stands_statements h with
  | reaches hreaches =>
    refine .inl (Option.some.inj (hmiss.trans ?_))
    refine (hreaches.append_missed (by simp)).trans ?_
    rw [List.map_append, List.append_assoc]
    rfl
  | jams hp hf hlt hs =>
    subst hf
    refine .inr ⟨_, hp, _, Option.some.inj (hmiss.trans ?_), hlt, hs⟩
    exact Furthest.append_before ((Furthest.atMost_some.mpr (Nat.le_refl _)).before hlt)

private theorem label_notMem_of_mem_tagParts {p : Production} (h : p ∈ tagParts) :
    p.label ∉ ["EOF", "at most 128 nested blocks"] := by
  revert p
  decide

/-- An error lies no further left than the token behind the statements. -/
theorem tokenStart_le_offset_miss
    (h : attempt Furthest limit source = ⟨.found values last, furthest⟩) :
    last.tokenStart ≤ (furthest.miss last.tokenStart .endOfText).offset := by
  rcases miss_of_found h with hm | ⟨p, -, place, hm, hlt, -⟩
  · rw [hm]
  · rw [hm]
    exact Nat.le_of_lt hlt

/-- The end of the text is expected only where the statements end. -/
theorem endOfText_mem_expected_iff
    (h : attempt Furthest limit source = ⟨.found values last, furthest⟩) :
    "EOF" ∈ (report source (furthest.miss last.tokenStart .endOfText)).expected ↔
      (furthest.miss last.tokenStart .endOfText).offset = last.tokenStart := by
  rcases miss_of_found h with hm | ⟨p, hp, place, hm, hlt, -⟩
  · rw [hm]
    simp [report, Expectation.label]
  · rw [hm]
    refine iff_of_false (fun hmem ↦ ?_) (Nat.ne_of_gt hlt)
    have he : "EOF" = p.label := List.mem_singleton.mp hmem
    exact label_notMem_of_mem_tagParts hp (by simp [← he])

/-- Only a block that is too deep is reported by the limit. -/
theorem expected_ne_of_found
    (h : attempt Furthest limit source = ⟨.found values last, furthest⟩) :
    (report source (furthest.miss last.tokenStart .endOfText)).expected ≠
      ["at most 128 nested blocks"] := by
  rcases miss_of_found h with hm | ⟨p, hp, place, hm, -⟩
  · rw [hm]
    intro he
    have hmem : "EOF" ∈ ["at most 128 nested blocks"] := by
      rw [← he]
      simp [report, Expectation.label]
    exact absurd hmem (by decide)
  · rw [hm]
    intro he
    have hlabel : p.label = "at most 128 nested blocks" := List.head_eq_of_cons_eq he
    exact label_notMem_of_mem_tagParts hp (by simp [hlabel])

/-- What a syntax error may expect: less nesting, an optional part of a tag that broke, or else all
that may follow where the statements end. -/
def expectations : List (List String) :=
  [["at most 128 nested blocks"], ["class"], ["id"], ["attributes"], ["block"],
    ["statement", "EOF"], ["block", "statement", "EOF"],
    ["attributes", "block", "statement", "EOF"],
    ["class", "attributes", "block", "statement", "EOF"],
    ["id", "attributes", "block", "statement", "EOF"],
    ["class", "id", "attributes", "block", "statement", "EOF"]]

private theorem label_mem_expectations {p : Production} (h : p ∈ tagParts) :
    [p.label] ∈ expectations := by
  revert p
  decide

private theorem labels_mem_expectations {parts : List Production} (h : parts ∈ outlooks) :
    parts.map Production.label ++ ["statement", "EOF"] ∈ expectations := by
  revert parts
  decide

/-- A syntax error is reported between two characters and before no blank, with the line and the
column of its offset, and it expects one of eleven lists. -/
theorem canonical_of_parse_eq_error {source : String} {error : SyntaxError}
    (h : parse source = .error error) :
    (∃ before after, source.toList = before ++ after ∧
      Text.byteLength before = error.position.offset ∧
        ∀ c, after.head? = some c → Text.isBlank c = false) ∧
    error.position = Position.locate source.toList error.position.offset ∧
    error.expected ∈ expectations := by
  refine and_assoc.mp ⟨?_, ?_⟩
  · rcases parseWithin_run maxNesting source.toList with
      ⟨document, hok, -⟩ | ⟨found, place, he, hrun, hp⟩
    · rw [parse, hok] at h
      cases h
    obtain rfl : found = error := Except.error.inj (he.symm.trans h)
    obtain ⟨d, hl, rfl⟩ := Machine.exists_tokenStart_of_halt hrun
    obtain ⟨before, hsource, hlength⟩ := hl.exists_split
    have hoffset : found.position.offset = d.tokenStart := by
      rw [hp, hsource, ← hlength, Position.offset_locate_append]
    rw [hoffset]
    refine ⟨⟨before, d.skipBlanks.rest, hsource, hlength, fun c hc ↦ ?_⟩, hp⟩
    exact Text.isBlank_of_ahead hc
  · rcases exists_of_parseWithin_eq_error h with
      ⟨mark, furthest, -, rfl⟩ | ⟨values, last, furthest, hattempt, -, rfl⟩
    · exact List.mem_cons_self
    rw [report]
    rcases miss_of_found hattempt with hm | ⟨p, hp, place, hm, -⟩
    · rw [hm, List.map_append, List.map_map]
      exact labels_mem_expectations (Statement.mayFollowLast_mem_outlooks values)
    · rw [hm]
      exact label_mem_expectations hp

/-- An id that lacks its name. -/
theorem canonical_of_broken_id :
    parse "p.q #" = .error ⟨⟨5, 1, 6⟩, ["id"]⟩ ∧
      (∃ before after, "p.q #".toList = before ++ after ∧ Text.byteLength before = 5 ∧
        ∀ c, after.head? = some c → Text.isBlank c = false) ∧
      (⟨5, 1, 6⟩ : Position) = Position.locate "p.q #".toList 5 ∧ ["id"] ∈ expectations :=
  have h := eq_error_of_decide (by decide +kernel)
  ⟨h, canonical_of_parse_eq_error h⟩

end Document
end TerseMarkup
