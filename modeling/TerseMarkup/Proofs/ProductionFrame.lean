import TerseMarkup.Proofs.StepFrame

/-!
# What a production leaves behind

A production that finds something has gone further, and one that fails is back where it started.
Each block comes behind its opener, so the bytes ahead bound the recursion as they bound the loops.
The main statement, `framed_parsing`, says so for every production, and that it ends as its rule
does as long as no block was too deep.
-/

namespace TerseMarkup.Parsing

open TerseMarkup.Parser

variable {ρ α : Type} [Journal ρ] [Writes ρ] {n : Nat} {s : Parser} {c : Cursor}
  {rule : Nat → Rule ρ α}

/-! ### Tokens -/

private theorem tokenStart_of_cursor? (h : s.scanner.cursor? = some c) :
    tokenStart s = some (some c.tokenStart, s) := by
  simp only [tokenStart, Seeker.perform_tokenStart h]

private theorem terminal_of_read? {t : Terminal} {lexeme : List Char} {next : Cursor}
    (h : s.scanner.cursor? = some c) (hr : c.read? t = some (lexeme, next)) :
    terminal t s = some (some (t.value lexeme), { s with scanner := s.scanner.goTo next }) := by
  refine (bind_of_some (tokenStart_of_cursor? h)).trans ?_
  simp only [Seeker.perform, Seeker.look_of_cursor? h, Seeker.readToken_of_read? hr]

private theorem terminal_of_none {t : Terminal} (h : s.scanner.cursor? = some c)
    (hr : c.read? t = none) :
    terminal t s = some (none, expect s c.tokenStart (.terminal t)) := by
  refine (bind_of_some (tokenStart_of_cursor? h)).trans ?_
  simp only [Seeker.perform, Seeker.look_of_cursor? h, Seeker.readToken_of_none hr,
    Seeker.goTo_of_cursor? h]

private theorem safe_tokenStart : Safe n tokenStart fun _ ↦ (Rule.tokenStart : Rule ρ Nat) := by
  intro s c hready
  refine ⟨some c.tokenStart, s, tokenStart_of_cursor? hready.cursor, hready.keeps, fun hmark ↦ ?_⟩
  exact .found hready.cursor hmark (LawfulJournal.append_empty (written s)).symm

/-- A token is read as the grammar reads it, and a parser that misses it stays where it is. -/
theorem framed_terminal (t : Terminal) :
    Framed n (terminal t) fun _ ↦ (Rule.terminal t : Rule ρ (List Char)) where
  safe := by
    intro s c hready
    cases hr : c.read? t with
    | none =>
      refine ⟨none, _, terminal_of_none hready.cursor hr, ?_, fun hmark ↦ ?_⟩
      · exact ⟨rfl, ⟨c, hready.cursor⟩, Nat.le_refl _, rfl, hready.raised_le, fun _ ↦ id⟩
      · change s.Agrees (Rule.terminal t c) _ _
        rw [Rule.terminal_of_none hr]
        exact .nothing hmark (Writes.written_expect s c.tokenStart (.terminal t))
    | some found =>
      obtain ⟨lexeme, next⟩ := found
      have hnext := Seeker.cursor?_goTo hready.cursor (Cursor.leadsTo_of_read? hr)
      refine ⟨_, _, terminal_of_read? hready.cursor hr, ?_, fun hmark ↦ ?_⟩
      · refine ⟨rfl, ⟨next, hnext⟩, ?_, rfl, hready.raised_le, fun _ ↦ id⟩
        rw [← (Seeker.cursor?_eq_some_iff.mp hready.cursor).2]
        exact (Cursor.leadsTo_of_read? hr).offset_le
      · change s.Agrees (Rule.terminal t c) _ _
        rw [Rule.terminal_of_read hr]
        refine .found hnext hmark ?_
        rw [LawfulJournal.append_empty]
        exact Writes.written_congr rfl rfl
  moves := by
    intro s c value later hready hrun
    cases hr : c.read? t with
    | none =>
      rw [terminal_of_none hready.cursor hr] at hrun
      cases hrun
    | some found =>
      obtain ⟨lexeme, next⟩ := found
      rw [terminal_of_read? hready.cursor hr] at hrun
      cases hrun
      have hfound := Seeker.found_of_read? hready.cursor hr
      obtain ⟨_, _, _, -, -, -, -, -, hlt, -⟩ := hfound
      exact hlt
  stays := by
    intro s c later hready hrun
    cases hr : c.read? t with
    | none =>
      rw [terminal_of_none hready.cursor hr] at hrun
      cases hrun
      rfl
    | some found =>
      rw [terminal_of_read? hready.cursor hr] at hrun
      cases hrun

private theorem moving_char (expected : Char) :
    Moving n (char expected) fun _ ↦ (Rule.char expected : Rule ρ Unit) :=
  (framed_terminal _).toMoving.bind fun _ ↦ Safe.pure ()

private theorem moving_name : Moving n name fun _ ↦ (Grammar.name : Rule ρ String) :=
  (framed_terminal _).toMoving.bind fun _ ↦ Safe.pure _

private theorem moving_identifier :
    Moving n identifier fun _ ↦ (Grammar.identifier : Rule ρ String) :=
  (framed_terminal _).toMoving.bind fun _ ↦ Safe.pure _

private theorem moving_string : Moving n string fun _ ↦ (Grammar.string : Rule ρ String) :=
  (framed_terminal _).toMoving.bind fun _ ↦ Safe.pure _

/-! ### The head of a tag -/

private theorem framed_className : Framed n className fun _ ↦ (Grammar.className : Rule ρ String) :=
  ((moving_char '.').bind fun _ ↦ moving_identifier.safe).described .className

private theorem framed_elementId : Framed n elementId fun _ ↦ (Grammar.elementId : Rule ρ String) :=
  ((moving_char '#').bind fun _ ↦ moving_identifier.safe).described .id

section

variable {rounds : Nat}

/-- A loop that is granted no rounds is not entered. -/
private theorem safe_of_le (hn : n ≤ rounds) {loop : Nat → Parsing α}
    (h : ∀ rounds, n ≤ rounds + 1 → Safe n (loop (rounds + 1)) rule) :
    Safe n (loop rounds) rule := by
  cases rounds with
  | zero =>
    obtain rfl := Nat.le_zero.mp hn
    exact safe_zero _ _
  | succ rounds => exact h rounds hn

private theorem safe_selectors_of_both (hn : n ≤ rounds) (known id : String) :
    Safe n (selectors rounds (some known) (some id))
      fun _ ↦ (pure (some known, some id) : Rule ρ _) := by
  apply safe_of_le hn
  intro rounds _
  rw [selectors]
  exact Safe.skip (fun _ ↦ rfl) (Safe.skip (fun _ ↦ rfl) (Safe.pure _))

private theorem safe_selectors_of_class (hn : n ≤ rounds) (known : String) :
    Safe n (selectors rounds (some known) none)
      fun _ ↦ (Grammar.elementId.optional >>= fun id ↦ pure (some known, id) : Rule ρ _) := by
  apply safe_of_le hn
  intro rounds hn
  rw [selectors]
  apply Safe.skip fun _ ↦ rfl
  apply Safe.optionalIf_bind (fun _ _ ↦ rfl) framed_elementId
  · intro id
    exact safe_selectors_of_both (by omega) known id
  · exact Safe.pure _

private theorem safe_selectors_of_id (hn : n ≤ rounds) (id : String) :
    Safe n (selectors rounds none (some id))
      fun _ ↦ (Grammar.className.optional >>= fun known ↦ pure (known, some id) : Rule ρ _) := by
  apply safe_of_le hn
  intro rounds hn
  rw [selectors]
  apply Safe.optionalIf_bind (fun _ _ ↦ rfl) framed_className
  · intro known
    exact safe_selectors_of_both (by omega) known id
  · exact Safe.skip (fun _ ↦ rfl) (Safe.pure _)

private theorem safe_selectors (hn : n ≤ rounds) :
    Safe n (selectors rounds none none) fun _ ↦ (Grammar.selectors : Rule ρ _) := by
  apply safe_of_le hn
  intro rounds hn
  rw [selectors]
  apply Safe.optionalIf_bind (fun _ _ ↦ rfl) framed_className
  · intro known
    exact safe_selectors_of_class (by omega) known
  · apply Safe.optionalIf_bind (fun _ _ ↦ rfl) framed_elementId
    · intro id
      exact safe_selectors_of_id (by omega) id
    · exact Safe.pure _

private theorem framed_attributePair :
    Framed n attributePair fun _ ↦ (Grammar.attributePair : Rule ρ Attribute) :=
  (moving_name.bind fun _ ↦ (moving_char ':').safe.bind fun _ ↦ moving_string.safe.bind fun _ ↦
    Safe.pure _).described .attributePair

private theorem framed_nextAttribute :
    Framed n nextAttribute fun _ ↦ (Grammar.nextAttribute : Rule ρ Attribute) :=
  ((moving_char ',').bind fun _ ↦ framed_attributePair.safe).attempt

private theorem framed_attributeList (hn : n ≤ rounds + 1) :
    Framed n (attributeList rounds) fun _ ↦ (Grammar.attributeList : Rule ρ (List Attribute)) := by
  have hmore : Safe (n - 1) (repeated (fun _ ↦ true) nextAttribute rounds)
      fun _ ↦ (Grammar.nextAttribute.many : Rule ρ (List Attribute)) :=
    Safe.repeated (fun _ _ ↦ rfl) (fun _ ↦ Grammar.shortens_nextAttribute) framed_nextAttribute
      (by omega)
  exact ((moving_char '[').bind fun _ ↦ framed_attributePair.safe.bind fun _ ↦
    hmore.bind fun _ ↦ (moving_char ']').safe.bind fun _ ↦ Safe.pure _).described .attributeList

private theorem moving_tagHead (hn : n ≤ rounds + 1) :
    Moving n (tagHead rounds) fun _ ↦ (Grammar.tagHead : Rule ρ TagHead) :=
  moving_name.bind fun _ ↦ (safe_selectors (by omega)).bind fun _ ↦
    (framed_attributeList (by omega)).optional.bind fun _ ↦ Safe.pure _

/-! ### Statements -/

/-- How the inside of a block is read if so many blocks are open around it. -/
abbrev insideAt (ρ : Type) [Journal ρ] (depth : Nat) : Grammar.Inside ρ :=
  .within (maxNesting - depth) depth

omit [Writes ρ] in
private theorem insideAt_of_lt {depth : Nat} (h : depth < maxNesting) :
    insideAt ρ depth =
      ⟨fun opener ↦ Rule.opened opener (depth + 1) >>= fun _ ↦
          Grammar.statement (insideAt ρ (depth + 1)),
        fun opener ↦ Rule.opened opener (depth + 1) >>= fun _ ↦
          Grammar.statements (insideAt ρ (depth + 1))⟩ := by
  have hroom : maxNesting - depth = maxNesting - (depth + 1) + 1 := by omega
  rw [insideAt, hroom, Grammar.Inside.within]

omit [Writes ρ] in
private theorem insideAt_maxNesting :
    insideAt ρ maxNesting = ⟨fun opener ↦ Rule.refuse ⟨opener, maxNesting⟩,
      fun opener ↦ Rule.refuse ⟨opener, maxNesting⟩⟩ := by
  rw [insideAt, Nat.sub_self, Grammar.Inside.within]

variable {inside : Parsing Statement}

private theorem safe_statements
    (h : Framed n inside fun depth ↦ Grammar.statement (insideAt ρ depth)) (hn : n ≤ rounds) :
    Safe n (statements rounds inside) fun depth ↦ Grammar.statements (insideAt ρ depth) := by
  apply Safe.repeated _ _ h hn
  · intro s hmark
    rw [hmark, Option.isNone_none]
  · intro depth
    exact Grammar.shortens_statement (Grammar.Inside.forward_within ρ _ depth)

section

variable (h : Framed (n - 1) inside fun depth ↦ Grammar.statement (insideAt ρ depth))
  (hn : n ≤ rounds + 1)

include h

private theorem framed_colonBlock :
    Framed n (colonBlock inside) fun depth ↦ Grammar.colonBlock (insideAt ρ depth) := by
  have hinside (opener : Nat) :
      Safe (n - 1) (nested opener inside) fun depth ↦ (insideAt ρ depth).single opener := by
    apply h.safe.nested opener
    · intro depth hd
      rw [insideAt_of_lt hd]
    · rw [insideAt_maxNesting]
  exact (safe_tokenStart.bind_moving fun opener ↦
    (moving_char ':').bind fun _ ↦ hinside opener).attempt

include hn

private theorem framed_bracedBlock :
    Framed n (bracedBlock rounds inside) fun depth ↦ Grammar.bracedBlock (insideAt ρ depth) := by
  have hinside (opener : Nat) : Safe (n - 1) (nested opener (statements rounds inside))
      fun depth ↦ (insideAt ρ depth).block opener := by
    apply (safe_statements h (by omega)).nested opener
    · intro depth hd
      rw [insideAt_of_lt hd]
    · rw [insideAt_maxNesting]
  exact (safe_tokenStart.bind_moving fun opener ↦ (moving_char '\x7b').bind fun _ ↦
    (hinside opener).bind fun _ ↦ (moving_char '\x7d').safe.bind fun _ ↦
      Safe.pure _).described .bracedBlock

private theorem framed_block :
    Framed n (block rounds inside) fun depth ↦ Grammar.block (insideAt ρ depth) :=
  (Moving.orElse ((framed_colonBlock h).map Body.single)
    ((framed_bracedBlock h hn).toMoving.map Body.block)).described .block

private theorem framed_tag :
    Framed n (tag rounds inside) fun depth ↦ Grammar.tag (insideAt ρ depth) :=
  ((moving_tagHead hn).bind fun _ ↦ (((framed_block h hn).mono (Nat.sub_le n 1)).optional).bind
    fun _ ↦ Safe.pure _).described .tag

private theorem framed_statement :
    Framed n (statement rounds inside) fun depth ↦ Grammar.statement (insideAt ρ depth) :=
  (Moving.orElse (framed_tag h hn) (moving_string.map Statement.text)).described .statement

end

private theorem framed_inner (hn : n ≤ rounds) :
    Framed n (inner rounds) fun depth ↦ Grammar.statement (insideAt ρ depth) := by
  -- A block has one round less than what is around it, and at least one byte less ahead.
  induction rounds generalizing n with
  | zero =>
    obtain rfl := Nat.le_zero.mp hn
    exact framed_zero _ _
  | succ rounds ih => exact framed_statement (ih (by omega)) hn

/-- All statements that follow are read as the grammar reads them. -/
theorem safe_document (ρ : Type) [Journal ρ] [Writes ρ] (hn : n ≤ rounds) :
    Safe n (statements rounds (inner rounds))
      fun depth ↦ Grammar.statements (insideAt ρ depth) :=
  safe_statements (framed_inner hn) hn

/-- Every production is framed. -/
theorem framed_parsing (p : Production) (hn : n ≤ rounds) :
    Framed n (p.parsing rounds) fun depth ↦ p.rule (insideAt Furthest depth) := by
  have hinner : Framed (n - 1) (inner rounds)
      fun depth ↦ Grammar.statement (insideAt Furthest depth) :=
    (framed_inner hn).mono (Nat.sub_le n 1)
  cases p with
  | statement => exact framed_statement hinner (by omega)
  | tag => exact framed_tag hinner (by omega)
  | className => exact framed_className
  | id => exact framed_elementId
  | attributeList => exact framed_attributeList (by omega)
  | attributePair => exact framed_attributePair
  | block => exact framed_block hinner (by omega)
  | bracedBlock => exact framed_bracedBlock hinner (by omega)

end

end TerseMarkup.Parsing
