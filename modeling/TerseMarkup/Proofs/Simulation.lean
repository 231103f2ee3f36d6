import TerseMarkup.Proofs.Following

/-!
# The machine follows the grammar

Production by production, the machine reads what the rules read, and halts where they miss
something furthest.
-/

namespace TerseMarkup.Machine

open Grammar

variable {limit : Nat} {stack : List Opener} {classFree idFree : Bool} {c : Cursor}
  {marks : List Char}

/-! ### The head of a tag -/

private theorem must_identifier :
    Follows limit marks (Must limit ⟨.identifier classFree idFree, stack⟩)
      ⟨.identifier classFree idFree, stack⟩ ⟨.selectors classFree idFree, stack⟩ identifier :=
  fun c ↦ (must_terminal rfl rfl c).bind_pure _

private theorem skips_className :
    Follows limit marks (Skips limit ['.'] ⟨.selectors true idFree, stack⟩)
      ⟨.selectors true idFree, stack⟩ ⟨.selectors false idFree, stack⟩ className :=
  skips_char (fun _ ↦ choose_className) must_identifier

private theorem skips_elementId :
    Follows limit marks (Skips limit ['#'] ⟨.selectors classFree true, stack⟩)
      ⟨.selectors classFree true, stack⟩ ⟨.selectors classFree false, stack⟩ elementId :=
  skips_char (fun _ ↦ choose_id) must_identifier

private theorem lacks_elementId (h : '#' ∉ marks) :
    Lacks marks (elementId : Rule Footprint String) := by
  have hl : Lacks marks (do Rule.char '#'; identifier : Rule Footprint String) :=
    (lacks_char h).bind
  exact hl

private theorem halt_selectors_false (c : Cursor) :
    halt limit ⟨.selectors false false, stack⟩ c = halt limit ⟨.attributes, stack⟩ c :=
  halt_selectors nofun nofun

-- Once the other selector is given, an optional one leads behind all selectors.
private theorem always_className : Follows limit ['.'] Never ⟨.selectors true false, stack⟩
    ⟨.attributes, stack⟩ (className.optional : Rule Footprint (Option String)) := by
  intro c
  refine ((skips_className c).congr_after halt_selectors_false).optional (fun _ ↦ id) fun hs ↦ ?_
  exact halt_selectors (fun _ ↦ ahead_ne_of_not_sees hs (by simp)) nofun

private theorem always_elementId : Follows limit ['#'] Never ⟨.selectors false true, stack⟩
    ⟨.attributes, stack⟩ (elementId.optional : Rule Footprint (Option String)) := by
  intro c
  refine ((skips_elementId c).congr_after halt_selectors_false).optional (fun _ ↦ id) fun hs ↦ ?_
  exact halt_selectors nofun fun _ ↦ ahead_ne_of_not_sees hs (by simp)

/-- What is tried behind the first try for a class. -/
def afterClass (first : Option String) : Rule Footprint (Option String × Option String) := do
  let id ← elementId.optional
  if first.isNone && id.isSome then
    let second ← className.optional
    return (second, id)
  else return (first, id)

private theorem selectors_eq :
    (Grammar.selectors : Rule Footprint _) = className.optional >>= afterClass := rfl

private theorem always_afterClass_some (className : String) :
    Follows limit ['.', '#'] Never ⟨.selectors false true, stack⟩ ⟨.attributes, stack⟩
      (afterClass (some className)) :=
  fun c ↦ (always_elementId c).bind_always (fun _ ↦ follows_pure _) (fun _ ↦ idles_pure _ _)
    (by simp)

-- Without a class, a class may follow the id.
private theorem followsAt_afterClass_none (hc : ¬ Sees c ['.']) :
    FollowsAt limit ['.', '#'] Never ⟨.selectors true true, stack⟩ ⟨.attributes, stack⟩ c
      (afterClass none c) := by
  have h : FollowsAt limit [] (Skips limit ['#'] ⟨.selectors true true, stack⟩)
      ⟨.selectors true true, stack⟩ ⟨.selectors true false, stack⟩ c (elementId c) :=
    skips_elementId c
  generalize hr : (elementId : Rule Footprint String) c = a at h
  unfold afterClass
  cases h with
  | passes hp =>
    rw [Rule.bind_of_found (Rule.optional_of_found hr)]
    refine FollowsAt.behind_always ?_ hp
    exact (always_className _).bind_always (fun _ ↦ follows_pure _) (fun _ ↦ idles_pure _ _)
      (by simp)
  | jams h => exact absurd h not_jams_nil
  | nothing h =>
    rw [Rule.bind_of_found (Rule.optional_of_nothing hr)]
    rcases h with ⟨hq, hs⟩ | hj
    · have hh : halt limit ⟨.selectors true true, stack⟩ c = halt limit ⟨.attributes, stack⟩ c :=
        halt_selectors (fun _ ↦ ahead_ne_of_not_sees hc (by simp))
          fun _ ↦ ahead_ne_of_not_sees hs (by simp)
      exact .passes (passes_of_halt_eq hh (hq.toStill.append (still_empty c)))
    · exact .jams ((hj.append_still (still_empty c)).mono (by simp))
  | tooDeep h =>
    rw [Rule.bind_of_tooDeep (Rule.optional_of_tooDeep hr)]
    exact .tooDeep h

private theorem always_selectors : Follows limit ['.', '#'] Never ⟨.selectors true true, stack⟩
    ⟨.attributes, stack⟩ Grammar.selectors := by
  intro c
  have h : FollowsAt limit [] (Skips limit ['.'] ⟨.selectors true true, stack⟩)
      ⟨.selectors true true, stack⟩ ⟨.selectors false true, stack⟩ c (className c) :=
    skips_className c
  generalize hr : (className : Rule Footprint String) c = a at h
  rw [selectors_eq]
  cases h with
  | passes hp =>
    rw [Rule.bind_of_found (Rule.optional_of_found hr)]
    exact (always_afterClass_some _ _).behind_always hp
  | jams h => exact absurd h not_jams_nil
  | nothing h =>
    rw [Rule.bind_of_found (Rule.optional_of_nothing hr)]
    rcases h with ⟨hq, hs⟩ | hj
    · exact (followsAt_afterClass_none hs).behind_always (passes_of_halt_eq rfl hq.toStill)
    · -- The mark of the class that broke is no mark of an id.
      have ⟨_, _, _, hsees⟩ := hj
      obtain ⟨k, hk, hn⟩ := lacks_elementId (by decide) c hsees
      rw [afterClass, Rule.bind_of_found (Rule.optional_of_nothing hn)]
      exact .jams ((hj.append_still (hk.append (still_empty c))).mono (by simp))
  | tooDeep h =>
    rw [Rule.bind_of_tooDeep (Rule.optional_of_tooDeep hr)]
    exact .tooDeep h

private theorem must_name : Follows limit marks (Must limit ⟨.attributeName, stack⟩)
    ⟨.attributeName, stack⟩ ⟨.attributeColon, stack⟩ name :=
  fun c ↦ (must_terminal rfl rfl c).bind_pure _

private theorem must_string : Follows limit marks (Must limit ⟨.attributeValue, stack⟩)
    ⟨.attributeValue, stack⟩ ⟨.attributeEnd, stack⟩ string :=
  fun c ↦ (must_terminal rfl rfl c).bind_pure _

private theorem must_attributePair : Follows limit marks (Must limit ⟨.attributeName, stack⟩)
    ⟨.attributeName, stack⟩ ⟨.attributeEnd, stack⟩ attributePair :=
  fun c ↦ (must_name c).bind_must (fun _ c ↦ (must_char rfl rfl c).bind_must
    (fun _ c ↦ (must_string c).bind_pure _) fun _ ↦ lacks_nil _) fun _ ↦ lacks_nil _

private theorem skips_nextAttribute : Follows limit marks (Skips limit [','] ⟨.attributeEnd, stack⟩)
    ⟨.attributeEnd, stack⟩ ⟨.attributeEnd, stack⟩ nextAttribute :=
  skips_char (fun _ ↦ choose_comma) must_attributePair

private theorem always_moreAttributes : Follows limit [','] Never ⟨.attributeEnd, stack⟩
    ⟨.attributeClose, stack⟩ nextAttribute.many := by
  refine skips_nextAttribute.many shortens_nextAttribute (lacks_nil _).idles (by simp) ?_
  rintro c j (⟨hq, hs⟩ | hj)
  · exact .inl (passes_of_halt_eq (halt_attributeEnd (ahead_ne_of_not_sees hs (by simp)))
      hq.toStill)
  · exact .inr hj

private theorem skips_attributeList : Follows limit marks (Skips limit ['['] ⟨.attributes, stack⟩)
    ⟨.attributes, stack⟩ ⟨.body, stack⟩ attributeList := by
  refine skips_char (fun _ ↦ choose_bracket) fun c ↦ ?_
  refine (must_attributePair c).bind_must (fun _ c ↦ ?_) fun _ ↦ lacks_nil _
  refine (always_moreAttributes c).of_always.bind_must (fun _ c ↦ ?_)
    fun _ ↦ (lacks_char (by decide)).bind
  exact (must_char rfl rfl c).bind_pure _

private theorem lacks_attributeList (h : '[' ∉ marks) :
    Lacks marks (attributeList : Rule Footprint (List Attribute)) := by
  have hl : Lacks marks (do
      Rule.char '['
      let first ← attributePair
      let more ← nextAttribute.many
      Rule.char ']'
      return first :: more : Rule Footprint (List Attribute)) := (lacks_char h).bind
  exact hl

private theorem always_attributeList : Follows limit ['['] Never ⟨.attributes, stack⟩ ⟨.body, stack⟩
    attributeList.optional :=
  fun c ↦ (skips_attributeList c).optional (fun _ ↦ id) fun hs ↦
    halt_attributes (ahead_ne_of_not_sees hs (by simp))

/-- A rule for what starts with a name: it finds nothing where there is no name. -/
def NoName (c : Cursor) (j : Footprint) : Prop := Quiet c j ∧ c.read? .name = none

private theorem follows_tagHead :
    Follows limit ['.', '#', '['] NoName ⟨.statement, stack⟩ ⟨.body, stack⟩ tagHead := by
  intro c
  have hname : FollowsAt limit [] NoName ⟨.statement, stack⟩ ⟨.selectors true true, stack⟩ c
      (name c) :=
    (follows_terminal (fun _ ↦ choose_name)
      (fun c what h ↦ ⟨quiet_missed c what, h⟩) c).bind_pure _
  refine hname.bind_always (fun _ c ↦ ?_) (fun _ ↦ (lacks_nil _).idles) (by simp)
  refine (always_selectors c).bind_always ?_ ?_ (by simp)
  · rintro ⟨className, id⟩ c
    exact (always_attributeList c).bind_always (fun _ ↦ follows_pure _) (fun _ ↦ idles_pure _ _)
      (by simp)
  · rintro ⟨className, id⟩
    exact (lacks_attributeList (by decide)).optional.bind fun _ ↦ idles_pure _ _

/-! ### Statements -/

/-- The characters that start an optional part of a tag. -/
def tagMarks : List Char := ['.', '#', '[', ':', '\x7b']

private theorem follows_text : Follows limit marks (fun c j ↦ Still c j ∧ c.read? .string = none)
    ⟨.statement, stack⟩ ⟨.statement, settle stack⟩
    (Statement.text <$> string : Rule Footprint Statement) := by
  intro c
  have hstring : FollowsAt limit marks (fun c j ↦ Still c j ∧ c.read? .string = none)
      ⟨.statement, stack⟩ ⟨.statement, settle stack⟩ c (string c) :=
    (follows_terminal (fun _ ↦ choose_string)
      (fun c what h ↦ ⟨(quiet_missed c what).toStill, h⟩) c).bind_pure _
  exact hstring.bind_pure Statement.text

/-- A rule that finds nothing where no statement can be read. -/
def NoStatement (c : Cursor) (j : Footprint) : Prop :=
  Quiet c j ∧ c.read? .name = none ∧ c.read? .string = none

section

variable {inside : Inside Footprint}

private theorem lacks_block (h : ':' ∉ marks) (hb : '\x7b' ∉ marks) :
    Lacks marks (block inside) := by
  have hcolon : Lacks marks (Body.single <$> colonBlock inside) := by
    have hl : Lacks marks (colonBlock inside) := fun c hc ↦ (lacks_char h).bind c hc
    exact hl.bind
  have hbrace : Lacks marks (Body.block <$> bracedBlock inside) := by
    have hl : Lacks marks (bracedBlock inside) := fun c hc ↦ (lacks_char hb).bind c hc
    exact hl.bind
  exact hcolon.orElse hbrace

private theorem lacks_statement : Lacks tagMarks (Grammar.statement inside) := by
  have hname : Lacks tagMarks (tag inside) := by
    have hl : Lacks tagMarks (name : Rule Footprint String) :=
      (lacks_terminal (by simp [tagMarks, Terminal.starts, Text.isNameChar])).bind
    exact hl.bind.bind
  have hstring : Lacks tagMarks (Statement.text <$> (string : Rule Footprint String)) := by
    have hl : Lacks tagMarks (string : Rule Footprint String) :=
      (lacks_terminal (by simp [tagMarks, Terminal.starts])).bind
    exact hl.bind
  exact hname.orElse hstring

/-- A tag is followed if its body is. -/
private theorem follows_tag (h : Follows limit tagMarks (Skips limit [':', '\x7b'] ⟨.body, stack⟩)
    ⟨.body, stack⟩ ⟨.statement, settle stack⟩ (block inside)) :
    Follows limit tagMarks NoName ⟨.statement, stack⟩ ⟨.statement, settle stack⟩ (tag inside) := by
  intro c
  refine (follows_tagHead c).bind_always (fun _ c ↦ ?_) (fun _ ↦ ?_) (by simp [tagMarks])
  · refine ((h c).optional (by simp [tagMarks]) fun hs ↦ ?_).bind_pure _
    exact halt_body (ahead_ne_of_not_sees hs (by simp)) (ahead_ne_of_not_sees hs (by simp))
  · exact (lacks_block (by decide) (by decide)).optional.bind fun _ ↦ idles_pure _ _

/-- A statement is followed if the body of a tag is. -/
private theorem follows_statement
    (h : Follows limit tagMarks (Skips limit [':', '\x7b'] ⟨.body, stack⟩)
      ⟨.body, stack⟩ ⟨.statement, settle stack⟩ (block inside)) :
    Follows limit tagMarks NoStatement ⟨.statement, stack⟩ ⟨.statement, settle stack⟩
      (Grammar.statement inside) := by
  intro c
  change FollowsAt _ _ _ _ _ c (Rule.orElse (tag inside) (Statement.text <$> string) c)
  have htag := follows_tag h c
  generalize hr : tag inside c = a at htag
  cases htag with
  | passes htag =>
    rw [Rule.orElse_of_found hr]
    exact .passes htag
  | jams htag =>
    rw [Rule.orElse_of_found hr]
    exact .jams htag
  | tooDeep htag =>
    rw [Rule.orElse_of_tooDeep hr]
    exact .tooDeep htag
  | @nothing j htag =>
    obtain ⟨hq, hname⟩ := htag
    rw [Rule.orElse_of_nothing hr]
    refine (follows_text c).behind (passes_of_halt_eq rfl hq.toStill) fun k hk ↦ ?_
    exact ⟨hq.append hk.1, hname, hk.2⟩

/-- Statements are followed up to where no more start, if the body of a tag is. -/
private theorem follows_statements (hf : inside.Forward) (hs : settle stack = stack)
    (h : Follows limit tagMarks (Skips limit [':', '\x7b'] ⟨.body, stack⟩)
      ⟨.body, stack⟩ ⟨.statement, settle stack⟩ (block inside)) :
    Follows limit tagMarks Never ⟨.statement, stack⟩ ⟨.closing, stack⟩
      (Grammar.statements inside) := by
  have hstatement := follows_statement h
  rw [hs] at hstatement
  refine hstatement.many (shortens_statement hf) lacks_statement.idles (fun _ ↦ id) ?_
  rintro c j ⟨hq, hname, hstring⟩
  exact .inl (passes_of_halt_eq (halt_statement hname hstring) hq.toStill)

end

/-! ### Blocks -/

/-- A mark, and behind it something that is given where the mark stands. -/
def marked {α : Type} (m : Char) (inner : Nat → Rule Footprint α) : Rule Footprint α := do
  let opener ← Rule.tokenStart
  Rule.char m
  inner opener

section

variable {α : Type} {m : Char} {inner : Nat → Rule Footprint α} {q after between : State}

private theorem skips_marked (h : ∀ c next lexeme, c.read? (.char m) = some (lexeme, next) →
      FollowsAt limit marks (fun c j ↦ Jams limit q c c [m] j) q after c
        (inner c.tokenStart next)) :
    Follows limit marks (Skips limit [m] q) q after (marked m inner) := by
  intro c
  rw [marked, Rule.bind_of_found (Rule.tokenStart_apply c)]
  cases hr : c.read? (.char m) with
  | none =>
    rw [Rule.bind_of_nothing (Rule.char_of_none hr)]
    exact .nothing (.inl ⟨quiet_missed c (.terminal (.char m)), not_sees_of_read? hr⟩)
  | some found =>
    rw [Rule.bind_of_found (Rule.char_of_read hr)]
    exact (h c _ _ hr).mono (fun _ ↦ id) fun _ ↦ .inr

/-- A block opens where its mark stands. -/
private theorem passes_opener {next : Cursor} {lexeme : List Char} (hm : m = ':' ∨ m = '\x7b')
    (hr : c.read? (.char m) = some (lexeme, next))
    (hq : ∀ d, (Terminal.char m).starts d = true → choose limit q d = some (.char m, between))
    (depth : Nat) : Passes limit q c between next (Journal.opened c.tokenStart depth) where
  halt := halt_of_read? hr hq
  leads := Cursor.skipBlanks_leadsTo_of_read? hr
  footprint := by
    refine ⟨nofun, List.pairwise_singleton _ _, fun opening ho ↦ ?_⟩
    obtain rfl := List.mem_singleton.mp ho
    refine ⟨⟨c.skipBlanks, .refl _, rfl, ?_⟩, Cursor.tokenStart_lt_of_read? hr⟩
    obtain ⟨d, ha, hs⟩ := Cursor.ahead_of_read? hr
    obtain rfl : d = m := by simpa [Terminal.starts] using hs
    rcases hm with rfl | rfl
    · exact .inl ha
    · exact .inr ha

private theorem choose_statement_tagMarks (hm : m ∈ tagMarks) :
    choose limit ⟨.statement, stack⟩ m = none := by
  simp only [tagMarks, List.mem_cons, List.not_mem_nil, or_false] at hm
  rcases hm with rfl | rfl | rfl | rfl | rfl <;> rcases stack with _ | ⟨_ | _, _⟩ <;> rfl

/-- Without room for one more block, a block is refused where its mark stands. -/
private theorem skips_marked_refuse (hm : m = ':' ∨ m = '\x7b') (hl : limit ≤ stack.length)
    (depth : Nat) : Follows limit marks (Skips limit [m] ⟨.body, stack⟩) ⟨.body, stack⟩ after
      (marked m fun opener ↦ (Rule.refuse ⟨opener, depth⟩ : Rule Footprint α)) := by
  refine skips_marked fun c next lexeme hr ↦ .tooDeep ⟨?_, ⟨nofun, .nil, nofun⟩⟩
  obtain ⟨d, hd, ha⟩ := sees_of_read? hr
  obtain rfl := List.mem_singleton.mp hd
  rw [halt_body_of_le hl]
  apply halt_of_choose_eq_none ha
  apply choose_statement_tagMarks
  rcases hm with rfl | rfl <;> decide

end

section

variable {inside deeper : Inside Footprint} {depth : Nat}

/-- A block with a colon is followed if the statement in it is. -/
private theorem skips_colonBlock (hl : stack.length < limit)
    (hi : ∀ opener, inside.single opener =
      (do Rule.opened opener depth; Grammar.statement deeper))
    (h : Follows limit tagMarks NoStatement ⟨.statement, .colon :: stack⟩
      ⟨.statement, settle stack⟩ (Grammar.statement deeper)) :
    Follows limit tagMarks (Skips limit [':'] ⟨.body, stack⟩) ⟨.body, stack⟩
      ⟨.statement, settle stack⟩ (colonBlock inside) := by
  refine skips_marked fun c next lexeme hr ↦ ?_
  have hp := passes_opener (.inl rfl) hr (fun _ ↦ choose_colon hl) depth
  rw [hi]
  refine (h next).behind hp fun k ⟨hq, hname, hstring⟩ ↦ ?_
  have hf : Fails limit ⟨.statement, .colon :: stack⟩ next next.tokenStart k :=
    hq.fails ((halt_statement hname hstring).trans halt_closing_colon)
  exact hp.jams_of_must hr ⟨next.tokenStart, hp.fails hf⟩

/-- A block in braces is followed if the statements in it are. -/
private theorem skips_bracedBlock (hl : stack.length < limit)
    (hi : ∀ opener, inside.block opener =
      (do Rule.opened opener depth; Grammar.statements deeper))
    (h : Follows limit tagMarks Never ⟨.statement, .brace :: stack⟩
      ⟨.closing, .brace :: stack⟩ (Grammar.statements deeper)) :
    Follows limit marks (Skips limit ['\x7b'] ⟨.body, stack⟩) ⟨.body, stack⟩
      ⟨.statement, settle stack⟩ (bracedBlock inside) := by
  have he : bracedBlock inside = marked '\x7b' fun opener ↦ do
      let statements ← inside.block opener
      Rule.char '\x7d'
      return statements := rfl
  rw [he]
  refine skips_marked fun c next lexeme hr ↦ ?_
  have hp := passes_opener (.inr rfl) hr (fun _ ↦ choose_brace hl) depth
  have hblock : FollowsAt limit tagMarks (Must limit ⟨.body, stack⟩) ⟨.body, stack⟩
      ⟨.closing, .brace :: stack⟩ c (inside.block c.tokenStart next) := by
    rw [hi]
    exact (h next).behind_always hp
  refine (hblock.bind_must (fun _ c ↦ ?_) fun _ ↦ (lacks_char (by decide)).bind).mono
    (fun _ ↦ id) fun _ ↦ hp.jams_of_must hr
  exact (must_char rfl rfl c).bind_pure _

private theorem follows_block
    (hc : Follows limit tagMarks (Skips limit [':'] ⟨.body, stack⟩) ⟨.body, stack⟩
      ⟨.statement, settle stack⟩ (colonBlock inside))
    (hb : Follows limit tagMarks (Skips limit ['\x7b'] ⟨.body, stack⟩) ⟨.body, stack⟩
      ⟨.statement, settle stack⟩ (bracedBlock inside)) :
    Follows limit tagMarks (Skips limit [':', '\x7b'] ⟨.body, stack⟩) ⟨.body, stack⟩
      ⟨.statement, settle stack⟩ (block inside) := by
  intro c
  have hl : Lacks [':'] (Body.block <$> bracedBlock inside) := by
    have hl : Lacks [':'] (bracedBlock inside) := fun c hc ↦ (lacks_char (by decide)).bind c hc
    exact hl.bind
  exact ((hc c).bind_pure Body.single).orElse ((hb c).bind_pure Body.block) hl

end

/-- The machine follows the body of a tag inside of as many blocks as are open. -/
private theorem follows_block_within (room : Nat) (stack : List Opener)
    (hl : stack.length + room = limit) :
    Follows limit tagMarks (Skips limit [':', '\x7b'] ⟨.body, stack⟩) ⟨.body, stack⟩
      ⟨.statement, settle stack⟩ (block (Inside.within room stack.length)) := by
  induction room generalizing stack with
  | zero =>
    exact follows_block (skips_marked_refuse (.inl rfl) (Nat.le_of_eq hl.symm) stack.length)
      (skips_marked_refuse (.inr rfl) (Nat.le_of_eq hl.symm) stack.length)
  | succ room ih =>
    have hlt : stack.length < limit := by omega
    have hf := Inside.forward_within Footprint room (stack.length + 1)
    have hcolon := follows_statement
      (ih (.colon :: stack) (by rw [List.length_cons]; omega))
    have hbrace := follows_statements hf rfl
      (ih (.brace :: stack) (by rw [List.length_cons]; omega))
    exact follows_block (skips_colonBlock hlt (fun _ ↦ rfl) hcolon)
      (skips_bracedBlock hlt (fun _ ↦ rfl) hbrace)

/-- The machine follows the statements of a whole text. -/
theorem follows_statements_within (limit : Nat) :
    Follows limit tagMarks Never ⟨.statement, []⟩ ⟨.closing, []⟩
      (Grammar.statements (Inside.within limit 0)) :=
  follows_statements (Inside.forward_within Footprint limit 0) rfl
    (follows_block_within limit [] (Nat.zero_add limit))

end TerseMarkup.Machine
