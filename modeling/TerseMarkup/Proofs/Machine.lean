import TerseMarkup.Proofs.Progress

/-!
# A machine for the notation

A machine that reads tokens from left to right and never goes back. Its state says where in a
statement it is and which blocks are open, and the character ahead decides which token it reads
next. Such a machine needs no alternatives to try: where it cannot go on, no text can.

`halt` runs it to the end of a text or to the token that it cannot read. Both are functions of
the text alone, and the run does not depend on how tokens before it were found.
-/

namespace TerseMarkup

/-- What opened a block. -/
inductive Opener where
  | colon
  | brace
  deriving DecidableEq, Repr

namespace Machine

/-- A place in a statement. -/
inductive Mode where
  /-- Where a statement may start. -/
  | statement
  /-- Where no statement starts any more. -/
  | closing
  /-- Behind a name or a selector, with what may still be given. -/
  | selectors (classFree idFree : Bool)
  /-- Behind the mark of a selector, with what may still be given after it. -/
  | identifier (classFree idFree : Bool)
  /-- Behind all selectors. -/
  | attributes
  /-- Behind a bracket or a comma. -/
  | attributeName
  /-- Behind the name of an attribute. -/
  | attributeColon
  /-- Behind the colon of an attribute. -/
  | attributeValue
  /-- Behind an attribute. -/
  | attributeEnd
  /-- Behind the last attribute. -/
  | attributeClose
  /-- Behind the head of a tag. -/
  | body
  deriving DecidableEq, Repr

/-- A place in a statement and the openers of the blocks around it, the innermost first. -/
structure State where
  mode : Mode
  stack : List Opener
  deriving DecidableEq, Repr

/-- The blocks that are open behind a statement. A colon opens a block for one statement, so such
blocks end with it. -/
def settle (stack : List Opener) : List Opener := stack.dropWhile (· == .colon)

/-! ### Choices -/

/-- A token to read and the state behind it. -/
abbrev Choice := Option (Terminal × State)

/-- One kind of token and no other. -/
def only (t : Terminal) (after : State) (c : Char) : Choice :=
  if t.starts c then some (t, after) else none

/-- Only a brace closes a block. -/
def closing : List Opener → Char → Choice
  | .brace :: outer => only (.char '\x7d') ⟨.statement, settle outer⟩
  | _ => fun _ ↦ none

/-- A name starts a tag and a quote a text. -/
def statement (stack : List Opener) (c : Char) : Choice :=
  (only .name ⟨.selectors true true, stack⟩ c).or <|
    (only .string ⟨.statement, settle stack⟩ c).or <| closing stack c

/-- A colon or a brace starts a body, if there is room for one more block, and anything else comes
behind the tag. -/
def body (limit : Nat) (stack : List Opener) (c : Char) : Choice :=
  if stack.length < limit then
    (only (.char ':') ⟨.statement, .colon :: stack⟩ c).or <|
      (only (.char '\x7b') ⟨.statement, .brace :: stack⟩ c).or <| statement (settle stack) c
  else statement (settle stack) c

/-- A bracket starts a list of attributes. -/
def attributes (limit : Nat) (stack : List Opener) (c : Char) : Choice :=
  (only (.char '[') ⟨.attributeName, stack⟩ c).or <| body limit stack c

/-- A class or an id is given once. -/
def selectors (limit : Nat) (classFree idFree : Bool) (stack : List Opener) (c : Char) : Choice :=
  (if classFree then only (.char '.') ⟨.identifier false idFree, stack⟩ c else none).or <|
    (if idFree then only (.char '#') ⟨.identifier classFree false, stack⟩ c else none).or <|
      attributes limit stack c

/-- The token that the character ahead starts. -/
def choose (limit : Nat) : State → Char → Choice
  | ⟨.statement, stack⟩ => statement stack
  | ⟨.closing, stack⟩ => closing stack
  | ⟨.selectors classFree idFree, stack⟩ => selectors limit classFree idFree stack
  | ⟨.identifier classFree idFree, stack⟩ => only .identifier ⟨.selectors classFree idFree, stack⟩
  | ⟨.attributes, stack⟩ => attributes limit stack
  | ⟨.attributeName, stack⟩ => only .name ⟨.attributeColon, stack⟩
  | ⟨.attributeColon, stack⟩ => only (.char ':') ⟨.attributeValue, stack⟩
  | ⟨.attributeValue, stack⟩ => only .string ⟨.attributeEnd, stack⟩
  | ⟨.attributeEnd, stack⟩ => fun c ↦
    (only (.char ',') ⟨.attributeName, stack⟩ c).or (only (.char ']') ⟨.body, stack⟩ c)
  | ⟨.attributeClose, stack⟩ => only (.char ']') ⟨.body, stack⟩
  | ⟨.body, stack⟩ => body limit stack

/-- Whether a text may end in a state. -/
def accepts : State → Bool
  | ⟨.statement, stack⟩ => stack.isEmpty
  | ⟨.closing, stack⟩ => stack.isEmpty
  | ⟨.selectors _ _, stack⟩ => (settle stack).isEmpty
  | ⟨.attributes, stack⟩ => (settle stack).isEmpty
  | ⟨.body, stack⟩ => (settle stack).isEmpty
  | _ => false

/-! ### Runs -/

/-- Read the token that the character ahead starts. -/
def step (limit : Nat) (q : State) (c : Cursor) : Option (State × Cursor) := do
  let d ← Text.ahead c.rest
  let (t, after) ← choose limit q d
  let (_, next) ← c.read? t
  return (after, next)

/-- A step reads the token that the character ahead chooses. -/
theorem step_eq_some_iff {limit : Nat} {q after : State} {c next : Cursor} :
    step limit q c = some (after, next) ↔ ∃ d t lexeme, Text.ahead c.rest = some d ∧
      choose limit q d = some (t, after) ∧ c.read? t = some (lexeme, next) := by
  simp [step, Option.bind_eq_some_iff]

private theorem length_lt_of_step {limit : Nat} {q after : State} {c next : Cursor}
    (h : step limit q c = some (after, next)) : next.rest.length < c.rest.length := by
  obtain ⟨d, t, lexeme, -, -, hr⟩ := step_eq_some_iff.mp h
  exact Cursor.length_lt_of_read? hr

/-- Run the machine. It ends with nothing if the text may end where it does, and else with the
place of the token that it could not read. -/
def halt (limit : Nat) (q : State) (c : Cursor) : Option Nat :=
  match _h : step limit q c with
  | some (after, next) => halt limit after next
  | none => if accepts q ∧ c.skipBlanks.rest = [] then none else some c.tokenStart
termination_by c.rest.length
decreasing_by exact length_lt_of_step _h

variable {limit : Nat} {q after other : State} {c next : Cursor} {t : Terminal}
  {lexeme : List Char} {stack : List Opener}

/-- A step does not change where the machine halts. -/
theorem halt_of_step (h : step limit q c = some (after, next)) :
    halt limit q c = halt limit after next := by
  rw [halt]
  split
  · next h' =>
    rw [h] at h'
    obtain ⟨rfl, rfl⟩ := Prod.mk.inj (Option.some.inj h')
    rfl
  · next h' =>
    rw [h] at h'
    cases h'

/-- A machine that cannot go on halts with nothing at the end of a complete text, and else at the
token ahead. -/
theorem halt_of_stuck (h : step limit q c = none) : halt limit q c =
    if accepts q ∧ c.skipBlanks.rest = [] then none else some c.tokenStart := by
  rw [halt]
  split
  · next h' =>
    rw [h] at h'
    cases h'
  · rfl

/-- A machine that may read a token goes on behind it. -/
theorem halt_of_read? (h : c.read? t = some (lexeme, next))
    (hq : ∀ d, t.starts d = true → choose limit q d = some (t, after)) :
    halt limit q c = halt limit after next := by
  obtain ⟨d, hd, hs⟩ := Cursor.ahead_of_read? h
  exact halt_of_step (step_eq_some_iff.mpr ⟨d, t, lexeme, hd, hq d hs, h⟩)

/-- A machine without a choice halts. -/
theorem halt_of_choose_eq_none {d : Char} (hd : Text.ahead c.rest = some d)
    (hq : choose limit q d = none) : halt limit q c = some c.tokenStart := by
  have hs : step limit q c = none := by
    unfold step
    rw [hd]
    simp only [bind, Option.bind]
    rw [hq]
  rw [halt_of_stuck hs, if_neg fun h ↦ Cursor.skipBlanks_ne_nil_of_ahead hd h.2]

private theorem halt_of_step_eq (hs : step limit q c = step limit other c)
    (ha : accepts q = accepts other) : halt limit q c = halt limit other c := by
  cases ho : step limit other c with
  | none => rw [halt_of_stuck (hs.trans ho), halt_of_stuck ho, ha]
  | some found => rw [halt_of_step (hs.trans ho), halt_of_step ho]

/-- Two states with the same choice go on alike. -/
private theorem halt_congr
    (h : ∀ d, Text.ahead c.rest = some d → choose limit q d = choose limit other d)
    (ha : accepts q = accepts other) : halt limit q c = halt limit other c := by
  refine halt_of_step_eq ?_ ha
  unfold step
  cases hd : Text.ahead c.rest with
  | none => rfl
  | some d =>
    simp only [bind, Option.bind]
    rw [h d hd]

/-- The machine halts no earlier than it starts. -/
theorem tokenStart_le_of_halt {place : Nat} (h : halt limit q c = some place) :
    c.tokenStart ≤ place := by
  induction hl : c.rest.length using Nat.strongRecOn generalizing q c with
  | ind n ih =>
    cases hs : step limit q c with
    | none =>
      rw [halt_of_stuck hs] at h
      split at h
      · cases h
      · exact Nat.le_of_eq (Option.some.inj h)
    | some found =>
      rw [halt_of_step hs] at h
      have hlt := length_lt_of_step hs
      obtain ⟨d, t, lexeme, -, -, hr⟩ := step_eq_some_iff.mp hs
      exact Nat.le_trans (Nat.le_of_lt (Cursor.tokenStart_lt_of_read? hr))
        (ih _ (hl ▸ hlt) h rfl)

/-- The machine halts where a token would start. -/
theorem exists_tokenStart_of_halt {place : Nat} (h : halt limit q c = some place) :
    ∃ d, c.LeadsTo d ∧ d.tokenStart = place := by
  induction hl : c.rest.length using Nat.strongRecOn generalizing q c with
  | ind n ih =>
    cases hs : step limit q c with
    | none =>
      rw [halt_of_stuck hs] at h
      split at h
      · cases h
      · exact ⟨c, .refl c, Option.some.inj h⟩
    | some found =>
      rw [halt_of_step hs] at h
      have hlt := length_lt_of_step hs
      obtain ⟨_, _, _, -, -, hr⟩ := step_eq_some_iff.mp hs
      obtain ⟨d, hd, hp⟩ := ih _ (hl ▸ hlt) h rfl
      exact ⟨d, (Cursor.leadsTo_of_read? hr).trans hd, hp⟩

/-! ### Choices, one by one -/

/-- The one token that may come is chosen by each character that starts it. -/
theorem only_of_starts {d : Char} (h : t.starts d = true) : only t after d = some (t, after) :=
  if_pos h

private theorem only_of_not_starts {d : Char} (h : t.starts d = false) : only t after d = none := by
  rw [only, h]
  rfl

private theorem only_char_of_ne {d e : Char} (h : e ≠ d) : only (.char d) after e = none :=
  only_of_not_starts (beq_eq_false_iff_ne.mpr h)

/-- A machine that needs one kind of token halts where that token is missing. -/
theorem halt_of_only (hq : choose limit q = only t after) (ha : accepts q = false)
    (h : c.read? t = none) : halt limit q c = some c.tokenStart := by
  have hs : step limit q c = none := by
    rw [Option.eq_none_iff_forall_not_mem]
    rintro ⟨behind, next⟩ hm
    obtain ⟨d, u, lexeme, -, hc, hr⟩ := step_eq_some_iff.mp hm
    rw [hq, only] at hc
    split at hc
    · obtain ⟨rfl, -⟩ := Prod.mk.inj (Option.some.inj hc)
      rw [h] at hr
      cases hr
    · cases hc
  rw [halt_of_stuck hs, ha]
  rfl

/-- A name starts a tag. -/
theorem choose_name {d : Char} (h : Terminal.name.starts d = true) :
    choose limit ⟨.statement, stack⟩ d = some (.name, ⟨.selectors true true, stack⟩) := by
  simp only [choose, statement, only_of_starts h, Option.some_or]

/-- A string literal is a statement of its own. -/
theorem choose_string {d : Char} (h : Terminal.string.starts d = true) :
    choose limit ⟨.statement, stack⟩ d = some (.string, ⟨.statement, settle stack⟩) := by
  obtain rfl : d = '"' := by simpa [Terminal.starts] using h
  have hn : Terminal.name.starts '"' = false := by decide
  simp only [choose, statement, only_of_not_starts hn, only_of_starts h, Option.none_or,
    Option.some_or]

private theorem eq_of_starts_char {d e : Char} (h : (Terminal.char d).starts e = true) : e = d := by
  simpa [Terminal.starts] using h

/-- A dot starts a class, if there is none yet. -/
theorem choose_className {idFree : Bool} {d : Char} (h : (Terminal.char '.').starts d = true) :
    choose limit ⟨.selectors true idFree, stack⟩ d =
      some (.char '.', ⟨.identifier false idFree, stack⟩) := by
  simp only [choose, selectors, only_of_starts h, ↓reduceIte, Option.some_or]

/-- A hash sign starts an id, if there is none yet. -/
theorem choose_id {classFree : Bool} {d : Char} (h : (Terminal.char '#').starts d = true) :
    choose limit ⟨.selectors classFree true, stack⟩ d =
      some (.char '#', ⟨.identifier classFree false, stack⟩) := by
  have hn : only (.char '.') ⟨.identifier false true, stack⟩ d = none :=
    only_char_of_ne (by rw [eq_of_starts_char h]; decide)
  simp only [choose, selectors, hn, only_of_starts h, ↓reduceIte, ite_self, Option.none_or,
    Option.some_or]

/-- A bracket starts a list of attributes. -/
theorem choose_bracket {d : Char} (h : (Terminal.char '[').starts d = true) :
    choose limit ⟨.attributes, stack⟩ d = some (.char '[', ⟨.attributeName, stack⟩) := by
  simp only [choose, attributes, only_of_starts h, Option.some_or]

/-- A comma starts one more attribute. -/
theorem choose_comma {d : Char} (h : (Terminal.char ',').starts d = true) :
    choose limit ⟨.attributeEnd, stack⟩ d = some (.char ',', ⟨.attributeName, stack⟩) := by
  simp only [choose, only_of_starts h, Option.some_or]

/-- A colon opens a block for one statement, if there is room. -/
theorem choose_colon (hl : stack.length < limit) {d : Char}
    (h : (Terminal.char ':').starts d = true) :
    choose limit ⟨.body, stack⟩ d = some (.char ':', ⟨.statement, .colon :: stack⟩) := by
  simp only [choose, body, hl, ↓reduceIte, only_of_starts h, Option.some_or]

/-- A brace opens a block, if there is room. -/
theorem choose_brace (hl : stack.length < limit) {d : Char}
    (h : (Terminal.char '\x7b').starts d = true) :
    choose limit ⟨.body, stack⟩ d = some (.char '\x7b', ⟨.statement, .brace :: stack⟩) := by
  have hn : only (.char ':') ⟨.statement, .colon :: stack⟩ d = none :=
    only_char_of_ne (by rw [eq_of_starts_char h]; decide)
  simp only [choose, body, hl, ↓reduceIte, hn, only_of_starts h, Option.none_or, Option.some_or]

/-! ### States that go on alike -/

/-- Without a comma the list of attributes can only be closed. -/
theorem halt_attributeEnd (h : Text.ahead c.rest ≠ some ',') :
    halt limit ⟨.attributeEnd, stack⟩ c = halt limit ⟨.attributeClose, stack⟩ c := by
  refine halt_congr (fun d hd ↦ ?_) rfl
  have hn : only (.char ',') ⟨.attributeName, stack⟩ d = none :=
    only_char_of_ne fun he ↦ h (he ▸ hd)
  simp only [choose, hn, Option.none_or]

/-- Where no selector is, that a selector may still be given does not matter. -/
theorem halt_selectors {classFree idFree : Bool}
    (hc : classFree = true → Text.ahead c.rest ≠ some '.')
    (hi : idFree = true → Text.ahead c.rest ≠ some '#') :
    halt limit ⟨.selectors classFree idFree, stack⟩ c = halt limit ⟨.attributes, stack⟩ c := by
  refine halt_congr (fun d hd ↦ ?_) rfl
  have hdot : (if classFree then only (.char '.') ⟨.identifier false idFree, stack⟩ d
      else none) = none := by
    split
    · next h => exact only_char_of_ne fun he ↦ hc h (he ▸ hd)
    · rfl
  have hhash : (if idFree then only (.char '#') ⟨.identifier classFree false, stack⟩ d
      else none) = none := by
    split
    · next h => exact only_char_of_ne fun he ↦ hi h (he ▸ hd)
    · rfl
  simp only [choose, selectors, hdot, hhash, Option.none_or]

/-- Without a bracket the body of the tag comes next. -/
theorem halt_attributes (h : Text.ahead c.rest ≠ some '[') :
    halt limit ⟨.attributes, stack⟩ c = halt limit ⟨.body, stack⟩ c := by
  refine halt_congr (fun d hd ↦ ?_) rfl
  have hn : only (.char '[') ⟨.attributeName, stack⟩ d = none :=
    only_char_of_ne fun he ↦ h (he ▸ hd)
  simp only [choose, attributes, hn, Option.none_or]

/-- Where no body starts, the statement is complete. -/
theorem halt_body (hc : Text.ahead c.rest ≠ some ':') (hb : Text.ahead c.rest ≠ some '\x7b') :
    halt limit ⟨.body, stack⟩ c = halt limit ⟨.statement, settle stack⟩ c := by
  refine halt_congr (fun d hd ↦ ?_) rfl
  have hcolon : only (.char ':') ⟨.statement, .colon :: stack⟩ d = none :=
    only_char_of_ne fun he ↦ hc (he ▸ hd)
  have hbrace : only (.char '\x7b') ⟨.statement, .brace :: stack⟩ d = none :=
    only_char_of_ne fun he ↦ hb (he ▸ hd)
  simp only [choose, body, hcolon, hbrace, Option.none_or, ite_self]

/-- Without room for one more block a body is not read at all. -/
theorem halt_body_of_le (hl : limit ≤ stack.length) :
    halt limit ⟨.body, stack⟩ c = halt limit ⟨.statement, settle stack⟩ c := by
  refine halt_congr (fun d _ ↦ ?_) rfl
  simp only [choose, body, Nat.not_lt.mpr hl, ↓reduceIte]

/-- Where no statement can be read, none starts any more. -/
theorem halt_statement (hn : c.read? .name = none) (hs : c.read? .string = none) :
    halt limit ⟨.statement, stack⟩ c = halt limit ⟨.closing, stack⟩ c := by
  refine halt_of_step_eq ?_ rfl
  unfold step
  cases hd : Text.ahead c.rest with
  | none => rfl
  | some d =>
    have hname : only .name ⟨.selectors true true, stack⟩ d = none :=
      only_of_not_starts (Cursor.starts_eq_false_of_read? hn hd nofun (.inr nofun))
    cases hq : Terminal.string.starts d with
    | false =>
      simp only [bind, Option.bind, choose, statement, hname, only_of_not_starts hq,
        Option.none_or]
    | true =>
      have hnone : closing stack d = none := by
        obtain rfl : d = '"' := by simpa [Terminal.starts] using hq
        unfold closing
        split
        · exact only_char_of_ne (by decide)
        · rfl
      simp only [bind, Option.bind, choose, statement, hname, only_of_starts hq, hnone,
        Option.none_or, Option.some_or, hs]

/-- Behind a colon a statement is needed. -/
theorem halt_closing_colon :
    halt limit ⟨.closing, .colon :: stack⟩ c = some c.tokenStart := by
  have hs : step limit ⟨.closing, .colon :: stack⟩ c = none := by
    unfold step
    cases Text.ahead c.rest with
    | none => rfl
    | some d => rfl
  rw [halt_of_stuck hs]
  rfl

end Machine
end TerseMarkup
