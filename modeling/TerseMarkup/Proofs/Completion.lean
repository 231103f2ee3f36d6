import TerseMarkup.Proofs.Machine

/-!
# Where the machine halts

What the place at which the machine halts says about other texts. The text before that place can
always be completed, because there is a way to the end from every state. And unless the character
at that place is a quote or a hyphen, whose meaning depends on what follows, no text with the same
start gets any further.
-/

namespace TerseMarkup

namespace Machine

variable {limit place offset : Nat} {q after : State} {c : Cursor} {t : Terminal}
  {stack : List Opener} {lexeme rest : List Char} {d : Char}

/-! ### Reading a given text -/

private theorem halt_skipBlanks (limit : Nat) (q : State) (c : Cursor) :
    halt limit q c.skipBlanks = halt limit q c := by
  have hs : step limit q c.skipBlanks = step limit q c := by
    simp only [step, Cursor.ahead_skipBlanks, Cursor.read?_skipBlanks]
  cases h : step limit q c with
  | none =>
    rw [halt_of_stuck (hs.trans h), halt_of_stuck h, Cursor.skipBlanks_skipBlanks,
      Cursor.tokenStart_skipBlanks]
  | some found => rw [halt_of_step (hs.trans h), halt_of_step h]

/-- Blanks before a token do not matter. -/
private theorem halt_append_blanks {blanks : List Char} (hb : ∀ c ∈ blanks, Text.isBlank c = true)
    (limit : Nat) (q : State) (offset : Nat) (text : List Char) :
    halt limit q ⟨offset, blanks ++ text⟩ =
      halt limit q ⟨offset + Text.byteLength blanks, text⟩ := by
  have hc : Cursor.skipBlanks ⟨offset, blanks ++ text⟩ =
      Cursor.skipBlanks ⟨offset + Text.byteLength blanks, text⟩ := by
    simp only [Cursor.skipBlanks, Cursor.blanks, List.takeWhile_append_of_pos hb,
      List.dropWhile_append_of_pos hb, Text.byteLength_append, Nat.add_assoc]
  rw [← halt_skipBlanks, hc, halt_skipBlanks]

/-- A token that the machine may read is read. -/
private theorem halt_append_lexeme (hl : t.IsLexeme (d :: lexeme) rest)
    (hd : Text.isBlank d = false) (hq : choose limit q d = some (t, after)) :
    halt limit q ⟨offset, d :: lexeme ++ rest⟩ =
      halt limit after ⟨offset + Text.byteLength (d :: lexeme), rest⟩ := by
  have hc : Cursor.skipBlanks ⟨offset, d :: lexeme ++ rest⟩ = ⟨offset, d :: lexeme ++ rest⟩ := by
    simp [Cursor.skipBlanks, Cursor.blanks, hd]
  have hr : Cursor.read? t ⟨offset, d :: lexeme ++ rest⟩ = some (d :: lexeme,
      Cursor.skipBlanks ⟨offset + Text.byteLength (d :: lexeme), rest⟩) := by
    refine Cursor.read?_eq_some_iff.mpr ⟨rest, ?_, hl, ?_⟩
    · rw [hc]
    · rw [hc]
  have ha : Text.ahead (d :: lexeme ++ rest) = some d := by
    rw [Text.ahead, List.cons_append, List.dropWhile_cons_of_neg (by simp [hd])]
    rfl
  rw [halt_of_step (step_eq_some_iff.mpr ⟨d, t, _, ha, hq, hr⟩), halt_skipBlanks]

/-! ### From each state to the end -/

/-- The braces that close the blocks of a stack. -/
def closers : List Opener → List Char
  | [] => []
  | .colon :: outer => closers outer
  | .brace :: outer => '\x7d' :: closers outer

/-- A text with which a state gets to the end. -/
def completion : State → List Char
  | ⟨.statement, stack⟩ => '"' :: '"' :: closers stack
  | ⟨.identifier _ _, stack⟩ => 'a' :: closers stack
  | ⟨.attributeName, stack⟩ => 'a' :: ':' :: '"' :: '"' :: ']' :: closers stack
  | ⟨.attributeColon, stack⟩ => ':' :: '"' :: '"' :: ']' :: closers stack
  | ⟨.attributeValue, stack⟩ => '"' :: '"' :: ']' :: closers stack
  | ⟨.attributeEnd, stack⟩ => ']' :: closers stack
  | ⟨.attributeClose, stack⟩ => ']' :: closers stack
  | ⟨_, stack⟩ => closers stack

private theorem halt_closers (limit : Nat) (stack : List Opener) (offset : Nat) :
    halt limit ⟨.statement, settle stack⟩ ⟨offset, closers stack⟩ = none := by
  induction stack generalizing offset with
  | nil => rw [halt_of_stuck rfl]; rfl
  | cons opener outer ih =>
    cases opener with
    | colon => exact ih offset
    | brace =>
      have hl : (Terminal.char '\x7d').IsLexeme ['\x7d'] (closers outer) :=
        Terminal.isLexeme_char_iff.mpr rfl
      exact (halt_append_lexeme hl rfl rfl).trans (ih _)

-- What closes blocks starts no part of a tag and continues no name.
private theorem closers_eq (stack : List Opener) :
    closers stack = [] ∨ ∃ rest, closers stack = '\x7d' :: rest := by
  induction stack with
  | nil => exact .inl rfl
  | cons opener outer ih =>
    cases opener with
    | colon => exact ih
    | brace => exact .inr ⟨closers outer, rfl⟩

private theorem ahead_closers_ne (stack : List Opener) (hd : d ≠ '\x7d') :
    Text.ahead (closers stack) ≠ some d := by
  rcases closers_eq stack with h | ⟨rest, h⟩
  · rw [h]
    nofun
  · rw [h]
    rintro ⟨⟩
    exact hd rfl

private theorem halt_body_closers (limit : Nat) (stack : List Opener) (offset : Nat) :
    halt limit ⟨.body, stack⟩ ⟨offset, closers stack⟩ = none := by
  rw [halt_body (ahead_closers_ne stack (by decide)) (ahead_closers_ne stack (by decide)),
    halt_closers]

private theorem halt_attributes_closers (limit : Nat) (stack : List Opener) (offset : Nat) :
    halt limit ⟨.attributes, stack⟩ ⟨offset, closers stack⟩ = none := by
  rw [halt_attributes (ahead_closers_ne stack (by decide)), halt_body_closers]

private theorem halt_selectors_closers (limit : Nat) (classFree idFree : Bool) (stack : List Opener)
    (offset : Nat) :
    halt limit ⟨.selectors classFree idFree, stack⟩ ⟨offset, closers stack⟩ = none := by
  rw [halt_selectors (fun _ ↦ ahead_closers_ne stack (by decide))
    (fun _ ↦ ahead_closers_ne stack (by decide)), halt_attributes_closers]

private theorem isLexeme_emptyLiteral (rest : List Char) :
    Terminal.string.IsLexeme ['"', '"'] rest :=
  ⟨[], rfl, Literal.Units.nil.body? rest⟩

private theorem halt_value_completion (limit : Nat) (stack : List Opener) (offset : Nat) :
    halt limit ⟨.attributeValue, stack⟩ ⟨offset, completion ⟨.attributeValue, stack⟩⟩ = none := by
  have hb : (Terminal.char ']').IsLexeme [']'] (closers stack) :=
    Terminal.isLexeme_char_iff.mpr rfl
  exact (halt_append_lexeme (isLexeme_emptyLiteral _) rfl rfl).trans
    ((halt_append_lexeme hb rfl rfl).trans (halt_body_closers limit stack _))

private theorem halt_colon_completion (limit : Nat) (stack : List Opener) (offset : Nat) :
    halt limit ⟨.attributeColon, stack⟩ ⟨offset, completion ⟨.attributeColon, stack⟩⟩ = none := by
  have hc : (Terminal.char ':').IsLexeme [':'] (completion ⟨.attributeValue, stack⟩) :=
    Terminal.isLexeme_char_iff.mpr rfl
  exact (halt_append_lexeme hc rfl rfl).trans (halt_value_completion limit stack _)

/-- There is a way to the end from every state in which something may still start. -/
private theorem halt_completion (limit : Nat) (q : State) (hq : q.mode ≠ .closing) (offset : Nat) :
    halt limit q ⟨offset, completion q⟩ = none := by
  obtain ⟨mode, stack⟩ := q
  have hb : (Terminal.char ']').IsLexeme [']'] (closers stack) :=
    Terminal.isLexeme_char_iff.mpr rfl
  cases mode with
  | statement =>
    exact (halt_append_lexeme (isLexeme_emptyLiteral _) rfl rfl).trans (halt_closers limit stack _)
  | closing => exact absurd rfl hq
  | selectors classFree idFree => exact halt_selectors_closers limit classFree idFree stack offset
  | identifier classFree idFree =>
    have hl : Terminal.identifier.IsLexeme ['a'] (closers stack) := by
      refine Terminal.isLexeme_identifier_iff.mpr ⟨⟨[], 'a', [], rfl, .inl rfl, rfl, nofun⟩, ?_⟩
      rcases closers_eq stack with h | ⟨rest, h⟩
      · rw [h]
        nofun
      · rw [h]
        rintro _ ⟨⟩
        rfl
    exact (halt_append_lexeme hl rfl rfl).trans
      (halt_selectors_closers limit classFree idFree stack _)
  | attributes => exact halt_attributes_closers limit stack offset
  | attributeName =>
    have hl : Terminal.name.IsLexeme ['a'] (completion ⟨.attributeColon, stack⟩) := by
      refine Terminal.isLexeme_name_iff.mpr ⟨⟨nofun, List.forall_mem_singleton.mpr rfl⟩, ?_⟩
      rintro _ ⟨⟩
      rfl
    exact (halt_append_lexeme hl rfl rfl).trans (halt_colon_completion limit stack _)
  | attributeColon => exact halt_colon_completion limit stack offset
  | attributeValue => exact halt_value_completion limit stack offset
  | attributeEnd => exact (halt_append_lexeme hb rfl rfl).trans (halt_body_closers limit stack _)
  | attributeClose => exact (halt_append_lexeme hb rfl rfl).trans (halt_body_closers limit stack _)
  | body => exact halt_body_closers limit stack offset

/-! ### Other texts -/

/-- A choice that a character allows. -/
def Allowed (d : Char) (choice : Choice) : Prop :=
  ∀ t after, choice = some (t, after) → t.starts d = true ∧ after.mode ≠ .closing

private theorem allowed_none : Allowed d none := nofun

private theorem allowed_only (ha : after.mode ≠ .closing) : Allowed d (only t after d) := by
  intro u behind h
  unfold only at h
  split at h
  · next hs =>
    obtain ⟨rfl, rfl⟩ := Prod.mk.inj (Option.some.inj h)
    exact ⟨hs, ha⟩
  · cases h

private theorem Allowed.or {choice other : Choice} (h : Allowed d choice) (h' : Allowed d other) :
    Allowed d (choice.or other) := by
  intro t after ho
  rcases Option.or_eq_some_iff.mp ho with ho | ⟨-, ho⟩
  · exact h t after ho
  · exact h' t after ho

private theorem allowed_closing (stack : List Opener) : Allowed d (closing stack d) := by
  unfold closing
  split
  · exact allowed_only nofun
  · exact allowed_none

private theorem allowed_statement (stack : List Opener) : Allowed d (statement stack d) := by
  refine (allowed_only ?_).or ((allowed_only ?_).or (allowed_closing stack)) <;> nofun

private theorem allowed_body (stack : List Opener) : Allowed d (body limit stack d) := by
  unfold body
  split
  · refine (allowed_only ?_).or ((allowed_only ?_).or (allowed_statement _)) <;> nofun
  · exact allowed_statement _

private theorem allowed_attributes (stack : List Opener) :
    Allowed d (attributes limit stack d) := by
  refine (allowed_only ?_).or (allowed_body stack)
  nofun

private theorem allowed_selectors (classFree idFree : Bool) (stack : List Opener) :
    Allowed d (selectors limit classFree idFree stack d) := by
  unfold selectors
  refine Allowed.or ?_ (Allowed.or ?_ (allowed_attributes stack))
  · split
    · exact allowed_only nofun
    · exact allowed_none
  · split
    · exact allowed_only nofun
    · exact allowed_none

/-- The machine reads only what the character ahead starts. -/
private theorem allowed_choose (limit : Nat) (q : State) (d : Char) :
    Allowed d (choose limit q d) := by
  obtain ⟨mode, stack⟩ := q
  cases mode with
  | statement => exact allowed_statement stack
  | closing => exact allowed_closing stack
  | selectors classFree idFree => exact allowed_selectors classFree idFree stack
  | attributes => exact allowed_attributes stack
  | body => exact allowed_body stack
  | attributeEnd => refine (allowed_only ?_).or (allowed_only ?_) <;> nofun
  | identifier classFree idFree => exact allowed_only nofun
  | attributeName => exact allowed_only nofun
  | attributeColon => exact allowed_only nofun
  | attributeValue => exact allowed_only nofun
  | attributeClose => exact allowed_only nofun

/-- The machine halts between two parts of a text: the first part has a completion, and no text
that goes on behind it with the same character gets any further. -/
structure HaltsBetween (limit : Nat) (q : State) (c : Cursor) (place : Nat)
    (kept cut : List Char) : Prop where
  text : c.rest = kept ++ cut
  length : c.offset + Text.byteLength kept = place
  completable : ∃ more, ∀ offset, halt limit q ⟨offset, kept ++ '\n' :: more⟩ = none
  stops : ∀ d tail, cut = d :: tail → d ≠ '"' → d ≠ '-' → '\\' ∉ kept →
    ∀ other, halt limit q ⟨c.offset, kept ++ d :: other⟩ = some place

private theorem haltsBetween_of_stuck (hq : q.mode ≠ .closing) (h : step limit q c = none) :
    HaltsBetween limit q c c.tokenStart c.blanks c.skipBlanks.rest where
  text := List.takeWhile_append_dropWhile.symm
  length := rfl
  completable := by
    refine ⟨completion q, fun offset ↦ ?_⟩
    have hn : ∀ d ∈ ['\n'], Text.isBlank d = true := List.forall_mem_singleton.mpr rfl
    exact (halt_append_blanks Cursor.isBlank_of_mem_blanks limit q offset _).trans
      ((halt_append_blanks hn limit q _ _).trans (halt_completion limit q hq _))
  stops d tail hcut hquote hhyphen _ other := by
    have hd : Text.ahead c.rest = some d := by
      rw [← Cursor.head?_skipBlanks, hcut]
      rfl
    have hblank := Text.isBlank_of_ahead hd
    -- Any token that could be chosen would show in this character alone.
    have hnone : choose limit q d = none := by
      cases hc : choose limit q d with
      | none => rfl
      | some found =>
        obtain ⟨t, after⟩ := found
        have hs := (allowed_choose limit q d t after hc).1
        have hr : c.read? t = none := by
          cases hr : c.read? t with
          | none => rfl
          | some read =>
            rw [step_eq_some_iff.mpr ⟨d, t, _, hd, hc, hr⟩] at h
            cases h
        have ht : t ≠ .string := by
          rintro rfl
          exact hquote (by simpa [Terminal.starts] using hs)
        rw [Cursor.starts_eq_false_of_read? hr hd ht (.inl hhyphen)] at hs
        cases hs
    rw [halt_append_blanks Cursor.isBlank_of_mem_blanks]
    have ha : Text.ahead (d :: other) = some d := by
      rw [Text.ahead, List.dropWhile_cons_of_neg (by simp [hblank])]
      rfl
    rw [halt_of_choose_eq_none ha hnone]
    simp [Cursor.tokenStart, Cursor.skipBlanks, Cursor.blanks, hblank]

private theorem haltsBetween_of_step {kept cut : List Char} (hd : Text.ahead c.rest = some d)
    (hc : choose limit q d = some (t, after)) (hr : c.skipBlanks.rest = lexeme ++ rest)
    (hl : t.IsLexeme lexeme rest)
    (h : HaltsBetween limit after ⟨c.tokenStart + Text.byteLength lexeme, rest⟩ place kept cut) :
    HaltsBetween limit q c place (c.blanks ++ (lexeme ++ kept)) cut := by
  obtain ⟨htext, hlength, ⟨more, hmore⟩, hstops⟩ := h
  have hblank := Text.isBlank_of_ahead hd
  obtain ⟨tail, rfl⟩ : ∃ tail, lexeme = d :: tail := by
    cases lexeme with
    | nil =>
      exact absurd rfl
        (Terminal.ne_nil_of_lexeme? (Terminal.lexeme?_eq_some_iff.mpr ⟨rest, rfl, hl⟩))
    | cons e tail =>
      rw [← Cursor.head?_skipBlanks, hr] at hd
      exact ⟨tail, by rw [Option.some.inj hd]⟩
  simp only at htext hlength
  subst htext
  refine ⟨?_, ?_, ⟨more, fun offset ↦ ?_⟩, fun e later hcut hquote hhyphen hbackslash other ↦ ?_⟩
  · rw [List.append_assoc, List.append_assoc, ← hr]
    exact List.takeWhile_append_dropWhile.symm
  · rw [← hlength, Text.byteLength_append, Text.byteLength_append]
    simp only [Cursor.tokenStart, Cursor.skipBlanks, Nat.add_assoc]
  · have hcut := Terminal.isLexeme_of_cut hl more
    rw [List.append_assoc, List.append_assoc, halt_append_blanks Cursor.isBlank_of_mem_blanks,
      halt_append_lexeme hcut hblank hc, hmore]
  · subst hcut
    have hother : t.IsLexeme (d :: tail) (kept ++ e :: other) := by
      refine Terminal.isLexeme_of_head? hl ?_ fun hm ↦ hbackslash ?_
      · cases kept <;> rfl
      · simp only [List.mem_append]
        exact .inr (.inl hm)
    have hkept : '\\' ∉ kept := fun hm ↦ hbackslash (by simp [hm])
    rw [List.append_assoc, List.append_assoc, halt_append_blanks Cursor.isBlank_of_mem_blanks,
      halt_append_lexeme hother hblank hc]
    exact hstops e later rfl hquote hhyphen hkept other

/-- Where the machine halts, it halts between two parts of the text. -/
theorem exists_haltsBetween (hq : q.mode ≠ .closing) (h : halt limit q c = some place) :
    ∃ kept cut, HaltsBetween limit q c place kept cut := by
  induction hn : c.rest.length using Nat.strongRecOn generalizing q c with
  | ind n ih =>
    cases hs : step limit q c with
    | none =>
      rw [halt_of_stuck hs] at h
      split at h
      · cases h
      · obtain rfl := Option.some.inj h
        exact ⟨_, _, haltsBetween_of_stuck hq hs⟩
    | some found =>
      obtain ⟨after, next⟩ := found
      rw [halt_of_step hs] at h
      obtain ⟨d, t, lexeme, hd, hc, hread⟩ := step_eq_some_iff.mp hs
      obtain ⟨rest, hr, hl, rfl⟩ := Cursor.read?_eq_some_iff.mp hread
      rw [halt_skipBlanks] at h
      have hlength : rest.length < n := by
        have hle := c.length_skipBlanks_le
        have hpos := List.length_pos_iff.mpr
          (Terminal.ne_nil_of_lexeme? (Terminal.lexeme?_eq_some_iff.mpr ⟨rest, rfl, hl⟩))
        rw [hr, List.length_append] at hle
        omega
      obtain ⟨kept, cut, hk⟩ := ih _ hlength (allowed_choose limit q d t after hc).2 h rfl
      exact ⟨_, cut, haltsBetween_of_step hd hc hr hl hk⟩

end Machine
end TerseMarkup
