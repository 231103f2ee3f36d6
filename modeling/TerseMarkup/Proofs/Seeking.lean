import TerseMarkup.Cursor.Seek
import TerseMarkup.Proofs.Progress

/-!
# Sessions of a seeker

A seeker may be set to any byte of its text, so it may come to stand inside a character, where no
text starts that could be read. All else that it is asked moves it from one cursor to another. What
one action does is said once, in `Step`, and holds after any session. The main statement,
`step_of_session`, adds that a session which only goes back to places that the seeker told of is
never refused.
-/

namespace TerseMarkup

/-! ### Places inside a character -/

namespace Text

variable {text rest : List Char} {n : Nat}

/-- The byte lies strictly inside a character of the text. -/
def InsideChar (text : List Char) (n : Nat) : Prop :=
  ∃ before c after, text = before ++ c :: after ∧ byteLength before < n ∧
    n < byteLength before + c.utf8Size

/-- A cut falls between two characters if the text before it has that many bytes. -/
theorem dropBytes?_eq_some_iff :
    dropBytes? n text = some rest ↔ ∃ passed, text = passed ++ rest ∧ byteLength passed = n := by
  constructor
  · intro h
    fun_induction dropBytes? n text with
    | case1 text => exact ⟨[], Option.some.inj h, rfl⟩
    | case2 n => cases h
    | case3 n c text hc ih =>
      obtain ⟨passed, rfl, hp⟩ := ih h
      refine ⟨c :: passed, rfl, ?_⟩
      rw [byteLength_cons, hp]
      omega
    | case4 n c text hc => cases h
  · rintro ⟨passed, rfl, rfl⟩
    induction passed with
    | nil => cases rest <;> rfl
    | cons c passed ih =>
      have hc := c.utf8Size_pos
      obtain ⟨m, hm⟩ : ∃ m, byteLength (c :: passed) = m + 1 :=
        Nat.exists_eq_add_one_of_ne_zero (by rw [byteLength_cons]; omega)
      rw [byteLength_cons] at hm
      have hd : m + 1 - c.utf8Size = byteLength passed := by omega
      rw [byteLength_cons, hm, List.cons_append, dropBytes?, if_pos (by omega), hd, ih]

/-- A cut fails exactly inside a character. -/
private theorem dropBytes?_eq_none_iff (h : n ≤ byteLength text) :
    dropBytes? n text = none ↔ InsideChar text n := by
  constructor
  · intro hd
    fun_induction dropBytes? n text with
    | case1 text => cases hd
    | case2 n => simp at h
    | case3 n c text hc ih =>
      obtain ⟨before, d, after, rfl, hb, ha⟩ := ih (by rw [byteLength_cons] at h; omega) hd
      refine ⟨c :: before, d, after, rfl, ?_, ?_⟩ <;> rw [byteLength_cons] <;> omega
    | case4 n c text hc => exact ⟨[], c, text, rfl, by simp, by simpa using hc⟩
  · rintro ⟨before, c, after, rfl, hb, ha⟩
    cases hd : dropBytes? n (before ++ c :: after) with
    | none => rfl
    | some rest =>
      obtain ⟨passed, hp, rfl⟩ := dropBytes?_eq_some_iff.mp hd
      rcases List.append_eq_append_iff.mp hp with ⟨more, rfl, hm⟩ | ⟨more, rfl, hm⟩
      · cases more with
        | nil => simp at hb
        | cons d more =>
          obtain ⟨rfl, -⟩ := List.cons.inj hm
          simp only [byteLength_append, byteLength_cons] at ha
          omega
      · simp only [byteLength_append] at hb
        omega

end Text

namespace Seeker

variable {s : Seeker} {c next : Cursor} {action : Action}

/-- The place of a seeker lies strictly inside a character. -/
def InsideCharacter (s : Seeker) : Prop := Text.InsideChar s.source s.offset

/-- An action that looks at the text after the place. -/
def Action.looks : Action → Bool
  | .read _ | .atEnd | .skipBlanks | .tokenStart => true
  | .position | .source | .seek _ => false

/-! ### The cursor of a seeker -/

/-- A seeker has a cursor where a beginning of its text ends at its place. -/
theorem cursor?_eq_some_iff :
    s.cursor? = some c ↔ (Cursor.start s.source).LeadsTo c ∧ c.offset = s.offset := by
  simp only [cursor?, Option.map_eq_some_iff, Text.dropBytes?_eq_some_iff, Cursor.LeadsTo,
    Cursor.start, Nat.zero_add]
  constructor
  · rintro ⟨rest, ⟨passed, hs, hp⟩, rfl⟩
    exact ⟨⟨passed, hs, hp.symm⟩, rfl⟩
  · rintro ⟨⟨passed, hs, hp⟩, ho⟩
    exact ⟨c.rest, ⟨passed, hs, by rw [← hp, ho]⟩, by rw [← ho]⟩

/-- A seeker that stands between two parts of its text reads the second. -/
theorem cursor?_append (before text : List Char) :
    (⟨before ++ text, Text.byteLength before⟩ : Seeker).cursor? =
      some ⟨Text.byteLength before, text⟩ :=
  cursor?_eq_some_iff.mpr ⟨⟨before, rfl, by simp [Cursor.start]⟩, rfl⟩

private theorem cursor?_eq_none_iff (h : s.offset ≤ Text.byteLength s.source) :
    s.cursor? = none ↔ s.InsideCharacter := by
  rw [cursor?, Option.map_eq_none_iff, Text.dropBytes?_eq_none_iff h, InsideCharacter]

/-- A seeker that goes to a cursor ahead of its own stands there. -/
theorem cursor?_goTo (h : s.cursor? = some c) (hn : c.LeadsTo next) :
    (s.goTo next).cursor? = some next :=
  cursor?_eq_some_iff.mpr ⟨(cursor?_eq_some_iff.mp h).1.trans hn, rfl⟩

/-- The text is cut at every place that the cursor of a seeker leads to. -/
theorem dropBytes?_of_leadsTo (h : s.cursor? = some c) (hn : c.LeadsTo next) :
    Text.dropBytes? next.offset s.source = some next.rest := by
  obtain ⟨rest, hd, he⟩ := Option.map_eq_some_iff.mp (cursor?_goTo h hn)
  rw [← he]
  exact hd

/-- A place with a cursor is not behind the end of the text. -/
theorem offset_le_of_cursor? (h : s.cursor? = some c) : s.offset ≤ Text.byteLength s.source := by
  obtain ⟨⟨passed, hs, hp⟩, ho⟩ := cursor?_eq_some_iff.mp h
  have hsource : s.source = passed ++ c.rest := hs
  rw [← ho, hp, hsource, Text.byteLength_append]
  simp [Cursor.start]

/-- A seeker that has a cursor does not stand inside a character. -/
private theorem not_insideCharacter_of_cursor? (h : s.cursor? = some c) : ¬s.InsideCharacter := by
  intro hi
  rw [← cursor?_eq_none_iff (offset_le_of_cursor? h), h] at hi
  cases hi

/-- To go to the own cursor is to stay. -/
theorem goTo_of_cursor? (h : s.cursor? = some c) : s.goTo c = s := by
  rw [goTo, (cursor?_eq_some_iff.mp h).2]

/-- Where there is a cursor, the answer is given there. -/
theorem look_of_cursor? (h : s.cursor? = some c) (answer : Cursor → Answer × Cursor) :
    s.look answer = ((answer c).1, s.goTo (answer c).2) := by
  rw [look, h]

private theorem look_of_none (h : s.cursor? = none) (answer : Cursor → Answer × Cursor) :
    s.look answer = (.insideCharacter, s) := by
  rw [look, h]

/-! ### What one action does -/

/-- A token that is there is answered with its value, and the cursor moves behind it. -/
theorem readToken_of_read? {t : Terminal} {lexeme : List Char}
    (h : c.read? t = some (lexeme, next)) :
    readToken t c = (.token (some (t.value lexeme)), next) := by
  rw [readToken, h]

/-- Without a token the cursor stays. -/
theorem readToken_of_none {t : Terminal} (h : c.read? t = none) :
    readToken t c = (.token none, c) := by
  rw [readToken, h]

/-- What is read is the value of the lexeme behind the blanks. -/
theorem readToken_fst (t : Terminal) (c : Cursor) :
    (readToken t c).1 = .token ((t.lexeme? c.skipBlanks.rest).map t.value) := by
  rw [readToken, Cursor.read?]
  cases t.lexeme? c.skipBlanks.rest <;> rfl

/-- To tell where the next token starts does not move a seeker. -/
theorem perform_tokenStart (h : s.cursor? = some c) :
    s.perform .tokenStart = (.offset c.tokenStart, s) := by
  rw [perform, look_of_cursor? h, goTo_of_cursor? h]

/-- A token that was read. It stands where the next token was told to start, and the seeker now
stands behind the blanks that follow it, where the next one starts. -/
def Found (s : Seeker) (t : Terminal) (value : List Char) (next : Seeker) : Prop :=
  ∃ start lexeme rest, (s.perform .tokenStart).1 = .offset start ∧
    Text.dropBytes? start s.source = some (lexeme ++ rest) ∧ t.IsLexeme lexeme rest ∧
    value = t.value lexeme ∧
    next.offset = start + Text.byteLength lexeme + Text.byteLength (rest.takeWhile Text.isBlank) ∧
    s.offset < next.offset ∧ (next.perform .tokenStart).1 = .offset next.offset

/-- What one action may answer and where it may leave the seeker. -/
structure Step (s : Seeker) (action : Action) (answer : Answer) (next : Seeker) : Prop where
  source_eq : next.source = s.source
  offset_le : next.offset ≤ Text.byteLength next.source
  refused_iff : answer = .insideCharacter ↔ action.looks = true ∧ s.InsideCharacter
  stays_of_refused : answer = .insideCharacter → next = s
  /-- Only going there brings a seeker inside a character. -/
  sought_of_inside : next.InsideCharacter → next = s ∨ action = .seek next.offset
  stays_of_missed : answer = .token none → next = s
  found : ∀ t value, action = .read t → answer = .token (some value) → s.Found t value next
  blank_missed : ∀ d value, action = .read (.char d) → Text.isBlank d = true →
    answer ≠ .token (some value)

/-- A token that a cursor reads is found by the seeker there, with all that is promised of a find.
-/
theorem found_of_read? {t : Terminal} {lexeme : List Char} (h : s.cursor? = some c)
    (hr : c.read? t = some (lexeme, next)) : s.Found t (t.value lexeme) (s.goTo next) := by
  have hnext := cursor?_goTo h (Cursor.leadsTo_of_read? hr)
  have hlt := Cursor.tokenStart_lt_of_read? hr
  have hle : c.offset ≤ c.tokenStart := c.leadsTo_skipBlanks.offset_le
  obtain ⟨rest, hrest, hl, rfl⟩ := Cursor.read?_eq_some_iff.mp hr
  rw [Cursor.tokenStart_skipBlanks] at hlt
  refine ⟨c.tokenStart, lexeme, rest, ?_, ?_, hl, rfl, rfl, ?_, ?_⟩
  · rw [perform_tokenStart h]
  · rw [← hrest]
    exact dropBytes?_of_leadsTo h c.leadsTo_skipBlanks
  · rw [← (cursor?_eq_some_iff.mp h).2]
    exact Nat.lt_of_le_of_lt hle hlt
  · rw [perform_tokenStart hnext, Cursor.tokenStart_skipBlanks]
    rfl

/-- Inside a character, what would look at the text is refused. -/
private theorem step_of_insideCharacter (h : s.offset ≤ Text.byteLength s.source)
    (hi : s.InsideCharacter) (hl : action.looks = true) : s.Step action .insideCharacter s where
  source_eq := rfl
  offset_le := h
  refused_iff := ⟨fun _ ↦ ⟨hl, hi⟩, fun _ ↦ rfl⟩
  stays_of_refused _ := rfl
  sought_of_inside _ := .inl rfl
  stays_of_missed := nofun
  found := nofun
  blank_missed := nofun

/-- Between two characters, what looks at the text moves the cursor forward. -/
private theorem step_of_cursor? (h : s.cursor? = some c) (hn : c.LeadsTo next) {answer : Answer}
    (hr : answer ≠ .insideCharacter) (hm : answer = .token none → next = c)
    (hf : ∀ t value, action = .read t → answer = .token (some value) →
      s.Found t value (s.goTo next) ∧ ∀ d, t = .char d → Text.isBlank d = false) :
    s.Step action answer (s.goTo next) where
  source_eq := rfl
  offset_le := offset_le_of_cursor? (cursor?_goTo h hn)
  refused_iff := ⟨fun he ↦ absurd he hr, fun hi ↦ absurd hi.2 (not_insideCharacter_of_cursor? h)⟩
  stays_of_refused he := absurd he hr
  sought_of_inside hi := absurd hi (not_insideCharacter_of_cursor? (cursor?_goTo h hn))
  stays_of_missed he := by rw [hm he, goTo_of_cursor? h]
  found t value ha he := (hf t value ha he).1
  blank_missed d value ha hb he := by
    rw [(hf (.char d) value ha he).2 d rfl] at hb
    cases hb

private theorem step_read_of_cursor? (h : s.cursor? = some c) (t : Terminal) :
    s.Step (.read t) (readToken t c).1 (s.goTo (readToken t c).2) := by
  cases hr : c.read? t with
  | none =>
    rw [readToken_of_none hr]
    exact step_of_cursor? h (.refl c) nofun (fun _ ↦ rfl) nofun
  | some found =>
    obtain ⟨lexeme, next⟩ := found
    rw [readToken_of_read? hr]
    refine step_of_cursor? h (Cursor.leadsTo_of_read? hr) nofun nofun ?_
    rintro _ _ ⟨⟩ ⟨⟩
    refine ⟨found_of_read? h hr, ?_⟩
    rintro d rfl
    rw [← Bool.not_eq_true]
    intro hb
    rw [Cursor.read?_blank_eq_none hb] at hr
    cases hr

/-- Going to a byte stops at the end of the text, which is not inside a character. -/
private theorem step_seek (s : Seeker) (n : Nat) : s.Step (.seek n) .done (s.seek n) where
  source_eq := rfl
  offset_le := Nat.min_le_right _ _
  refused_iff := by simp [Action.looks]
  stays_of_refused := nofun
  sought_of_inside := by
    rintro ⟨before, d, after, hs, -, ha⟩
    have hlength : Text.byteLength s.source =
        Text.byteLength before + (d.utf8Size + Text.byteLength after) := by
      rw [show s.source = before ++ d :: after from hs, Text.byteLength_append,
        Text.byteLength_cons]
    simp only [seek] at ha
    simp only [seek, Action.seek.injEq]
    omega
  stays_of_missed := nofun
  found := nofun
  blank_missed := nofun

/-- Telling the position or the text changes nothing. -/
private theorem step_of_not_looks (h : s.offset ≤ Text.byteLength s.source)
    (hl : action.looks = false)
    {answer : Answer} (hr : answer ≠ .insideCharacter) (hv : ∀ value, answer ≠ .token value) :
    s.Step action answer s where
  source_eq := rfl
  offset_le := h
  refused_iff := by simp [hl, hr]
  stays_of_refused _ := rfl
  sought_of_inside _ := .inl rfl
  stays_of_missed _ := rfl
  found _ value _ he := absurd he (hv (some value))
  blank_missed _ value _ _ := hv (some value)

private theorem step_perform (h : s.offset ≤ Text.byteLength s.source) (action : Action) :
    s.Step action (s.perform action).1 (s.perform action).2 := by
  cases hc : s.cursor? with
  | none =>
    have hi := (cursor?_eq_none_iff h).mp hc
    cases action with
    | position => exact step_of_not_looks h rfl nofun nofun
    | source => exact step_of_not_looks h rfl nofun nofun
    | seek n => exact step_seek s n
    | read _ | atEnd | skipBlanks | tokenStart =>
      rw [perform, look_of_none hc]
      exact step_of_insideCharacter h hi rfl
  | some c =>
    cases action with
    | position => exact step_of_not_looks h rfl nofun nofun
    | source => exact step_of_not_looks h rfl nofun nofun
    | seek n => exact step_seek s n
    | read t =>
      rw [perform, look_of_cursor? hc]
      exact step_read_of_cursor? hc t
    | atEnd | skipBlanks =>
      rw [perform, look_of_cursor? hc]
      exact step_of_cursor? hc c.leadsTo_skipBlanks nofun nofun nofun
    | tokenStart =>
      rw [perform, look_of_cursor? hc]
      exact step_of_cursor? hc (.refl c) nofun nofun nofun

/-! ### Sessions -/

/-- The seeker after a session. -/
def later (s : Seeker) (actions : List Action) : Seeker :=
  actions.foldl (fun s action ↦ (s.perform action).2) s

private theorem later_concat (s : Seeker) (actions : List Action) (action : Action) :
    s.later (actions ++ [action]) = ((s.later actions).perform action).2 := by
  rw [later, List.foldl_append]
  rfl

/-- A session keeps the text, and stays within it. -/
private theorem later_within (source : List Char) (actions : List Action) :
    ((start source).later actions).source = source ∧
      ((start source).later actions).offset ≤
        Text.byteLength ((start source).later actions).source := by
  induction actions using List.reverseRecOn with
  | nil => exact ⟨rfl, Nat.zero_le _⟩
  | append_singleton actions action ih =>
    have hstep := step_perform ih.2 action
    rw [later_concat]
    exact ⟨hstep.source_eq.trans ih.1, hstep.offset_le⟩

/-- Each answer of a session is what one action answers after those before it. -/
private theorem exists_perform_of_mem_performAll {s : Seeker} {actions : List Action}
    {result : Answer × Nat} (h : result ∈ s.performAll actions) :
    ∃ before action after, actions = before ++ action :: after ∧
      result =
        (((s.later before).perform action).1, ((s.later before).perform action).2.offset) := by
  induction actions generalizing s with
  | nil => cases h
  | cons action actions ih =>
    rcases List.mem_cons.mp h with rfl | h
    · exact ⟨[], action, actions, rfl, rfl⟩
    · obtain ⟨before, asked, after, rfl, hp⟩ := ih h
      exact ⟨action :: before, asked, after, rfl, hp⟩

/-- A place that a seeker tells of while it stands between two characters: its own, or where the
next token starts. -/
def Tells (s : Seeker) (n : Nat) : Prop :=
  ¬s.InsideCharacter ∧ (s.offset = n ∨ (s.perform .tokenStart).1 = .offset n)

/-- A session that only goes back to places which the seeker has told of before. -/
def GoesBack (s : Seeker) (actions : List Action) : Prop :=
  ∀ before n after, actions = before ++ .seek n :: after →
    ∃ earlier, earlier <+: before ∧ (s.later earlier).Tells n

/-- A place that a seeker tells of is not inside a character. -/
private theorem Tells.not_insideChar {n : Nat} (h : s.Tells n)
    (hs : s.offset ≤ Text.byteLength s.source) : ¬Text.InsideChar s.source n := by
  obtain ⟨hi, rfl | ht⟩ := h
  · exact hi
  cases hc : s.cursor? with
  | none => exact absurd ((cursor?_eq_none_iff hs).mp hc) hi
  | some c =>
    rw [perform_tokenStart hc, Answer.offset.injEq] at ht
    subst ht
    exact not_insideCharacter_of_cursor? (cursor?_goTo hc c.leadsTo_skipBlanks)

/-- A session that only goes back never comes to stand inside a character. -/
private theorem GoesBack.not_insideCharacter {source : List Char} {before after : List Action}
    (h : (start source).GoesBack (before ++ after)) :
    ¬((start source).later before).InsideCharacter := by
  induction before using List.reverseRecOn generalizing after with
  | nil =>
    rintro ⟨passed, d, rest, -, hb, -⟩
    exact absurd hb (Nat.not_lt_zero _)
  | append_singleton before action ih =>
    rw [List.append_assoc] at h
    intro hi
    rw [later_concat] at hi
    have hwithin := later_within source before
    have hstep := step_perform hwithin.2 action
    rcases hstep.sought_of_inside hi with hsame | hsought
    · rw [hsame] at hi
      exact ih h hi
    · obtain ⟨earlier, -, ht⟩ := h before _ after (by rw [← hsought]; rfl)
      have hearlier := later_within source earlier
      apply ht.not_insideChar hearlier.2
      rw [InsideCharacter, hstep.source_eq, hwithin.1] at hi
      rwa [hearlier.1]

/-- Whatever a seeker is asked, it stays within its text, and each action takes one step. A session
that only goes back to places which the seeker has told of is never refused. -/
theorem step_of_session (source : List Char) (actions : List Action) :
    ((start source).later actions).offset ≤ Text.byteLength source ∧
      (∀ action, ((start source).later actions).Step action
        (((start source).later actions).perform action).1
        (((start source).later actions).perform action).2) ∧
      ((start source).GoesBack actions →
        ∀ result ∈ (start source).performAll actions, result.1 ≠ .insideCharacter) := by
  have hwithin := later_within source actions
  refine ⟨hwithin.2.trans_eq (by rw [hwithin.1]), step_perform hwithin.2, ?_⟩
  intro hback result hresult hrefused
  obtain ⟨before, action, after, rfl, rfl⟩ := exists_perform_of_mem_performAll hresult
  have hstep := step_perform (later_within source before).2 action
  exact hback.not_insideCharacter (hstep.refused_iff.mp hrefused).2

example : (start ['é', 'p']).performAll [.seek 1, .skipBlanks, .seek 2, .read .name] =
    [(.done, 1), (.insideCharacter, 1), (.done, 2), (.token (some ['p']), 3)] := by decide

end Seeker
end TerseMarkup
