import TerseMarkup.Proofs.Machine
import TerseMarkup.Proofs.Replay

/-!
# Rules that the machine follows

A rule tries forms and gives them up; the machine reads each token once. While a rule runs, the
machine either gets to where the rule ends (`Passes`), or it halts on the way (`Fails`). In the
second case the rule may still end with success, without the part that broke. Then it stands
before the mark of that part (`Jams`), and no rule that comes next can read this mark, so nothing
more is read at all.

`Follows` says for a rule that each of its runs ends in one of these ways. It is kept by the
combinators, as long as what comes behind a part that may break only idles before its marks.
-/

namespace TerseMarkup.Machine

variable {c next last : Cursor} {j k : Footprint} {place stop : Nat}

/-! ### Footprints of a part of a text -/

/-- A place ahead of a cursor at which a colon or a brace stands. -/
def OpensAt (c : Cursor) (place : Nat) : Prop :=
  ∃ opener, c.skipBlanks.LeadsTo opener ∧ opener.offset = place ∧
    (opener.rest.head? = some ':' ∨ opener.rest.head? = some '\x7b')

private theorem OpensAt.tokenStart_le (h : OpensAt c place) : c.tokenStart ≤ place := by
  obtain ⟨opener, hl, rfl, -⟩ := h
  exact hl.offset_le

private theorem OpensAt.of_leadsTo (h : OpensAt next place)
    (hl : c.skipBlanks.LeadsTo next.skipBlanks) : OpensAt c place := by
  obtain ⟨opener, ho, hp, hr⟩ := h
  exact ⟨opener, hl.trans ho, hp, hr⟩

/-- A footprint between a cursor and a place: blocks open from left to right, each at a colon or
a brace. -/
structure Between (c : Cursor) (stop : Nat) (j : Footprint) : Prop where
  misses : ∀ place ∈ j.misses, place ≤ stop
  sorted : j.openings.Pairwise (·.offset < ·.offset)
  openings : ∀ opening ∈ j.openings, OpensAt c opening.offset ∧ opening.offset < stop

/-- A footprint that does not leave the place of a cursor. -/
structure Still (c : Cursor) (j : Footprint) : Prop where
  openings : j.openings = []
  misses : ∀ place ∈ j.misses, place = c.tokenStart

/-- A footprint that does not leave the place of a cursor, where something was missed. -/
structure Quiet (c : Cursor) (j : Footprint) : Prop extends Still c j where
  missed : c.tokenStart ∈ j.misses

private theorem Still.between (h : Still c j) (hc : c.tokenStart ≤ stop) : Between c stop j where
  misses place hp := h.misses place hp ▸ hc
  sorted := by rw [h.openings]; exact .nil
  openings := by rw [h.openings]; nofun

/-- An empty footprint leaves no place. -/
theorem still_empty (c : Cursor) : Still c ∅ := ⟨rfl, nofun⟩

/-- To miss the token ahead leaves the place of a cursor no further than that token. -/
theorem quiet_missed (c : Cursor) (what : Expectation) :
    Quiet c (Journal.missed c.tokenStart what) :=
  ⟨⟨rfl, fun _ hp ↦ List.mem_singleton.mp hp⟩, List.mem_singleton_self _⟩

/-- Two footprints that stay where they are do so together. -/
theorem Still.append (h : Still c j) (h' : Still c k) : Still c (j ++ k) where
  openings := by rw [Footprint.openings_append, h.openings, h'.openings, List.append_nil]
  misses place hp := by
    rcases List.mem_append.mp hp with hp | hp
    · exact h.misses place hp
    · exact h'.misses place hp

/-- A miss at the place of a cursor remains one when more is tried there. -/
theorem Quiet.append (h : Quiet c j) (h' : Still c k) : Quiet c (j ++ k) :=
  ⟨h.toStill.append h', List.mem_append_left _ h.missed⟩

private theorem Between.append (h : Between c next.tokenStart j) (h' : Between next stop k)
    (hl : c.skipBlanks.LeadsTo next.skipBlanks) (hs : next.tokenStart ≤ stop) :
    Between c stop (j ++ k) where
  misses place hp := by
    rcases List.mem_append.mp hp with hp | hp
    · exact Nat.le_trans (h.misses place hp) hs
    · exact h'.misses place hp
  sorted := by
    refine List.pairwise_append.mpr ⟨h.sorted, h'.sorted, ?_⟩
    intro first hf second hm
    exact Nat.lt_of_lt_of_le (h.openings first hf).2 (h'.openings second hm).1.tokenStart_le
  openings opening ho := by
    rcases List.mem_append.mp ho with ho | ho
    · obtain ⟨hc, hlt⟩ := h.openings opening ho
      exact ⟨hc, Nat.lt_of_lt_of_le hlt hs⟩
    · obtain ⟨hc, hlt⟩ := h'.openings opening ho
      exact ⟨hc.of_leadsTo hl, hlt⟩

private theorem Between.append_still (h : Between c stop j) (hk : Still next k)
    (hs : next.tokenStart ≤ stop) : Between c stop (j ++ k) where
  misses place hp := by
    rcases List.mem_append.mp hp with hp | hp
    · exact h.misses place hp
    · exact hk.misses place hp ▸ hs
  sorted := by
    rw [Footprint.openings_append, hk.openings, List.append_nil]
    exact h.sorted
  openings := by
    rw [Footprint.openings_append, hk.openings, List.append_nil]
    exact h.openings

/-! ### What the machine does meanwhile -/

variable {limit : Nat} {q after between : State} {marks more : List Char}

/-- The machine gets from one cursor to the other. -/
structure Passes (limit : Nat) (q : State) (c : Cursor) (after : State) (next : Cursor)
    (j : Footprint) : Prop where
  halt : halt limit q c = halt limit after next
  leads : c.skipBlanks.LeadsTo next.skipBlanks
  footprint : Between c next.tokenStart j

/-- The machine halts at a place, which is the furthest that is missed. -/
structure Fails (limit : Nat) (q : State) (c : Cursor) (place : Nat) (j : Footprint) : Prop where
  halt : halt limit q c = some place
  footprint : Between c place j
  missed : place ∈ j.misses

/-- The machine halts at an opener for which there is no room. -/
structure Refuses (limit : Nat) (q : State) (c : Cursor) (mark : TooDeep) (j : Footprint) :
    Prop where
  halt : halt limit q c = some mark.opener
  footprint : Between c mark.opener j

/-- One of some characters is ahead. -/
def Sees (c : Cursor) (marks : List Char) : Prop := ∃ m ∈ marks, Text.ahead c.rest = some m

/-- The machine halts, and what comes next starts before a mark that was passed then. -/
def Jams (limit : Nat) (q : State) (c next : Cursor) (marks : List Char) (j : Footprint) : Prop :=
  ∃ place, Fails limit q c place j ∧ next.tokenStart < place ∧ Sees next marks

private theorem Passes.tokenStart_le (h : Passes limit q c after next j) :
    c.tokenStart ≤ next.tokenStart :=
  h.leads.offset_le

/-- The machine may change its state in place, if it halts alike in both states. -/
theorem passes_of_halt_eq (h : Machine.halt limit q c = Machine.halt limit after c)
    (hs : Still c j) : Passes limit q c after c j :=
  ⟨h, .refl _, hs.between (Nat.le_refl _)⟩

private theorem Passes.trans (h : Passes limit q c between next j)
    (h' : Passes limit between next after last k) : Passes limit q c after last (j ++ k) :=
  ⟨h.halt.trans h'.halt, h.leads.trans h'.leads, h.footprint.append h'.footprint h.leads
    h'.tokenStart_le⟩

/-- What fails behind a way that was passed fails from its start. -/
theorem Passes.fails (h : Passes limit q c between next j) (h' : Fails limit between next place k) :
    Fails limit q c place (j ++ k) where
  halt := h.halt.trans h'.halt
  footprint := h.footprint.append h'.footprint h.leads (tokenStart_le_of_halt h'.halt)
  missed := List.mem_append_right _ h'.missed

private theorem Passes.refuses {mark : TooDeep} (h : Passes limit q c between next j)
    (h' : Refuses limit between next mark k) : Refuses limit q c mark (j ++ k) where
  halt := h.halt.trans h'.halt
  footprint := h.footprint.append h'.footprint h.leads (tokenStart_le_of_halt h'.halt)

private theorem Passes.jams (h : Passes limit q c between next j)
    (h' : Jams limit between next last marks k) : Jams limit q c last marks (j ++ k) := by
  obtain ⟨place, hf, hp, hm⟩ := h'
  exact ⟨place, h.fails hf, hp, hm⟩

private theorem Fails.append_still (h : Fails limit q c place j) (hk : Still next k)
    (hn : next.tokenStart ≤ place) : Fails limit q c place (j ++ k) :=
  ⟨h.halt, h.footprint.append_still hk hn, List.mem_append_left _ h.missed⟩

/-- A machine that has halted is not moved by what is tried behind it. -/
theorem Jams.append_still (h : Jams limit q c next marks j) (hk : Still next k) :
    Jams limit q c next marks (j ++ k) := by
  obtain ⟨place, hf, hp, hm⟩ := h
  exact ⟨place, hf.append_still hk (Nat.le_of_lt hp), hp, hm⟩

/-- A mark that is not seen is not ahead. -/
theorem ahead_ne_of_not_sees {m : Char} (h : ¬ Sees c marks) (hm : m ∈ marks) :
    Text.ahead c.rest ≠ some m :=
  fun ha ↦ h ⟨m, hm, ha⟩

/-- What is seen among some marks is seen among more. -/
theorem Sees.mono (h : Sees c marks) (hm : marks ⊆ more) : Sees c more := by
  obtain ⟨m, hmem, ha⟩ := h
  exact ⟨m, hm hmem, ha⟩

/-- A jam before one of some marks is one before more. -/
theorem Jams.mono (h : Jams limit q c next marks j) (hm : marks ⊆ more) :
    Jams limit q c next more j := by
  obtain ⟨place, hf, hp, hs⟩ := h
  exact ⟨place, hf, hp, hs.mono hm⟩

/-- Without marks nothing jams. -/
theorem not_jams_nil : ¬ Jams limit q c next [] j := by
  rintro ⟨_, _, _, _, hm, _⟩
  cases hm

/-- A machine that halts where something was missed has failed there. -/
theorem Quiet.fails (h : Quiet c j) (hh : Machine.halt limit q c = some c.tokenStart) :
    Fails limit q c c.tokenStart j :=
  ⟨hh, h.toStill.between (Nat.le_refl _), h.missed⟩

private theorem passes_of_read? {t : Terminal} {lexeme : List Char}
    (h : c.read? t = some (lexeme, next))
    (hq : ∀ d, t.starts d = true → choose limit q d = some (t, after)) :
    Passes limit q c after next ∅ :=
  ⟨halt_of_read? h hq, Cursor.skipBlanks_leadsTo_of_read? h,
    ⟨nofun, .nil, nofun⟩⟩

/-! ### Rules -/

variable {α β : Type} {N K : Cursor → Footprint → Prop}

/-- How the machine follows an attempt at a cursor. What is known where nothing was found is up to
the rule. -/
inductive FollowsAt (limit : Nat) (marks : List Char) (N : Cursor → Footprint → Prop)
    (q after : State) (c : Cursor) : Attempt Footprint α → Prop
  | passes {value : α} {next : Cursor} {j : Footprint} :
      Passes limit q c after next j → FollowsAt limit marks N q after c ⟨.found value next, j⟩
  | jams {value : α} {next : Cursor} {j : Footprint} :
      Jams limit q c next marks j → FollowsAt limit marks N q after c ⟨.found value next, j⟩
  | nothing {j : Footprint} : N c j → FollowsAt limit marks N q after c ⟨.nothing, j⟩
  | tooDeep {mark : TooDeep} {j : Footprint} :
      Refuses limit q c mark j → FollowsAt limit marks N q after c ⟨.tooDeep mark, j⟩

/-- The machine follows a rule from one state to another. -/
def Follows (limit : Nat) (marks : List Char) (N : Cursor → Footprint → Prop)
    (q after : State) (rule : Rule Footprint α) : Prop :=
  ∀ c, FollowsAt limit marks N q after c (rule c)

/-- A rule that always finds something. -/
def Never : Cursor → Footprint → Prop := fun _ _ ↦ False

/-- A rule that finds nothing only where the machine halts. -/
def Must (limit : Nat) (q : State) : Cursor → Footprint → Prop := fun c j ↦
  ∃ place, Fails limit q c place j

/-- A rule for a part that starts with a mark: it finds nothing where there is no mark, or where
the machine halts behind it. -/
def Skips (limit : Nat) (marks : List Char) (q : State) : Cursor → Footprint → Prop := fun c j ↦
  (Quiet c j ∧ ¬ Sees c marks) ∨ Jams limit q c c marks j

/-- A rule that finds nothing before some marks. -/
def Lacks (marks : List Char) (rule : Rule Footprint α) : Prop :=
  ∀ c, Sees c marks → ∃ j, Still c j ∧ rule c = ⟨.nothing, j⟩

/-- A rule that reads nothing before some marks. -/
def Idles (marks : List Char) (rule : Rule Footprint α) : Prop :=
  ∀ c, Sees c marks → ∃ j, Still c j ∧
    (rule c = ⟨.nothing, j⟩ ∨ ∃ value, rule c = ⟨.found value c, j⟩)

/-- The machine follows an attempt also with more marks, and where less is said of nothing found. -/
theorem FollowsAt.mono {a : Attempt Footprint α} (h : FollowsAt limit marks N q after c a)
    (hm : marks ⊆ more) (hN : ∀ j, N c j → K c j) : FollowsAt limit more K q after c a := by
  cases h with
  | passes h => exact .passes h
  | jams h => exact .jams (h.mono hm)
  | nothing h => exact .nothing (hN _ h)
  | tooDeep h => exact .tooDeep h

/-- An attempt that always finds something is followed whatever is said of nothing found. -/
theorem FollowsAt.of_always {a : Attempt Footprint α}
    (h : FollowsAt limit marks Never q after c a) : FollowsAt limit marks K q after c a :=
  h.mono (fun _ ↦ id) fun _ hn ↦ hn.elim

/-- States in which the machine halts alike are equally good to end in. -/
theorem FollowsAt.congr_after {a : Attempt Footprint α}
    (h : FollowsAt limit marks N q between c a)
    (hh : ∀ c, Machine.halt limit between c = Machine.halt limit after c) :
    FollowsAt limit marks N q after c a := by
  cases h with
  | passes h => exact .passes ⟨h.halt.trans (hh _), h.leads, h.footprint⟩
  | jams h => exact .jams h
  | nothing h => exact .nothing h
  | tooDeep h => exact .tooDeep h

/-- What the machine follows behind a part that it has passed. -/
theorem FollowsAt.behind {a : Attempt Footprint α}
    (h : FollowsAt limit marks N between after next a) (hp : Passes limit q c between next j)
    (hN : ∀ k, N next k → K c (j ++ k)) :
    FollowsAt limit marks K q after c ⟨a.outcome, j ++ a.journal⟩ := by
  cases h with
  | passes h => exact .passes (hp.trans h)
  | jams h => exact .jams (hp.jams h)
  | nothing h => exact .nothing (hN _ h)
  | tooDeep h => exact .tooDeep (hp.refuses h)

/-- An attempt that always finds something is followed from the start of a way that leads to it. -/
theorem FollowsAt.behind_always {a : Attempt Footprint α}
    (h : FollowsAt limit marks Never between after next a) (hp : Passes limit q c between next j) :
    FollowsAt limit marks K q after c ⟨a.outcome, j ++ a.journal⟩ :=
  h.behind hp fun _ hn ↦ hn.elim

/-! ### Combinators -/

variable {first rule : Rule Footprint α} {second : α → Rule Footprint β} {t : Terminal} {m : Char}

/-- To find a value without reading leaves the machine where it is. -/
theorem follows_pure (value : α) : Follows limit marks N q q (pure value : Rule Footprint α) :=
  fun c ↦ .passes (passes_of_halt_eq rfl (still_empty c))

/-- To find a value without reading reads nothing before any mark. -/
theorem idles_pure (marks : List Char) (value : α) :
    Idles marks (pure value : Rule Footprint α) :=
  fun c _ ↦ ⟨∅, still_empty c, .inr ⟨value, rfl⟩⟩

/-- A part that may find nothing, and behind it one that always finds something. -/
theorem FollowsAt.bind_always (hf : FollowsAt limit marks N q between c (first last))
    (hs : ∀ value, Follows limit more Never between after (second value))
    (hi : ∀ value, Idles marks (second value)) (hm : marks ⊆ more) :
    FollowsAt limit more N q after c ((first >>= second) last) := by
  generalize hr : first last = a at hf
  cases hf with
  | @passes value next j hp =>
    rw [Rule.bind_of_found hr]
    exact (hs value next).behind_always hp
  | @jams value next j hj =>
    rw [Rule.bind_of_found hr]
    have ⟨_, _, _, hsees⟩ := hj
    obtain ⟨k, hk, hn | ⟨result, hn⟩⟩ := hi value next hsees
    · have hnever := hs value next
      rw [hn] at hnever
      cases hnever with
      | nothing h => exact h.elim
    · rw [hn]
      exact .jams ((hj.append_still hk).mono hm)
  | nothing h =>
    rw [Rule.bind_of_nothing hr]
    exact .nothing h
  | tooDeep h =>
    rw [Rule.bind_of_tooDeep hr]
    exact .tooDeep h

/-- Two parts that find nothing only where the machine halts. -/
theorem FollowsAt.bind_must (hf : FollowsAt limit marks (Must limit q) q between c (first last))
    (hs : ∀ value, Follows limit more (Must limit between) between after (second value))
    (hi : ∀ value, Lacks marks (second value)) :
    FollowsAt limit more (Must limit q) q after c ((first >>= second) last) := by
  generalize hr : first last = a at hf
  cases hf with
  | @passes value next j hp =>
    rw [Rule.bind_of_found hr]
    exact (hs value next).behind hp fun _ ⟨place, h⟩ ↦ ⟨place, hp.fails h⟩
  | @jams value next j hj =>
    rw [Rule.bind_of_found hr]
    obtain ⟨place, hfails, hlt, hsees⟩ := hj
    obtain ⟨k, hk, hn⟩ := hi value next hsees
    rw [hn]
    exact .nothing ⟨place, hfails.append_still hk (Nat.le_of_lt hlt)⟩
  | nothing h =>
    rw [Rule.bind_of_nothing hr]
    exact .nothing h
  | tooDeep h =>
    rw [Rule.bind_of_tooDeep hr]
    exact .tooDeep h

/-- What is made of a value does not matter to the machine. -/
theorem FollowsAt.bind_pure (h : FollowsAt limit marks N q after c (rule last)) (f : α → β) :
    FollowsAt limit marks N q after c ((rule >>= fun value ↦ pure (f value)) last) :=
  h.bind_always (fun _ ↦ follows_pure _) (fun _ ↦ idles_pure _ _) fun _ ↦ id

/-- An optional part is skipped where its marks are not ahead. -/
theorem FollowsAt.optional (h : FollowsAt limit marks (Skips limit more q) q after c (rule c))
    (hm : more ⊆ marks)
    (hh : ¬ Sees c more → Machine.halt limit q c = Machine.halt limit after c) :
    FollowsAt limit marks Never q after c (rule.optional c) := by
  generalize hr : rule c = a at h
  cases h with
  | passes h =>
    rw [Rule.optional_of_found hr]
    exact .passes h
  | jams h =>
    rw [Rule.optional_of_found hr]
    exact .jams h
  | nothing h =>
    rw [Rule.optional_of_nothing hr]
    rcases h with ⟨hq, hs⟩ | hj
    · exact .passes (passes_of_halt_eq (hh hs) hq.toStill)
    · exact .jams (hj.mono hm)
  | tooDeep h =>
    rw [Rule.optional_of_tooDeep hr]
    exact .tooDeep h

/-- A repetition stays in its state from round to round, and it ends where a round finds
nothing. -/
theorem Follows.many (h : Follows limit more N q q rule) (hr : rule.Shortens)
    (hi : Idles more rule) (hm : more ⊆ marks)
    (hN : ∀ c j, N c j → Passes limit q c after c j ∨ Jams limit q c c marks j) :
    Follows limit marks Never q after rule.many := by
  intro c
  induction hl : c.rest.length using Nat.strongRecOn generalizing c with
  | ind n ih =>
    have hc := h c
    generalize hround : rule c = a at hc
    cases hc with
    | @passes value next j hp =>
      have hrest := ih _ (hl ▸ hr c value next (by rw [hround])) next rfl
      rw [Rule.many_of_found hr hround]
      generalize hmany : rule.many next = b at hrest
      cases hrest with
      | passes hrest => exact .passes (hp.trans hrest)
      | jams hrest => exact .jams (hp.jams hrest)
      | nothing hrest => exact hrest.elim
      | tooDeep hrest => exact .tooDeep (hp.refuses hrest)
    | @jams value next j hj =>
      have ⟨_, _, _, hsees⟩ := hj
      obtain ⟨k, hk, hn | ⟨result, hn⟩⟩ := hi next hsees
      · rw [Rule.many_of_found hr hround, Rule.many_of_nothing hn]
        exact .jams ((hj.append_still hk).mono hm)
      · exact absurd (hr next result next (by rw [hn])) (Nat.lt_irrefl _)
    | nothing hc =>
      rw [Rule.many_of_nothing hround]
      rcases hN c _ hc with hc | hc
      · exact .passes hc
      · exact .jams hc
    | tooDeep hc =>
      rw [Rule.many_of_tooDeep hround]
      exact .tooDeep hc

/-! ### Tokens -/

/-- The machine follows a token that it chooses by its first character. -/
theorem follows_terminal (hq : ∀ d, t.starts d = true → choose limit q d = some (t, after))
    (hN : ∀ c what, c.read? t = none → N c (Journal.missed c.tokenStart what)) :
    Follows limit marks N q after (Rule.terminal t) := by
  intro c
  cases hr : c.read? t with
  | none =>
    rw [Rule.terminal_of_none hr]
    exact .nothing (hN c _ hr)
  | some found =>
    rw [Rule.terminal_of_read hr]
    exact .passes (passes_of_read? hr hq)

/-- Where only one kind of token may follow, the machine halts without it. -/
theorem must_terminal (hq : choose limit q = only t after) (ha : accepts q = false) :
    Follows limit marks (Must limit q) q after (Rule.terminal t) := by
  apply follows_terminal
  · intro d hd
    rw [hq, only_of_starts hd]
  · intro c what hr
    exact ⟨c.tokenStart, (quiet_missed c what).fails (halt_of_only hq ha hr)⟩

/-- Where the machine can go on only with one character, it follows the rule for this character. -/
theorem must_char (hq : choose limit q = only (.char m) after) (ha : accepts q = false) :
    Follows limit marks (Must limit q) q after (Rule.char m) :=
  fun c ↦ (must_terminal hq ha c).bind_pure fun _ ↦ ()

/-- A character that cannot be read is not seen. -/
theorem not_sees_of_read? (h : c.read? (.char m) = none) : ¬ Sees c [m] := by
  rintro ⟨d, hd, ha⟩
  obtain rfl := List.mem_singleton.mp hd
  have hs := Cursor.starts_eq_false_of_read? h ha nofun (.inr nofun)
  simp [Terminal.starts] at hs

/-- A character that is read is seen. -/
theorem sees_of_read? {lexeme : List Char} (h : c.read? (.char m) = some (lexeme, next)) :
    Sees c [m] := by
  obtain ⟨d, ha, hs⟩ := Cursor.ahead_of_read? h
  obtain rfl : d = m := by simpa [Terminal.starts] using hs
  exact ⟨d, List.mem_singleton_self d, ha⟩

/-- What breaks behind a mark jams before it. -/
theorem Passes.jams_of_must {lexeme : List Char} (hp : Passes limit q c between next j)
    (hr : c.read? (.char m) = some (lexeme, next)) (h : Must limit q c k) :
    Jams limit q c c [m] k := by
  obtain ⟨place, hf⟩ := h
  have hle := tokenStart_le_of_halt (hp.halt.symm.trans hf.halt)
  exact ⟨place, hf, Nat.lt_of_lt_of_le (Cursor.tokenStart_lt_of_read? hr) hle, sees_of_read? hr⟩

/-- A part that is a mark and something that must follow. -/
theorem skips_char (hq : ∀ d, (Terminal.char m).starts d = true →
      choose limit q d = some (.char m, between))
    (h : Follows limit marks (Must limit between) between after rule) :
    Follows limit marks (Skips limit [m] q) q after (do Rule.char m; rule) := by
  intro c
  cases hr : c.read? (.char m) with
  | none =>
    rw [Rule.bind_of_nothing (Rule.char_of_none hr)]
    exact .nothing (.inl ⟨quiet_missed c _, not_sees_of_read? hr⟩)
  | some found =>
    rw [Rule.bind_of_found (Rule.char_of_read hr)]
    have hp : Passes limit q c between found.2 ∅ := passes_of_read? hr hq
    exact (h found.2).behind hp fun k ⟨place, hk⟩ ↦
      .inr (hp.jams_of_must hr ⟨place, hp.fails hk⟩)

/-! ### Idling -/

/-- Without marks there is nothing to find before. -/
theorem lacks_nil (rule : Rule Footprint α) : Lacks [] rule := by
  rintro c ⟨m, hm, -⟩
  cases hm

/-- A rule that finds nothing before some marks reads nothing there. -/
theorem Lacks.idles (h : Lacks marks rule) : Idles marks rule := by
  intro c hc
  obtain ⟨j, hj, hn⟩ := h c hc
  exact ⟨j, hj, .inl hn⟩

/-- A sequence finds nothing where its first part finds nothing. -/
theorem Lacks.bind (h : Lacks marks first) : Lacks marks (first >>= second) := by
  intro c hc
  obtain ⟨j, hj, hn⟩ := h c hc
  exact ⟨j, hj, Rule.bind_of_nothing hn⟩

/-- Alternatives find nothing where neither of them does. -/
theorem Lacks.orElse {other : Rule Footprint α} (h : Lacks marks rule) (h' : Lacks marks other) :
    Lacks marks (Rule.orElse rule other) := by
  intro c hc
  obtain ⟨j, hj, hn⟩ := h c hc
  obtain ⟨k, hk, hn'⟩ := h' c hc
  refine ⟨j ++ k, hj.append hk, ?_⟩
  rw [Rule.orElse_of_nothing hn, hn']

/-- A token is not found before marks that do not start it. -/
theorem lacks_terminal (ht : ∀ m ∈ marks, t.starts m = false) :
    Lacks marks (Rule.terminal t : Rule Footprint (List Char)) := by
  rintro c ⟨m, hm, ha⟩
  have hr : c.read? t = none := by
    apply Cursor.read?_eq_none_of_ahead
    intro d hd
    obtain rfl := Option.some.inj (ha.symm.trans hd)
    exact ht m hm
  exact ⟨_, (quiet_missed c _).toStill, Rule.terminal_of_none hr⟩

/-- A character is not found before other marks. -/
theorem lacks_char (hm : m ∉ marks) : Lacks marks (Rule.char m : Rule Footprint Unit) := by
  refine (lacks_terminal ?_).bind
  rintro d hd
  simp only [Terminal.starts, beq_eq_false_iff_ne, ne_eq]
  rintro rfl
  exact hm hd

/-- Two parts with different marks. -/
theorem FollowsAt.orElse {other : Rule Footprint α} {otherMarks : List Char}
    (h : FollowsAt limit marks (Skips limit more q) q after c (rule c))
    (h' : FollowsAt limit marks (Skips limit otherMarks q) q after c (other c))
    (hl : Lacks more other) :
    FollowsAt limit marks (Skips limit (more ++ otherMarks) q) q after c
      (Rule.orElse rule other c) := by
  generalize hr : rule c = a at h
  cases h with
  | passes h =>
    rw [Rule.orElse_of_found hr]
    exact .passes h
  | jams h =>
    rw [Rule.orElse_of_found hr]
    exact .jams h
  | tooDeep h =>
    rw [Rule.orElse_of_tooDeep hr]
    exact .tooDeep h
  | nothing h =>
    rw [Rule.orElse_of_nothing hr]
    rcases h with ⟨hq, hs⟩ | hj
    · have hp : Passes limit q c q c _ := passes_of_halt_eq rfl hq.toStill
      refine h'.behind hp ?_
      rintro k (⟨hq', hs'⟩ | hj')
      · refine .inl ⟨hq.append hq'.toStill, ?_⟩
        rintro ⟨m, hm, ha⟩
        rcases List.mem_append.mp hm with hm | hm
        · exact hs ⟨m, hm, ha⟩
        · exact hs' ⟨m, hm, ha⟩
      · exact .inr ((hp.jams hj').mono (by simp))
    · have ⟨_, _, _, hsees⟩ := hj
      obtain ⟨k, hk, hn⟩ := hl c hsees
      rw [hn]
      exact .nothing (.inr ((hj.append_still hk).mono (by simp)))

/-- A sequence reads nothing where none of its parts does. -/
theorem Idles.bind (hf : Idles marks first) (hs : ∀ value, Idles marks (second value)) :
    Idles marks (first >>= second) := by
  intro c hc
  obtain ⟨j, hj, hn | ⟨value, hv⟩⟩ := hf c hc
  · exact ⟨j, hj, .inl (Rule.bind_of_nothing hn)⟩
  · obtain ⟨k, hk, hn | ⟨result, hn⟩⟩ := hs value c hc
    · refine ⟨j ++ k, hj.append hk, .inl ?_⟩
      rw [Rule.bind_of_found hv, hn]
    · refine ⟨j ++ k, hj.append hk, .inr ⟨result, ?_⟩⟩
      rw [Rule.bind_of_found hv, hn]

/-- An option reads nothing where there is nothing to find. -/
theorem Lacks.optional (h : Lacks marks rule) : Idles marks rule.optional := by
  intro c hc
  obtain ⟨j, hj, hn⟩ := h c hc
  exact ⟨j, hj, .inr ⟨none, Rule.optional_of_nothing hn⟩⟩

end TerseMarkup.Machine
