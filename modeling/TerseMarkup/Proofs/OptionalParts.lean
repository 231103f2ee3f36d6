import TerseMarkup.Proofs.Following
import TerseMarkup.Proofs.FurthestPlace

/-!
# Failures around optional parts

A rule that ends behind some optional parts has tried them all there. So its furthest failure names
them where the next token starts (`Reaches`), unless one of them broke. Then the failure lies
further on and names that part alone, and the rule stands before the mark of that part. `Stands` is
kept by one optional part after the other, as long as no two of them start with the same mark.
-/

namespace TerseMarkup

open Machine (Sees sees_of_read? not_sees_of_read?)

/-! ### Where failures stand -/

namespace Furthest

variable {furthest other : Furthest} {failure : Failure} {n place : Nat} {p : Production}
  {parts : List Production}

/-- A failure, if there is one, before a place. -/
def Before (furthest : Furthest) (n : Nat) : Prop :=
  ∀ failure, furthest = some failure → failure.offset < n

/-- A failure that lies at most at a place lies before every later one. -/
theorem AtMost.before {m : Nat} (h : furthest.AtMost m) (hlt : m < n) : furthest.Before n :=
  fun failure hf ↦ Nat.lt_of_le_of_lt (h failure hf) hlt

/-- Where nothing failed, every failure is before any place. -/
theorem before_none (n : Nat) : Before none n := nofun

private theorem append_of_before (h : furthest.Before failure.offset) :
    furthest ++ (some failure : Furthest) = some failure := by
  cases furthest with
  | none => rfl
  | some earlier => exact congrArg some (Failure.merge_of_gt (h earlier rfl))

/-- What is missed before a failure does not change it. -/
theorem append_before (h : other.Before failure.offset) :
    (some failure : Furthest) ++ other = some failure := by
  cases other with
  | none => rfl
  | some later => exact congrArg some (Failure.merge_of_lt (h later rfl))

/-- Two failures before a place are before it together. -/
theorem Before.append (h : furthest.Before n) (h' : other.Before n) :
    (furthest ++ other).Before n := by
  cases furthest with
  | none => exact h'
  | some earlier =>
    cases other with
    | none => exact h
    | some later =>
      intro failure hf
      obtain rfl : earlier.merge later = failure := Option.some.inj hf
      rw [Failure.offset_merge]
      exact Nat.max_lt.mpr ⟨h earlier rfl, h' later rfl⟩

/-- The furthest failure lies at a place and names some productions, or before it if there are
none to name. -/
def Reaches (furthest : Furthest) (place : Nat) (parts : List Production) : Prop :=
  furthest = some ⟨place, parts.map .production⟩ ∨ parts = [] ∧ furthest.Before place

private theorem Reaches.atMost (h : furthest.Reaches place parts) : furthest.AtMost place := by
  rcases h with rfl | ⟨-, h⟩
  · exact atMost_some.mpr (Nat.le_refl place)
  · exact fun failure hf ↦ Nat.le_of_lt (h failure hf)

/-- One more thing is missed at the place. -/
theorem Reaches.append_missed (h : furthest.Reaches place parts) {what : Expectation}
    (hw : what ∉ parts.map .production) :
    furthest ++ (some ⟨place, [what]⟩ : Furthest) =
      some ⟨place, parts.map .production ++ [what]⟩ := by
  rcases h with rfl | ⟨rfl, h⟩
  · change some (Failure.merge ⟨place, parts.map .production⟩ ⟨place, [what]⟩) = _
    rw [Failure.merge_of_eq (by rfl), List.filter_cons_of_pos (by simpa using hw)]
    rfl
  · exact append_of_before h

end Furthest

/-- The optional parts of a tag. -/
def tagParts : List Production := [.className, .id, .attributeList, .block]

/-- What is known where a rule ends, with some parts that were tried there: the furthest failure
names them all, or one of them broke behind its mark, which is ahead. -/
inductive Stands (marks : List Char) (parts : List Production) (c : Cursor) (furthest : Furthest) :
    Prop
  | reaches (h : furthest.Reaches c.tokenStart parts)
  | jams {p : Production} {place : Nat} (part : p ∈ tagParts)
      (failure : furthest = some ⟨place, [.production p]⟩) (further : c.tokenStart < place)
      (sees : Sees c marks)

namespace Stands

variable {marks more : List Char} {parts : List Production} {c : Cursor} {j k : Furthest}

/-- Where no part was tried, an earlier failure is all there is. -/
theorem of_before (h : j.Before c.tokenStart) : Stands marks [] c j :=
  .reaches (.inr ⟨rfl, h⟩)

/-- What is known at a place is known there with more marks. -/
theorem mono (h : Stands marks parts c j) (hm : marks ⊆ more) : Stands more parts c j := by
  cases h with
  | reaches h => exact .reaches h
  | jams hp hf hlt hs => exact .jams hp hf hlt (hs.mono hm)

/-- What was missed before does not count. -/
theorem behind (h : Stands marks parts c k) (hj : j.Before c.tokenStart) :
    Stands marks parts c (j ++ k) := by
  cases h with
  | reaches h =>
    rcases h with rfl | ⟨rfl, h⟩
    · exact .reaches (.inl (Furthest.append_of_before hj))
    · exact of_before (hj.append h)
  | jams hp hf hlt hs =>
    subst hf
    refine .jams hp (Furthest.append_of_before ?_) hlt hs
    exact fun failure hf ↦ Nat.lt_trans (hj failure hf) hlt

/-- Without a mark ahead, nothing has failed behind the place. -/
theorem atMost (h : Stands marks parts c j) (hs : ¬ Sees c marks) : j.AtMost c.tokenStart := by
  cases h with
  | reaches h => exact h.atMost
  | jams _ _ _ hsees => exact absurd hsees hs

/-- One more thing is missed where a rule ends. -/
theorem append_missed (h : Stands marks parts c j) {p : Production} (hp : p ∉ parts) :
    Stands marks (parts ++ [p]) c (j ++ (some ⟨c.tokenStart, [.production p]⟩ : Furthest)) := by
  cases h with
  | reaches h =>
    refine .reaches (.inl ?_)
    rw [h.append_missed (by simpa using hp), List.map_append]
    rfl
  | jams hq hf hlt hs =>
    subst hf
    refine .jams hq (Furthest.append_before ?_) hlt hs
    exact (Furthest.atMost_some.mpr (Nat.le_refl _)).before hlt

end Stands

/-! ### Optional parts -/

/-- An attempt to read a part that starts with a mark. Behind what was found it stands before what
may follow, and it finds nothing without its mark or because it broke further on. -/
structure PartAt {α : Type} (marks inner : List Char) (mayFollow : α → List Production)
    (c : Cursor) (a : Attempt Furthest α) : Prop where
  found : ∀ value next, a.outcome = .found value next → Sees c marks ∧
    c.tokenStart < next.tokenStart ∧ Stands inner (mayFollow value) next a.journal
  nothing : a.outcome = .nothing → ∃ failure, a.journal = some failure ∧
    (¬ Sees c marks ∧ failure.offset = c.tokenStart ∨
      Sees c marks ∧ c.tokenStart < failure.offset)

section

variable {α β : Type} {marks more inner : List Char} {mayFollow : α → List Production}
  {parts : List Production} {c next : Cursor} {j k : Furthest} {rule other : Rule Furthest α}
  {p : Production} {m : Char}

/-- A mark that is ahead excludes all others. -/
theorem Machine.Sees.not_sees (h : Sees c more) (hd : marks.Disjoint more) : ¬ Sees c marks := by
  rintro ⟨m, hm, ha⟩
  obtain ⟨m', hm', ha'⟩ := h
  obtain rfl := Option.some.inj (ha.symm.trans ha')
  exact hd hm hm'

/-- What an optional part leads to from where a rule ends. -/
theorem Stands.optional (h : Stands marks parts c j) (ha : PartAt more inner mayFollow c (rule c))
    (hd : marks.Disjoint more) (hp : p ∈ tagParts) (hn : p ∉ parts) {result : Option α}
    (hf : (Rule.named p rule).optional c = ⟨.found result next, k⟩) :
    Stands (result.elim (marks ++ more) fun _ ↦ inner) (result.elim (parts ++ [p]) mayFollow) next
      (j ++ k) := by
  rcases hr : rule c with ⟨outcome, journal⟩
  rw [hr] at ha
  have hnamed : Rule.named p rule c = ⟨outcome, Furthest.enclose p outcome.isFound journal⟩ := by
    simp only [Rule.named, hr]
    rfl
  cases outcome with
  | found value last =>
    rw [Rule.optional_of_found hnamed] at hf
    obtain ⟨⟨rfl, rfl⟩, rfl⟩ : (some value = result ∧ last = next) ∧ journal = k := by
      simpa [Furthest.enclose, Outcome.isFound] using hf
    obtain ⟨hs, hlt, hstands⟩ := ha.found value last rfl
    exact hstands.behind ((h.atMost (hs.not_sees hd)).before hlt)
  | nothing =>
    rw [Rule.optional_of_nothing hnamed] at hf
    obtain ⟨failure, rfl, hb⟩ := ha.nothing rfl
    obtain ⟨⟨rfl, rfl⟩, rfl⟩ : (none = result ∧ c = next) ∧
        some ⟨failure.offset, [.production p]⟩ = k := by
      simpa [Furthest.enclose, Outcome.isFound] using hf
    rcases hb with ⟨-, ho⟩ | ⟨hs, hlt⟩
    · rw [ho]
      exact (h.append_missed hn).mono (List.subset_append_left marks more)
    · have hmarks := hs.mono (List.subset_append_right marks more)
      refine .jams hp (Furthest.append_of_before ?_) hlt hmarks
      exact (h.atMost (hs.not_sees hd)).before hlt
  | tooDeep mark =>
    rw [Rule.optional_of_tooDeep hnamed] at hf
    cases hf

/-- A mark, and behind it something that is needed. -/
theorem partAt_char (limit : Nat) (hr : (Rule.regular limit).rules.Holds rule rule)
    (hs : ∀ d value next k, rule d = ⟨.found value next, k⟩ →
      Stands inner (mayFollow value) next k) (m : Char) (c : Cursor) :
    PartAt [m] inner mayFollow c ((do Rule.char m; rule : Rule Furthest α) c) := by
  cases hread : c.read? (.char m) with
  | none =>
    rw [Rule.bind_of_nothing (Rule.char_of_none hread)]
    exact ⟨nofun, fun _ ↦ ⟨_, rfl, .inl ⟨not_sees_of_read? hread, rfl⟩⟩⟩
  | some read =>
    obtain ⟨lexeme, d⟩ := read
    have hd : (rule d).Regular limit d := hr d
    have hsees := sees_of_read? hread
    have hlt := Cursor.tokenStart_lt_of_read? hread
    rw [Rule.bind_of_found (Rule.char_of_read hread), LawfulJournal.empty_append]
    refine ⟨fun value next hf ↦ ⟨hsees, ?_, ?_⟩, fun hn ↦ ?_⟩
    · exact Nat.lt_of_lt_of_le hlt (hd.leads value next hf).tokenStart_le
    · exact hs d value next _ (by rw [← show (rule d).outcome = _ from hf])
    · obtain ⟨failure, hf, hle⟩ := hd.exists_missed hn
      exact ⟨failure, hf, .inr ⟨hsees, Nat.lt_of_lt_of_le hlt hle⟩⟩

/-- To name a part leaves what is known of it. -/
theorem PartAt.named (h : PartAt marks inner mayFollow c (rule c)) (p : Production) :
    PartAt marks inner mayFollow c (Rule.named p rule c) where
  found value next hf := by
    have hr : (rule c).outcome = .found value next := hf
    obtain ⟨hs, hlt, hstands⟩ := h.found value next hr
    refine ⟨hs, hlt, ?_⟩
    simp only [Rule.named, hr]
    exact hstands
  nothing hn := by
    have hr : (rule c).outcome = .nothing := hn
    obtain ⟨failure, hf, hb⟩ := h.nothing hr
    refine ⟨⟨failure.offset, [.production p]⟩, ?_, hb⟩
    simp only [Rule.named, hr, hf]
    rfl

/-- What is made of a part does not matter to where it ends. -/
theorem PartAt.map {f : α → β} {mayFollow : β → List Production}
    (h : PartAt marks inner (mayFollow ∘ f) c (rule c)) :
    PartAt marks inner mayFollow c ((f <$> rule) c) := by
  rw [Rule.map_eq_bind]
  rcases hr : rule c with ⟨outcome, journal⟩
  rw [hr] at h
  cases outcome with
  | found value next =>
    rw [Rule.bind_of_found hr, Rule.pure_apply, LawfulJournal.append_empty]
    refine ⟨fun result last hf ↦ ?_, nofun⟩
    obtain ⟨rfl, rfl⟩ := Outcome.found.inj hf
    exact h.found value next rfl
  | nothing =>
    rw [Rule.bind_of_nothing hr]
    exact ⟨nofun, fun _ ↦ h.nothing rfl⟩
  | tooDeep mark =>
    rw [Rule.bind_of_tooDeep hr]
    exact ⟨nofun, nofun⟩

/-- Two parts with different marks. -/
theorem PartAt.orElse (h : PartAt marks inner mayFollow c (rule c))
    (h' : PartAt more inner mayFollow c (other c)) (hd : marks.Disjoint more) :
    PartAt (marks ++ more) inner mayFollow c (Rule.orElse rule other c) := by
  rcases hr : rule c with ⟨outcome, journal⟩
  rw [hr] at h
  cases outcome with
  | found value next =>
    rw [Rule.orElse_of_found hr]
    refine ⟨fun result last hf ↦ ?_, nofun⟩
    obtain ⟨hs, hlt, hstands⟩ := h.found result last hf
    exact ⟨hs.mono (List.subset_append_left marks more), hlt, hstands⟩
  | tooDeep mark =>
    rw [Rule.orElse_of_tooDeep hr]
    exact ⟨nofun, nofun⟩
  | nothing =>
    rw [Rule.orElse_of_nothing hr]
    obtain ⟨failure, rfl, hb⟩ := h.nothing rfl
    constructor
    · intro value next hf
      obtain ⟨hs, hlt, hstands⟩ := h'.found value next hf
      refine ⟨hs.mono (List.subset_append_right marks more), hlt, hstands.behind ?_⟩
      rcases hb with ⟨-, ho⟩ | ⟨hsees, -⟩
      · exact (Furthest.atMost_some.mpr (Nat.le_of_eq ho)).before hlt
      · exact absurd hsees (hs.not_sees hd)
    · intro hn
      obtain ⟨failure', hf', hb'⟩ := h'.nothing hn
      refine ⟨failure.merge failure', by rw [hf']; rfl, ?_⟩
      rw [Failure.offset_merge]
      rcases hb with ⟨hs, ho⟩ | ⟨hs, hlt⟩
      · rcases hb' with ⟨hs', ho'⟩ | ⟨hs', hlt'⟩
        · refine .inl ⟨?_, by omega⟩
          rintro ⟨m, hm, ha⟩
          rcases List.mem_append.mp hm with hm | hm
          · exact hs ⟨m, hm, ha⟩
          · exact hs' ⟨m, hm, ha⟩
        · exact .inr ⟨hs'.mono (List.subset_append_right marks more), by omega⟩
      · exact .inr ⟨hs.mono (List.subset_append_left marks more), by omega⟩

/-- What comes before a closing character does not count behind it. -/
theorem Stands.before_of_read? {lexeme : List Char} (h : Stands marks parts c j) (hm : m ∉ marks)
    (hr : c.read? (.char m) = some (lexeme, next)) : j.Before next.tokenStart := by
  refine (h.atMost ?_).before (Cursor.tokenStart_lt_of_read? hr)
  exact (sees_of_read? hr).not_sees (List.disjoint_singleton.mpr hm)

/-- A repetition of parts, where no further one starts. -/
theorem atMost_of_many {limit : Nat} (hp : ∀ d, PartAt marks [] (fun _ ↦ []) d (rule d))
    (hr : (Rule.regular limit).rules.Holds rule rule) (hs : rule.Shortens) {values : List α}
    {last : Cursor} (hf : rule.many c = ⟨.found values last, k⟩) (hn : ¬ Sees last marks) :
    k.AtMost last.tokenStart := by
  induction hl : c.rest.length using Nat.strongRecOn generalizing c values k with
  | ind n ih =>
    have hc := hp c
    rcases Rule.exists_of_many_eq_found hs hf with
      ⟨hround, rfl, rfl⟩ | ⟨value, next, more, earlier, later, hround, hmore, rfl, rfl⟩
    · rw [hround] at hc
      obtain ⟨failure, rfl, ⟨-, ho⟩ | ⟨hsees, -⟩⟩ := hc.nothing rfl
      · exact Furthest.atMost_some.mpr (Nat.le_of_eq ho)
      · exact absurd hsees hn
    · rw [hround] at hc
      obtain ⟨-, -, hstands⟩ := hc.found value next rfl
      have hlater := ih _ (hl ▸ hs c value next (by rw [hround])) hmore rfl
      have hleads : next.LeadsTo last := by
        have hmany : (rule.many next).Regular limit next := (Rule.regular limit).rules.many hr next
        rw [hmore] at hmany
        exact hmany.leads more last rfl
      have hearlier := hstands.atMost (by rintro ⟨m, hm, -⟩; cases hm)
      refine Furthest.atMost_append.mpr ⟨fun failure hf ↦ ?_, hlater⟩
      exact Nat.le_trans (hearlier failure hf) hleads.tokenStart_le

end

/-! ### Rules -/

namespace Rule

variable {α β : Type}

/-- A production that succeeds hands on what was missed inside of it. -/
theorem of_named_eq_found {p : Production} {rule : Rule Furthest α} {c next : Cursor} {value : α}
    {k : Furthest} (h : named p rule c = ⟨.found value next, k⟩) :
    rule c = ⟨.found value next, k⟩ := by
  rcases hr : rule c with ⟨outcome, journal⟩
  simp only [named, hr] at h
  obtain ⟨rfl, rfl⟩ := Attempt.mk.inj h
  rfl

/-- A rule that misses nothing on the way to what it finds. -/
def Clean (rule : Rule Furthest α) : Prop :=
  ∀ c value next k, rule c = ⟨.found value next, k⟩ → k = none

/-- To find a value without reading misses nothing. -/
theorem clean_pure (value : α) : (pure value : Rule Furthest α).Clean := by
  intro c _ next k h
  exact (eq_of_pure_eq_found h).2.2.symm

/-- A sequence of clean rules is clean. -/
theorem Clean.bind {first : Rule Furthest α} {second : α → Rule Furthest β} (hf : first.Clean)
    (hs : ∀ value, (second value).Clean) : (first >>= second).Clean := by
  intro c result last k h
  obtain ⟨value, next, earlier, later, hfirst, hsecond, rfl⟩ := exists_of_bind_eq_found h
  rw [hf c value next earlier hfirst, hs value next result last later hsecond]
  rfl

/-- A token that is found was not missed before. -/
theorem clean_terminal (t : Terminal) : (terminal t : Rule Furthest (List Char)).Clean := by
  intro c value next k h
  cases hr : c.read? t with
  | none =>
    rw [terminal_of_none hr] at h
    cases h
  | some read =>
    rw [terminal_of_read hr] at h
    obtain ⟨-, rfl⟩ := Attempt.mk.inj h
    rfl

/-- A character that is found was not missed before. -/
theorem clean_char (m : Char) : (char m : Rule Furthest Unit).Clean :=
  (clean_terminal _).bind fun _ ↦ clean_pure _

/-- A rule that finds something wherever it is tried, unless a block is too deep. -/
def Always (rule : Rule Furthest α) : Prop := ∀ c, (rule c).outcome ≠ .nothing

/-- A value without reading is always found. -/
theorem always_pure (value : α) : (pure value : Rule Furthest α).Always := by
  intro c h
  cases h

/-- An option always finds something, if only that there is nothing. -/
theorem always_optional (rule : Rule Furthest α) : rule.optional.Always := by
  intro c h
  rcases hr : rule c with ⟨outcome, journal⟩
  cases outcome <;> simp only [optional, hr] at h <;> cases h

/-- A sequence always finds something if all its parts do. -/
theorem Always.bind {first : Rule Furthest α} {second : α → Rule Furthest β} (hf : first.Always)
    (hs : ∀ value, (second value).Always) : (first >>= second).Always := by
  intro c h
  rcases outcome_bind_eq_nothing.mp h with h | ⟨value, next, -, h⟩
  · exact hf c h
  · exact hs value next h

end Rule

end TerseMarkup
