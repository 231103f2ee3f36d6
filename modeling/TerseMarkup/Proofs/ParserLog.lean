import TerseMarkup.Proofs.MissedTokens
import TerseMarkup.Proofs.ParserSession

/-!
# Misses told by a log

The misses of a document come from its trace, which the rules of the grammar put together as they
put together failures. A parser that reads in place only ever adds notes to a log. Still the log is
enough to tell what was missed and where: the productions around a note are those that are left
behind it and were not entered behind it. The main statement, `Parser.misses_log`, says that the
misses told by the log of a parser are the misses of the document it reads.
-/

namespace TerseMarkup

/-! ### Reading a log -/

namespace Log

/-- The productions around the start of a log, the innermost first, with how each ends, and all that
is missed in the log. A log is read from its end, since only there it is known how a production
ended. -/
def tell : List Note → List (Production × Bool) × List Miss
  | [] => ([], [])
  | note :: log =>
    let (around, misses) := tell log
    match note with
    | .entered _ => (around.tail, misses)
    | .missed offset what => (around, ⟨offset, what, around.reverse⟩ :: misses)
    | .left p succeeded => ((p, succeeded) :: around, misses)

/-- All that is missed in a log, in order. -/
def misses (log : List Note) : List Miss := (tell log).2

end Log

/-! ### Logs as journals -/

instance : Journal (List Note) where
  missed offset what := [.missed offset what]
  opened _ _ := []
  enclose p succeeded log := .entered p :: (log ++ [.left p succeeded])

instance : LawfulJournal (List Note) where
  empty_append _ := List.nil_append _
  append_empty _ := List.append_nil _
  append_assoc := List.append_assoc

instance : Parser.Writes (List Note) where
  written := Parser.log
  written_congr _ h := h
  written_expect _ _ _ := rfl
  written_leave {s later p log} succeeded h := by
    change later.log = s.log ++ [.entered p] ++ log at h
    change later.log ++ [.left p succeeded] = s.log ++ .entered p :: (log ++ [.left p succeeded])
    rw [h]
    simp
  written_opened s _ _ := List.append_nil s.log

/-- A miss inside of more productions. -/
def Miss.inside (around : List (Production × Bool)) (miss : Miss) : Miss :=
  { miss with enclosing := around ++ miss.enclosing }

private theorem Miss.inside_within (around : List (Production × Bool)) (p : Production)
    (succeeded : Bool) (miss : Miss) :
    (miss.within p succeeded).inside around = miss.inside (around ++ [(p, succeeded)]) := by
  simp [inside, within]

mutual

/-- The log of an event tells its misses, and the productions around it are those around what
follows. -/
private theorem Event.tell_replay : (event : Event) → (log : List Note) →
    Log.tell (event.replay (List Note) ++ log) =
      ((Log.tell log).1,
        event.misses.map (Miss.inside (Log.tell log).1.reverse) ++ (Log.tell log).2)
  | .missed offset what, log => by
    rw [Event.replay, Event.misses]
    simp [Journal.missed, Log.tell, Miss.inside]
  | .opened offset depth, log => by
    rw [Event.replay, Event.misses]
    rfl
  | .production p succeeded events, log => by
    have hevents := Trace.tell_replay events (.left p succeeded :: log)
    rw [Event.replay, Event.misses]
    simp only [Journal.enclose, List.cons_append, List.append_assoc, List.nil_append, Log.tell,
      hevents, List.tail_cons, List.reverse_cons, List.map_map, Function.comp_def,
      Miss.inside_within]

/-- The log of a trace tells its misses. -/
private theorem Trace.tell_replay : (trace : List Event) → (log : List Note) →
    Log.tell (Trace.replay (List Note) trace ++ log) =
      ((Log.tell log).1,
        (Trace.misses trace).map (Miss.inside (Log.tell log).1.reverse) ++ (Log.tell log).2)
  | [], log => by
    rw [Trace.replay, Trace.misses]
    rfl
  | event :: events, log => by
    rw [Trace.replay, Trace.misses, List.append_assoc, Event.tell_replay event,
      Trace.tell_replay events, List.map_append, List.append_assoc]

end

/-- Around a whole trace there are no productions. -/
private theorem Trace.misses_replay (trace : Trace) (log : List Note) (h : (Log.tell log).1 = []) :
    Log.misses (Trace.replay (List Note) trace ++ log) = Trace.misses trace ++ Log.misses log := by
  have hinside : Miss.inside [] = id := rfl
  rw [Log.misses, Trace.tell_replay, h, List.reverse_nil, hinside, List.map_id, Log.misses]

/-! ### Documents -/

namespace Parser

/-- The end of the text is noted as missed where the text goes on. -/
private theorem log_of_finish {s later : Parser} {last : Cursor} {values : List Statement}
    {result : Except SyntaxError Document} (hm : s.tooDeep = none)
    (hc : s.scanner.cursor? = some last) (h : finish values s = some (result, later)) :
    later.log =
      s.log ++ if last.skipBlanks.rest = [] then [] else [.missed last.tokenStart .endOfText] := by
  cases he : last.skipBlanks.rest.isEmpty with
  | true =>
    rw [finish_of_end hm hc he] at h
    cases h
    rw [if_pos (List.isEmpty_iff.mp he), List.append_nil]
  | false =>
    rw [finish_of_rest hm hc he] at h
    cases h
    rw [if_neg (List.isEmpty_eq_false_iff.mp he)]

/-- A parser reads a text as a document is read, and unless a block was too deep, its log tells the
misses of the document: the same tokens at the same offsets, inside of the same productions, which
ended alike, and in the same order. -/
theorem misses_log (source : List Char) {rounds : Nat} (h : Text.byteLength source < rounds) :
    ∃ later, (start source).next rounds = some (Document.parseWithin maxNesting source, later) ∧
      (later.tooDeep = none → Log.misses later.log = Document.misses maxNesting source) := by
  have hready := ready_start h
  obtain ⟨later, hnext, -⟩ := (tracks_start source).next hready (Nat.le_refl rounds)
  refine ⟨later, hnext, fun hmark ↦ ?_⟩
  obtain ⟨found, read, hrun, -, hagree⟩ :=
    Parsing.safe_document (List Note) (Nat.le_refl rounds) hready
  have hfinish : finish (found.getD []) read =
      some ((Reader.start maxNesting source).next.1, later) := by
    rw [← hnext, next, hrun]
    rfl
  have ha : (start source).Agrees (Document.attempt (List Note) maxNesting source) found read :=
    hagree rfl
  rcases htrace : Document.attempt Trace maxNesting source with ⟨outcome, trace⟩
  rw [Document.attempt_eq_replay, htrace] at ha
  cases ha with
  | nothing =>
    have houtcome := Document.outcome_attempt_ne_nothing Trace maxNesting source
    rw [htrace] at houtcome
    exact absurd rfl houtcome
  | tooDeep hm =>
    rw [finish_of_tooDeep hm] at hfinish
    obtain ⟨-, rfl⟩ := Prod.mk.inj (Option.some.inj hfinish)
    cases hm.symm.trans hmark
  | found hc hm hj =>
    have hlog : read.log = Trace.replay (List Note) trace := hj.trans (List.nil_append _)
    rw [log_of_finish hm hc hfinish, hlog]
    simp only [Document.misses, htrace]
    split
    · rw [Trace.misses_replay trace [] rfl]
      exact List.append_nil _
    · exact Trace.misses_replay trace _ rfl

end Parser
end TerseMarkup
