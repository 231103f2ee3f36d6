import TerseMarkup.Grammar.Expectation

/-!
# Journals

While a document is read, productions are tried and given up. A journal is what such a run writes
down: the tokens it missed, the blocks it opened, and the productions around both. The grammar
writes into any journal. The one that messages are made from keeps only the furthest place where
a token was missed and what was expected there. A trace is the journal that forgets nothing: each
token that was missed, each block that was opened and each production that ended, in the order in
which it happened.
-/

namespace TerseMarkup

/-- What a run of the grammar writes down. Journals of consecutive runs are appended. -/
class Journal (ρ : Type) extends EmptyCollection ρ, Append ρ where
  /-- Something was expected at an offset and not there. -/
  missed : Nat → Expectation → ρ
  /-- A block was opened at an offset, and so many are open now. -/
  opened : Nat → Nat → ρ
  /-- A production ended, with success or without, and wrote this while it ran. -/
  enclose : Production → Bool → ρ → ρ

/-! ### The furthest failure -/

/-- The furthest place where something was missed, and what was expected there, in the order in
which it was tried. -/
structure Failure where
  offset : Nat
  expected : List Expectation
  deriving DecidableEq, Repr

/-- The further of two failures. At the same place both count, and what is expected twice is
named once. -/
def Failure.merge (earlier later : Failure) : Failure :=
  if later.offset < earlier.offset then earlier
  else if earlier.offset < later.offset then later
  else ⟨earlier.offset, earlier.expected ++ later.expected.filter (· ∉ earlier.expected)⟩

/-- The furthest failure of a run, if anything was missed. -/
abbrev Furthest := Option Failure

namespace Furthest

/-- The furthest failure of two runs, one after the other. -/
def append : Furthest → Furthest → Furthest
  | none, later => later
  | earlier, none => earlier
  | some earlier, some later => some (earlier.merge later)

/-- The furthest failure once one more thing was missed. -/
def miss (furthest : Furthest) (offset : Nat) (what : Expectation) : Failure :=
  match furthest with
  | none => ⟨offset, [what]⟩
  | some earlier => earlier.merge ⟨offset, [what]⟩

/-- A production that succeeds hands on what was expected inside it; one that fails was itself
what was expected. -/
def enclose (p : Production) (succeeded : Bool) (inner : Furthest) : Furthest :=
  if succeeded then inner else inner.map fun failure ↦ ⟨failure.offset, [.production p]⟩

instance : Journal Furthest where
  emptyCollection := none
  append := append
  missed offset what := some ⟨offset, [what]⟩
  opened _ _ := none
  enclose := enclose

end Furthest

/-! ### Traces -/

/-- Something that happened while a document was read. -/
inductive Event where
  /-- Something was expected at an offset and not there. -/
  | missed (offset : Nat) (what : Expectation)
  /-- A block was opened at an offset, and so many are open now. -/
  | opened (offset : Nat) (depth : Nat)
  /-- A production ended after these events. -/
  | production (p : Production) (succeeded : Bool) (events : List Event)

/-- All that happened, in order. -/
abbrev Trace := List Event

instance : Journal Trace where
  missed offset what := [.missed offset what]
  opened offset depth := [.opened offset depth]
  enclose p succeeded events := [.production p succeeded events]

end TerseMarkup
