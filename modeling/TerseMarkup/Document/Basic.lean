/-!
# Documents

A document is a list of statements. A statement is a text or a tag, and a tag has a head, which
says how its element opens, and a body.
-/

namespace TerseMarkup

/-- A named value of an element. -/
structure Attribute where
  name : String
  value : String
  deriving DecidableEq, Repr

/-- What a tag says before its body. A list of attributes may be absent, which is not the same as
empty. -/
structure TagHead where
  name : String
  className : Option String
  id : Option String
  attributes : Option (List Attribute)
  deriving DecidableEq, Repr

mutual

/-- A piece of a document. -/
inductive Statement where
  /-- A text. -/
  | text (value : String)
  /-- An element with what it contains. -/
  | tag (head : TagHead) (body : Body)

/-- What a tag contains. -/
inductive Body where
  /-- Nothing at all. -/
  | absent
  /-- One statement, after a colon. -/
  | single (statement : Statement)
  /-- Any number of statements, in braces. -/
  | block (statements : List Statement)

end

mutual

/-- Whether two statements are the same. -/
def Statement.decEq (a b : Statement) : Decidable (a = b) :=
  match a, b with
  | .text v, .text w => decidable_of_decidable_of_iff (p := v = w) (by simp)
  | .tag h c, .tag k d =>
    have := c.decEq d
    decidable_of_decidable_of_iff (p := h = k ∧ c = d) (by simp)
  | .text _, .tag .. => isFalse nofun
  | .tag .., .text _ => isFalse nofun

/-- Whether two bodies are the same. -/
def Body.decEq (a b : Body) : Decidable (a = b) :=
  match a, b with
  | .absent, .absent => isTrue rfl
  | .single s, .single t =>
    have := s.decEq t
    decidable_of_decidable_of_iff (p := s = t) (by simp)
  | .block ss, .block ts =>
    have := Statement.decEqList ss ts
    decidable_of_decidable_of_iff (p := ss = ts) (by simp)
  | .absent, .single _ => isFalse nofun
  | .absent, .block _ => isFalse nofun
  | .single _, .absent => isFalse nofun
  | .single _, .block _ => isFalse nofun
  | .block _, .absent => isFalse nofun
  | .block _, .single _ => isFalse nofun

/-- Whether two lists of statements are the same. -/
def Statement.decEqList (ss ts : List Statement) : Decidable (ss = ts) :=
  match ss, ts with
  | [], [] => isTrue rfl
  | s :: ss, t :: ts =>
    have := s.decEq t
    have := Statement.decEqList ss ts
    decidable_of_decidable_of_iff (p := s = t ∧ ss = ts) (by simp)
  | [], _ :: _ => isFalse nofun
  | _ :: _, [] => isFalse nofun

end

instance : DecidableEq Statement := Statement.decEq

instance : DecidableEq Body := Body.decEq

/-- The statements of a whole text. -/
structure Document where
  statements : List Statement
  deriving DecidableEq

end TerseMarkup
