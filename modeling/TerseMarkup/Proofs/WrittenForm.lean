import TerseMarkup.Proofs.Acceptance
import TerseMarkup.Proofs.Spelling

/-!
# Written forms

Which documents a text can have. Names, classes, ids and lists of attributes are restricted by
the notation and texts are not: any character can be escaped in a literal. A document that keeps
the restrictions has a written form, in which each statement starts on a line of its own, and
this form derives the document. The main statement, `exists_parse_eq_ok_iff`, says that a document
is read from some text exactly if it is well formed and not nested too deep.
-/

namespace TerseMarkup

/-! ### Well-formed documents -/

/-- Names are names, classes and ids are identifiers, and a list of attributes has an element. -/
structure TagHead.WellFormed (head : TagHead) : Prop where
  name : Terminal.name.Spells head.name.toList
  className : ∀ name ∈ head.className, Terminal.identifier.Spells name.toList
  id : ∀ name ∈ head.id, Terminal.identifier.Spells name.toList
  attributes : ∀ list ∈ head.attributes,
    list ≠ [] ∧ ∀ pair ∈ list, Terminal.name.Spells pair.name.toList

mutual

/-- A statement whose heads are well formed. -/
def Statement.WellFormed : Statement → Prop
  | .text _ => True
  | .tag head body => head.WellFormed ∧ body.WellFormed

/-- A body whose heads are well formed. -/
def Body.WellFormed : Body → Prop
  | .absent => True
  | .single statement => statement.WellFormed
  | .block statements => Statement.AllWellFormed statements

/-- Statements whose heads are well formed. -/
def Statement.AllWellFormed : List Statement → Prop
  | [] => True
  | statement :: rest => statement.WellFormed ∧ Statement.AllWellFormed rest

end

/-- A document whose heads are well formed. -/
def Document.WellFormed (document : Document) : Prop :=
  Statement.AllWellFormed document.statements

/-! ### Derived documents are well formed -/

variable {text rest value : List Char}

private theorem DerivesToken.spells_name (h : DerivesToken .name text value rest) :
    Terminal.name.Spells (String.ofList value).toList := by
  obtain ⟨-, lexeme, -, -, hl, rfl⟩ := h
  rw [String.toList_ofList]
  exact hl.1

private theorem DerivesSelector.spells {mark : Char} {name : String}
    (h : DerivesSelector mark text name rest) : Terminal.identifier.Spells name.toList := by
  obtain ⟨-, -, lexeme, -, -, hl, rfl⟩ := h
  rw [String.toList_ofList]
  exact hl.1

private theorem DerivesSelectors.spells {className id : Option String}
    (h : DerivesSelectors text className id rest) :
    (∀ name ∈ className, Terminal.identifier.Spells name.toList) ∧
      ∀ name ∈ id, Terminal.identifier.Spells name.toList := by
  induction h with
  | none => simp
  | className first _ ih => exact ⟨by rintro _ ⟨⟩; exact first.spells, ih.2⟩
  | id first _ ih => exact ⟨ih.1, by rintro _ ⟨⟩; exact first.spells⟩

private theorem DerivesAttribute.spells {pair : Attribute} (h : DerivesAttribute text pair rest) :
    Terminal.name.Spells pair.name.toList := by
  obtain ⟨hname, -, -⟩ := h
  exact hname.spells_name

private theorem DerivesMoreAttributes.spells {attributes : List Attribute}
    (h : DerivesMoreAttributes text attributes rest) :
    ∀ pair ∈ attributes, Terminal.name.Spells pair.name.toList := by
  induction h with
  | nil => simp
  | cons _ hfirst _ ih => exact List.forall_mem_cons.mpr ⟨hfirst.spells, ih⟩

private theorem DerivesAttributes.spells {attributes : List Attribute}
    (h : DerivesAttributes text attributes rest) :
    attributes ≠ [] ∧ ∀ pair ∈ attributes, Terminal.name.Spells pair.name.toList := by
  obtain ⟨-, hfirst, hmore, -⟩ := h
  exact ⟨List.cons_ne_nil _ _, List.forall_mem_cons.mpr ⟨hfirst.spells, hmore.spells⟩⟩

private theorem DerivesHead.wellFormed {head : TagHead} (h : DerivesHead text head rest) :
    head.WellFormed := by
  cases h with
  | plain hname hselectors =>
    exact ⟨hname.spells_name, hselectors.spells.1, hselectors.spells.2, nofun⟩
  | listed hname hselectors hlist =>
    refine ⟨hname.spells_name, hselectors.spells.1, hselectors.spells.2, ?_⟩
    rintro _ ⟨⟩
    exact hlist.spells

mutual

/-- A derived statement is well formed. -/
private theorem DerivesStatement.wellFormed {text rest : List Char} {statement : Statement} :
    DerivesStatement text statement rest → statement.WellFormed
  | .text _ => trivial
  | .tag hhead hbody => ⟨hhead.wellFormed, hbody.wellFormed⟩

/-- A derived body is well formed. -/
private theorem DerivesBody.wellFormed {text rest : List Char} {body : Body} :
    DerivesBody text body rest → body.WellFormed
  | .absent => trivial
  | .single _ hstatement => hstatement.wellFormed
  | .block _ hstatements _ => hstatements.wellFormed

/-- Derived statements are well formed. -/
theorem DerivesStatements.wellFormed {text rest : List Char} {statements : List Statement} :
    DerivesStatements text statements rest → Statement.AllWellFormed statements
  | .nil => trivial
  | .cons hfirst hmore => ⟨hfirst.wellFormed, hmore.wellFormed⟩

end

/-! ### Escaping -/

namespace Escape

/-- A character in a literal: what would end the literal or its line, and the backslash itself,
are escaped. -/
def encodeChar (c : Char) : List Char :=
  if c = '"' ∨ c = '\\' then ['\\', c]
  else if c = '\n' then ['\\', 'n']
  else if c = '\r' then ['\\', 'r']
  else if c = '\u2028' then ['\\', 'u', '2', '0', '2', '8']
  else if c = '\u2029' then ['\\', 'u', '2', '0', '2', '9']
  else [c]

/-- A raw body for a value. -/
def encode (value : List Char) : List Char := value.flatMap encodeChar

private theorem spellsChar_encodeChar (c : Char) : SpellsChar c (encodeChar c) := by
  unfold encodeChar
  split
  · next h => rcases h with rfl | rfl <;> exact .escaped (by decide) rfl
  next hquote =>
  rw [not_or] at hquote
  split
  · next hn => exact hn ▸ .letter (by decide)
  next hn =>
  split
  · next hr => exact hr ▸ .letter (by decide)
  next hr =>
  split
  · next hl => exact hl ▸ .unit (by decide) (by decide)
  next hl =>
  split
  · next hp => exact hp ▸ .unit (by decide) (by decide)
  next hp => exact .plain hquote.1 hquote.2 (by simp [Text.isLineBreak, hn, hr, hl, hp])

/-- A raw body for a value spells it. -/
private theorem spells_encode (value : List Char) : Spells value (encode value) := by
  induction value with
  | nil => exact .nil
  | cons c value ih => exact .cons (spellsChar_encodeChar c) ih

end Escape

/-! ### Writing -/

/-- A literal for a value, with its quotes. -/
def Literal.written (value : String) : List Char :=
  '"' :: (Escape.encode value.toList ++ ['"'])

/-- An attribute. -/
def Attribute.written (pair : Attribute) : List Char :=
  pair.name.toList ++ ':' :: Literal.written pair.value

/-- A class or an id behind its mark. -/
def TagHead.writtenSelector (mark : Char) : Option String → List Char
  | none => []
  | some name => mark :: name.toList

/-- A list of attributes in brackets. -/
def TagHead.writtenAttributes : Option (List Attribute) → List Char
  | some (first :: more) =>
    '[' :: (first.written ++ (more.flatMap (',' :: ·.written) ++ [']']))
  | _ => []

/-- The head of a tag on a new line. -/
def TagHead.written (head : TagHead) : List Char :=
  '\n' :: (head.name.toList ++ (writtenSelector '.' head.className ++
    (writtenSelector '#' head.id ++ writtenAttributes head.attributes)))

mutual

/-- A statement on a new line. -/
def Statement.written : Statement → List Char
  | .text value => '\n' :: Literal.written value
  | .tag head body => head.written ++ body.written

/-- The body of a tag. -/
def Body.written : Body → List Char
  | .absent => []
  | .single statement => ':' :: statement.written
  | .block statements => '\x7b' :: (Statement.writtenList statements ++ ['\x7d'])

/-- Statements, each on a new line. -/
def Statement.writtenList : List Statement → List Char
  | [] => []
  | statement :: rest => statement.written ++ Statement.writtenList rest

end

/-- The written form of a document. -/
def Document.written (document : Document) : List Char :=
  Statement.writtenList document.statements

/-! ### Written forms derive what they are written for -/

/-- A text that continues no name and no identifier. -/
def Text.EndsName (rest : List Char) : Prop := Terminal.Stops Text.isIdentifierChar rest

private theorem Text.endsName_cons {c : Char} (hc : Text.isIdentifierChar c = false)
    (rest : List Char) : Text.EndsName (c :: rest) := by
  rintro _ ⟨⟩
  exact hc

private theorem Text.EndsName.isLexeme_name (hr : Text.EndsName rest)
    (h : Terminal.name.Spells text) : Terminal.name.IsLexeme text rest := by
  refine Terminal.isLexeme_name_iff.mpr ⟨h, ?_⟩
  intro c hc
  have hi := hr c hc
  simp only [Text.isIdentifierChar, Bool.or_eq_false_iff] at hi
  exact hi.1.1

private theorem Text.EndsName.isLexeme_identifier (hr : Text.EndsName rest)
    (h : Terminal.identifier.Spells text) : Terminal.identifier.IsLexeme text rest :=
  Terminal.isLexeme_identifier_iff.mpr ⟨h, hr⟩

private theorem Terminal.IsLexeme.derivesToken {t : Terminal} {lexeme : List Char}
    (h : t.IsLexeme lexeme rest) : DerivesToken t (lexeme ++ rest) (t.value lexeme) rest :=
  ⟨[], lexeme, by simp, rfl, h, rfl⟩

private theorem Terminal.IsLexeme.derivesToken_newLine {t : Terminal} {lexeme : List Char}
    (h : t.IsLexeme lexeme rest) :
    DerivesToken t ('\n' :: (lexeme ++ rest)) (t.value lexeme) rest :=
  ⟨['\n'], lexeme, List.forall_mem_singleton.mpr rfl, rfl, h, rfl⟩

private theorem derivesChar_cons (c : Char) (rest : List Char) : DerivesChar c (c :: rest) rest :=
  Terminal.IsLexeme.derivesToken (t := .char c) (Terminal.isLexeme_char_iff.mpr rfl)

private theorem Literal.isLexeme_written (value : String) (rest : List Char) :
    Terminal.string.IsLexeme (Literal.written value) rest :=
  ⟨_, rfl, (Escape.spells_encode _).units.body? rest⟩

private theorem Literal.value_written (value : String) :
    String.ofList (Escape.decode (Terminal.string.value (Literal.written value))) = value := by
  simp [Terminal.value, Literal.written, (Escape.spells_encode _).decode_eq]

private theorem derivesString_written (value : String) (rest : List Char) :
    DerivesString (Literal.written value ++ rest) value rest := by
  have h := DerivesString.mk (Literal.isLexeme_written value rest).derivesToken
  rwa [Literal.value_written] at h

private theorem derivesString_newLine_written (value : String) (rest : List Char) :
    DerivesString ('\n' :: (Literal.written value ++ rest)) value rest := by
  have h := DerivesString.mk (Literal.isLexeme_written value rest).derivesToken_newLine
  rwa [Literal.value_written] at h

private theorem derivesAttribute_written {pair : Attribute}
    (h : Terminal.name.Spells pair.name.toList) (rest : List Char) :
    DerivesAttribute (pair.written ++ rest) pair rest := by
  have hname := ((Text.endsName_cons (c := ':') rfl
    (Literal.written pair.value ++ rest)).isLexeme_name h).derivesToken
  have hd := DerivesAttribute.mk hname (derivesChar_cons _ _) (derivesString_written _ rest)
  simpa [Attribute.written, Terminal.value] using hd

private theorem derivesMoreAttributes_written {attributes : List Attribute}
    (h : ∀ pair ∈ attributes, Terminal.name.Spells pair.name.toList)
    (rest : List Char) :
    DerivesMoreAttributes (attributes.flatMap (',' :: ·.written) ++ rest) attributes rest := by
  induction attributes with
  | nil => exact .nil
  | cons first more ih =>
    obtain ⟨hfirst, hmore⟩ := List.forall_mem_cons.mp h
    simp only [List.flatMap_cons, List.cons_append, List.append_assoc]
    exact .cons (derivesChar_cons _ _) (derivesAttribute_written hfirst _) (ih hmore)

private theorem derivesAttributes_written {attributes : List Attribute} (hne : attributes ≠ [])
    (h : ∀ pair ∈ attributes, Terminal.name.Spells pair.name.toList) :
    DerivesAttributes (TagHead.writtenAttributes (some attributes) ++ rest) attributes rest := by
  cases attributes with
  | nil => exact absurd rfl hne
  | cons first more =>
    obtain ⟨hfirst, hmore⟩ := List.forall_mem_cons.mp h
    simp only [TagHead.writtenAttributes, List.cons_append, List.append_assoc]
    exact .mk (derivesChar_cons _ _) (derivesAttribute_written hfirst _)
      (derivesMoreAttributes_written hmore _) (derivesChar_cons _ _)

private theorem derivesSelector_written (mark : Char) {name : String}
    (h : Terminal.identifier.Spells name.toList) (hr : Text.EndsName rest) :
    DerivesSelector mark (mark :: (name.toList ++ rest)) name rest := by
  have hd := DerivesSelector.mk (derivesChar_cons mark _) (hr.isLexeme_identifier h).derivesToken
  simpa [Terminal.value] using hd

private theorem endsName_writtenSelector (mark : Char) (hm : Text.isIdentifierChar mark = false)
    (name : Option String) (hr : Text.EndsName rest) :
    Text.EndsName (TagHead.writtenSelector mark name ++ rest) := by
  cases name with
  | none => exact hr
  | some name => exact Text.endsName_cons hm _

private theorem endsName_writtenAttributes (attributes : Option (List Attribute))
    (hr : Text.EndsName rest) : Text.EndsName (TagHead.writtenAttributes attributes ++ rest) := by
  unfold TagHead.writtenAttributes
  split
  · exact Text.endsName_cons rfl _
  · exact hr

private theorem derivesSelectors_written {className id : Option String}
    (hclass : ∀ name ∈ className, Terminal.identifier.Spells name.toList)
    (hid : ∀ name ∈ id, Terminal.identifier.Spells name.toList) (hr : Text.EndsName rest) :
    DerivesSelectors (TagHead.writtenSelector '.' className ++
      (TagHead.writtenSelector '#' id ++ rest)) className id rest := by
  have hrest : DerivesSelectors (TagHead.writtenSelector '#' id ++ rest) none id rest := by
    cases id with
    | none => exact .none
    | some name => exact .id (derivesSelector_written '#' (hid name rfl) hr) .none
  cases className with
  | none => exact hrest
  | some name =>
    have hn := endsName_writtenSelector '#' rfl id hr
    exact .className (derivesSelector_written '.' (hclass name rfl) hn) hrest

private theorem derivesHead_written {head : TagHead} (h : head.WellFormed)
    (hr : Text.EndsName rest) : DerivesHead (head.written ++ rest) head rest := by
  obtain ⟨name, className, id, attributes⟩ := head
  have hlist := endsName_writtenAttributes attributes hr
  have hselectors := derivesSelectors_written h.className h.id hlist
  have hname := ((endsName_writtenSelector '.' rfl className
    (endsName_writtenSelector '#' rfl id hlist)).isLexeme_name
      h.name).derivesToken_newLine
  simp only [TagHead.written, List.cons_append, List.append_assoc]
  cases attributes with
  | none =>
    have hd : DerivesHead _ ⟨String.ofList name.toList, className, id, none⟩ rest :=
      .plain hname hselectors
    rwa [String.ofList_toList] at hd
  | some list =>
    obtain ⟨hne, hspells⟩ := h.attributes list rfl
    have hd : DerivesHead _ ⟨String.ofList name.toList, className, id, some list⟩ rest :=
      .listed hname hselectors (derivesAttributes_written hne hspells)
    rwa [String.ofList_toList] at hd

private theorem endsName_writtenList (statements : List Statement) (hr : Text.EndsName rest) :
    Text.EndsName (Statement.writtenList statements ++ rest) := by
  cases statements with
  | nil => exact hr
  | cons first more => cases first <;> exact Text.endsName_cons rfl _

private theorem endsName_writtenBody (body : Body) (hr : Text.EndsName rest) :
    Text.EndsName (body.written ++ rest) := by
  cases body with
  | absent => exact hr
  | single statement => exact Text.endsName_cons rfl _
  | block statements => exact Text.endsName_cons rfl _

mutual

/-- The written form of a statement derives it, before anything that continues no name. -/
private theorem derivesStatement_written {rest : List Char} : (statement : Statement) →
    statement.WellFormed → Text.EndsName rest →
    DerivesStatement (statement.written ++ rest) statement rest
  | .text value, _, _ => .text (derivesString_newLine_written value rest)
  | .tag head body, h, hr => by
    rw [Statement.written, List.append_assoc]
    exact .tag (derivesHead_written h.1 (endsName_writtenBody body hr))
      (derivesBody_written body h.2 hr)

/-- The written form of a body derives it. -/
private theorem derivesBody_written {rest : List Char} : (body : Body) → body.WellFormed →
    Text.EndsName rest → DerivesBody (body.written ++ rest) body rest
  | .absent, _, _ => .absent
  | .single statement, h, hr =>
    .single (derivesChar_cons _ _) (derivesStatement_written statement h hr)
  | .block statements, h, _ => by
    rw [Body.written, List.cons_append, List.append_assoc]
    exact .block (derivesChar_cons _ _)
      (derivesStatements_written statements h (Text.endsName_cons rfl _)) (derivesChar_cons _ _)

/-- The written form of statements derives them. -/
private theorem derivesStatements_written {rest : List Char} : (statements : List Statement) →
    Statement.AllWellFormed statements → Text.EndsName rest →
    DerivesStatements (Statement.writtenList statements ++ rest) statements rest
  | [], _, _ => .nil
  | first :: more, h, hr => by
    rw [Statement.writtenList, List.append_assoc]
    exact .cons (derivesStatement_written first h.1 (endsName_writtenList more hr))
      (derivesStatements_written more h.2 hr)

end

namespace Document

private theorem derives_written {document : Document} (h : document.WellFormed) :
    DerivesDocument document.written document := by
  refine ⟨[], ?_, by simp⟩
  have hd : DerivesStatements (document.written ++ []) document.statements [] :=
    derivesStatements_written document.statements h nofun
  rwa [List.append_nil] at hd

/-- A document is read from some text exactly if its names, classes, ids and lists of attributes
are well formed and its blocks are nested at most 128 levels deep. -/
theorem exists_parse_eq_ok_iff (document : Document) :
    (∃ source, parse source = .ok document) ↔
      document.WellFormed ∧ document.nesting ≤ maxNesting := by
  constructor
  · rintro ⟨source, h⟩
    obtain ⟨⟨rest, hd, -⟩, hn⟩ := derives_of_parseWithin h
    exact ⟨hd.wellFormed, hn⟩
  · rintro ⟨hw, hn⟩
    refine ⟨String.ofList document.written, ?_⟩
    rw [parse, String.toList_ofList]
    exact parseWithin_of_derives (derives_written hw) hn

end Document
end TerseMarkup
