import TerseMarkup.Document.Html

/-!
# Normal forms

HTML does not show all choices of the notation: a class is an attribute like any other, a body
after a colon is a block if it is a tag, and an empty body is none. A normal form forgets these
choices. Statements are written from their normal form, each on a line of its own, so statements
with one normal form have one HTML: `render_eq_of_normOfList_eq`.
-/

namespace TerseMarkup

mutual

/-- A statement without the choices of notation that HTML does not show. -/
inductive Node where
  /-- A text. -/
  | text (value : String)
  /-- An element with its named values in the order they are written. -/
  | element (name : String) (attributes : List Attribute) (content : Content)

/-- What stands between the markers of an element. -/
inductive Content where
  /-- A text on the line of the markers. The empty text is an empty body. -/
  | line (text : String)
  /-- Nodes on lines of their own. -/
  | children (nodes : List Node)

end

mutual

/-- The normal form of a statement. -/
def Statement.norm : Statement → Node
  | .text value => .text value
  | .tag head body => .element head.name head.allAttributes body.norm

/-- The normal form of a body: no body, an empty block and an empty text after a colon are one, and
so are a tag after a colon and a block of this tag. -/
def Body.norm : Body → Content
  | .absent => .line ""
  | .single (.text value) => .line value
  | .single (.tag head body) => .children [.element head.name head.allAttributes body.norm]
  | .block [] => .line ""
  | .block (first :: more) => .children (first.norm :: Statement.normOfList more)

/-- The normal forms of statements. -/
def Statement.normOfList : List Statement → List Node
  | [] => []
  | statement :: rest => statement.norm :: Statement.normOfList rest

end

/-! ### Writing normal forms -/

/-- The spaces before a line. -/
def Node.spaces (depth : Nat) : List Char := List.replicate (2 * depth) ' '

/-- A named value in an opening marker. -/
def Attribute.chars (a : Attribute) : List Char :=
  ' ' :: (a.name.toList ++ '=' :: '"' :: (a.value.toList ++ ['"']))

/-- The marker that opens an element. -/
def Node.opening (name : String) (attributes : List Attribute) : List Char :=
  '<' :: (name.toList ++ (attributes.flatMap Attribute.chars ++ ['>']))

/-- The marker that closes an element. -/
def Node.closing (name : String) : List Char :=
  '<' :: '/' :: (name.toList ++ ['>'])

mutual

/-- A node at a depth, without the line feed before it. -/
def Node.chars (depth : Nat) : Node → List Char
  | .text value => Node.spaces depth ++ value.toList
  | .element name attributes content =>
    Node.spaces depth ++
      (Node.opening name attributes ++ (content.chars depth ++ Node.closing name))

/-- The content of an element at a depth. -/
def Content.chars (depth : Nat) : Content → List Char
  | .line text => text.toList
  | .children nodes => Node.lines (depth + 1) nodes ++ '\n' :: Node.spaces depth

/-- Nodes at a depth, each behind a line feed. -/
def Node.lines (depth : Nat) : List Node → List Char
  | [] => []
  | node :: rest => '\n' :: (node.chars depth ++ Node.lines depth rest)

end

/-! ### Statements are written from their normal forms -/

/-- The opening marker of a tag is that of its element. -/
theorem TagHead.toList_opening (head : TagHead) :
    head.opening.toList = Node.opening head.name head.allAttributes := by
  have ha (a : Attribute) : a.toHtml.toList = a.chars := by
    simp [Attribute.toHtml, Attribute.chars]
  simp [TagHead.opening, Node.opening, List.flatMap_map, ha]

/-- The closing marker of a tag is that of its element. -/
theorem TagHead.toList_closing (head : TagHead) :
    head.closing.toList = Node.closing head.name := by
  simp [TagHead.closing, Node.closing]

/-- Rows, each behind a line feed. -/
def Row.lines (rows : List Row) : List Char := rows.flatMap fun row ↦ '\n' :: row.toText.toList

/-- Rows are written one after the other. -/
theorem Row.lines_append (rows more : List Row) : lines (rows ++ more) = lines rows ++ lines more :=
  List.flatMap_append

/-- A row is written as a line feed, the spaces of its depth and its content. -/
theorem Row.lines_cons (depth : Nat) (content : String) (rows : List Row) :
    lines (⟨depth, content⟩ :: rows) =
      '\n' :: (Node.spaces depth ++ (content.toList ++ lines rows)) := by
  simp [lines, toText, indent, Node.spaces]

/-- Rows joined by line feeds are their lines without the first line feed. -/
theorem Row.toList_intercalate (rows : List Row) :
    ("\n".intercalate (rows.map toText)).toList = (lines rows).tail := by
  induction rows with
  | nil => rfl
  | cons row rows ih =>
    cases rows with
    | nil => simp [lines]
    | cons next rows =>
      rw [List.map_cons, List.map_cons, String.intercalate_cons_cons, String.toList_append,
        String.toList_append, ← List.map_cons, ih]
      simp [lines]

/-- A body on the line of its tag is empty or a text after a colon. -/
theorem Body.cases_of_inline {body : Body} {text : String} (h : body.inline? = some text) :
    (body = .absent ∧ text = "") ∨ (body = .block [] ∧ text = "") ∨
      body = .single (.text text) := by
  cases body with
  | absent => exact .inl ⟨rfl, (Option.some.inj h).symm⟩
  | single statement =>
    cases statement with
    | text value =>
      obtain rfl := Option.some.inj h
      exact .inr (.inr rfl)
    | tag head body => cases h
  | block statements =>
    cases statements with
    | nil => exact .inr (.inl ⟨rfl, (Option.some.inj h).symm⟩)
    | cons first more => cases h

private theorem Body.norm_of_inline {body : Body} {text : String} (h : body.inline? = some text) :
    body.norm = .line text := by
  obtain ⟨rfl, rfl⟩ | ⟨rfl, rfl⟩ | rfl := cases_of_inline h
  · rw [norm]
  · rw [norm]
  · rw [norm]

mutual

/-- The rows of a statement are the lines of its normal form. -/
private theorem Statement.lines_rows (depth : Nat) : (statement : Statement) →
    Row.lines (statement.rows depth) = '\n' :: statement.norm.chars depth
  | .text value => by
    rw [Statement.rows, Row.lines_cons, Statement.norm, Node.chars]
    simp [Row.lines]
  | .tag head body => by
    rw [Statement.rows, Statement.norm, Node.chars]
    split
    · next text h =>
      rw [Row.lines_cons, Body.norm_of_inline h, Content.chars]
      simp [Row.lines, TagHead.toList_opening, TagHead.toList_closing]
    · next h =>
      obtain ⟨nodes, hnorm, hlines⟩ := body.lines_rows h
      rw [Row.lines_cons, Row.lines_append, Row.lines_cons, hnorm, Content.chars, hlines]
      simp [Row.lines, TagHead.toList_opening, TagHead.toList_closing]

/-- The rows of a body on lines of its own are the lines of its normal form. -/
private theorem Body.lines_rows : (body : Body) → body.inline? = none →
    ∃ nodes, body.norm = .children nodes ∧
      ∀ depth, Row.lines (body.rows depth) = Node.lines depth nodes
  | .absent, h => nomatch h
  | .single (.text _), h => nomatch h
  | .single (.tag head body), _ => by
    refine ⟨_, by rw [Body.norm], fun depth ↦ ?_⟩
    have h := Statement.lines_rows depth (.tag head body)
    rw [Statement.norm] at h
    rw [Body.rows, h, Node.lines, Node.lines, List.append_nil]
  | .block [], h => nomatch h
  | .block (first :: more), _ => by
    refine ⟨_, by rw [Body.norm], fun depth ↦ ?_⟩
    rw [Body.rows, Statement.rowsOfList, Row.lines_append, first.lines_rows,
      Statement.lines_rowsOfList, Node.lines, List.cons_append]

/-- The rows of statements are the lines of their normal forms. -/
private theorem Statement.lines_rowsOfList (depth : Nat) : (statements : List Statement) →
    Row.lines (Statement.rowsOfList depth statements) =
      Node.lines depth (Statement.normOfList statements)
  | [] => by rw [Statement.rowsOfList, Statement.normOfList, Node.lines, Row.lines,
    List.flatMap_nil]
  | statement :: rest => by
    rw [Statement.rowsOfList, Row.lines_append, statement.lines_rows,
      Statement.lines_rowsOfList depth rest, Statement.normOfList, Node.lines, List.cons_append]

end

/-- Statements are written as the lines of their normal forms, without the first line feed. -/
theorem Statement.toList_render (depth : Nat) (statements : List Statement) :
    (render depth statements).toList = (Node.lines depth (normOfList statements)).tail := by
  rw [render, Row.toList_intercalate, lines_rowsOfList]

/-- Statements with one normal form are written alike. -/
theorem Statement.render_eq_of_normOfList_eq {statements others : List Statement} (depth : Nat)
    (h : normOfList statements = normOfList others) :
    render depth statements = render depth others := by
  rw [← String.toList_inj, toList_render, toList_render, h]

/-! ### Texts and elements -/

mutual

/-- The texts of a statement. -/
def Statement.texts : Statement → List String
  | .text value => [value]
  | .tag _ body => body.texts

/-- The texts of a body. -/
def Body.texts : Body → List String
  | .absent => []
  | .single statement => statement.texts
  | .block statements => Statement.textsOfList statements

/-- The texts of statements. -/
def Statement.textsOfList : List Statement → List String
  | [] => []
  | statement :: rest => statement.texts ++ Statement.textsOfList rest

end

mutual

/-- The heads of the tags of a statement. -/
def Statement.heads : Statement → List TagHead
  | .text _ => []
  | .tag head body => head :: body.heads

/-- The heads of the tags of a body. -/
def Body.heads : Body → List TagHead
  | .absent => []
  | .single statement => statement.heads
  | .block statements => Statement.headsOfList statements

/-- The heads of the tags of statements. -/
def Statement.headsOfList : List Statement → List TagHead
  | [] => []
  | statement :: rest => statement.heads ++ Statement.headsOfList rest

end

/-- What holds of a class, of an id and in the list holds of all named values. -/
theorem TagHead.forall_mem_allAttributes {P : Attribute → Prop} {head : TagHead}
    (hclass : ∀ name ∈ head.className, P ⟨"class", name⟩) (hid : ∀ name ∈ head.id, P ⟨"id", name⟩)
    (hlist : ∀ list ∈ head.attributes, ∀ pair ∈ list, P pair) :
    ∀ pair ∈ head.allAttributes, P pair := by
  obtain ⟨name, className, id, attributes⟩ := head
  rw [allAttributes]
  refine List.forall_mem_append.mpr ⟨List.forall_mem_append.mpr ⟨?_, ?_⟩, ?_⟩
  · cases className with
    | none => nofun
    | some value => exact List.forall_mem_singleton.mpr (hclass value rfl)
  · cases id with
    | none => nofun
    | some value => exact List.forall_mem_singleton.mpr (hid value rfl)
  · cases attributes with
    | none => nofun
    | some list => exact hlist list rfl

section

variable (T : String → Prop) (E : String → List Attribute → Prop)

mutual

/-- A node whose texts have one property and whose elements have another. -/
def Node.All : Node → Prop
  | .text value => T value
  | .element name attributes content => E name attributes ∧ content.All

/-- A content whose texts have one property and whose elements have another. -/
def Content.All : Content → Prop
  | .line text => T text
  | .children nodes => Node.AllOfList nodes

/-- Nodes whose texts have one property and whose elements have another. -/
def Node.AllOfList : List Node → Prop
  | [] => True
  | node :: rest => node.All ∧ Node.AllOfList rest

end

end

section

variable {T : String → Prop} {E : String → List Attribute → Prop}

-- An empty body adds an empty text that the statement does not have.
mutual

private theorem Statement.all_norm (empty : T "") : (statement : Statement) →
    (∀ text ∈ statement.texts, T text) →
    (∀ head ∈ statement.heads, E head.name head.allAttributes) → statement.norm.All T E
  | .text value, ht, _ => by
    rw [Statement.norm, Node.All]
    exact ht value (by simp [Statement.texts])
  | .tag head body, ht, hh => by
    obtain ⟨hhead, hbody⟩ := List.forall_mem_cons.mp hh
    rw [Statement.norm, Node.All]
    exact ⟨hhead, body.all_norm empty ht hbody⟩

private theorem Body.all_norm (empty : T "") : (body : Body) → (∀ text ∈ body.texts, T text) →
    (∀ head ∈ body.heads, E head.name head.allAttributes) → body.norm.All T E
  | .absent, _, _ => by rwa [Body.norm, Content.All]
  | .single (.text value), ht, _ => by
    rw [Body.norm, Content.All]
    exact ht value (by simp [Body.texts, Statement.texts])
  | .single (.tag head body), ht, hh => by
    have h := Statement.all_norm empty (.tag head body) ht hh
    rw [Statement.norm] at h
    rw [Body.norm, Content.All, Node.AllOfList, Node.AllOfList]
    exact ⟨h, trivial⟩
  | .block [], _, _ => by rwa [Body.norm, Content.All]
  | .block (first :: more), ht, hh => by
    obtain ⟨ht, ht'⟩ := List.forall_mem_append.mp ht
    obtain ⟨hh, hh'⟩ := List.forall_mem_append.mp hh
    rw [Body.norm, Content.All, Node.AllOfList]
    exact ⟨first.all_norm empty ht hh, Statement.allOfList_normOfList empty more ht' hh'⟩

/-- What holds of all texts and heads of statements holds throughout their normal forms. -/
theorem Statement.allOfList_normOfList (empty : T "") : (statements : List Statement) →
    (∀ text ∈ Statement.textsOfList statements, T text) →
    (∀ head ∈ Statement.headsOfList statements, E head.name head.allAttributes) →
    Node.AllOfList T E (Statement.normOfList statements)
  | [], _, _ => by
    rw [Statement.normOfList, Node.AllOfList]
    trivial
  | statement :: rest, ht, hh => by
    obtain ⟨ht, ht'⟩ := List.forall_mem_append.mp ht
    obtain ⟨hh, hh'⟩ := List.forall_mem_append.mp hh
    rw [Statement.normOfList, Node.AllOfList]
    exact ⟨statement.all_norm empty ht hh, Statement.allOfList_normOfList empty rest ht' hh'⟩

end

end

end TerseMarkup
