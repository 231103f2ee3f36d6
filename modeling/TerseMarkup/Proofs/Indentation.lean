import TerseMarkup.Proofs.NormalForm
import TerseMarkup.Proofs.TextParts

/-!
# HTML at a depth

Statements are written as rows, and a row knows its depth. Going deeper moves every row by the same
number of levels and changes nothing else. So as long as no row holds a line feed of its own, HTML
at a depth is the HTML at the margin with more spaces before each line. The main statement,
`Statement.render_shift`, also counts the lines.
-/

namespace TerseMarkup

/-! ### Lines -/

/-- The lines of a text, which are its parts between line feeds. -/
def Text.lines (text : String) : List String := parts '\n' text

/-- A text with so many spaces before each of its lines. -/
def Text.indented (spaces : Nat) (text : String) : String :=
  "\n".intercalate ((lines text).map (String.ofList (List.replicate spaces ' ') ++ ·))

mutual

/-- The number of lines of a statement. -/
def Statement.lineCount : Statement → Nat
  | .text _ => 1
  | .tag _ body => body.lineCount

/-- The number of lines of a tag with a body: one if there is nothing or a text on the line of the
tag, and otherwise those of the body between two more. -/
def Body.lineCount : Body → Nat
  | .absent => 1
  | .single (.text _) => 1
  | .single (.tag _ body) => 2 + body.lineCount
  | .block [] => 1
  | .block (first :: more) => 2 + (first.lineCount + Statement.lineCountOfList more)

/-- The number of lines of statements. -/
def Statement.lineCountOfList : List Statement → Nat
  | [] => 0
  | statement :: rest => statement.lineCount + Statement.lineCountOfList rest

end

/-! ### Rows at a depth -/

/-- A row so many levels deeper. -/
def Row.deepen (levels : Nat) (row : Row) : Row := ⟨row.depth + levels, row.content⟩

private theorem Row.indent_add (depth levels : Nat) :
    indent (depth + levels) = String.ofList (List.replicate (2 * levels) ' ') ++ indent depth := by
  rw [indent, indent, ← String.ofList_append, List.replicate_append_replicate, Nat.add_comm depth,
    Nat.mul_add]

private theorem Row.toText_deepen (levels : Nat) (row : Row) :
    (row.deepen levels).toText =
      String.ofList (List.replicate (2 * levels) ' ') ++ row.toText := by
  rw [deepen, toText, indent_add, toText, String.append_assoc]

mutual

/-- A statement at a greater depth has the same rows, all of them deeper. -/
private theorem Statement.rows_add (depth levels : Nat) : (statement : Statement) →
    statement.rows (depth + levels) = (statement.rows depth).map (Row.deepen levels)
  | .text value => by
    rw [Statement.rows, Statement.rows]
    rfl
  | .tag head body => by
    rw [Statement.rows, Statement.rows]
    cases body.inline? with
    | some text => rfl
    | none =>
      simp only [List.map_cons, List.map_append, List.map_nil]
      rw [Nat.add_right_comm, body.rows_add]
      rfl

/-- A body at a greater depth has the same rows, all of them deeper. -/
private theorem Body.rows_add (depth levels : Nat) : (body : Body) →
    body.rows (depth + levels) = (body.rows depth).map (Row.deepen levels)
  | .absent => by
    rw [Body.rows, Body.rows]
    rfl
  | .single statement => by
    rw [Body.rows, Body.rows]
    exact statement.rows_add depth levels
  | .block statements => by
    rw [Body.rows, Body.rows]
    exact Statement.rowsOfList_add depth levels statements

/-- Statements at a greater depth have the same rows, all of them deeper. -/
private theorem Statement.rowsOfList_add (depth levels : Nat) : (statements : List Statement) →
    Statement.rowsOfList (depth + levels) statements =
      (Statement.rowsOfList depth statements).map (Row.deepen levels)
  | [] => by
    rw [Statement.rowsOfList, Statement.rowsOfList]
    rfl
  | statement :: rest => by
    rw [Statement.rowsOfList, Statement.rowsOfList, List.map_append, statement.rows_add,
      Statement.rowsOfList_add]

end

mutual

private theorem Statement.length_rows (depth : Nat) : (statement : Statement) →
    (statement.rows depth).length = statement.lineCount
  | .text value => by
    rw [Statement.rows, Statement.lineCount]
    rfl
  | .tag head body => by
    rw [Statement.lineCount]
    exact body.length_rows_tag depth head

private theorem Body.length_rows_tag (depth : Nat) (head : TagHead) : (body : Body) →
    ((Statement.tag head body).rows depth).length = body.lineCount
  | .absent => by
    rw [Statement.rows, Body.lineCount]
    rfl
  | .single (.text value) => by
    rw [Statement.rows, Body.lineCount]
    rfl
  | .single (.tag inner body) => by
    rw [Statement.rows, Body.lineCount, ← body.length_rows_tag (depth + 1) inner]
    simp only [Body.inline?, Body.rows, List.length_cons, List.length_append, List.length_nil]
    omega
  | .block [] => by
    rw [Statement.rows, Body.lineCount]
    rfl
  | .block (first :: more) => by
    rw [Statement.rows, Body.lineCount, ← first.length_rows (depth + 1),
      ← Statement.length_rowsOfList (depth + 1)]
    simp only [Body.inline?, Body.rows, Statement.rowsOfList, List.length_cons, List.length_append,
      List.length_nil]
    omega

private theorem Statement.length_rowsOfList (depth : Nat) : (statements : List Statement) →
    (Statement.rowsOfList depth statements).length = Statement.lineCountOfList statements
  | [] => by
    rw [Statement.rowsOfList, Statement.lineCountOfList]
    rfl
  | statement :: rest => by
    rw [Statement.rowsOfList, Statement.lineCountOfList, List.length_append, statement.length_rows,
      Statement.length_rowsOfList]

end

/-! ### Rows without line feeds -/

/-- The strings that a head is made of. -/
def TagHead.strings (head : TagHead) : List String :=
  head.name :: (head.className.toList ++ head.id.toList ++
    (head.attributes.getD []).flatMap fun pair ↦ [pair.name, pair.value])

/-- The strings that statements are made of: texts, names, classes, ids and attributes. -/
def Statement.stringsOfList (statements : List Statement) : List String :=
  textsOfList statements ++ (headsOfList statements).flatMap TagHead.strings

/-- A text without line feeds. -/
def Text.OneLine (text : String) : Prop := '\n' ∉ text.toList

instance (text : String) : Decidable (Text.OneLine text) :=
  inferInstanceAs (Decidable ('\n' ∉ text.toList))

private theorem Text.oneLine_append {text more : String} (h : OneLine text) (hm : OneLine more) :
    OneLine (text ++ more) := by
  rw [OneLine, String.toList_append, List.mem_append, not_or]
  exact ⟨h, hm⟩

namespace TagHead

variable {head : TagHead}

private theorem newline_notMem_chars (h : ∀ text ∈ head.strings, Text.OneLine text) :
    ∀ pair ∈ head.allAttributes, '\n' ∉ pair.chars := by
  have hchars {name value : String} (hn : Text.OneLine name) (hv : Text.OneLine value) :
      '\n' ∉ (Attribute.mk name value).chars := by
    rw [Text.OneLine] at hn hv
    simp [Attribute.chars, hn, hv]
  apply forall_mem_allAttributes
  · intro name hname
    exact hchars (by decide) (h name (by simp [strings, Option.mem_def.mp hname]))
  · intro name hname
    exact hchars (by decide) (h name (by simp [strings, Option.mem_def.mp hname]))
  · intro list hlist pair hpair
    have hmem {text : String} (ht : text ∈ [pair.name, pair.value]) : text ∈ head.strings := by
      simp only [strings, Option.mem_def.mp hlist, Option.getD_some, List.mem_cons,
        List.mem_append, List.mem_flatMap]
      exact .inr (.inr ⟨pair, hpair, by simpa using ht⟩)
    exact hchars (h _ (hmem (by simp))) (h _ (hmem (by simp)))

private theorem oneLine_opening (h : ∀ text ∈ head.strings, Text.OneLine text) :
    Text.OneLine head.opening := by
  have hname : '\n' ∉ head.name.toList := h head.name (List.mem_cons_self ..)
  have hpairs := newline_notMem_chars h
  rw [Text.OneLine, toList_opening, Node.opening]
  simpa [hname] using hpairs

private theorem oneLine_closing (h : ∀ text ∈ head.strings, Text.OneLine text) :
    Text.OneLine head.closing := by
  have hname : '\n' ∉ head.name.toList := h head.name (List.mem_cons_self ..)
  rw [Text.OneLine, toList_closing, Node.closing]
  simpa using hname

end TagHead

/-- The text of a body on the line of its tag is empty or one of its texts. -/
private theorem Body.oneLine_inline {body : Body} {text : String} (hi : body.inline? = some text)
    (h : ∀ text ∈ body.texts, Text.OneLine text) : Text.OneLine text := by
  obtain ⟨-, rfl⟩ | ⟨-, rfl⟩ | rfl := cases_of_inline hi
  · exact List.not_mem_nil
  · exact List.not_mem_nil
  · exact h text (by simp [texts, Statement.texts])

mutual

private theorem Statement.oneLine_rows (depth : Nat) : (statement : Statement) →
    (∀ text ∈ statement.texts, Text.OneLine text) →
    (∀ head ∈ statement.heads, ∀ text ∈ head.strings, Text.OneLine text) →
    ∀ row ∈ statement.rows depth, Text.OneLine row.content
  | .text value, ht, _ => by
    rw [Statement.rows]
    exact List.forall_mem_singleton.mpr (ht value (by simp [Statement.texts]))
  | .tag head body, ht, hh => by
    obtain ⟨hhead, hbody⟩ := List.forall_mem_cons.mp hh
    have hopening := TagHead.oneLine_opening hhead
    have hclosing := TagHead.oneLine_closing hhead
    rw [Statement.rows]
    cases hi : body.inline? with
    | some text =>
      have htext := Body.oneLine_inline hi ht
      exact List.forall_mem_singleton.mpr
        (Text.oneLine_append (Text.oneLine_append hopening htext) hclosing)
    | none =>
      have hrows := body.oneLine_rows (depth + 1) ht hbody
      exact List.forall_mem_cons.mpr ⟨hopening, List.forall_mem_append.mpr
        ⟨hrows, List.forall_mem_singleton.mpr hclosing⟩⟩

private theorem Body.oneLine_rows (depth : Nat) : (body : Body) →
    (∀ text ∈ body.texts, Text.OneLine text) →
    (∀ head ∈ body.heads, ∀ text ∈ head.strings, Text.OneLine text) →
    ∀ row ∈ body.rows depth, Text.OneLine row.content
  | .absent, _, _ => by
    rw [Body.rows]
    nofun
  | .single statement, ht, hh => by
    rw [Body.rows]
    exact statement.oneLine_rows depth ht hh
  | .block statements, ht, hh => by
    rw [Body.rows]
    exact Statement.oneLine_rowsOfList depth statements ht hh

private theorem Statement.oneLine_rowsOfList (depth : Nat) : (statements : List Statement) →
    (∀ text ∈ Statement.textsOfList statements, Text.OneLine text) →
    (∀ head ∈ Statement.headsOfList statements, ∀ text ∈ head.strings, Text.OneLine text) →
    ∀ row ∈ Statement.rowsOfList depth statements, Text.OneLine row.content
  | [], _, _ => by
    rw [Statement.rowsOfList]
    nofun
  | statement :: rest, ht, hh => by
    obtain ⟨ht, ht'⟩ := List.forall_mem_append.mp ht
    obtain ⟨hh, hh'⟩ := List.forall_mem_append.mp hh
    rw [Statement.rowsOfList]
    exact List.forall_mem_append.mpr ⟨statement.oneLine_rows depth ht hh,
      Statement.oneLine_rowsOfList depth rest ht' hh'⟩

end

/-! ### HTML at a depth -/

namespace Statement

variable {statements : List Statement}

private theorem oneLine_toText (h : ∀ text ∈ stringsOfList statements, Text.OneLine text)
    (depth : Nat) : ∀ text ∈ (rowsOfList depth statements).map Row.toText, Text.OneLine text := by
  obtain ⟨ht, hh⟩ := List.forall_mem_append.mp h
  have hrows := oneLine_rowsOfList depth statements ht fun head hhead text htext ↦
    hh text (List.mem_flatMap.mpr ⟨head, hhead, htext⟩)
  refine List.forall_mem_map.mpr fun row hrow ↦ Text.oneLine_append ?_ (hrows row hrow)
  rw [Text.OneLine, Row.indent, String.toList_ofList]
  exact fun hn ↦ absurd (List.eq_of_mem_replicate hn) (by decide)

private theorem lineCount_pos (statement : Statement) : 0 < statement.lineCount := by
  rw [← statement.length_rows 0]
  cases statement with
  | text value => simp [rows]
  | tag head body =>
    rw [rows]
    cases body.inline? with
    | some text => exact Nat.one_pos
    | none => exact Nat.succ_pos _

/-- The lines of HTML are its rows. -/
private theorem lines_render (hne : statements ≠ [])
    (h : ∀ text ∈ stringsOfList statements, Text.OneLine text) (depth : Nat) :
    Text.lines (render depth statements) = (rowsOfList depth statements).map Row.toText := by
  rw [render, Text.lines, Text.parts_intercalate rfl _ (oneLine_toText h depth)]
  obtain ⟨first, more, rfl⟩ := List.exists_cons_of_ne_nil hne
  have hpos := first.lineCount_pos
  rw [← List.length_pos_iff, List.length_map, length_rowsOfList, lineCountOfList]
  omega

/-- HTML at a depth is the HTML at the margin with two spaces for each level before its lines. A
text takes one line, and so does a tag with no body, an empty block or a text after a colon. Any
other tag takes two lines and those of its body. -/
theorem render_shift (hne : statements ≠ [])
    (h : ∀ text ∈ stringsOfList statements, '\n' ∉ text.toList) (depth : Nat) :
    render depth statements = Text.indented (2 * depth) (render 0 statements) ∧
      (Text.lines (render depth statements)).length = lineCountOfList statements := by
  constructor
  · have hrows := rowsOfList_add 0 depth statements
    rw [Nat.zero_add] at hrows
    rw [Text.indented, lines_render hne h, render, hrows, List.map_map, List.map_map]
    congr 2
    funext row
    exact row.toText_deepen depth
  · rw [lines_render hne h, List.length_map, length_rowsOfList]

/-- A tag after a colon in a block, behind a text and before an empty tag. -/
theorem render_shift_nested_bodies :
    let statements : List Statement :=
      [.text "é", .tag ⟨"ul", some "c", none, none⟩ (.block
        [.tag ⟨"li", none, none, none⟩
          (.single (.tag ⟨"b", none, none, none⟩ (.single (.text "x")))), .text ""]),
        .tag ⟨"br", none, some "i", some [⟨"k", "v"⟩]⟩ .absent]
    statements ≠ [] ∧ (∀ text ∈ stringsOfList statements, '\n' ∉ text.toList) ∧
      render 3 statements = Text.indented 6 (render 0 statements) ∧
      (Text.lines (render 3 statements)).length = 8 := by
  intro statements
  have hne : statements ≠ [] := List.cons_ne_nil _ _
  have h : ∀ text ∈ stringsOfList statements, '\n' ∉ text.toList := by decide +kernel
  exact ⟨hne, h, render_shift hne h 3⟩

end Statement
end TerseMarkup
