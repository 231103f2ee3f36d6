import TerseMarkup.Compile
import TerseMarkup.Proofs.OtherTexts

/-!
# Documents one below the other

Two texts that are documents can be put one below the other, with any line break between them. The
tokens of the first text end as they did, since nothing comes to their lines. Its last tag gets no
part that starts the second text, because no statement starts like such a part. The main statement,
`compile_append_line`, says so with the HTML of both.
-/

namespace TerseMarkup

variable {gap text rest value : List Char}

/-! ### Derivations behind more blanks -/

private theorem DerivesToken.gap_append {t : Terminal} (hb : ∀ c ∈ gap, Text.isBlank c = true)
    (h : DerivesToken t text value rest) : DerivesToken t (gap ++ text) value rest := by
  obtain ⟨blanks, lexeme, hblanks, rfl, hl, rfl⟩ := h
  refine ⟨gap ++ blanks, lexeme, ?_, by rw [List.append_assoc], hl, rfl⟩
  exact List.forall_mem_append.mpr ⟨hb, hblanks⟩

private theorem DerivesStatement.gap_append {statement : Statement}
    (hb : ∀ c ∈ gap, Text.isBlank c = true) (h : DerivesStatement text statement rest) :
    DerivesStatement (gap ++ text) statement rest := by
  cases h with
  | text hstring =>
    obtain ⟨hliteral⟩ := hstring
    exact .text (.mk (hliteral.gap_append hb))
  | tag hhead hbody =>
    cases hhead with
    | plain hname hselectors => exact .tag (.plain (hname.gap_append hb) hselectors) hbody
    | listed hname hselectors hlist =>
      exact .tag (.listed (hname.gap_append hb) hselectors hlist) hbody

private theorem DerivesDocument.gap_append {document : Document}
    (hb : ∀ c ∈ gap, Text.isBlank c = true)
    (h : DerivesDocument text document) : DerivesDocument (gap ++ text) document := by
  obtain ⟨statements⟩ := document
  obtain ⟨rest, hd, hr⟩ := h
  cases hd with
  | nil => exact ⟨gap ++ text, .nil, List.forall_mem_append.mpr ⟨hb, hr⟩⟩
  | cons hfirst hmore => exact ⟨rest, .cons (hfirst.gap_append hb) hmore, hr⟩

/-! ### One derivation behind another -/

private theorem DerivesStatements.append {middle : List Char} {statements more : List Statement}
    (h : DerivesStatements text statements middle) (hm : DerivesStatements middle more rest) :
    DerivesStatements text (statements ++ more) rest := by
  induction statements generalizing text with
  | nil =>
    cases h
    exact hm
  | cons first statements ih =>
    cases h with
    | cons hfirst hothers => exact .cons hfirst (ih hothers)

/-- Documents one below the other derive the statements of both. -/
private theorem DerivesDocument.append_line {first second : List Char} {above below : Document}
    {c : Char} (h : DerivesDocument first above) (h' : DerivesDocument second below)
    (hb : Text.isBlank c = true) (hc : Text.isLineBreak c = true) :
    DerivesDocument (first ++ c :: second) ⟨above.statements ++ below.statements⟩ := by
  obtain ⟨rest, habove, hrest⟩ := h
  have hlonger : (TextChange.lengthen hb hc second).Holds rest (rest ++ c :: second) := rfl
  obtain ⟨text, habove, ht⟩ := TextChange.carries_statements _ habove hlonger
  obtain rfl : text = first ++ c :: second := ht
  have hgap : ∀ d ∈ rest ++ [c], Text.isBlank d = true :=
    List.forall_mem_append.mpr ⟨hrest, List.forall_mem_singleton.mpr hb⟩
  obtain ⟨last, hbelow, hlast⟩ := h'.gap_append hgap
  rw [List.append_assoc, List.singleton_append] at hbelow
  exact ⟨last, habove.append hbelow, hlast⟩

private theorem Statement.nestingOfList_append (statements more : List Statement) :
    nestingOfList (statements ++ more) = max (nestingOfList statements) (nestingOfList more) := by
  induction statements with
  | nil => rw [List.nil_append, nestingOfList, Nat.zero_max]
  | cons first statements ih =>
    rw [List.cons_append, nestingOfList, ih, nestingOfList, Nat.max_assoc]

private theorem Document.parse_append_line {first second : String} {above below : Document}
    {c : Char}
    (h : parse first = .ok above) (h' : parse second = .ok below) (hb : Text.isBlank c = true)
    (hc : Text.isLineBreak c = true) :
    parse (first ++ String.singleton c ++ second) =
      .ok ⟨above.statements ++ below.statements⟩ := by
  obtain ⟨habove, hn⟩ := derives_of_parseWithin h
  obtain ⟨hbelow, hn'⟩ := derives_of_parseWithin h'
  have ht : (first ++ String.singleton c ++ second).toList =
      first.toList ++ c :: second.toList := by
    simp
  rw [parse, ht]
  refine parseWithin_of_derives (habove.append_line hbelow hb hc) ?_
  rw [nesting, Statement.nestingOfList_append]
  exact Nat.max_le.mpr ⟨hn, hn'⟩

/-! ### HTML -/

private theorem Statement.rowsOfList_append (depth : Nat) (statements more : List Statement) :
    rowsOfList depth (statements ++ more) =
      rowsOfList depth statements ++ rowsOfList depth more := by
  induction statements with
  | nil => rw [List.nil_append, rowsOfList, List.nil_append]
  | cons first statements ih =>
    rw [List.cons_append, rowsOfList, ih, rowsOfList, List.append_assoc]

private theorem Statement.rows_ne_nil (depth : Nat) (statement : Statement) :
    statement.rows depth ≠ [] := by
  cases statement with
  | text value => simp [rows]
  | tag head body =>
    rw [rows]
    split <;> simp

/-- Statements one below the other are written one below the other. -/
private theorem Statement.render_append (depth : Nat) {statements more : List Statement}
    (h : statements ≠ []) (hm : more ≠ []) :
    render depth (statements ++ more) =
      render depth statements ++ "\n" ++ render depth more := by
  have hrows {list : List Statement} (hl : list ≠ []) :
      (rowsOfList depth list).map Row.toText ≠ [] := by
    obtain ⟨first, others, rfl⟩ := List.exists_cons_of_ne_nil hl
    simp [rowsOfList, rows_ne_nil]
  rw [render, rowsOfList_append, List.map_append,
    String.intercalate_append_of_ne_nil (hrows h) (hrows hm)]
  rfl

/-- Two documents one above the other, with a line feed between the HTML of both if both have any
statements. -/
def Compiled.above (first second : Compiled) : Compiled where
  document := ⟨first.document.statements ++ second.document.statements⟩
  html :=
    match first.document.statements, second.document.statements with
    | [], [] => ""
    | [], _ :: _ => second.html
    | _ :: _, [] => first.html
    | _ :: _, _ :: _ => first.html ++ "\n" ++ second.html

private theorem Compiled.html_above {first second : Compiled}
    (h : first.html = first.document.toHtml) (h' : second.html = second.document.toHtml) :
    (first.above second).html = (first.above second).document.toHtml := by
  obtain ⟨⟨statements⟩, html⟩ := first
  obtain ⟨⟨more⟩, html'⟩ := second
  obtain rfl : html = Statement.render 0 statements := h
  obtain rfl : html' = Statement.render 0 more := h'
  rw [Document.toHtml]
  cases statements with
  | nil =>
    cases more with
    | nil => rfl
    | cons first more => rfl
  | cons first statements =>
    cases more with
    | nil => simp only [above, List.append_nil]
    | cons second more =>
      exact (Statement.render_append 0 (List.cons_ne_nil _ _) (List.cons_ne_nil _ _)).symm

/-- Sources that compile do so too one above the other, with any line break between them, and give
both documents one above the other. -/
theorem compile_append_line {first second : String} {above below : Compiled} {c : Char}
    (hc : c ∈ ['\n', '\r', '\u2028', '\u2029']) (h : compile first = .ok above)
    (h' : compile second = .ok below) :
    compile (first ++ String.singleton c ++ second) = .ok (above.above below) := by
  obtain ⟨hd, hh⟩ := compile_eq_ok_iff.mp h
  obtain ⟨hd', hh'⟩ := compile_eq_ok_iff.mp h'
  have hline : Text.isBlank c = true ∧ Text.isLineBreak c = true := by
    simp only [List.mem_cons, List.not_mem_nil, or_false] at hc
    rcases hc with rfl | rfl | rfl | rfl <;> exact ⟨rfl, rfl⟩
  refine compile_eq_ok_iff.mpr ⟨?_, Compiled.html_above hh hh'⟩
  exact Document.parse_append_line hd hd' hline.1 hline.2

/-- A literal whose backslash would hide its closing quote if the next one stood on its line. -/
theorem compile_append_line_backslash :
    compile "p: \"x\\\"" =
        .ok ⟨⟨[.tag ⟨"p", none, none, none⟩ (.single (.text "x\\"))]⟩, "<p>x\\</p>"⟩ ∧
      compile "\"y\"" = .ok ⟨⟨[.text "y"]⟩, "y"⟩ ∧
      compile "p: \"x\\\"\u2028\"y\"" =
        .ok ⟨⟨[.tag ⟨"p", none, none, none⟩ (.single (.text "x\\")), .text "y"]⟩,
          "<p>x\\</p>\ny"⟩ := by
  have h : compile "p: \"x\\\"" =
      .ok ⟨⟨[.tag ⟨"p", none, none, none⟩ (.single (.text "x\\"))]⟩, "<p>x\\</p>"⟩ := by
    decide +kernel
  have h' : compile "\"y\"" = .ok ⟨⟨[.text "y"]⟩, "y"⟩ := by decide +kernel
  have hs : "p: \"x\\\"" ++ String.singleton '\u2028' ++ "\"y\"" =
      "p: \"x\\\"\u2028\"y\"" := by decide
  have ha : Compiled.above
      ⟨⟨[.tag ⟨"p", none, none, none⟩ (.single (.text "x\\"))]⟩, "<p>x\\</p>"⟩
      ⟨⟨[.text "y"]⟩, "y"⟩ =
        ⟨⟨[.tag ⟨"p", none, none, none⟩ (.single (.text "x\\")), .text "y"]⟩,
          "<p>x\\</p>\ny"⟩ := by decide
  refine ⟨h, h', ?_⟩
  rw [← hs, ← ha]
  exact compile_append_line (by simp) h h'

end TerseMarkup
