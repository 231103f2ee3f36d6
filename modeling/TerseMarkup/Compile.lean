import TerseMarkup.Document.Html
import TerseMarkup.Document.Reader

/-!
# Compiling

From the text of a document to its HTML.
-/

namespace TerseMarkup

/-- A document with its HTML. -/
structure Compiled where
  document : Document
  html : String
  deriving DecidableEq

/-- Read a document and write it as HTML. -/
def compile (source : String) : Except SyntaxError Compiled := do
  let document ← Document.parse source
  return ⟨document, document.toHtml⟩

/-- A text compiles to the document it is read as, with the HTML of this document. -/
theorem compile_eq_ok_iff {source : String} {output : Compiled} :
    compile source = .ok output ↔
      Document.parse source = .ok output.document ∧ output.html = output.document.toHtml := by
  obtain ⟨document, html⟩ := output
  rw [compile]
  cases h : Document.parse source with
  | error e => simp [bind, Except.bind]
  | ok found =>
    simp only [bind, Except.bind, pure, Except.pure, Except.ok.injEq, Compiled.mk.injEq]
    constructor
    · rintro ⟨rfl, rfl⟩
      exact ⟨rfl, rfl⟩
    · rintro ⟨rfl, rfl⟩
      exact ⟨rfl, rfl⟩

/-- A text fails to compile with the error that reading it gives. -/
theorem compile_eq_error_iff {source : String} {error : SyntaxError} :
    compile source = .error error ↔ Document.parse source = .error error := by
  rw [compile]
  cases h : Document.parse source with
  | error found => simp [bind, Except.bind]
  | ok document => simp [bind, Except.bind, pure, Except.pure]

end TerseMarkup
