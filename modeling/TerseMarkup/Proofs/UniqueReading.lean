import TerseMarkup.Proofs.Lexeme
import TerseMarkup.Proofs.NormalForm

/-!
# HTML is read in one way

HTML shows the normal form of statements, as long as names are names, no value has a quote and no
text has a line feed or an angle bracket that opens a marker. Two normal forms are compared from
left to right, with any texts behind them. The spaces before a line are known from its depth. What
follows them is a text, an opening marker or, two spaces earlier, the marker that closes the element
around the line. The main statement, `render_of_norm_and_norm_of_render`, compares HTML with normal
forms both ways.
-/

namespace TerseMarkup

open Terminal (Stops stops_cons run_inj)

/-- A text on one line without markers. -/
def Node.PlainText (text : String) : Prop := '<' ∉ text.toList ∧ '\n' ∉ text.toList

/-- An element whose names are names and whose values stay between their quotes. -/
structure Node.PlainElement (name : String) (attributes : List Attribute) : Prop where
  name : Terminal.name.Spells name.toList
  attributeName : ∀ pair ∈ attributes, Terminal.name.Spells pair.name.toList
  attributeValue : ∀ pair ∈ attributes, '"' ∉ pair.value.toList

/-! ### Markers -/

private theorem bne_of_notMem {c : Char} {text : List Char} (h : c ∉ text) :
    ∀ d ∈ text, (d != c) = true := by
  intro d hd
  rw [bne_iff_ne]
  rintro rfl
  exact h hd

private theorem stops_bne (c : Char) (rest : List Char) : Stops (· != c) (c :: rest) :=
  stops_cons (by simp) rest

namespace Attribute

/-- A named value is read in one way. -/
private theorem chars_inj {a b : Attribute} {rest behind : List Char}
    (ha : Terminal.name.Spells a.name.toList) (hb : Terminal.name.Spells b.name.toList)
    (hv : '"' ∉ a.value.toList) (hw : '"' ∉ b.value.toList)
    (h : a.chars ++ rest = b.chars ++ behind) : a = b ∧ rest = behind := by
  obtain ⟨name, value⟩ := a
  obtain ⟨name', value'⟩ := b
  simp only [chars, List.cons_append, List.append_assoc, List.nil_append, List.cons.injEq,
    true_and] at h
  obtain ⟨hname, h⟩ := run_inj ha.2 hb.2 (stops_cons rfl _) (stops_cons rfl _) h
  simp only [List.cons.injEq, true_and] at h
  obtain ⟨hvalue, hrest⟩ :=
    run_inj (bne_of_notMem hv) (bne_of_notMem hw) (stops_bne '"' rest) (stops_bne '"' behind) h
  obtain rfl : name = name' := String.toList_inj.mp hname
  obtain rfl : value = value' := String.toList_inj.mp hvalue
  exact ⟨rfl, (List.cons.inj hrest).2⟩

/-- Named values are read in one way from a marker. -/
private theorem flatMap_chars_inj {attributes others : List Attribute} {rest behind : List Char}
    (ha : ∀ pair ∈ attributes, Terminal.name.Spells pair.name.toList)
    (hb : ∀ pair ∈ others, Terminal.name.Spells pair.name.toList)
    (hv : ∀ pair ∈ attributes, '"' ∉ pair.value.toList)
    (hw : ∀ pair ∈ others, '"' ∉ pair.value.toList)
    (h : attributes.flatMap chars ++ '>' :: rest = others.flatMap chars ++ '>' :: behind) :
    attributes = others ∧ rest = behind := by
  induction attributes generalizing others with
  | nil =>
    cases others with
    | nil => exact ⟨rfl, (List.cons.inj h).2⟩
    | cons other others => simp [chars] at h
  | cons pair attributes ih =>
    cases others with
    | nil => simp [chars] at h
    | cons other others =>
      rw [List.forall_mem_cons] at ha hb hv hw
      rw [List.flatMap_cons, List.flatMap_cons, List.append_assoc, List.append_assoc] at h
      obtain ⟨rfl, hrest⟩ := chars_inj ha.1 hb.1 hv.1 hw.1 h
      obtain ⟨rfl, hbehind⟩ := ih ha.2 hb.2 hv.2 hw.2 hrest
      exact ⟨rfl, hbehind⟩

end Attribute

namespace Node

private theorem stops_flatMap_chars (attributes : List Attribute) (rest : List Char) :
    Stops Text.isNameChar (attributes.flatMap Attribute.chars ++ '>' :: rest) := by
  cases attributes with
  | nil => exact stops_cons rfl _
  | cons pair attributes => exact stops_cons rfl _

/-- An opening marker is read in one way. -/
private theorem opening_inj {name other : String} {attributes others : List Attribute}
    {rest behind : List Char} (hp : PlainElement name attributes) (ho : PlainElement other others)
    (h : opening name attributes ++ rest = opening other others ++ behind) :
    name = other ∧ attributes = others ∧ rest = behind := by
  simp only [opening, List.cons_append, List.append_assoc, List.nil_append, List.cons.injEq,
    true_and] at h
  obtain ⟨hname, h⟩ := run_inj hp.name.2 ho.name.2 (stops_flatMap_chars attributes rest)
    (stops_flatMap_chars others behind) h
  obtain ⟨rfl, rfl⟩ := Attribute.flatMap_chars_inj hp.attributeName ho.attributeName
    hp.attributeValue ho.attributeValue h
  exact ⟨String.toList_inj.mp hname, rfl, rfl⟩

/-! ### Nodes -/

/-- A text behind a node: it ends there, or goes on in a new line. -/
def EndsLine (rest : List Char) : Prop := Stops (· != '\n') rest

/-- A text behind nodes at a depth: it goes on in no line of this depth. -/
structure EndsLines (depth : Nat) (rest : List Char) : Prop where
  endsLine : EndsLine rest
  ne : ∀ behind, rest ≠ '\n' :: (spaces depth ++ behind)

private theorem endsLines_nil (depth : Nat) : EndsLines depth [] := ⟨nofun, nofun⟩

private theorem spaces_succ (depth : Nat) : spaces (depth + 1) = spaces depth ++ [' ', ' '] := by
  rw [spaces, spaces, Nat.mul_add, ← List.replicate_append_replicate]
  rfl

/-- A closing marker ends the lines one level deeper. -/
private theorem endsLines_closing (depth : Nat) (rest : List Char) :
    EndsLines (depth + 1) ('\n' :: (spaces depth ++ '<' :: rest)) where
  endsLine := stops_cons rfl _
  ne behind h := by
    rw [spaces_succ, List.cons.injEq, List.append_assoc, List.append_cancel_left_eq] at h
    simp at h

private theorem EndsLines.ne_lines {depth : Nat} {rest : List Char} (h : EndsLines depth rest)
    (node : Node) (nodes : List Node) (behind : List Char) :
    rest ≠ lines depth (node :: nodes) ++ behind := by
  rw [lines]
  cases node with
  | text value =>
    rw [chars, List.cons_append, List.append_assoc, List.append_assoc]
    exact h.ne _
  | element name attributes content =>
    rw [chars, List.cons_append, List.append_assoc, List.append_assoc]
    exact h.ne _

private theorem endsLine_lines (depth : Nat) (nodes : List Node) {rest : List Char}
    (h : EndsLine rest) : EndsLine (lines depth nodes ++ rest) := by
  cases nodes with
  | nil => exact h
  | cons node nodes => exact stops_cons rfl _

-- A text is no marker: it has no angle bracket, and where it is empty its line ends.
private theorem text_ne_opening {text name : String} {attributes : List Attribute}
    {rest behind : List Char} (ht : PlainText text) (hr : EndsLine rest) :
    text.toList ++ rest ≠ opening name attributes ++ behind := by
  intro h
  cases hl : text.toList with
  | nil =>
    rw [hl, List.nil_append] at h
    exact absurd (hr '<' (by rw [h]; rfl)) (by decide)
  | cons c tail =>
    rw [hl, List.cons_append] at h
    obtain ⟨rfl, -⟩ := List.cons.inj h
    exact ht.1 (by simp [hl])

-- A text on the line of its marker is not the line feed that stands before children.
private theorem text_ne_children {text : String} {depth : Nat} {nodes : List Node}
    {rest behind : List Char} (ht : PlainText text) :
    text.toList ++ '<' :: rest ≠ Content.chars depth (.children nodes) ++ behind := by
  intro h
  have hl : ∃ later, Content.chars depth (.children nodes) ++ behind = '\n' :: later := by
    rw [Content.chars]
    cases nodes with
    | nil => exact ⟨_, by rw [lines, List.nil_append, List.cons_append]⟩
    | cons node nodes => exact ⟨_, by rw [lines, List.cons_append, List.cons_append]⟩
  obtain ⟨later, hl⟩ := hl
  rw [hl] at h
  cases hc : text.toList with
  | nil =>
    rw [hc] at h
    exact absurd (List.cons.inj h).1 (by decide)
  | cons c tail =>
    rw [hc, List.cons_append] at h
    obtain ⟨rfl, -⟩ := List.cons.inj h
    exact ht.2 (by simp [hc])

end Node

open Node (PlainText PlainElement EndsLine EndsLines opening_inj endsLine_lines endsLines_closing
  text_ne_opening text_ne_children)

mutual

/-- A node is read in one way, before any texts that end its line. -/
private theorem Node.chars_inj (depth : Nat) {rest behind : List Char} : (node other : Node) →
    node.All PlainText PlainElement → other.All PlainText PlainElement → EndsLine rest →
    EndsLine behind → node.chars depth ++ rest = other.chars depth ++ behind →
    node = other ∧ rest = behind
  | .text value, .text other, hn, ho, hr, hb, h => by
    simp only [Node.chars, List.append_assoc, List.append_cancel_left_eq] at h
    rw [Node.All] at hn ho
    obtain ⟨hvalue, hrest⟩ := run_inj (bne_of_notMem hn.2) (bne_of_notMem ho.2) hr hb h
    rw [String.toList_inj] at hvalue
    exact ⟨by rw [hvalue], hrest⟩
  | .text value, .element name attributes content, hn, _, hr, _, h => by
    simp only [Node.chars, List.append_assoc, List.append_cancel_left_eq] at h
    rw [Node.All] at hn
    exact absurd h (text_ne_opening hn hr)
  | .element name attributes content, .text value, _, ho, _, hb, h => by
    simp only [Node.chars, List.append_assoc, List.append_cancel_left_eq] at h
    rw [Node.All] at ho
    exact absurd h.symm (text_ne_opening ho hb)
  | .element name attributes content, .element other others content', hn, ho, _, _, h => by
    simp only [Node.chars, List.append_assoc, List.append_cancel_left_eq] at h
    rw [Node.All] at hn ho
    obtain ⟨rfl, rfl, hcontent⟩ := opening_inj hn.1 ho.1 h
    obtain ⟨rfl, hrest⟩ := content.chars_inj depth content' hn.2 ho.2 hcontent
    exact ⟨rfl, List.append_cancel_left hrest⟩

/-- The content of an element is read in one way before the marker that closes the element. -/
private theorem Content.chars_inj (depth : Nat) {rest behind : List Char} :
    (content other : Content) →
    content.All PlainText PlainElement → other.All PlainText PlainElement →
    content.chars depth ++ '<' :: rest = other.chars depth ++ '<' :: behind →
    content = other ∧ rest = behind
  | .line text, .line other, hc, ho, h => by
    simp only [Content.chars] at h
    rw [Content.All] at hc ho
    obtain ⟨htext, hrest⟩ := run_inj (bne_of_notMem hc.1) (bne_of_notMem ho.1)
      (stops_bne '<' rest) (stops_bne '<' behind) h
    rw [String.toList_inj] at htext
    exact ⟨by rw [htext], (List.cons.inj hrest).2⟩
  | .line text, .children nodes, hc, _, h => by
    rw [Content.All] at hc
    rw [Content.chars] at h
    exact absurd h (text_ne_children hc)
  | .children nodes, .line text, _, ho, h => by
    rw [Content.All] at ho
    rw [eq_comm, Content.chars] at h
    exact absurd h (text_ne_children ho)
  | .children nodes, .children others, hc, ho, h => by
    simp only [Content.chars, List.append_assoc, List.cons_append] at h
    rw [Content.All] at hc ho
    obtain ⟨rfl, hclosing⟩ := Node.lines_inj (depth + 1) nodes others hc ho
      (endsLines_closing depth rest) (endsLines_closing depth behind) h
    have hrest := List.append_cancel_left (List.cons.inj hclosing).2
    exact ⟨rfl, (List.cons.inj hrest).2⟩

/-- Nodes are read in one way, before any texts that end their lines. -/
private theorem Node.lines_inj (depth : Nat) {rest behind : List Char} :
    (nodes others : List Node) →
    Node.AllOfList PlainText PlainElement nodes → Node.AllOfList PlainText PlainElement others →
    EndsLines depth rest → EndsLines depth behind →
    Node.lines depth nodes ++ rest = Node.lines depth others ++ behind →
    nodes = others ∧ rest = behind
  | [], [], _, _, _, _, h => ⟨rfl, h⟩
  | [], other :: others, _, _, hr, _, h => absurd h (hr.ne_lines other others behind)
  | node :: nodes, [], _, _, _, hb, h => absurd h.symm (hb.ne_lines node nodes rest)
  | node :: nodes, other :: others, hn, ho, hr, hb, h => by
    simp only [Node.lines, List.cons_append, List.append_assoc, List.cons.injEq, true_and] at h
    rw [Node.AllOfList] at hn ho
    obtain ⟨rfl, hlines⟩ := node.chars_inj depth other hn.1 ho.1
      (endsLine_lines depth nodes hr.endsLine) (endsLine_lines depth others hb.endsLine) h
    obtain ⟨rfl, hrest⟩ := Node.lines_inj depth nodes others hn.2 ho.2 hr hb hlines
    exact ⟨rfl, hrest⟩

end

/-! ### Statements -/

/-- Statements that can be told from their HTML. -/
structure Statement.Readable (statements : List Statement) : Prop where
  text : ∀ text ∈ textsOfList statements, '<' ∉ text.toList ∧ '\n' ∉ text.toList
  name : ∀ head ∈ headsOfList statements, Terminal.name.Spells head.name.toList
  attributeName : ∀ head ∈ headsOfList statements, ∀ list ∈ head.attributes, ∀ pair ∈ list,
    Terminal.name.Spells pair.name.toList
  value : ∀ head ∈ headsOfList statements, ∀ pair ∈ head.allAttributes, '"' ∉ pair.value.toList

private theorem Statement.Readable.allOfList {statements : List Statement}
    (h : Readable statements) : Node.AllOfList PlainText PlainElement (normOfList statements) := by
  refine allOfList_normOfList ⟨by simp, by simp⟩ statements h.text fun head hh ↦ ?_
  have hclass : Terminal.name.Spells "class".toList := by decide
  have hid : Terminal.name.Spells "id".toList := by decide
  exact ⟨h.name head hh, TagHead.forall_mem_allAttributes (fun _ _ ↦ hclass) (fun _ _ ↦ hid)
    (h.attributeName head hh), h.value head hh⟩

/-- A line feed stands before the first of the lines, which HTML leaves out. -/
private theorem Statement.lines_normOfList {statements : List Statement} (depth : Nat)
    (h : statements ≠ []) :
    Node.lines depth (normOfList statements) = '\n' :: (render depth statements).toList := by
  obtain ⟨first, rest, rfl⟩ := List.exists_cons_of_ne_nil h
  rw [toList_render, normOfList, Node.lines, List.tail_cons]

/-- Rendering keeps the normal form of statements and nothing else: statements with one normal form
are written alike, and statements that can be told from their HTML are written alike only if they
have one normal form. -/
theorem Statement.render_of_norm_and_norm_of_render (statements others : List Statement)
    (depth : Nat) :
    (normOfList statements = normOfList others →
      render depth statements = render depth others) ∧
    (statements ≠ [] → others ≠ [] → Readable statements → Readable others →
      render depth statements = render depth others →
        normOfList statements = normOfList others) := by
  refine ⟨render_eq_of_normOfList_eq depth, fun hs ho readable readable' h ↦ ?_⟩
  have hlines : Node.lines depth (normOfList statements) ++ [] =
      Node.lines depth (normOfList others) ++ [] := by
    rw [lines_normOfList depth hs, lines_normOfList depth ho, h]
  exact (Node.lines_inj depth _ _ readable.allOfList readable'.allOfList
    (Node.endsLines_nil depth) (Node.endsLines_nil depth) hlines).1

/-- A class and a tag after a colon are written like an attribute and a block, before an empty text
and a text that starts with spaces. -/
theorem Statement.render_eq_render_of_class :
    let sugar := [.tag ⟨"a", some "c", none, some [⟨"b", "<"⟩]⟩
      (.single (.tag ⟨"d", none, none, none⟩ .absent)), .text "", .text "  e"]
    let plain := [.tag ⟨"a", none, none, some [⟨"class", "c"⟩, ⟨"b", "<"⟩]⟩
      (.block [.tag ⟨"d", none, none, none⟩ (.block [])]), .text "", .text "  e"]
    Readable sugar ∧ Readable plain ∧ normOfList sugar = normOfList plain ∧
      render 1 sugar = render 1 plain := by
  intro sugar plain
  have hsugar : Readable sugar := by
    constructor <;> decide
  have hplain : Readable plain := by
    constructor <;> decide
  have h := render_of_norm_and_norm_of_render sugar plain 1
  exact ⟨hsugar, hplain, h.2 nofun nofun hsugar hplain (by decide), h.1 rfl⟩

end TerseMarkup
