import TerseMarkup.Compile
import TerseMarkup.Proofs.NormalForm
import TerseMarkup.Proofs.WrittenForm

/-!
# Markers and the forest of tags

The markers of HTML can be read without the document that was written: a marker is what stands in
angle brackets. Markers that match are a forest, in which what stands between two markers is below
their name. The main statement, `exists_markers_of_compile`, says that the markers of a compiled
text match, that few of them are open at once, and that their forest is the forest of the tags.
-/

namespace TerseMarkup

/-- A marker of HTML. -/
inductive Marker where
  | opening (name : String)
  | closing (name : String)
  deriving DecidableEq

/-- The name of a tag above the tags in its body. -/
inductive TagTree where
  | node (name : String) (children : List TagTree)

namespace Marker

/-! ### Reading markers -/

/-- The marker with a text in its angle brackets: a slash comes before the name of a closing marker,
and a space ends the name of an opening one. -/
def ofInner : List Char → Marker
  | '/' :: name => closing (String.ofList name)
  | inner => opening (String.ofList (inner.takeWhile (· != ' ')))

/-- Read the markers of a text from left to right, given what was read of a marker that is not
complete, last character first. An angle bracket that belongs to no marker is an error. -/
def read? : Option (List Char) → List Char → Option (List Marker)
  | none, [] => some []
  | some _, [] => none
  | none, c :: rest =>
    if c = '<' then read? (some []) rest
    else if c = '>' then none
    else read? none rest
  | some inner, c :: rest =>
    if c = '>' then (read? none rest).map (ofInner inner.reverse :: ·)
    else if c = '<' then none
    else read? (some (c :: inner)) rest

/-- The markers of HTML from left to right. -/
def ofHtml? (html : String) : Option (List Marker) := read? none html.toList

/-! ### Matching markers -/

/-- Match markers, given the markers that are open, each with the trees before it, and the trees
behind the last of them. -/
def build? : List (String × List TagTree) → List TagTree → List Marker → Option (List TagTree)
  | [], trees, [] => some trees
  | _ :: _, _, [] => none
  | stack, trees, opening name :: rest => build? ((name, trees) :: stack) [] rest
  | [], _, closing _ :: _ => none
  | (name, before) :: stack, trees, closing other :: rest =>
    if other = name then build? stack (before ++ [.node name trees]) rest else none

/-- The forest of markers, if each closing marker has the name of the opening marker that it
matches and none is left open. -/
def forest? (markers : List Marker) : Option (List TagTree) := build? [] [] markers

/-- How many more markers open than close. -/
def depth : List Marker → Int
  | [] => 0
  | opening _ :: rest => depth rest + 1
  | closing _ :: rest => depth rest - 1

/-- Markers that open before they close, all close, and are never open at once beyond a limit. -/
structure Balanced (limit : Nat) (markers : List Marker) : Prop where
  within : ∀ front, front <+: markers → 0 ≤ depth front ∧ depth front ≤ limit
  settled : depth markers = 0

private theorem depth_append (front back : List Marker) :
    depth (front ++ back) = depth front + depth back := by
  induction front with
  | nil => rw [List.nil_append, depth, Int.zero_add]
  | cons marker front ih =>
    cases marker with
    | opening name =>
      rw [List.cons_append, depth, depth, ih]
      omega
    | closing name =>
      rw [List.cons_append, depth, depth, ih]
      omega

namespace Balanced

variable {limit : Nat} {markers more : List Marker}

private theorem nil (limit : Nat) : Balanced limit [] where
  within front h := by
    rw [List.prefix_nil.mp h, depth]
    omega
  settled := rfl

private theorem mono {bound : Nat} (h : Balanced limit markers) (hb : limit ≤ bound) :
    Balanced bound markers where
  within front hf := by
    have := h.within front hf
    omega
  settled := h.settled

private theorem append (h : Balanced limit markers) (hm : Balanced limit more) :
    Balanced limit (markers ++ more) where
  within := by
    rintro front ⟨back, hf⟩
    obtain ⟨between, rfl, -⟩ | ⟨between, rfl, hmore⟩ := List.append_eq_append_iff.mp hf
    · exact h.within front ⟨between, rfl⟩
    · rw [depth_append, h.settled, Int.zero_add]
      exact hm.within between ⟨back, hmore.symm⟩
  settled := by rw [depth_append, h.settled, hm.settled, Int.zero_add]

/-- Markers around balanced markers are balanced, one level deeper. -/
private theorem enclose (h : Balanced limit markers) (name : String) :
    Balanced (limit + 1) (opening name :: (markers ++ [closing name])) where
  within := by
    rintro front ⟨back, hf⟩
    cases front with
    | nil =>
      rw [depth]
      omega
    | cons marker front =>
      obtain ⟨rfl, hfront⟩ := List.cons.inj hf
      rw [depth]
      obtain ⟨between, rfl, -⟩ | ⟨between, rfl, hback⟩ := List.append_eq_append_iff.mp hfront
      · have := h.within front ⟨between, rfl⟩
        omega
      · have hbetween : depth between = 0 ∨ depth between = -1 := by
          cases between with
          | nil => exact .inl rfl
          | cons marker between =>
            obtain ⟨rfl, hnil⟩ := List.cons.inj hback
            obtain ⟨rfl, -⟩ := List.append_eq_nil_iff.mp hnil.symm
            exact .inr rfl
        rw [depth_append, h.settled]
        omega
  settled := by
    rw [depth, depth_append, h.settled]
    rfl

end Balanced

end Marker

/-! ### The markers of a forest -/

namespace TagTree

mutual

/-- The markers of a tree. -/
def markers : TagTree → List Marker
  | .node name children => .opening name :: (markersOfList children ++ [.closing name])

/-- The markers of trees, one tree after the other. -/
def markersOfList : List TagTree → List Marker
  | [] => []
  | tree :: rest => tree.markers ++ markersOfList rest

end

mutual

/-- The number of names on the longest way down a tree. -/
def height : TagTree → Nat
  | .node _ children => heightOfList children + 1

/-- The number of names on the longest way down trees. -/
def heightOfList : List TagTree → Nat
  | [] => 0
  | tree :: rest => max tree.height (heightOfList rest)

end

private theorem markersOfList_append (trees more : List TagTree) :
    markersOfList (trees ++ more) = markersOfList trees ++ markersOfList more := by
  induction trees with
  | nil => rw [List.nil_append, markersOfList, List.nil_append]
  | cons tree trees ih =>
    rw [List.cons_append, markersOfList, ih, markersOfList, List.append_assoc]

private theorem heightOfList_append (trees more : List TagTree) :
    heightOfList (trees ++ more) = max (heightOfList trees) (heightOfList more) := by
  induction trees with
  | nil => rw [List.nil_append, heightOfList, Nat.zero_max]
  | cons tree trees ih => rw [List.cons_append, heightOfList, ih, heightOfList, Nat.max_assoc]

-- The markers that are open and the trees before them stay as they are, whatever they are.
mutual

private theorem build?_markers (stack : List (String × List TagTree)) (before : List TagTree)
    (rest : List Marker) : (tree : TagTree) →
    Marker.build? stack before (tree.markers ++ rest) = Marker.build? stack (before ++ [tree]) rest
  | .node name children => by
    rw [markers, List.cons_append, List.append_assoc, Marker.build?, build?_markersOfList,
      List.singleton_append, Marker.build?, if_pos rfl, List.nil_append]

private theorem build?_markersOfList (stack : List (String × List TagTree)) (before : List TagTree)
    (rest : List Marker) : (trees : List TagTree) →
    Marker.build? stack before (markersOfList trees ++ rest) =
      Marker.build? stack (before ++ trees) rest
  | [] => by rw [markersOfList, List.nil_append, List.append_nil]
  | tree :: trees => by
    rw [markersOfList, List.append_assoc, tree.build?_markers, build?_markersOfList,
      List.append_assoc, List.singleton_append]

end

/-- A forest is read from its markers. -/
private theorem forest?_markersOfList (trees : List TagTree) :
    Marker.forest? (markersOfList trees) = some trees := by
  have h := build?_markersOfList [] [] [] trees
  rw [List.append_nil, List.nil_append, Marker.build?] at h
  exact h

mutual

private theorem balanced_markers : (tree : TagTree) → Marker.Balanced tree.height tree.markers
  | .node name children => by
    rw [height, markers]
    exact (balanced_markersOfList children).enclose name

private theorem balanced_markersOfList : (trees : List TagTree) →
    Marker.Balanced (heightOfList trees) (markersOfList trees)
  | [] => .nil _
  | tree :: trees => by
    rw [heightOfList, markersOfList]
    exact (tree.balanced_markers.mono (Nat.le_max_left _ _)).append
      ((balanced_markersOfList trees).mono (Nat.le_max_right _ _))

end

end TagTree

/-! ### The forest of a document -/

mutual

/-- The tags of a statement. -/
def Statement.forest : Statement → List TagTree
  | .text _ => []
  | .tag head body => [.node head.name body.forest]

/-- The tags of a body. -/
def Body.forest : Body → List TagTree
  | .absent => []
  | .single statement => statement.forest
  | .block statements => Statement.forestOfList statements

/-- The tags of statements. -/
def Statement.forestOfList : List Statement → List TagTree
  | [] => []
  | statement :: rest => statement.forest ++ Statement.forestOfList rest

end

/-- The tags of a document. -/
def Document.forest (document : Document) : List TagTree :=
  Statement.forestOfList document.statements

-- A body is a block around its tags, so its own tag is the one level more.
mutual

private theorem Statement.heightOfList_forest : (statement : Statement) →
    TagTree.heightOfList statement.forest ≤ statement.nesting + 1
  | .text value => by
    rw [Statement.forest, TagTree.heightOfList]
    exact Nat.zero_le _
  | .tag head body => by
    rw [Statement.forest, TagTree.heightOfList, TagTree.heightOfList, TagTree.height, Nat.max_zero,
      Statement.nesting]
    exact Nat.succ_le_succ body.heightOfList_forest

private theorem Body.heightOfList_forest : (body : Body) →
    TagTree.heightOfList body.forest ≤ body.nesting
  | .absent => by rw [Body.forest, TagTree.heightOfList, Body.nesting]
  | .single statement => by
    rw [Body.forest, Body.nesting]
    exact statement.heightOfList_forest
  | .block statements => by
    rw [Body.forest, Body.nesting]
    exact Statement.heightOfList_forestOfList statements

private theorem Statement.heightOfList_forestOfList : (statements : List Statement) →
    TagTree.heightOfList (Statement.forestOfList statements) ≤
      Statement.nestingOfList statements + 1
  | [] => by
    rw [Statement.forestOfList, TagTree.heightOfList]
    exact Nat.zero_le _
  | statement :: rest => by
    have hfirst := statement.heightOfList_forest
    have hrest := Statement.heightOfList_forestOfList rest
    rw [Statement.forestOfList, TagTree.heightOfList_append, Statement.nestingOfList]
    omega

end

/-! ### Markers in rows -/

/-- A text without angle brackets. -/
def Marker.Free (text : List Char) : Prop := '<' ∉ text ∧ '>' ∉ text

namespace Marker

instance (text : List Char) : Decidable (Free text) := inferInstanceAs (Decidable (_ ∧ _))

private theorem free_cons {c : Char} {text : List Char} :
    Free (c :: text) ↔ (c ≠ '<' ∧ c ≠ '>') ∧ Free text := by
  simp only [Free, List.mem_cons, not_or, ne_comm]
  exact and_and_and_comm

private theorem free_append {text more : List Char} :
    Free (text ++ more) ↔ Free text ∧ Free more := by
  simp only [Free, List.mem_append, not_or]
  exact and_and_and_comm

private theorem free_of_forall {p : Char → Bool} {text : List Char} (h : ∀ c ∈ text, p c = true)
    (hopen : p '<' = false) (hclose : p '>' = false) : Free text := by
  constructor
  · intro hc
    exact absurd (h '<' hc) (by rw [hopen]; decide)
  · intro hc
    exact absurd (h '>' hc) (by rw [hclose]; decide)

/-- A text whose markers are read before those of any text behind it. -/
def Shows (text : List Char) (markers : List Marker) : Prop :=
  ∀ rest, read? none (text ++ rest) = (read? none rest).map (markers ++ ·)

private theorem Shows.append {text more : List Char} {markers others : List Marker}
    (h : Shows text markers) (hm : Shows more others) :
    Shows (text ++ more) (markers ++ others) := by
  intro rest
  rw [List.append_assoc, h, hm, Option.map_map]
  simp only [Function.comp_def, List.append_assoc]

private theorem shows_of_free {text : List Char} (h : Free text) : Shows text [] := by
  intro rest
  have hid : ((read? none rest).map fun markers ↦ [] ++ markers) = read? none rest := by simp
  rw [hid]
  induction text with
  | nil => rfl
  | cons c text ih =>
    obtain ⟨⟨hopen, hclose⟩, ht⟩ := free_cons.mp h
    rw [List.cons_append, read?, if_neg hopen, if_neg hclose, ih ht]

-- What was read of the marker stands in reverse before the text that completes it.
private theorem read?_inner {inner : List Char} (front rest : List Char) (h : Free inner) :
    read? (some front) (inner ++ '>' :: rest) =
      (read? none rest).map (ofInner (front.reverse ++ inner) :: ·) := by
  induction inner generalizing front with
  | nil => rw [List.nil_append, read?, if_pos rfl, List.append_nil]
  | cons c inner ih =>
    obtain ⟨⟨hopen, hclose⟩, hi⟩ := free_cons.mp h
    rw [List.cons_append, read?, if_neg hclose, if_neg hopen, ih _ hi, List.reverse_cons,
      List.append_assoc, List.singleton_append]

private theorem shows_inner {inner : List Char} (h : Free inner) :
    Shows ('<' :: (inner ++ ['>'])) [ofInner inner] := by
  intro rest
  rw [List.cons_append, List.append_assoc, read?, if_pos rfl]
  exact read?_inner [] rest h

end Marker

/-! ### Markers of heads -/

private theorem Terminal.Spells.free_name {name : String} (h : Terminal.name.Spells name.toList) :
    Marker.Free name.toList :=
  Marker.free_of_forall h.2 rfl rfl

private theorem Terminal.Spells.free_identifier {name : String}
    (h : Terminal.identifier.Spells name.toList) : Marker.Free name.toList := by
  obtain ⟨hyphen, first, more, hname, hhyphen, hfirst, hmore⟩ := h
  rw [hname, ← List.singleton_append, Marker.free_append, Marker.free_append]
  refine ⟨?_, Marker.free_of_forall (List.forall_mem_singleton.mpr hfirst) rfl rfl,
    Marker.free_of_forall hmore rfl rfl⟩
  rcases hhyphen with rfl | rfl <;> decide

private theorem Attribute.free_chars {pair : Attribute} (hn : Marker.Free pair.name.toList)
    (hv : Marker.Free pair.value.toList) : Marker.Free pair.chars := by
  rw [chars]
  simp only [Marker.free_cons, Marker.free_append]
  exact ⟨by decide, hn, by decide, by decide, hv, by decide⟩

/-- The values in the list of a head have no angle brackets. -/
def TagHead.FreeValues (head : TagHead) : Prop :=
  ∀ list ∈ head.attributes, ∀ pair ∈ list, Marker.Free pair.value.toList

namespace TagHead

private theorem free_allAttributes {head : TagHead} (hw : head.WellFormed) (hv : head.FreeValues) :
    Marker.Free (head.allAttributes.flatMap Attribute.chars) := by
  have hclass : Marker.Free "class".toList := by decide
  have hid : Marker.Free "id".toList := by decide
  have hpair : ∀ pair ∈ head.allAttributes, Marker.Free pair.chars := by
    refine forall_mem_allAttributes ?_ ?_ ?_
    · intro name hname
      exact Attribute.free_chars hclass (hw.className name hname).free_identifier
    · intro name hname
      exact Attribute.free_chars hid (hw.id name hname).free_identifier
    · intro list hlist pair hp
      exact Attribute.free_chars ((hw.attributes list hlist).2 pair hp).free_name
        (hv list hlist pair hp)
  constructor
  · intro h
    obtain ⟨pair, hp, hc⟩ := List.mem_flatMap.mp h
    exact (hpair pair hp).1 hc
  · intro h
    obtain ⟨pair, hp, hc⟩ := List.mem_flatMap.mp h
    exact (hpair pair hp).2 hc

private theorem takeWhile_flatMap_chars (attributes : List Attribute) :
    (attributes.flatMap Attribute.chars).takeWhile (· != ' ') = [] := by
  cases attributes with
  | nil => rfl
  | cons pair attributes => rfl

private theorem ofInner_name {name : String} (h : Terminal.name.Spells name.toList)
    (attributes : List Attribute) :
    Marker.ofInner (name.toList ++ attributes.flatMap Attribute.chars) = .opening name := by
  have hspace : ∀ c ∈ name.toList, (c != ' ') = true := by
    intro c hc
    rw [bne_iff_ne]
    rintro rfl
    exact absurd (h.2 ' ' hc) (by decide)
  have hslash : ∀ more, name.toList ++ attributes.flatMap Attribute.chars ≠ '/' :: more := by
    intro more heq
    obtain ⟨c, tail, hname⟩ := List.exists_cons_of_ne_nil h.1
    rw [hname, List.cons_append] at heq
    obtain ⟨rfl, -⟩ := List.cons.inj heq
    exact absurd (h.2 '/' (by simp [hname])) (by decide)
  rw [Marker.ofInner, List.takeWhile_append_of_pos hspace, takeWhile_flatMap_chars,
    List.append_nil, String.ofList_toList]
  exact hslash

private theorem shows_opening {head : TagHead} (hw : head.WellFormed) (hv : head.FreeValues) :
    Marker.Shows head.opening.toList [.opening head.name] := by
  have hinner := Marker.free_append.mpr ⟨hw.name.free_name, free_allAttributes hw hv⟩
  rw [toList_opening, Node.opening, ← List.append_assoc, ← ofInner_name hw.name head.allAttributes]
  exact Marker.shows_inner hinner

private theorem shows_closing {head : TagHead} (hw : head.WellFormed) :
    Marker.Shows head.closing.toList [.closing head.name] := by
  have hinner : Marker.Free ('/' :: head.name.toList) :=
    Marker.free_cons.mpr ⟨by decide, hw.name.free_name⟩
  have h := Marker.shows_inner hinner
  rw [Marker.ofInner, String.ofList_toList] at h
  rw [toList_closing]
  exact h

end TagHead

/-! ### Markers of statements -/

private theorem Row.shows_cons {depth : Nat} {content : String} {rows : List Row}
    {markers others : List Marker} (hc : Marker.Shows content.toList markers)
    (hr : Marker.Shows (lines rows) others) :
    Marker.Shows (lines (⟨depth, content⟩ :: rows)) (markers ++ others) := by
  have hspaces : Marker.Free ('\n' :: Node.spaces depth) := by
    refine Marker.free_cons.mpr ⟨by decide, ?_⟩
    simp [Marker.Free, Node.spaces, List.mem_replicate]
  rw [lines_cons]
  exact (Marker.shows_of_free hspaces).append (hc.append hr)

private theorem Row.shows_nil : Marker.Shows (lines []) [] := Marker.shows_of_free (by decide)

/-- A body on the line of its tag has no tags, and what it has is a text. -/
private theorem Body.forest_of_inline {body : Body} {text : String} (h : body.inline? = some text) :
    body.forest = [] ∧ (text = "" ∨ text ∈ body.texts) := by
  obtain ⟨rfl, rfl⟩ | ⟨rfl, rfl⟩ | rfl := cases_of_inline h
  · exact ⟨by rw [forest], .inl rfl⟩
  · exact ⟨by rw [forest, Statement.forestOfList], .inl rfl⟩
  · exact ⟨by rw [forest, Statement.forest], .inr (by simp [texts, Statement.texts])⟩

mutual

/-- The rows of a statement show the markers of its tags. -/
private theorem Statement.shows_rows (depth : Nat) :
    (statement : Statement) → statement.WellFormed →
    (∀ text ∈ statement.texts, Marker.Free text.toList) →
    (∀ head ∈ statement.heads, head.FreeValues) →
    Marker.Shows (Row.lines (statement.rows depth)) (TagTree.markersOfList statement.forest)
  | .text value, _, ht, _ => by
    rw [Statement.rows, Statement.forest, TagTree.markersOfList]
    exact Row.shows_cons (Marker.shows_of_free (ht value (by simp [Statement.texts]))) Row.shows_nil
  | .tag head body, hw, ht, hv => by
    rw [Statement.WellFormed] at hw
    rw [Statement.texts] at ht
    rw [Statement.heads, List.forall_mem_cons] at hv
    have hopening := TagHead.shows_opening hw.1 hv.1
    have hclosing := TagHead.shows_closing hw.1
    rw [Statement.rows, Statement.forest, TagTree.markersOfList, TagTree.markersOfList,
      TagTree.markers, List.append_nil]
    split
    · next text h =>
      obtain ⟨hforest, htext⟩ := Body.forest_of_inline h
      have hfree : Marker.Free text.toList := by
        rcases htext with rfl | htext
        · decide
        · exact ht text htext
      rw [hforest, TagTree.markersOfList]
      have hrow := (hopening.append (Marker.shows_of_free hfree)).append hclosing
      rw [← String.toList_append, ← String.toList_append] at hrow
      exact Row.shows_cons hrow Row.shows_nil
    · have hbody := body.shows_rows (depth + 1) hw.2 ht hv.2
      have hlast : Marker.Shows (Row.lines [⟨depth, head.closing⟩]) [.closing head.name] :=
        Row.shows_cons hclosing Row.shows_nil
      have hrows := hbody.append hlast
      rw [← Row.lines_append] at hrows
      exact Row.shows_cons hopening hrows

/-- The rows of a body show the markers of its tags. -/
private theorem Body.shows_rows (depth : Nat) : (body : Body) → body.WellFormed →
    (∀ text ∈ body.texts, Marker.Free text.toList) →
    (∀ head ∈ body.heads, head.FreeValues) →
    Marker.Shows (Row.lines (body.rows depth)) (TagTree.markersOfList body.forest)
  | .absent, _, _, _ => by
    rw [Body.rows, Body.forest, TagTree.markersOfList]
    exact Row.shows_nil
  | .single statement, hw, ht, hv => by
    rw [Body.rows, Body.forest]
    exact statement.shows_rows depth hw ht hv
  | .block statements, hw, ht, hv => by
    rw [Body.rows, Body.forest]
    exact Statement.shows_rowsOfList depth statements hw ht hv

/-- The rows of statements show the markers of their tags. -/
private theorem Statement.shows_rowsOfList (depth : Nat) : (statements : List Statement) →
    Statement.AllWellFormed statements →
    (∀ text ∈ Statement.textsOfList statements, Marker.Free text.toList) →
    (∀ head ∈ Statement.headsOfList statements, head.FreeValues) →
    Marker.Shows (Row.lines (Statement.rowsOfList depth statements))
      (TagTree.markersOfList (Statement.forestOfList statements))
  | [], _, _, _ => by
    rw [Statement.rowsOfList, Statement.forestOfList, TagTree.markersOfList]
    exact Row.shows_nil
  | statement :: rest, hw, ht, hv => by
    rw [Statement.AllWellFormed] at hw
    obtain ⟨ht, ht'⟩ := List.forall_mem_append.mp ht
    obtain ⟨hv, hv'⟩ := List.forall_mem_append.mp hv
    rw [Statement.rowsOfList, Row.lines_append, Statement.forestOfList,
      TagTree.markersOfList_append]
    exact (statement.shows_rows depth hw.1 ht hv).append
      (Statement.shows_rowsOfList depth rest hw.2 ht' hv')

end

private theorem Row.read?_tail_lines (rows : List Row) :
    Marker.read? none (lines rows).tail = Marker.read? none (lines rows) := by
  cases rows with
  | nil => rfl
  | cons row rows =>
    rw [lines, List.flatMap_cons, List.cons_append, List.tail_cons, Marker.read?,
      if_neg (by decide), if_neg (by decide)]

/-- The markers of HTML are those of the tags of its document. -/
private theorem Document.ofHtml?_toHtml {document : Document} (hw : document.WellFormed)
    (ht : ∀ text ∈ Statement.textsOfList document.statements, Marker.Free text.toList)
    (hv : ∀ head ∈ Statement.headsOfList document.statements, head.FreeValues) :
    Marker.ofHtml? document.toHtml = some (TagTree.markersOfList document.forest) := by
  have h := Statement.shows_rowsOfList 0 document.statements hw ht hv []
  rw [List.append_nil, Marker.read?, Option.map_some, List.append_nil] at h
  rw [Marker.ofHtml?, toHtml, Statement.render, Row.toList_intercalate, Row.read?_tail_lines, h]
  rfl

/-- The markers of a compiled text, if no text and no value of it has an angle bracket: they are
balanced with at most 129 open at once, and their forest is that of the tags of the document. -/
theorem exists_markers_of_compile {source : String} {output : Compiled}
    (h : compile source = .ok output)
    (ht : ∀ text ∈ Statement.textsOfList output.document.statements,
      '<' ∉ text.toList ∧ '>' ∉ text.toList)
    (hv : ∀ head ∈ Statement.headsOfList output.document.statements, ∀ list ∈ head.attributes,
      ∀ pair ∈ list, '<' ∉ pair.value.toList ∧ '>' ∉ pair.value.toList) :
    ∃ markers, Marker.ofHtml? output.html = some markers ∧
      Marker.forest? markers = some output.document.forest ∧ Marker.Balanced 129 markers := by
  obtain ⟨hparse, hhtml⟩ := compile_eq_ok_iff.mp h
  obtain ⟨⟨rest, hderives, -⟩, hnesting⟩ := Document.derives_of_parseWithin hparse
  refine ⟨TagTree.markersOfList output.document.forest, ?_, ?_, ?_⟩
  · rw [hhtml]
    exact Document.ofHtml?_toHtml hderives.wellFormed ht hv
  · exact TagTree.forest?_markersOfList _
  · have hheight := Statement.heightOfList_forestOfList output.document.statements
    exact (TagTree.balanced_markersOfList _).mono
      (Nat.le_trans hheight (Nat.succ_le_succ hnesting))

/-- Bodies of all shapes, with a quote in a value and a slash in a text. -/
theorem exists_markers_of_nested_bodies :
    let source := "a.x [k: \"\\\"/\"] \x7b b: c \x7b\x7d \"/ d\" \x7d e: \"f\""
    let output : Compiled := ⟨⟨[.tag ⟨"a", some "x", none, some [⟨"k", "\"/"⟩]⟩
      (.block [.tag ⟨"b", none, none, none⟩ (.single (.tag ⟨"c", none, none, none⟩ (.block []))),
        .text "/ d"]), .tag ⟨"e", none, none, none⟩ (.single (.text "f"))]⟩,
      "<a class=\"x\" k=\"\"/\">\n  <b>\n    <c></c>\n  </b>\n  / d\n</a>\n<e>f</e>"⟩
    compile source = .ok output ∧ ∃ markers, Marker.ofHtml? output.html = some markers ∧
      Marker.forest? markers = some [.node "a" [.node "b" [.node "c" []]], .node "e" []] ∧
        Marker.Balanced 129 markers := by
  intro source output
  have h : compile source = .ok output := by decide +kernel
  exact ⟨h, exists_markers_of_compile h (by decide) (by decide)⟩

end TerseMarkup
