import Mathlib.Data.List.DropRight
import TerseMarkup.Files.Path
import TerseMarkup.Proofs.TextParts

/-!
# File names and their extensions

A file name is renamed by its extension, which is what follows its last dot, unless that dot is the
first character. The default output of a path has the name of the path, renamed, in the directory of
the path. The one exception is a path that ends with two dots and an extension, whose default output
is a step up. The main statement, `Path.defaultOutput_of_fileName`, covers both.
-/

namespace TerseMarkup.Path

/-! ### The last of some elements -/

section

variable {α : Type} {p : α → Bool}

private theorem rdropWhile_split {front rest : List α} {x : α} (hx : p x = false)
    (hr : ∀ y ∈ rest, p y = true) : (front ++ x :: rest).rdropWhile p = front ++ [x] := by
  induction rest using List.reverseRecOn with
  | nil => exact List.rdropWhile_concat_neg p front x (by simp [hx])
  | append_singleton rest y ih =>
    obtain ⟨hrest, hy⟩ := List.forall_mem_append.mp hr
    rw [← List.cons_append, ← List.append_assoc,
      List.rdropWhile_concat_pos _ _ _ (hy y (List.mem_singleton_self y)), ih hrest]

-- Either all elements are alike, or there is a last one that differs.
private theorem exists_split (p : α → Bool) (xs : List α) : (∀ y ∈ xs, p y = true) ∨
    ∃ front x rest, xs = front ++ x :: rest ∧ p x = false ∧ ∀ y ∈ rest, p y = true := by
  induction xs using List.reverseRecOn with
  | nil => exact .inl nofun
  | append_singleton xs y ih =>
    cases hy : p y with
    | false => exact .inr ⟨xs, y, [], rfl, hy, nofun⟩
    | true =>
      have hlast : ∀ z ∈ [y], p z = true := List.forall_mem_singleton.mpr hy
      rcases ih with h | ⟨front, x, rest, rfl, hx, hr⟩
      · exact .inl (List.forall_mem_append.mpr ⟨h, hlast⟩)
      · exact .inr ⟨front, x, rest ++ [y], by rw [List.append_assoc, List.cons_append], hx,
          List.forall_mem_append.mpr ⟨hr, hlast⟩⟩

end

/-! ### Names -/

/-- A name, and the name that it becomes with another extension. An old extension is replaced, and a
name without one gets the new one behind it. -/
inductive Renames (extension : String) : String → String → Prop where
  | replace {before old : String} (hb : before ≠ "") (ho : '.' ∉ old.toList) :
      Renames extension (before ++ "." ++ old) (before ++ "." ++ extension)
  | add {name : String} (h : ∀ before old, name = before ++ "." ++ old → before = "") :
      Renames extension name (name ++ "." ++ extension)

/-- The name of the default output for a name: with the extension `html`, or with `out.html` if the
first is the name itself. -/
inductive DefaultName (name : String) : String → Prop where
  | html {output : String} (h : Renames "html" name output) (hne : output ≠ name) :
      DefaultName name output
  | outHtml {output : String} (hself : Renames "html" name name)
      (h : Renames "out.html" name output) : DefaultName name output

/-- A name without an extension: it has no dot but perhaps a first one. -/
def Plain (name : String) : Prop := ∀ before old, name = before ++ "." ++ old → before = ""

private theorem toList_split (before old : String) :
    (before ++ "." ++ old).toList = before.toList ++ '.' :: old.toList := by
  simp

private theorem throughDot_of_split {before old : String} (ho : '.' ∉ old.toList) :
    throughDot (before ++ "." ++ old) = before.toList ++ ['.'] := by
  rw [throughDot, toList_split]
  refine rdropWhile_split rfl fun c hc ↦ ?_
  rw [bne_iff_ne]
  rintro rfl
  exact ho hc

/-- A name has an extension behind its last dot, or it is plain. -/
private theorem plain_or_split (name : String) : (Plain name ∧ (throughDot name).dropLast = []) ∨
    ∃ before old, before ≠ "" ∧ '.' ∉ old.toList ∧ name = before ++ "." ++ old := by
  rcases exists_split (· != '.') name.toList with hall | ⟨front, c, rest, hname, hc, hrest⟩
  · refine .inl ⟨?_, ?_⟩
    · rintro before old rfl
      have hdot := hall '.' (by rw [toList_split]; simp)
      exact absurd hdot (by decide)
    · have hnil : throughDot name = [] := List.rdropWhile_eq_nil_iff.mpr hall
      rw [hnil, List.dropLast_nil]
  obtain rfl : c = '.' := by simpa using hc
  have hold : '.' ∉ rest := fun hm ↦ absurd (hrest '.' hm) (by decide)
  have hsplit : name = String.ofList front ++ "." ++ String.ofList rest := by
    rw [← String.toList_inj, hname, toList_split, String.toList_ofList, String.toList_ofList]
  have hold' : '.' ∉ (String.ofList rest).toList := by rwa [String.toList_ofList]
  cases front with
  | cons d front => exact .inr ⟨_, _, by simp, hold', hsplit⟩
  | nil =>
    refine .inl ⟨?_, ?_⟩
    · rintro before old rfl
      rw [toList_split, List.nil_append] at hname
      -- A dot behind the first character would be a dot in the rest.
      cases hb : before.toList with
      | nil => exact String.toList_eq_nil_iff.mp hb
      | cons d tail =>
        rw [hb, List.cons_append, List.cons.injEq] at hname
        exact absurd (by rw [← hname.2]; simp) hold
    · rw [hsplit, throughDot_of_split hold']
      rfl

variable {name before old extension : String}

private theorem not_plain_of_split (hb : before ≠ "") : ¬Plain (before ++ "." ++ old) :=
  fun h ↦ hb (h before old rfl)

private theorem stem_of_split (hb : before ≠ "") (ho : '.' ∉ old.toList) :
    stem (before ++ "." ++ old) = before := by
  rw [stem, throughDot_of_split ho, List.dropLast_concat]
  cases hl : before.toList with
  | nil => exact absurd (String.toList_eq_nil_iff.mp hl) hb
  | cons c tail =>
    change String.ofList (c :: tail) = before
    rw [← hl, String.ofList_toList]

private theorem dropLast_throughDot (h : Plain name) : (throughDot name).dropLast = [] := by
  rcases plain_or_split name with ⟨-, hd⟩ | ⟨before, old, hb, -, rfl⟩
  · exact hd
  · exact absurd h (not_plain_of_split hb)

private theorem stem_of_plain (h : Plain name) : stem name = name := by
  rw [stem, dropLast_throughDot h]

private theorem clearExtension_of_split (hb : before ≠ "") (ho : '.' ∉ old.toList) :
    clearExtension (before ++ "." ++ old) = before ++ "." := by
  rw [clearExtension, throughDot_of_split ho, List.dropLast_concat]
  cases hl : before.toList with
  | nil => exact absurd (String.toList_eq_nil_iff.mp hl) hb
  | cons c tail =>
    change String.ofList (c :: tail ++ ['.']) = before ++ "."
    rw [← hl, String.ofList_append, String.ofList_toList]

private theorem clearExtension_of_plain (h : Plain name) : clearExtension name = name := by
  rw [clearExtension, dropLast_throughDot h]

/-- Clearing an extension does not change what stands before it. -/
private theorem stem_clearExtension (name : String) : stem (clearExtension name) = stem name := by
  rcases plain_or_split name with ⟨h, -⟩ | ⟨before, old, hb, ho, rfl⟩
  · rw [clearExtension_of_plain h]
  · have hempty : stem (before ++ "." ++ "") = before := stem_of_split hb List.not_mem_nil
    rw [String.append_empty] at hempty
    rw [clearExtension_of_split hb ho, stem_of_split hb ho, hempty]

private theorem renames_iff {output : String} :
    Renames extension name output ↔ output = stem name ++ "." ++ extension := by
  constructor
  · intro h
    cases h with
    | replace hb ho => rw [stem_of_split hb ho]
    | add h => rw [stem_of_plain h]
  · rintro rfl
    rcases plain_or_split name with ⟨h, -⟩ | ⟨before, old, hb, ho, rfl⟩
    · rw [stem_of_plain h]
      exact .add h
    · rw [stem_of_split hb ho]
      exact .replace hb ho

/-- A name of two dots and an extension, which is no step up itself. -/
def StepUpWithExtension (name : String) : Prop :=
  ∃ extension, extension ≠ "" ∧ '.' ∉ extension.toList ∧ name = ".." ++ extension

private theorem clearExtension_eq_stepUp_iff (hne : name ≠ "..") :
    clearExtension name = ".." ↔ StepUpWithExtension name := by
  constructor
  · intro h
    rcases plain_or_split name with ⟨hp, -⟩ | ⟨before, old, hb, ho, rfl⟩
    · exact absurd ((clearExtension_of_plain hp).symm.trans h) hne
    · rw [clearExtension_of_split hb ho] at h
      refine ⟨old, ?_, ho, by rw [h]⟩
      rintro rfl
      rw [String.append_empty] at hne
      exact hne h
  · rintro ⟨old, -, ho, rfl⟩
    have hdots : ("." ++ "." : String) = ".." := by decide
    rw [← hdots, clearExtension_of_split (by decide) ho]

/-! ### Paths -/

/-- A segment that names a file: it leads somewhere, and not up. -/
structure IsName (segment : String) : Prop where
  stays_eq : stays segment = false
  ne_stepUp : segment ≠ ".."

private theorem isName_of_length {segment : String} (h : 2 < segment.toList.length) :
    IsName segment where
  stays_eq := by
    rw [stays, Bool.or_eq_false_iff, beq_eq_false_iff_ne, beq_eq_false_iff_ne]
    constructor <;> rintro rfl <;> exact absurd h (by decide)
  ne_stepUp := by
    rintro rfl
    exact absurd h (by decide)

private theorem isName_renamed (name : String) {extension : String}
    (h : 2 < extension.toList.length) : IsName (stem name ++ "." ++ extension) := by
  apply isName_of_length
  rw [toList_split, List.length_append, List.length_cons]
  omega

/-- Clearing its extension leaves a name that leads somewhere. -/
private theorem IsName.stays_clearExtension (h : IsName name) :
    stays (clearExtension name) = false := by
  rcases plain_or_split name with ⟨hp, -⟩ | ⟨before, old, hb, ho, rfl⟩
  · rw [clearExtension_of_plain hp]
    exact h.stays_eq
  · rw [clearExtension_of_split hb ho, stays, Bool.or_eq_false_iff, beq_eq_false_iff_ne,
      beq_eq_false_iff_ne]
    simp [← String.toList_inj, hb]

private theorem clearExtension_of_stays {segment : String} (h : stays segment = true) :
    clearExtension segment = segment := by
  rw [stays, Bool.or_eq_true, beq_iff_eq, beq_iff_eq] at h
  rcases h with rfl | rfl <;> decide

variable {path : Path} {directory rest : List String}

private theorem trimmed_of_split (hp : path.segments = directory ++ name :: rest)
    (hn : stays name = false) (hr : ∀ segment ∈ rest, stays segment = true) :
    path.trimmed = directory ++ [name] := by
  rw [trimmed, hp]
  exact rdropWhile_split hn hr

/-- A path has a file name if its last segment that leads somewhere is no step up. -/
theorem splitFileName?_eq_some_iff : path.splitFileName? = some (directory, name) ↔
    ∃ rest, path.segments = directory ++ name :: rest ∧ IsName name ∧
      ∀ segment ∈ rest, stays segment = true := by
  constructor
  · intro h
    rcases exists_split stays path.segments with hall | ⟨front, last, rest, hp, hl, hr⟩
    · have hnil : path.trimmed = [] := List.rdropWhile_eq_nil_iff.mpr hall
      rw [splitFileName?, hnil] at h
      cases h
    · rw [splitFileName?, trimmed_of_split hp hl hr, List.getLast?_concat,
        List.dropLast_concat] at h
      by_cases hup : last = ".."
      · simp [hup] at h
      · simp only [hup, if_false, Option.some.injEq, Prod.mk.injEq] at h
        obtain ⟨rfl, rfl⟩ := h
        exact ⟨rest, hp, ⟨hl, hup⟩, hr⟩
  · rintro ⟨rest, hp, hn, hr⟩
    rw [splitFileName?, trimmed_of_split hp hn.stays_eq hr, List.getLast?_concat,
      List.dropLast_concat]
    simp only [hn.ne_stepUp, if_false]

/-- A path that ends with a name is split before that name. -/
theorem splitFileName?_concat (hn : IsName name) (directory : List String) :
    splitFileName? ⟨directory ++ [name]⟩ = some (directory, name) :=
  splitFileName?_eq_some_iff.mpr ⟨[], rfl, hn, nofun⟩

private theorem splitFileName?_stepUp (directory : List String) :
    splitFileName? ⟨directory ++ [".."]⟩ = none := by
  have ht : trimmed ⟨directory ++ [".."]⟩ = directory ++ [".."] :=
    trimmed_of_split rfl (by decide) (List.forall_mem_nil _)
  rw [splitFileName?, ht, List.getLast?_concat]
  rfl

private theorem cleared_concat (directory : List String) (name : String) :
    cleared ⟨directory ++ [name]⟩ = ⟨directory ++ [clearExtension name]⟩ := by
  simp [cleared]

/-- Behind slashes at the end of a path there is no extension to clear. -/
private theorem cleared_of_stays {segment : String} (hs : stays segment = true)
    (hp : path.segments = directory ++ [segment]) : path.cleared = path := by
  obtain ⟨segments⟩ := path
  obtain rfl : segments = _ := hp
  rw [cleared_concat, clearExtension_of_stays hs]

private theorem withExtension_of_splitFileName?
    (h : path.cleared.splitFileName? = some (directory, name)) :
    path.withExtension extension = ⟨directory ++ [stem name ++ "." ++ extension]⟩ := by
  rw [withExtension, h]

/-- The extension of a file name is replaced, unless what is left of the last segment would be a
step up. -/
private theorem withExtension_of_fileName (h : path.splitFileName? = some (directory, name))
    (hs : ¬(path.segments = directory ++ [name] ∧ StepUpWithExtension name)) :
    path.withExtension extension = ⟨directory ++ [stem name ++ "." ++ extension]⟩ := by
  obtain ⟨rest, hp, hn, hr⟩ := splitFileName?_eq_some_iff.mp h
  rcases List.eq_nil_or_concat rest with rfl | ⟨rest, last, rfl⟩
  · have hup : clearExtension name ≠ ".." := fun hc ↦
      hs ⟨hp, (clearExtension_eq_stepUp_iff hn.ne_stepUp).mp hc⟩
    have hc : path.cleared.splitFileName? = some (directory, clearExtension name) := by
      obtain ⟨segments⟩ := path
      obtain rfl : segments = _ := hp
      rw [cleared_concat, splitFileName?_concat ⟨hn.stays_clearExtension, hup⟩]
    rw [withExtension_of_splitFileName? hc, stem_clearExtension]
  · have hlast : stays last = true := hr last (by simp)
    have hc : path.cleared = path := by
      apply cleared_of_stays hlast
      rw [hp, List.concat_eq_append, ← List.cons_append, ← List.append_assoc]
    rw [withExtension_of_splitFileName? (hc ▸ h)]

private theorem withExtension_of_stepUp (hs : StepUpWithExtension name) (hn : name ≠ "..")
    (hp : path.segments = directory ++ [name]) :
    path.withExtension extension = ⟨directory ++ [".."]⟩ := by
  have hc : path.cleared = ⟨directory ++ [".."]⟩ := by
    obtain ⟨segments⟩ := path
    obtain rfl : segments = _ := hp
    rw [cleared_concat, (clearExtension_eq_stepUp_iff hn).mpr hs]
  rw [withExtension, hc, splitFileName?_stepUp]

/-- In one directory, paths are told apart by their last segments. -/
private theorem components_eq_iff {segment : String}
    (hp : path.segments = directory ++ name :: rest)
    (hn : stays name = false) (hr : ∀ other ∈ rest, stays other = true)
    (hs : stays segment = false) :
    components ⟨directory ++ [segment]⟩ = components path ↔ segment = name := by
  have hrest : rest.filter (!stays ·) = [] := by
    rw [List.filter_eq_nil_iff]
    intro other ho
    simp [hr other ho]
  rw [components, components, hp]
  cases directory with
  | nil => simp [hrest]
  | cons first directory => simp [hrest, hn, hs]

/-- The default output of a path with a file name stands in the same directory, under another name.
The exception is a path that ends with two dots and an extension: what clearing the extension leaves
is a step up. -/
theorem defaultOutput_of_fileName (h : path.splitFileName? = some (directory, name)) :
    (path.segments = directory ++ [name] ∧ StepUpWithExtension name ∧
      path.defaultOutput = ⟨directory ++ [".."]⟩) ∨
    (¬(path.segments = directory ++ [name] ∧ StepUpWithExtension name) ∧
      ∃ output, path.defaultOutput = ⟨directory ++ [output]⟩ ∧ IsName output ∧ output ≠ name ∧
        DefaultName name output) := by
  obtain ⟨rest, hp, hn, hr⟩ := splitFileName?_eq_some_iff.mp h
  by_cases hs : path.segments = directory ++ [name] ∧ StepUpWithExtension name
  · refine .inl ⟨hs.1, hs.2, ?_⟩
    have hne : components ⟨directory ++ [".."]⟩ ≠ components path := fun he ↦
      hn.ne_stepUp ((components_eq_iff hp hn.stays_eq hr (by decide)).mp he).symm
    simp only [defaultOutput]
    rw [withExtension_of_stepUp hs.2 hn.ne_stepUp hs.1, if_neg hne]
  · refine .inr ⟨hs, ?_⟩
    have hhtml : IsName (stem name ++ "." ++ "html") := isName_renamed name (by decide)
    have hout : IsName (stem name ++ "." ++ "out.html") := isName_renamed name (by decide)
    have hself := components_eq_iff hp hn.stays_eq hr hhtml.stays_eq
    simp only [defaultOutput]
    rw [withExtension_of_fileName h hs, withExtension_of_fileName h hs]
    by_cases he : stem name ++ "." ++ "html" = name
    · rw [if_pos (hself.mpr he)]
      refine ⟨_, rfl, hout, ?_, .outHtml (renames_iff.mpr he.symm) (renames_iff.mpr rfl)⟩
      intro ho
      have hlength := congrArg (fun text : String ↦ text.toList.length) (ho.trans he.symm)
      simp at hlength
    · rw [if_neg (hself.not.mpr he)]
      exact ⟨_, rfl, hhtml, he, .html (renames_iff.mpr rfl) he⟩

/-! ### Paths as texts -/

private theorem splitSlashes_eq_splitOn (text : List Char) :
    splitSlashes text = text.splitOn '/' := by
  induction text with
  | nil => rfl
  | cons c text ih =>
    obtain ⟨part, parts, hs⟩ := List.exists_cons_of_ne_nil (List.splitOn_ne_nil '/' text)
    rw [splitSlashes, List.splitOn_cons_eq_if_modifyHead, ih, hs]
    by_cases hc : c = '/' <;> simp [hc]

/-- The segments of a path are the parts of its text between slashes. -/
theorem segments_ofText (text : String) : (ofText text).segments = Text.parts '/' text := by
  rw [ofText, splitSlashes_eq_splitOn, Text.parts]

/-- A path without slashes in its segments is read back from its text. -/
private theorem ofText_toText (hne : path.segments ≠ [])
    (h : ∀ segment ∈ path.segments, '/' ∉ segment.toList) : ofText path.toText = path := by
  obtain ⟨segments⟩ := path
  have hparts := segments_ofText (toText ⟨segments⟩)
  rw [toText, Text.parts_intercalate rfl hne h] at hparts
  exact congrArg Path.mk hparts

private theorem Renames.notMem {output : String} {c : Char} (h : Renames extension name output)
    (hn : c ∉ name.toList) (hc : c ≠ '.') (he : c ∉ extension.toList) : c ∉ output.toList := by
  cases h with
  | replace hb ho => simp_all
  | add h => simp_all

private theorem DefaultName.slash_notMem {output : String} (h : DefaultName name output)
    (hn : '/' ∉ name.toList) : '/' ∉ output.toList := by
  cases h with
  | html h hne => exact h.notMem hn (by decide) (by decide)
  | outHtml hself h => exact h.notMem hn (by decide) (by decide)

/-- The default output is read back from its text. -/
theorem ofText_toText_defaultOutput {input : String}
    (h : (ofText input).splitFileName? = some (directory, name)) :
    ofText (ofText input).defaultOutput.toText = (ofText input).defaultOutput := by
  have hslash : ∀ segment ∈ (ofText input).segments, '/' ∉ segment.toList := fun _ hs ↦
    Text.notMem_of_mem_parts (segments_ofText input ▸ hs)
  obtain ⟨rest, hp, -, -⟩ := splitFileName?_eq_some_iff.mp h
  rw [hp, List.forall_mem_append, List.forall_mem_cons] at hslash
  obtain ⟨hdirectory, hname, -⟩ := hslash
  rcases defaultOutput_of_fileName h with ⟨-, -, hd⟩ | ⟨-, output, hd, -, -, ho⟩
  · rw [hd]
    refine ofText_toText (by simp) (List.forall_mem_append.mpr ⟨hdirectory, ?_⟩)
    exact List.forall_mem_singleton.mpr (by decide)
  · rw [hd]
    refine ofText_toText (by simp) (List.forall_mem_append.mpr ⟨hdirectory, ?_⟩)
    exact List.forall_mem_singleton.mpr (ho.slash_notMem hname)

end TerseMarkup.Path
