import Mathlib.Data.List.Induction
import Mathlib.Data.Prod.Lex
import Mathlib.Order.Bounds.Basic
import TerseMarkup.Text.Position

/-!
# Lines and columns

A byte of a text is located by counting line feeds and by going back to the last one of them. The
same line and column come from one pass over the characters before the place, and each character
takes the pair further in the order that compares lines first. So lines and columns are in the order
of the places between characters, and name each of them once: the main statement is
`Position.lineColumn_locate`.
-/

namespace TerseMarkup

/-! ### Places between characters -/

namespace Text

variable {text before after : List Char} {n : Nat}

/-- The bytes of a text before which a character starts or the text ends. -/
def boundaries (text : List Char) : Set Nat :=
  {n | ∃ before after, text = before ++ after ∧ byteLength before = n}

private theorem exists_takeBytes_append (n : Nat) (text : List Char) :
    ∃ rest, text = takeBytes n text ++ rest := by
  fun_induction takeBytes n text with
  | case1 n => exact ⟨[], rfl⟩
  | case2 n c text hc ih =>
    obtain ⟨rest, hr⟩ := ih
    exact ⟨rest, congrArg (c :: ·) hr⟩
  | case3 n c text hc => exact ⟨c :: text, rfl⟩

private theorem byteLength_takeBytes_le (n : Nat) (text : List Char) :
    byteLength (takeBytes n text) ≤ n := by
  fun_induction takeBytes n text with
  | case1 n => exact Nat.zero_le n
  | case2 n c text hc ih =>
    rw [byteLength_cons]
    omega
  | case3 n c text hc => exact Nat.zero_le n

/-- No longer beginning of a text fits into a number of bytes. -/
private theorem byteLength_le_byteLength_takeBytes (h : byteLength before ≤ n) (after : List Char) :
    byteLength before ≤ byteLength (takeBytes n (before ++ after)) := by
  induction before generalizing n with
  | nil => exact Nat.zero_le _
  | cons c before ih =>
    rw [byteLength_cons] at h
    have hfits : c.utf8Size ≤ n := by omega
    have hmore := ih (show byteLength before ≤ n - c.utf8Size by omega)
    rw [List.cons_append, takeBytes, if_pos hfits, byteLength_cons, byteLength_cons]
    omega

end Text

namespace Position

/-! ### One pass over the text -/

/-- The line and the column behind one more character. -/
def advance (place : Nat × Nat) (c : Char) : Nat × Nat :=
  if c = '\n' then (place.1 + 1, 1) else (place.1, place.2 + 1)

/-- The line and the column, in the order that compares lines first. -/
def lineColumn (p : Position) : Nat ×ₗ Nat := toLex (p.line, p.column)

private theorem after_concat (text : List Char) (c : Char) :
    ((after (text ++ [c])).line, (after (text ++ [c])).column) =
      advance ((after text).line, (after text).column) c := by
  by_cases hc : c = '\n' <;> simp [after, advance, hc]

/-- Counting and going back give what one pass over the text gives. -/
private theorem after_eq_foldl (text : List Char) :
    ((after text).line, (after text).column) = text.foldl advance (1, 1) := by
  induction text using List.reverseRecOn with
  | nil => rfl
  | append_singleton text c ih => rw [List.foldl_append, ← ih, after_concat, List.foldl_cons,
      List.foldl_nil]

/-! ### The order of places -/

private theorem lt_advance (place : Nat × Nat) (c : Char) :
    toLex place < toLex (advance place c) := by
  rw [Prod.Lex.toLex_lt_toLex, advance]
  split
  · exact .inl (Nat.lt_succ_self _)
  · exact .inr ⟨rfl, Nat.lt_succ_self _⟩

private theorem le_foldl_advance (place : Nat × Nat) (text : List Char) :
    toLex place ≤ toLex (text.foldl advance place) := by
  induction text generalizing place with
  | nil => exact le_refl _
  | cons c text ih => exact (lt_advance place c).le.trans (ih (advance place c))

/-- A text behind another leads to a later line or to a later column. -/
private theorem lineColumn_after_lt {more : List Char} (h : more ≠ []) (text : List Char) :
    (after text).lineColumn < (after (text ++ more)).lineColumn := by
  obtain ⟨c, more, rfl⟩ := List.exists_cons_of_ne_nil h
  rw [lineColumn, lineColumn, after_eq_foldl, after_eq_foldl, List.foldl_append, List.foldl_cons]
  exact (lt_advance _ c).trans_le (le_foldl_advance _ more)

/-! ### Locating bytes -/

private theorem isGreatest_offset_locate (source : List Char) (n : Nat) :
    IsGreatest {o | o ∈ Text.boundaries source ∧ o ≤ min n (Text.byteLength source)}
      (locate source n).offset := by
  obtain ⟨rest, hr⟩ := Text.exists_takeBytes_append n source
  have hle := Text.byteLength_takeBytes_le n source
  refine ⟨⟨⟨_, rest, hr, rfl⟩, ?_⟩, ?_⟩
  · have hlength := congrArg Text.byteLength hr
    rw [Text.byteLength_append] at hlength
    simp only [locate, after]
    omega
  · rintro _ ⟨⟨before, behind, rfl, rfl⟩, ho⟩
    exact Text.byteLength_le_byteLength_takeBytes (Nat.le_min.mp ho).1 behind

private theorem locate_offset_locate (source : List Char) (n : Nat) :
    locate source (locate source n).offset = locate source n := by
  obtain ⟨rest, hr⟩ := Text.exists_takeBytes_append n source
  calc locate source (locate source n).offset
      = locate (Text.takeBytes n source ++ rest) (Text.byteLength (Text.takeBytes n source)) := by
        rw [← hr]; rfl
    _ = locate source n := locate_append _ rest

private theorem strictMonoOn_lineColumn_locate (source : List Char) :
    StrictMonoOn (fun n ↦ (locate source n).lineColumn) (Text.boundaries source) := by
  rintro _ ⟨before, behind, rfl, rfl⟩ _ ⟨further, rest, hs, rfl⟩ hlt
  have hfurther : ∃ more, further = before ++ more := by
    rcases List.append_eq_append_iff.mp hs with ⟨more, hm, -⟩ | ⟨more, hm, -⟩
    · exact ⟨more, hm⟩
    · rw [hm, Text.byteLength_append] at hlt
      omega
  obtain ⟨more, rfl⟩ := hfurther
  have hne : more ≠ [] := by
    rintro rfl
    simp at hlt
  simp only [locate_append]
  rw [hs, locate_append]
  exact lineColumn_after_lt hne before

/-- A byte is located at the last place between characters that is not behind it, and this place is
located at itself. Its line and column come from one pass over the characters before it. They are in
the order of the places, so that no two places have the same line and column. -/
theorem lineColumn_locate (source : List Char) :
    (∀ n, IsGreatest {o | o ∈ Text.boundaries source ∧ o ≤ min n (Text.byteLength source)}
        (locate source n).offset ∧
      locate source (locate source n).offset = locate source n) ∧
    (∀ before rest, source = before ++ rest →
      ((locate source (Text.byteLength before)).line,
        (locate source (Text.byteLength before)).column) = before.foldl advance (1, 1)) ∧
    StrictMonoOn (fun n ↦ (locate source n).lineColumn) (Text.boundaries source) ∧
    Set.InjOn (fun n ↦ ((locate source n).line, (locate source n).column))
      (Text.boundaries source) := by
  have hmono := strictMonoOn_lineColumn_locate source
  refine ⟨fun n ↦ ⟨isGreatest_offset_locate source n, locate_offset_locate source n⟩, ?_, hmono, ?_⟩
  · rintro before rest rfl
    rw [locate_append, after_eq_foldl]
  · intro n hn m hm heq
    exact hmono.injOn hn hm (congrArg toLex heq)

end Position
end TerseMarkup
