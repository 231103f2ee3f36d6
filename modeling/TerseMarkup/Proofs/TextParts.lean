/-!
# Texts in parts

A text is cut into parts at each occurrence of a character, and parts are joined with this
character between them. Lines are cut at line feeds, and segments of a path at slashes.
-/

namespace TerseMarkup.Text

/-- The parts of a text between the occurrences of a character. -/
def parts (c : Char) (text : String) : List String :=
  (text.toList.splitOn c).map String.ofList

/-- There is always a part, if only an empty one. -/
theorem parts_ne_nil (c : Char) (text : String) : parts c text ≠ [] := by
  rw [parts, ne_eq, List.map_eq_nil_iff]
  exact List.splitOn_ne_nil c _

private theorem notMem_of_mem_splitOn {c : Char} {text part : List Char}
    (h : part ∈ text.splitOn c) : c ∉ part := by
  induction text generalizing part with
  | nil =>
    obtain rfl := List.mem_singleton.mp h
    exact List.not_mem_nil
  | cons d text ih =>
    rw [List.splitOn_cons_eq_if_modifyHead] at h
    split at h
    · rcases List.mem_cons.mp h with rfl | h
      · exact List.not_mem_nil
      · exact ih h
    · next hd =>
      obtain ⟨first, more, hs⟩ := List.exists_cons_of_ne_nil (List.splitOn_ne_nil c text)
      rw [hs, List.forall_mem_cons] at ih
      rw [hs, List.modifyHead_cons] at h
      rcases List.mem_cons.mp h with rfl | h
      · have hne : c ≠ d := fun he ↦ hd (beq_iff_eq.mpr he.symm)
        exact List.not_mem_cons_of_ne_of_not_mem hne ih.1
      · exact ih.2 part h

/-- No part holds the character between parts. -/
theorem notMem_of_mem_parts {c : Char} {text part : String} (h : part ∈ parts c text) :
    c ∉ part.toList := by
  obtain ⟨chars, hc, rfl⟩ := List.mem_map.mp h
  rw [String.toList_ofList]
  exact notMem_of_mem_splitOn hc

/-- Texts without a character are the parts of what they are joined to with it. -/
theorem parts_intercalate {c : Char} {separator : String} {texts : List String}
    (hs : separator.toList = [c]) (hne : texts ≠ []) (h : ∀ text ∈ texts, c ∉ text.toList) :
    parts c (separator.intercalate texts) = texts := by
  have hsplit := List.splitOn_intercalate c (List.forall_mem_map.mpr h) (by simpa using hne)
  rw [parts, String.toList_intercalate, hs, hsplit, List.map_map]
  simp [Function.comp_def]

end TerseMarkup.Text
