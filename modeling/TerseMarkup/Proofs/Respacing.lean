import Mathlib.Data.List.Forall2
import Mathlib.Logic.ExistsUnique
import TerseMarkup.Proofs.Layout

/-!
# Gaps do not matter

The gaps between the tokens of a document may be changed, as long as a gap that is there stays
there and one with a line break keeps a line break. Names then end where they ended, because a
blank ends each of them. A string literal looks at the whole rest of its line, but that line never
gets longer by a token, so no quote comes to it. The main statement, `parse_of_respaced`, says that
a text has one layout and that each text with the same tokens and such gaps is the same document.
-/

namespace TerseMarkup

/-- A gap of blanks in place of another: it is there if the other is, and breaks the line if the
other does. -/
structure Text.Respaced (gap other : List Char) : Prop where
  blank : ∀ c ∈ other, Text.isBlank c = true
  ne_nil : gap ≠ [] → other ≠ []
  lineBreak : (∃ c ∈ gap, Text.isLineBreak c = true) → ∃ c ∈ other, Text.isLineBreak c = true

/-- The same token behind another gap. -/
structure Piece.Respaced (piece other : Piece) : Prop where
  token : piece.token = other.token
  gap : Text.Respaced piece.gap other.gap

/-- The same tokens with other gaps around them. -/
structure Layout.Respaced (layout other : Layout) : Prop where
  pieces : List.Forall₂ Piece.Respaced layout.pieces other.pieces
  last : Text.Respaced layout.last other.last

variable {gap other rest behind : List Char}

/-- A quote on the first line behind a gap is a quote behind it, and the gap is on that line. -/
private theorem Literal.quote_mem_firstLine_gap (hb : ∀ c ∈ gap, Text.isBlank c = true)
    (h : '"' ∈ firstLine (gap ++ rest)) :
    (∀ c ∈ gap, Text.isLineBreak c = false) ∧ '"' ∈ firstLine rest := by
  induction gap with
  | nil => exact ⟨by simp, h⟩
  | cons c gap ih =>
    obtain ⟨hc, hb⟩ := List.forall_mem_cons.mp hb
    cases hl : Text.isLineBreak c with
    | true => simp [firstLine, hl] at h
    | false =>
      have hq : '"' ≠ c := by
        rintro rfl
        cases hc
      simp only [firstLine, List.cons_append, List.takeWhile_cons, hl, Bool.not_false, ↓reduceIte,
        List.mem_cons, hq, false_or] at h
      obtain ⟨hgap, hrest⟩ := ih hb h
      exact ⟨List.forall_mem_cons.mpr ⟨hl, hgap⟩, hrest⟩

/-- Behind a changed gap tokens end as they did behind the gap. -/
private theorem Text.Respaced.looser (h : Text.Respaced gap other)
    (hl : Terminal.Looser rest behind) : Terminal.Looser (gap ++ rest) (other ++ behind) where
  head c hc := by
    cases other with
    | nil =>
      have hgap : gap = [] := by
        by_contra hne
        exact h.ne_nil hne rfl
      rw [hgap]
      exact hl.head c hc
    | cons d other =>
      obtain rfl : d = c := Option.some.inj hc
      exact .inl (h.blank d (by simp))
  quote hq := by
    obtain ⟨hother, hbehind⟩ := Literal.quote_mem_firstLine_gap h.blank hq
    have hgap : ∀ c ∈ gap, Text.isLineBreak c = false := by
      intro c hc
      rw [← Bool.not_eq_true]
      intro hbreak
      obtain ⟨d, hd, hbreak⟩ := h.lineBreak ⟨c, hc, hbreak⟩
      rw [hother d hd] at hbreak
      cases hbreak
    rw [Literal.firstLine_append hgap]
    exact List.mem_append_right gap (hl.quote hbehind)

/-- Tokens stay tokens when the gaps change. -/
private theorem Piece.allLexed_of_respaced {pieces others : List Piece} {last lastOther : List Char}
    (h : List.Forall₂ Piece.Respaced pieces others) (hl : Text.Respaced last lastOther)
    (hp : AllLexed pieces last) :
    AllLexed others lastOther ∧
      Terminal.Looser (textOfList pieces ++ last) (textOfList others ++ lastOther) := by
  induction h with
  | nil =>
    have hlast := hl.looser (Terminal.looser_nil [])
    rw [List.append_nil, List.append_nil] at hlast
    exact ⟨trivial, hlast⟩
  | cons hpiece _ ih =>
    obtain ⟨hlexed, hloose⟩ := ih hp.2
    have hlexeme := Terminal.isLexeme_of_looser hp.1.lexeme hloose
    rw [hpiece.token] at hlexeme
    refine ⟨⟨⟨hpiece.gap.blank, hlexeme⟩, hlexed⟩, ?_⟩
    simp only [textOfList, List.append_assoc, hpiece.token]
    exact hpiece.gap.looser (hloose.append _)

private theorem Layout.Respaced.tokens_eq {layout other : Layout} (h : layout.Respaced other) :
    layout.tokens = other.tokens := by
  have ht : List.Forall₂ (· = ·) layout.tokens other.tokens :=
    List.forall₂_map_left_iff.mpr
      (List.forall₂_map_right_iff.mpr (h.pieces.imp fun _ _ hp ↦ hp.token))
  rwa [List.forall₂_eq_eq_eq] at ht

/-- A layout with other gaps spells the same document. -/
private theorem Layout.Spells.respaced {layout other : Layout} {source : List Char}
    {document : Document} (h : layout.Spells source document) (hr : layout.Respaced other) :
    other.Spells other.text document where
  text := rfl
  lexed := (Piece.allLexed_of_respaced hr.pieces hr.last h.lexed).1
  last := hr.last.blank
  forms := hr.tokens_eq ▸ h.forms

namespace Document

/-- A text that is read as a document has exactly one layout whose tokens form the document, and
every text with these tokens and respaced gaps is read as the same document. -/
theorem parse_of_respaced {source : String} {document : Document}
    (h : parse source = .ok document) :
    (∃! layout : Layout, layout.Spells source.toList document) ∧
    ∀ layout other : Layout, layout.Spells source.toList document → layout.Respaced other →
      parse (String.ofList other.text) = .ok document := by
  obtain ⟨hd, hn⟩ := derives_of_parseWithin h
  constructor
  · obtain ⟨layout, hl⟩ := derives_iff_exists_spells.mp hd
    exact ⟨layout, hl, fun other ho ↦ ho.unique hl⟩
  · intro layout other hl hr
    rw [parse, String.toList_ofList]
    exact parseWithin_of_derives (derives_iff_exists_spells.mpr ⟨other, hl.respaced hr⟩) hn

-- A block with a literal whose backslash would hide its closing quote if the line had one more.
private def brokenLine (tag opening literal inner closing last : List Char) : Layout where
  pieces := [⟨tag, .name, ['a']⟩, ⟨opening, .mark '\x7b'⟩, ⟨literal, .string, ['"', '\\', '"']⟩,
    ⟨inner, .name, ['b']⟩, ⟨closing, .mark '\x7d'⟩]
  last := last

private def brokenLineDocument : Document :=
  ⟨[.tag ⟨"a", none, none, none⟩ (.block [.text "\\", .tag ⟨"b", none, none, none⟩ .absent])]⟩

private theorem spells_brokenLine : (brokenLine [] [] [] ['\n'] [] []).Spells
    "a\x7b\"\\\"\nb\x7d".toList brokenLineDocument where
  text := by decide
  lexed := ⟨⟨nofun, by decide⟩, ⟨nofun, by decide⟩, ⟨nofun, by decide⟩,
    ⟨List.forall_mem_singleton.mpr rfl, by decide⟩, ⟨nofun, by decide⟩, trivial⟩
  last := nofun
  forms := .cons (.tag (.plain .none)
    (.block (.cons .text (.cons (.tag (.plain .none) .absent) .nil)))) .nil

private theorem respaced_brokenLine : (brokenLine [] [] [] ['\n'] [] []).Respaced
    (brokenLine [' '] ['\t'] ['\u3000'] ['\r', '\u2028'] ['\ufeff'] ['\n']) := by
  have new {c : Char} (hc : Text.isBlank c = true) : Text.Respaced [] [c] :=
    ⟨List.forall_mem_singleton.mpr hc, by simp, by simp⟩
  have line : Text.Respaced ['\n'] ['\r', '\u2028'] :=
    ⟨List.forall_mem_cons.mpr ⟨rfl, List.forall_mem_singleton.mpr rfl⟩, by simp,
      fun _ ↦ ⟨'\r', by simp, rfl⟩⟩
  exact ⟨.cons ⟨rfl, new rfl⟩ (.cons ⟨rfl, new rfl⟩ (.cons ⟨rfl, new rfl⟩
    (.cons ⟨rfl, line⟩ (.cons ⟨rfl, new rfl⟩ .nil)))), new rfl⟩

/-- A line break behind a backslash and a quote may become other line breaks, and blanks of all
kinds may be put elsewhere. -/
theorem parse_of_respaced_block :
    parse "a\x7b\"\\\"\nb\x7d" = .ok brokenLineDocument ∧
      parse " a\t\x7b\u3000\"\\\"\r\u2028b\ufeff\x7d\n" = .ok brokenLineDocument := by
  have h : parse "a\x7b\"\\\"\nb\x7d" = .ok brokenLineDocument :=
    parseWithin_of_derives (derives_iff_exists_spells.mpr ⟨_, spells_brokenLine⟩) (by decide)
  have ht : String.ofList
      (brokenLine [' '] ['\t'] ['\u3000'] ['\r', '\u2028'] ['\ufeff'] ['\n']).text =
        " a\t\x7b\u3000\"\\\"\r\u2028b\ufeff\x7d\n" := by decide
  refine ⟨h, ?_⟩
  rw [← ht]
  exact (parse_of_respaced h).2 _ _ spells_brokenLine respaced_brokenLine

end Document
end TerseMarkup
