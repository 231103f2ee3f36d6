import TerseMarkup.Proofs.Acceptance

/-!
# Derivations in other texts

A derivation depends on the text behind it only through the ends of its tokens. So it can be moved
before another text in which they end alike. One case cuts a text short: what was read of a text is
a document of its own, which `parseWithin_of_cut` says. Another lets a text go on in a new line.
-/

namespace TerseMarkup

/-- Pairs of texts such that every token that ends before the first ends before the second. -/
structure TextChange where
  Holds : List Char → List Char → Prop
  append : ∀ (front : List Char) {rest other : List Char}, Holds rest other →
    Holds (front ++ rest) (front ++ other)
  isLexeme : ∀ {t : Terminal} {lexeme rest other : List Char}, Holds rest other →
    t.IsLexeme lexeme rest → t.IsLexeme lexeme other

namespace TextChange

/-- The texts that go on with a given text, and what is before that. -/
def cut (removed : List Char) : TextChange where
  Holds rest other := rest = other ++ removed
  append front rest other h := by rw [h, List.append_assoc]
  isLexeme h hl := Terminal.isLexeme_of_append (h ▸ hl)

/-- The texts that go on behind their end with a line break and a given text. -/
def lengthen {c : Char} (hb : Text.isBlank c = true) (hc : Text.isLineBreak c = true)
    (added : List Char) : TextChange where
  Holds rest other := other = rest ++ c :: added
  append front rest other h := by rw [h, List.append_assoc]
  isLexeme h hl :=
    Terminal.isLexeme_of_looser hl (h ▸ Terminal.looser_append_lineBreak hb hc _ added)

variable (T : TextChange) {α : Type}

/-- What is derived before a text is derived before each changed one, from a changed text too. -/
def Carries (Derives : List Char → α → List Char → Prop) : Prop :=
  ∀ {text value rest other}, Derives text value rest → T.Holds rest other →
    ∃ changed, Derives changed value other ∧ T.Holds text changed

private theorem carries_token (t : Terminal) : T.Carries (DerivesToken t) := by
  rintro _ _ rest other ⟨blanks, lexeme, hb, rfl, hl, rfl⟩ h
  refine ⟨blanks ++ (lexeme ++ other), ⟨blanks, lexeme, hb, rfl, T.isLexeme h hl, rfl⟩, ?_⟩
  exact T.append blanks (T.append lexeme h)

private theorem carries_selector (mark : Char) : T.Carries (DerivesSelector mark) := by
  rintro _ _ rest other ⟨hmark, hname⟩ h
  obtain ⟨middle, hname, h⟩ := T.carries_token _ hname h
  obtain ⟨text, hmark, h⟩ := T.carries_token _ hmark h
  exact ⟨text, .mk hmark hname, h⟩

private theorem carries_selectors {text rest other : List Char} {className id : Option String}
    (hs : DerivesSelectors text className id rest) (h : T.Holds rest other) :
    ∃ changed, DerivesSelectors changed className id other ∧ T.Holds text changed := by
  induction hs with
  | none => exact ⟨other, .none, h⟩
  | className hfirst _ ih =>
    obtain ⟨middle, hothers, h⟩ := ih h
    obtain ⟨text, hfirst, h⟩ := T.carries_selector _ hfirst h
    exact ⟨text, .className hfirst hothers, h⟩
  | id hfirst _ ih =>
    obtain ⟨middle, hothers, h⟩ := ih h
    obtain ⟨text, hfirst, h⟩ := T.carries_selector _ hfirst h
    exact ⟨text, .id hfirst hothers, h⟩

private theorem carries_string : T.Carries DerivesString := by
  rintro _ _ rest other ⟨hliteral⟩ h
  obtain ⟨text, hliteral, h⟩ := T.carries_token _ hliteral h
  exact ⟨text, .mk hliteral, h⟩

private theorem carries_attribute : T.Carries DerivesAttribute := by
  rintro _ _ rest other ⟨hname, hcolon, hvalue⟩ h
  obtain ⟨_, hvalue, h⟩ := T.carries_string hvalue h
  obtain ⟨_, hcolon, h⟩ := T.carries_token _ hcolon h
  obtain ⟨text, hname, h⟩ := T.carries_token _ hname h
  exact ⟨text, .mk hname hcolon hvalue, h⟩

private theorem carries_moreAttributes : T.Carries DerivesMoreAttributes := by
  intro text more rest other hm h
  induction hm with
  | nil => exact ⟨other, .nil, h⟩
  | cons hcomma hfirst _ ih =>
    obtain ⟨_, hmore, h⟩ := ih h
    obtain ⟨_, hfirst, h⟩ := T.carries_attribute hfirst h
    obtain ⟨text, hcomma, h⟩ := T.carries_token _ hcomma h
    exact ⟨text, .cons hcomma hfirst hmore, h⟩

private theorem carries_attributes : T.Carries DerivesAttributes := by
  rintro _ _ rest other ⟨hopen, hfirst, hmore, hclose⟩ h
  obtain ⟨_, hclose, h⟩ := T.carries_token _ hclose h
  obtain ⟨_, hmore, h⟩ := T.carries_moreAttributes hmore h
  obtain ⟨_, hfirst, h⟩ := T.carries_attribute hfirst h
  obtain ⟨text, hopen, h⟩ := T.carries_token _ hopen h
  exact ⟨text, .mk hopen hfirst hmore hclose, h⟩

private theorem carries_head : T.Carries DerivesHead := by
  intro text head rest other hd h
  cases hd with
  | plain hname hselectors =>
    obtain ⟨_, hselectors, h⟩ := T.carries_selectors hselectors h
    obtain ⟨text, hname, h⟩ := T.carries_token _ hname h
    exact ⟨text, .plain hname hselectors, h⟩
  | listed hname hselectors hlist =>
    obtain ⟨_, hlist, h⟩ := T.carries_attributes hlist h
    obtain ⟨_, hselectors, h⟩ := T.carries_selectors hselectors h
    obtain ⟨text, hname, h⟩ := T.carries_token _ hname h
    exact ⟨text, .listed hname hselectors hlist, h⟩

mutual

private theorem carries_statement {text rest other : List Char} {statement : Statement} :
    DerivesStatement text statement rest → T.Holds rest other →
      ∃ changed, DerivesStatement changed statement other ∧ T.Holds text changed
  | .text hstring, h => by
    obtain ⟨changed, hstring, h⟩ := T.carries_string hstring h
    exact ⟨changed, .text hstring, h⟩
  | .tag hhead hbody, h => by
    obtain ⟨_, hbody, h⟩ := carries_body hbody h
    obtain ⟨changed, hhead, h⟩ := T.carries_head hhead h
    exact ⟨changed, .tag hhead hbody, h⟩

private theorem carries_body {text rest other : List Char} {body : Body} :
    DerivesBody text body rest → T.Holds rest other →
      ∃ changed, DerivesBody changed body other ∧ T.Holds text changed
  | .absent, h => ⟨other, .absent, h⟩
  | .single hcolon hstatement, h => by
    obtain ⟨_, hstatement, h⟩ := carries_statement hstatement h
    obtain ⟨changed, hcolon, h⟩ := T.carries_token _ hcolon h
    exact ⟨changed, .single hcolon hstatement, h⟩
  | .block hopen hstatements hclose, h => by
    obtain ⟨_, hclose, h⟩ := T.carries_token _ hclose h
    obtain ⟨_, hstatements, h⟩ := carries_statements hstatements h
    obtain ⟨changed, hopen, h⟩ := T.carries_token _ hopen h
    exact ⟨changed, .block hopen hstatements hclose, h⟩

/-- Statements can be derived from a changed text, before a changed rest. -/
theorem carries_statements {text rest other : List Char} {statements : List Statement} :
    DerivesStatements text statements rest → T.Holds rest other →
      ∃ changed, DerivesStatements changed statements other ∧ T.Holds text changed
  | .nil, h => ⟨other, .nil, h⟩
  | .cons hfirst hmore, h => by
    obtain ⟨_, hmore, h⟩ := carries_statements hmore h
    obtain ⟨changed, hfirst, h⟩ := carries_statement hfirst h
    exact ⟨changed, .cons hfirst hmore, h⟩

end

end TextChange

/-- The text up to where its statements end is a document of these statements. -/
theorem Document.parseWithin_of_cut {limit : Nat} {kept : List Char} {values : List Statement}
    {last : Cursor} (h : (attempt Furthest limit (kept ++ last.skipBlanks.rest)).outcome =
      .found values last) : parseWithin limit kept = .ok ⟨values⟩ := by
  obtain ⟨rest, ⟨hd, hn⟩, hl⟩ :=
    (Grammar.Inside.sound_within limit 0).statements _ _ _ _ (Cursor.At.refl _) h
  have hrest : rest = rest.takeWhile Text.isBlank ++ last.skipBlanks.rest := by
    rw [hl, List.takeWhile_append_dropWhile]
  obtain ⟨text, ht, hkept⟩ := (TextChange.cut last.skipBlanks.rest).carries_statements hd hrest
  obtain rfl : kept = text := List.append_cancel_right hkept
  exact parseWithin_of_derives ⟨_, ht, fun c hc ↦ List.mem_takeWhile_imp hc⟩ hn

end TerseMarkup
