import TerseMarkup.Proofs.Acceptance

/-!
# Layouts

A layout cuts a text into its tokens and the gaps of blanks around them. Tokens are read from a
text by the rules for lexemes, and statements are formed from tokens by a grammar in which neither
blanks nor characters occur. The two levels together say what derivations say:
`derives_iff_exists_spells`. A text has at most one layout, because the first character of a
token tells its class, once it is known whether the mark of a selector stands before it.
-/

namespace TerseMarkup

/-- A token: a lexeme and its class. -/
structure Token where
  terminal : Terminal
  lexeme : List Char
  deriving DecidableEq, Repr

/-- The token of a single character. -/
def Token.mark (c : Char) : Token := ⟨.char c, [c]⟩

/-- A token behind a gap. -/
structure Piece where
  gap : List Char
  token : Token
  deriving DecidableEq, Repr

namespace Piece

/-- The text of pieces. -/
def textOfList : List Piece → List Char
  | [] => []
  | piece :: pieces => piece.gap ++ (piece.token.lexeme ++ textOfList pieces)

/-- A gap of blanks and a token that ends where the text goes on. -/
structure Lexed (piece : Piece) (rest : List Char) : Prop where
  gap : ∀ c ∈ piece.gap, Text.isBlank c = true
  lexeme : piece.token.terminal.IsLexeme piece.token.lexeme rest

/-- Pieces before a text, each with a token that ends where the next piece starts. -/
def AllLexed : List Piece → List Char → Prop
  | [], _ => True
  | piece :: pieces, rest => piece.Lexed (textOfList pieces ++ rest) ∧ AllLexed pieces rest

end Piece

/-- A text cut into tokens and gaps. -/
structure Layout where
  pieces : List Piece
  /-- The gap at the end of the text. -/
  last : List Char
  deriving DecidableEq, Repr

/-- The text of a layout. -/
def Layout.text (layout : Layout) : List Char := Piece.textOfList layout.pieces ++ layout.last

/-- The tokens of a layout. -/
def Layout.tokens (layout : Layout) : List Token := layout.pieces.map Piece.token

/-! ### Statements formed from tokens -/

/-- The value of a string literal, its escapes read. -/
def Literal.value (lexeme : List Char) : String :=
  String.ofList (Escape.decode (Terminal.string.value lexeme))

/-- Tokens that start with a class and an id in either order, each at most once. -/
inductive FormsSelectors : List Token → Option String → Option String → List Token → Prop
  | none {rest : List Token} : FormsSelectors rest none none rest
  | className {lexeme : List Char} {tokens rest : List Token} {id : Option String} :
      FormsSelectors tokens none id rest →
      FormsSelectors (.mark '.' :: ⟨.identifier, lexeme⟩ :: tokens)
        (some (String.ofList lexeme)) id rest
  | id {lexeme : List Char} {tokens rest : List Token} {className : Option String} :
      FormsSelectors tokens className none rest →
      FormsSelectors (.mark '#' :: ⟨.identifier, lexeme⟩ :: tokens)
        className (some (String.ofList lexeme)) rest

/-- Tokens that start with an attribute. -/
inductive FormsAttribute : List Token → Attribute → List Token → Prop
  | mk {name literal : List Char} {rest : List Token} :
      FormsAttribute (⟨.name, name⟩ :: .mark ':' :: ⟨.string, literal⟩ :: rest)
        ⟨String.ofList name, Literal.value literal⟩ rest

/-- Tokens that start with attributes, each behind a comma. -/
inductive FormsMoreAttributes : List Token → List Attribute → List Token → Prop
  | nil {rest : List Token} : FormsMoreAttributes rest [] rest
  | cons {tokens middle rest : List Token} {first : Attribute} {more : List Attribute} :
      FormsAttribute tokens first middle → FormsMoreAttributes middle more rest →
      FormsMoreAttributes (.mark ',' :: tokens) (first :: more) rest

/-- Tokens that start with a list of attributes in brackets. -/
inductive FormsAttributes : List Token → List Attribute → List Token → Prop
  | mk {tokens middle rest : List Token} {first : Attribute} {more : List Attribute} :
      FormsAttribute tokens first middle → FormsMoreAttributes middle more (.mark ']' :: rest) →
      FormsAttributes (.mark '[' :: tokens) (first :: more) rest

/-- Tokens that start with the head of a tag. -/
inductive FormsHead : List Token → TagHead → List Token → Prop
  | plain {name : List Char} {tokens rest : List Token} {className id : Option String} :
      FormsSelectors tokens className id rest →
      FormsHead (⟨.name, name⟩ :: tokens) ⟨String.ofList name, className, id, none⟩ rest
  | listed {name : List Char} {tokens middle rest : List Token} {className id : Option String}
      {attributes : List Attribute} :
      FormsSelectors tokens className id middle → FormsAttributes middle attributes rest →
      FormsHead (⟨.name, name⟩ :: tokens) ⟨String.ofList name, className, id, some attributes⟩ rest

mutual

/-- Tokens that start with a statement. -/
inductive FormsStatement : List Token → Statement → List Token → Prop
  | text {literal : List Char} {rest : List Token} :
      FormsStatement (⟨.string, literal⟩ :: rest) (.text (Literal.value literal)) rest
  | tag {tokens middle rest : List Token} {head : TagHead} {body : Body} :
      FormsHead tokens head middle → FormsBody middle body rest →
      FormsStatement tokens (.tag head body) rest

/-- Tokens that start with the body of a tag. -/
inductive FormsBody : List Token → Body → List Token → Prop
  | absent {rest : List Token} : FormsBody rest .absent rest
  | single {tokens rest : List Token} {statement : Statement} :
      FormsStatement tokens statement rest →
      FormsBody (.mark ':' :: tokens) (.single statement) rest
  | block {tokens rest : List Token} {statements : List Statement} :
      FormsStatements tokens statements (.mark '\x7d' :: rest) →
      FormsBody (.mark '\x7b' :: tokens) (.block statements) rest

/-- Tokens that start with any number of statements. -/
inductive FormsStatements : List Token → List Statement → List Token → Prop
  | nil {rest : List Token} : FormsStatements rest [] rest
  | cons {tokens middle rest : List Token} {first : Statement} {more : List Statement} :
      FormsStatement tokens first middle → FormsStatements middle more rest →
      FormsStatements tokens (first :: more) rest

end

/-- A layout of a text whose tokens form a document. -/
structure Layout.Spells (layout : Layout) (source : List Char) (document : Document) : Prop where
  text : layout.text = source
  lexed : Piece.AllLexed layout.pieces layout.last
  last : ∀ c ∈ layout.last, Text.isBlank c = true
  forms : FormsStatements layout.tokens document.statements []

/-! ### Derivations are layouts whose tokens form statements -/

/-- A text of tokens before a last gap. -/
def Laid (last text : List Char) (tokens : List Token) : Prop :=
  ∃ pieces, tokens = pieces.map Piece.token ∧ text = Piece.textOfList pieces ++ last ∧
    Piece.AllLexed pieces last

namespace Laid

variable {last text rest value : List Char} {tokens behind : List Token}

private theorem nil (last : List Char) : Laid last last [] := ⟨[], rfl, rfl, trivial⟩

/-- A derived token is one more token before those behind it. -/
private theorem token {t : Terminal} (h : Laid last rest behind)
    (ht : DerivesToken t text value rest) :
    ∃ lexeme, value = t.value lexeme ∧ Laid last text (⟨t, lexeme⟩ :: behind) := by
  obtain ⟨pieces, rfl, rfl, hp⟩ := h
  obtain ⟨gap, lexeme, hg, rfl, hl, rfl⟩ := ht
  refine ⟨lexeme, rfl, ⟨gap, t, lexeme⟩ :: pieces, rfl, ?_, ⟨hg, hl⟩, hp⟩
  simp only [Piece.textOfList, List.append_assoc]

private theorem mark {c : Char} (h : Laid last rest behind) (hc : DerivesChar c text rest) :
    Laid last text (.mark c :: behind) := by
  obtain ⟨lexeme, hv, hl⟩ := h.token hc
  obtain rfl : [c] = lexeme := hv
  exact hl

/-- The first token of a text is derived. -/
private theorem derivesToken {t : Terminal} {lexeme : List Char}
    (h : Laid last text (⟨t, lexeme⟩ :: behind)) :
    ∃ rest, DerivesToken t text (t.value lexeme) rest ∧ Laid last rest behind := by
  obtain ⟨_ | ⟨⟨gap, token⟩, pieces⟩, he, rfl, hp⟩ := h
  · cases he
  · obtain ⟨rfl, rfl⟩ := List.cons.inj he
    refine ⟨Piece.textOfList pieces ++ last, ?_, pieces, rfl, rfl, hp.2⟩
    refine ⟨gap, lexeme, hp.1.gap, ?_, hp.1.lexeme, rfl⟩
    simp only [Piece.textOfList, List.append_assoc]

end Laid

/-- What is derived from a text is formed by its tokens. -/
def Formed {α : Type} (Derives : List Char → α → List Char → Prop)
    (Forms : List Token → α → List Token → Prop) : Prop :=
  ∀ {last text value rest behind}, Derives text value rest → Laid last rest behind →
    ∃ tokens, Forms tokens value behind ∧ Laid last text tokens

/-- What the tokens of a text form is derived from it. -/
def Unfolded {α : Type} (Derives : List Char → α → List Char → Prop)
    (Forms : List Token → α → List Token → Prop) : Prop :=
  ∀ {last text value tokens behind}, Forms tokens value behind → Laid last text tokens →
    ∃ rest, Derives text value rest ∧ Laid last rest behind

private theorem formed_selectors {last text rest : List Char} {className id : Option String}
    {behind : List Token} (hs : DerivesSelectors text className id rest)
    (h : Laid last rest behind) :
    ∃ tokens, FormsSelectors tokens className id behind ∧ Laid last text tokens := by
  induction hs with
  | none => exact ⟨behind, .none, h⟩
  | className hfirst _ ih =>
    obtain ⟨tokens, hf, h⟩ := ih h
    obtain ⟨hmark, hname⟩ := hfirst
    obtain ⟨lexeme, rfl, h⟩ := h.token hname
    exact ⟨_, .className hf, h.mark hmark⟩
  | id hfirst _ ih =>
    obtain ⟨tokens, hf, h⟩ := ih h
    obtain ⟨hmark, hname⟩ := hfirst
    obtain ⟨lexeme, rfl, h⟩ := h.token hname
    exact ⟨_, .id hf, h.mark hmark⟩

private theorem formed_string {last text rest : List Char} {value : String} {behind : List Token}
    (hs : DerivesString text value rest) (h : Laid last rest behind) :
    ∃ lexeme, value = Literal.value lexeme ∧ Laid last text (⟨.string, lexeme⟩ :: behind) := by
  obtain ⟨hliteral⟩ := hs
  obtain ⟨lexeme, rfl, h⟩ := h.token hliteral
  exact ⟨lexeme, rfl, h⟩

private theorem formed_attribute : Formed DerivesAttribute FormsAttribute := by
  rintro last _ _ rest behind ⟨hname, hcolon, hvalue⟩ h
  obtain ⟨literal, rfl, h⟩ := formed_string hvalue h
  obtain ⟨name, rfl, h⟩ := (h.mark hcolon).token hname
  exact ⟨_, .mk, h⟩

private theorem formed_moreAttributes : Formed DerivesMoreAttributes FormsMoreAttributes := by
  intro last text more rest behind hm h
  induction hm with
  | nil => exact ⟨behind, .nil, h⟩
  | cons hcomma hfirst _ ih =>
    obtain ⟨_, hmore, h⟩ := ih h
    obtain ⟨_, hf, h⟩ := formed_attribute hfirst h
    exact ⟨_, .cons hf hmore, h.mark hcomma⟩

private theorem formed_attributes : Formed DerivesAttributes FormsAttributes := by
  rintro last _ _ rest behind ⟨hopen, hfirst, hmore, hclose⟩ h
  obtain ⟨_, hm, h⟩ := formed_moreAttributes hmore (h.mark hclose)
  obtain ⟨_, hf, h⟩ := formed_attribute hfirst h
  exact ⟨_, .mk hf hm, h.mark hopen⟩

private theorem formed_head : Formed DerivesHead FormsHead := by
  intro last text head rest behind hd h
  cases hd with
  | plain hname hselectors =>
    obtain ⟨_, hs, h⟩ := formed_selectors hselectors h
    obtain ⟨name, rfl, h⟩ := h.token hname
    exact ⟨_, .plain hs, h⟩
  | listed hname hselectors hlist =>
    obtain ⟨_, hl, h⟩ := formed_attributes hlist h
    obtain ⟨_, hs, h⟩ := formed_selectors hselectors h
    obtain ⟨name, rfl, h⟩ := h.token hname
    exact ⟨_, .listed hs hl, h⟩

mutual

private theorem formed_statement {last text rest : List Char} {statement : Statement}
    {behind : List Token} : DerivesStatement text statement rest → Laid last rest behind →
    ∃ tokens, FormsStatement tokens statement behind ∧ Laid last text tokens
  | .text hstring, h => by
    obtain ⟨literal, rfl, h⟩ := formed_string hstring h
    exact ⟨_, .text, h⟩
  | .tag hhead hbody, h => by
    obtain ⟨_, hb, h⟩ := formed_body hbody h
    obtain ⟨_, hh, h⟩ := formed_head hhead h
    exact ⟨_, .tag hh hb, h⟩

private theorem formed_body {last text rest : List Char} {body : Body} {behind : List Token} :
    DerivesBody text body rest → Laid last rest behind →
    ∃ tokens, FormsBody tokens body behind ∧ Laid last text tokens
  | .absent, h => ⟨behind, .absent, h⟩
  | .single hcolon hstatement, h => by
    obtain ⟨_, hs, h⟩ := formed_statement hstatement h
    exact ⟨_, .single hs, h.mark hcolon⟩
  | .block hopen hstatements hclose, h => by
    obtain ⟨_, hs, h⟩ := formed_statements hstatements (h.mark hclose)
    exact ⟨_, .block hs, h.mark hopen⟩

private theorem formed_statements {last text rest : List Char} {statements : List Statement}
    {behind : List Token} : DerivesStatements text statements rest → Laid last rest behind →
    ∃ tokens, FormsStatements tokens statements behind ∧ Laid last text tokens
  | .nil, h => ⟨behind, .nil, h⟩
  | .cons hfirst hmore, h => by
    obtain ⟨_, hm, h⟩ := formed_statements hmore h
    obtain ⟨_, hf, h⟩ := formed_statement hfirst h
    exact ⟨_, .cons hf hm, h⟩

end

private theorem unfolded_selectors {last text : List Char} {className id : Option String}
    {tokens behind : List Token} (hs : FormsSelectors tokens className id behind)
    (h : Laid last text tokens) :
    ∃ rest, DerivesSelectors text className id rest ∧ Laid last rest behind := by
  induction hs generalizing text with
  | none => exact ⟨text, .none, h⟩
  | className _ ih =>
    obtain ⟨_, hmark, h⟩ := h.derivesToken
    obtain ⟨_, hname, h⟩ := h.derivesToken
    obtain ⟨rest, hothers, h⟩ := ih h
    exact ⟨rest, .className (.mk hmark hname) hothers, h⟩
  | id _ ih =>
    obtain ⟨_, hmark, h⟩ := h.derivesToken
    obtain ⟨_, hname, h⟩ := h.derivesToken
    obtain ⟨rest, hothers, h⟩ := ih h
    exact ⟨rest, .id (.mk hmark hname) hothers, h⟩

private theorem unfolded_attribute : Unfolded DerivesAttribute FormsAttribute := by
  rintro last text _ _ behind ⟨⟩ h
  obtain ⟨_, hname, h⟩ := h.derivesToken
  obtain ⟨_, hcolon, h⟩ := h.derivesToken
  obtain ⟨rest, hliteral, h⟩ := h.derivesToken
  exact ⟨rest, .mk hname hcolon (.mk hliteral), h⟩

private theorem unfolded_moreAttributes : Unfolded DerivesMoreAttributes FormsMoreAttributes := by
  intro last text more tokens behind hm h
  induction hm generalizing text with
  | nil => exact ⟨text, .nil, h⟩
  | cons hfirst _ ih =>
    obtain ⟨_, hcomma, h⟩ := h.derivesToken
    obtain ⟨_, hf, h⟩ := unfolded_attribute hfirst h
    obtain ⟨rest, hmore, h⟩ := ih h
    exact ⟨rest, .cons hcomma hf hmore, h⟩

private theorem unfolded_attributes : Unfolded DerivesAttributes FormsAttributes := by
  rintro last text _ _ behind ⟨hfirst, hmore⟩ h
  obtain ⟨_, hopen, h⟩ := h.derivesToken
  obtain ⟨_, hf, h⟩ := unfolded_attribute hfirst h
  obtain ⟨_, hm, h⟩ := unfolded_moreAttributes hmore h
  obtain ⟨rest, hclose, h⟩ := h.derivesToken
  exact ⟨rest, .mk hopen hf hm hclose, h⟩

private theorem unfolded_head : Unfolded DerivesHead FormsHead := by
  intro last text head tokens behind hd h
  cases hd with
  | plain hselectors =>
    obtain ⟨_, hname, h⟩ := h.derivesToken
    obtain ⟨rest, hs, h⟩ := unfolded_selectors hselectors h
    exact ⟨rest, .plain hname hs, h⟩
  | listed hselectors hlist =>
    obtain ⟨_, hname, h⟩ := h.derivesToken
    obtain ⟨_, hs, h⟩ := unfolded_selectors hselectors h
    obtain ⟨rest, hl, h⟩ := unfolded_attributes hlist h
    exact ⟨rest, .listed hname hs hl, h⟩

mutual

private theorem unfolded_statement {last text : List Char} {statement : Statement}
    {tokens behind : List Token} : FormsStatement tokens statement behind →
    Laid last text tokens → ∃ rest, DerivesStatement text statement rest ∧ Laid last rest behind
  | .text, h => by
    obtain ⟨rest, hliteral, h⟩ := h.derivesToken
    exact ⟨rest, .text (.mk hliteral), h⟩
  | .tag hhead hbody, h => by
    obtain ⟨_, hh, h⟩ := unfolded_head hhead h
    obtain ⟨rest, hb, h⟩ := unfolded_body hbody h
    exact ⟨rest, .tag hh hb, h⟩

private theorem unfolded_body {last text : List Char} {body : Body} {tokens behind : List Token} :
    FormsBody tokens body behind → Laid last text tokens →
    ∃ rest, DerivesBody text body rest ∧ Laid last rest behind
  | .absent, h => ⟨text, .absent, h⟩
  | .single hstatement, h => by
    obtain ⟨_, hcolon, h⟩ := h.derivesToken
    obtain ⟨rest, hs, h⟩ := unfolded_statement hstatement h
    exact ⟨rest, .single hcolon hs, h⟩
  | .block hstatements, h => by
    obtain ⟨_, hopen, h⟩ := h.derivesToken
    obtain ⟨_, hs, h⟩ := unfolded_statements hstatements h
    obtain ⟨rest, hclose, h⟩ := h.derivesToken
    exact ⟨rest, .block hopen hs hclose, h⟩

private theorem unfolded_statements {last text : List Char} {statements : List Statement}
    {tokens behind : List Token} : FormsStatements tokens statements behind →
    Laid last text tokens → ∃ rest, DerivesStatements text statements rest ∧ Laid last rest behind
  | .nil, h => ⟨text, .nil, h⟩
  | .cons hfirst hmore, h => by
    obtain ⟨_, hf, h⟩ := unfolded_statement hfirst h
    obtain ⟨rest, hm, h⟩ := unfolded_statements hmore h
    exact ⟨rest, .cons hf hm, h⟩

end

/-- A text derives a document exactly if it has a layout whose tokens form the document. -/
theorem derives_iff_exists_spells {source : List Char} {document : Document} :
    DerivesDocument source document ↔ ∃ layout : Layout, layout.Spells source document := by
  constructor
  · rintro ⟨last, hd, hb⟩
    obtain ⟨_, hf, pieces, rfl, rfl, hp⟩ := formed_statements hd (.nil last)
    exact ⟨⟨pieces, last⟩, rfl, hp, hb, hf⟩
  · rintro ⟨layout, rfl, hp, hb, hf⟩
    obtain ⟨rest, hd, _ | _, he, rfl, -⟩ :=
      unfolded_statements hf ⟨layout.pieces, rfl, rfl, hp⟩
    · exact ⟨layout.last, hd, hb⟩
    · cases he

/-! ### A text has one layout -/

/-- Whether a token is the mark of a selector, behind which an identifier has to stand. -/
def Token.isSelectorMark (token : Token) : Bool :=
  token.terminal == .char '.' || token.terminal == .char '#'

/-- The class of the token that starts with a character, behind the mark of a selector or not. -/
def Terminal.ofStart (marked : Bool) (c : Char) : Terminal :=
  if marked then .identifier
  else if Text.isNameChar c then .name
  else if c = '"' then .string
  else .char c

/-- Tokens whose classes show in their first characters, none of which is a blank. -/
def Told : Bool → List Token → Prop
  | _, [] => True
  | marked, token :: tokens =>
    (∀ c, token.terminal.starts c = true →
      Text.isBlank c = false ∧ Terminal.ofStart marked c = token.terminal) ∧
      Told token.isSelectorMark tokens

namespace Told

variable {lexeme : List Char} {tokens : List Token}

private theorem name (h : Told false tokens) : Told false (⟨.name, lexeme⟩ :: tokens) :=
  ⟨fun _ hc ↦ ⟨Terminal.isBlank_of_starts hc nofun, if_pos hc⟩, h⟩

private theorem string (h : Told false tokens) : Told false (⟨.string, lexeme⟩ :: tokens) := by
  refine ⟨fun c hc ↦ ?_, h⟩
  obtain rfl : c = '"' := by simpa [Terminal.starts] using hc
  exact ⟨rfl, rfl⟩

private theorem identifier (h : Told false tokens) : Told true (⟨.identifier, lexeme⟩ :: tokens) :=
  ⟨fun _ hc ↦ ⟨Terminal.isBlank_of_starts hc nofun, rfl⟩, h⟩

private theorem mark {c : Char} (h : Told (Token.mark c).isSelectorMark tokens)
    (hb : Text.isBlank c = false) (ho : Terminal.ofStart false c = .char c) :
    Told false (.mark c :: tokens) := by
  refine ⟨fun d hd ↦ ?_, h⟩
  obtain rfl : d = c := by simpa [Token.mark, Terminal.starts] using hd
  exact ⟨hb, ho⟩

end Told

private theorem told_selectors {tokens behind : List Token} {className id : Option String}
    (hs : FormsSelectors tokens className id behind) (h : Told false behind) :
    Told false tokens := by
  induction hs with
  | none => exact h
  | className _ ih => exact .mark (.identifier (ih h)) rfl rfl
  | id _ ih => exact .mark (.identifier (ih h)) rfl rfl

private theorem told_attribute {tokens behind : List Token} {pair : Attribute}
    (ha : FormsAttribute tokens pair behind) (h : Told false behind) : Told false tokens := by
  cases ha
  exact .name (.mark (.string h) rfl rfl)

private theorem told_moreAttributes {tokens behind : List Token} {more : List Attribute}
    (hm : FormsMoreAttributes tokens more behind) (h : Told false behind) :
    Told false tokens := by
  induction hm with
  | nil => exact h
  | cons hfirst _ ih => exact .mark (told_attribute hfirst (ih h)) rfl rfl

private theorem told_attributes {tokens behind : List Token} {attributes : List Attribute}
    (ha : FormsAttributes tokens attributes behind) (h : Told false behind) :
    Told false tokens := by
  obtain ⟨hfirst, hmore⟩ := ha
  have hclose := told_moreAttributes hmore (.mark h rfl rfl)
  exact .mark (told_attribute hfirst hclose) rfl rfl

private theorem told_head {tokens behind : List Token} {head : TagHead}
    (hd : FormsHead tokens head behind) (h : Told false behind) : Told false tokens := by
  cases hd with
  | plain hselectors => exact .name (told_selectors hselectors h)
  | listed hselectors hlist => exact .name (told_selectors hselectors (told_attributes hlist h))

mutual

private theorem told_statement {tokens behind : List Token} {statement : Statement} :
    FormsStatement tokens statement behind → Told false behind → Told false tokens
  | .text, h => .string h
  | .tag hhead hbody, h => told_head hhead (told_body hbody h)

private theorem told_body {tokens behind : List Token} {body : Body} :
    FormsBody tokens body behind → Told false behind → Told false tokens
  | .absent, h => h
  | .single hstatement, h => .mark (told_statement hstatement h) rfl rfl
  | .block hstatements, h =>
    .mark (told_statements hstatements (.mark h rfl rfl)) rfl rfl

private theorem told_statements {tokens behind : List Token} {statements : List Statement} :
    FormsStatements tokens statements behind → Told false behind → Told false tokens
  | .nil, h => h
  | .cons hfirst hmore, h => told_statement hfirst (told_statements hmore h)

end

/-- The first character of a piece behind its gap. -/
private theorem Piece.Lexed.exists_start {piece : Piece} {rest : List Char} (h : piece.Lexed rest) :
    ∃ c tail, piece.token.lexeme ++ rest = c :: tail ∧ piece.token.terminal.starts c = true :=
  Terminal.exists_starts_of_lexeme? (Terminal.isLexeme_iff_lexeme?.mp h.lexeme)

/-- Two pieces whose classes show in their first characters are the same if their texts are. -/
private theorem Piece.Lexed.eq {piece other : Piece} {rest behind : List Char} {marked : Bool}
    {tokens others : List Token} (hp : piece.Lexed rest) (hq : other.Lexed behind)
    (ht : Told marked (piece.token :: tokens)) (hu : Told marked (other.token :: others))
    (h : piece.gap ++ (piece.token.lexeme ++ rest) =
      other.gap ++ (other.token.lexeme ++ behind)) : piece = other ∧ rest = behind := by
  obtain ⟨c, tail, hc, hs⟩ := hp.exists_start
  obtain ⟨d, tail', hd, hs'⟩ := hq.exists_start
  obtain ⟨hb, ho⟩ := ht.1 c hs
  obtain ⟨hb', ho'⟩ := hu.1 d hs'
  rw [hc, hd] at h
  obtain ⟨hgap, hstart⟩ := Terminal.run_inj hp.gap hq.gap (Terminal.stops_cons hb tail)
    (Terminal.stops_cons hb' tail') h
  obtain ⟨rfl, rfl⟩ := List.cons.inj hstart
  have hterminal : piece.token.terminal = other.token.terminal := ho.symm.trans ho'
  have hlexeme : piece.token.lexeme = other.token.lexeme := by
    have hl := Terminal.isLexeme_iff_lexeme?.mp hp.lexeme
    have hl' := Terminal.isLexeme_iff_lexeme?.mp hq.lexeme
    rw [hc, hterminal] at hl
    rw [hd, hl] at hl'
    exact Option.some.inj hl'
  obtain ⟨gap, terminal, lexeme⟩ := piece
  obtain ⟨gap', terminal', lexeme'⟩ := other
  obtain rfl : gap = gap' := hgap
  obtain rfl : terminal = terminal' := hterminal
  obtain rfl : lexeme = lexeme' := hlexeme
  exact ⟨rfl, List.append_cancel_left (hc.trans hd.symm)⟩

private theorem Piece.Lexed.not_blank {piece : Piece} {rest text : List Char} {marked : Bool}
    {tokens : List Token} (hp : piece.Lexed rest) (ht : Told marked (piece.token :: tokens))
    (hb : ∀ c ∈ text, Text.isBlank c = true) :
    text ≠ piece.gap ++ (piece.token.lexeme ++ rest) := by
  rintro rfl
  obtain ⟨c, tail, hc, hs⟩ := hp.exists_start
  have hn := (ht.1 c hs).1
  rw [hb c (by simp [hc])] at hn
  cases hn

/-- Pieces whose classes show in their first characters are the same if their texts are. -/
private theorem Piece.eq_of_textOfList {pieces others : List Piece} {last lastOther : List Char}
    {marked : Bool} (ht : Told marked (pieces.map Piece.token))
    (hu : Told marked (others.map Piece.token)) (hp : AllLexed pieces last)
    (hq : AllLexed others lastOther) (hl : ∀ c ∈ last, Text.isBlank c = true)
    (hm : ∀ c ∈ lastOther, Text.isBlank c = true)
    (h : textOfList pieces ++ last = textOfList others ++ lastOther) :
    pieces = others ∧ last = lastOther := by
  induction pieces generalizing others marked with
  | nil =>
    cases others with
    | nil => exact ⟨rfl, h⟩
    | cons other others =>
      simp only [textOfList, List.append_assoc] at h
      exact absurd h (hq.1.not_blank hu hl)
  | cons piece pieces ih =>
    cases others with
    | nil =>
      simp only [textOfList, List.append_assoc] at h
      exact absurd h.symm (hp.1.not_blank ht hm)
    | cons other others =>
      simp only [textOfList, List.append_assoc] at h
      obtain ⟨rfl, hrest⟩ := hp.1.eq hq.1 ht hu h
      obtain ⟨rfl, rfl⟩ := ih ht.2 hu.2 hp.2 hq.2 hrest
      exact ⟨rfl, rfl⟩

/-- A text has at most one layout whose tokens form a document. -/
theorem Layout.Spells.unique {layout other : Layout} {source : List Char}
    {document found : Document} (h : layout.Spells source document)
    (ho : other.Spells source found) : layout = other := by
  obtain ⟨pieces, last⟩ := layout
  obtain ⟨others, lastOther⟩ := other
  obtain ⟨rfl, rfl⟩ := Piece.eq_of_textOfList (told_statements h.forms trivial)
    (told_statements ho.forms trivial) h.lexed ho.lexed h.last ho.last (h.text.trans ho.text.symm)
  rfl

end TerseMarkup
