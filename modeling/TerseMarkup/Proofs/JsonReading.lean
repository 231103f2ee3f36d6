import TerseMarkup.Document.Json
import TerseMarkup.Proofs.Spelling

/-!
# Reading documents from JSON

A text of JSON is read in two passes. The first splits it into tokens, where blanks count only
inside string literals. The second builds a value from the tokens with a stack of the arrays and
objects that are still open. A value of the right shape is then a document. The layouts of a value
have the same tokens, so the main statement, `Document.ofText?_compact_and_indented`, holds of both.
-/

namespace TerseMarkup

namespace Json

/-! ### Tokens -/

/-- A token of JSON. -/
inductive Token where
  | null
  | string (value : String)
  | beginArray
  | endArray
  | beginObject
  | endObject
  | comma
  | colon
  deriving DecidableEq

/-- A token as it is written in a layout. -/
def Token.text (layout : Layout) : Token → String
  | null => "null"
  | string value => quote value
  | beginArray => "["
  | endArray => "]"
  | beginObject => "\x7b"
  | endObject => "\x7d"
  | comma => ","
  | colon => layout.colon

mutual

/-- The tokens of a value. -/
def tokens : Json → List Token
  | null => [.null]
  | string value => [.string value]
  | array [] => [.beginArray, .endArray]
  | array (item :: items) => .beginArray :: (item.tokens ++ (itemTokens items ++ [.endArray]))
  | object [] => [.beginObject, .endObject]
  | object ((name, value) :: fields) =>
    .beginObject :: .string name :: .colon ::
      (value.tokens ++ (fieldTokens fields ++ [.endObject]))

/-- The tokens of items that follow another item. -/
def itemTokens : List Json → List Token
  | [] => []
  | item :: items => .comma :: (item.tokens ++ itemTokens items)

/-- The tokens of fields that follow another field. -/
def fieldTokens : List (String × Json) → List Token
  | [] => []
  | (name, value) :: fields =>
    .comma :: .string name :: .colon :: (value.tokens ++ fieldTokens fields)

end

/-- Pieces of a text are tokens as they are written in a layout, with line breaks of the layout
between them. -/
inductive Laid (layout : Layout) : List String → List Token → Prop
  | nil : Laid layout [] []
  | token (token : Token) {pieces : List String} {tokens : List Token}
      (more : Laid layout pieces tokens) :
      Laid layout (token.text layout :: pieces) (token :: tokens)
  | lineBreak (depth : Nat) {pieces : List String} {tokens : List Token}
      (more : Laid layout pieces tokens) :
      Laid layout (layout.lineBreak depth :: pieces) tokens

private theorem Laid.append {layout : Layout} {pieces more : List String}
    {tokens others : List Token} (h : Laid layout pieces tokens) (hm : Laid layout more others) :
    Laid layout (pieces ++ more) (tokens ++ others) := by
  induction h with
  | nil => exact hm
  | token t _ ih => exact .token t ih
  | lineBreak depth _ ih => exact .lineBreak depth ih

mutual

/-- A value is laid out as its tokens. -/
private theorem laid_pieces (layout : Layout) (depth : Nat) :
    (value : Json) → Laid layout (value.pieces layout depth) value.tokens
  | null => .token .null .nil
  | string value => .token (.string value) .nil
  | array [] => .token .beginArray (.token .endArray .nil)
  | array (item :: items) =>
    .token .beginArray <| .lineBreak (depth + 1) <|
      (laid_pieces layout (depth + 1) item).append <|
        (laid_itemPieces layout (depth + 1) items).append <|
          .lineBreak depth <| .token .endArray .nil
  | object [] => .token .beginObject (.token .endObject .nil)
  | object ((name, value) :: fields) =>
    .token .beginObject <| .lineBreak (depth + 1) <| .token (.string name) <| .token .colon <|
      (laid_pieces layout (depth + 1) value).append <|
        (laid_fieldPieces layout (depth + 1) fields).append <|
          .lineBreak depth <| .token .endObject .nil

private theorem laid_itemPieces (layout : Layout) (depth : Nat) :
    (items : List Json) → Laid layout (itemPieces layout depth items) (itemTokens items)
  | [] => .nil
  | item :: items =>
    .token .comma <| .lineBreak depth <|
      (laid_pieces layout depth item).append (laid_itemPieces layout depth items)

private theorem laid_fieldPieces (layout : Layout) (depth : Nat) :
    (fields : List (String × Json)) →
      Laid layout (fieldPieces layout depth fields) (fieldTokens fields)
  | [] => .nil
  | (name, value) :: fields =>
    .token .comma <| .lineBreak depth <| .token (.string name) <| .token .colon <|
      (laid_pieces layout depth value).append (laid_fieldPieces layout depth fields)

end

/-! ### Blanks -/

/-- Where a place lies: outside string literals, or inside one, behind a backslash or not, with
what stands before it in the literal, last character first. -/
inductive Place where
  | outside
  | inside (raw : List Char)
  | escaped (raw : List Char)

/-- The place behind a character. -/
def Place.next : Place → Char → Place
  | outside, c => if c = '"' then inside [] else outside
  | inside raw, c =>
    if c = '"' then outside else if c = '\\' then escaped (c :: raw) else inside (c :: raw)
  | escaped raw, c => inside (c :: raw)

/-- The blanks that a layout may put between tokens. -/
def isSpacing (c : Char) : Bool := c == ' ' || c == '\n'

/-- A text without the blanks outside its string literals. -/
def withoutSpacing : Place → List Char → List Char
  | _, [] => []
  | .outside, c :: rest =>
    if isSpacing c then withoutSpacing .outside rest
    else c :: withoutSpacing (Place.next .outside c) rest
  | .inside raw, c :: rest => c :: withoutSpacing (Place.next (.inside raw) c) rest
  | .escaped raw, c :: rest => c :: withoutSpacing (.inside (c :: raw)) rest

/-- The token that a single character is. -/
def Token.ofChar? : Char → Option Token
  | '[' => some beginArray
  | ']' => some endArray
  | '\x7b' => some beginObject
  | '\x7d' => some endObject
  | ',' => some comma
  | ':' => some colon
  | _ => none

/-- The tokens of a text from a place on. -/
def tokens? : Place → List Char → Option (List Token)
  | .outside, [] => some []
  | .outside, 'n' :: 'u' :: 'l' :: 'l' :: rest => (tokens? .outside rest).map (.null :: ·)
  | .outside, c :: rest =>
    if c = '"' then tokens? (.inside []) rest
    else if isSpacing c then tokens? .outside rest
    else
      match Token.ofChar? c with
      | some token => (tokens? .outside rest).map (token :: ·)
      | none => none
  | .inside raw, c :: rest =>
    if c = '"' then
      (tokens? .outside rest).map (.string (String.ofList (Escape.decode raw.reverse)) :: ·)
    else tokens? (Place.next (.inside raw) c) rest
  | .escaped raw, c :: rest => tokens? (.inside (c :: raw)) rest
  | .inside _, [] => none
  | .escaped _, [] => none

/-! ### Strings -/

/-- What may stand between the quotes of a string: a backslash with the character after it, or a
character that is neither a backslash nor a quote. -/
inductive Inner : List Char → Prop
  | nil : Inner []
  | plain {c : Char} {raw : List Char} (quote : c ≠ '"') (backslash : c ≠ '\\')
      (more : Inner raw) : Inner (c :: raw)
  | escaped (c : Char) {raw : List Char} (more : Inner raw) : Inner ('\\' :: c :: raw)

private theorem inner_append_of_units {units raw : List Char} (h : Literal.Units units)
    (hr : Inner raw) : Inner (units ++ raw) := by
  induction h with
  | nil => exact hr
  | plain quote backslash _ _ ih => exact .plain quote backslash ih
  | escaped _ _ ih => exact .escaped _ ih

private theorem spellsUnit_control {c : Char} (h : c < ' ') :
    Escape.SpellsUnit c.toNat ('0' :: '0' :: Text.hexByte c.toNat) := by
  have hc : c.toNat < 32 := h
  have zeros : c.toNat / 4096 = 0 ∧ c.toNat / 256 % 16 = 0 ∧ c.toNat / 16 % 16 = c.toNat / 16 := by
    omega
  rw [Escape.SpellsUnit, zeros.1, zeros.2.1, zeros.2.2]
  exact .cons (by decide) (.cons (by decide) (.cons (.inl rfl) (.cons (.inl rfl) .nil)))

/-- A character of a string stands for itself or is spelled as in a literal of the notation. -/
private theorem escape_cases (c : Char) :
    escape c = [c] ∧ c ≠ '"' ∧ c ≠ '\\' ∨ Escape.SpellsChar c (escape c) := by
  unfold escape
  split
  · next h =>
    subst h
    exact .inr (.escaped (by decide) rfl)
  next hquote =>
  split
  · next h =>
    subst h
    exact .inr (.escaped (by decide) rfl)
  next hbackslash =>
  split
  · next h => exact .inr (h ▸ .letter (by decide))
  split
  · next h => exact .inr (h ▸ .letter (by decide))
  split
  · next h => exact .inr (h ▸ .letter (by decide))
  split
  · next h => exact .inr (h ▸ .letter (by decide))
  split
  · next h => exact .inr (h ▸ .letter (by decide))
  split
  · next h =>
    have basic : c.toNat < 32 := h
    exact .inr (.unit (by omega) (spellsUnit_control h))
  · exact .inl ⟨rfl, hquote, hbackslash⟩

private theorem inner_flatMap_escape (value : List Char) : Inner (value.flatMap escape) := by
  induction value with
  | nil => exact .nil
  | cons c value ih =>
    rw [List.flatMap_cons]
    rcases escape_cases c with ⟨he, hquote, hbackslash⟩ | hs
    · rw [he]
      exact .plain hquote hbackslash ih
    · have hu := hs.units .nil
      rw [List.append_nil] at hu
      exact inner_append_of_units hu ih

/-- The escapes of a string are read as those of a literal are. -/
private theorem decode_flatMap_escape (value : List Char) :
    Escape.decode (value.flatMap escape) = value := by
  induction value with
  | nil => rfl
  | cons c value ih =>
    rw [List.flatMap_cons]
    rcases escape_cases c with ⟨he, -, hbackslash⟩ | hs
    · rw [he, List.singleton_append, Escape.decode_cons hbackslash, ih]
    · rw [hs.decode_append, ih]

/-- A string literal is a single token. -/
private theorem tokens?_inside {raw : List Char} (h : Inner raw) (before rest : List Char) :
    tokens? (.inside before) (raw ++ '"' :: rest) = (tokens? .outside rest).map
      (.string (String.ofList (Escape.decode (before.reverse ++ raw))) :: ·) := by
  induction h generalizing before with
  | nil => rw [List.nil_append, tokens?, if_pos rfl, List.append_nil]
  | plain quote backslash _ ih =>
    rw [List.cons_append, tokens?, if_neg quote, Place.next, if_neg quote, if_neg backslash, ih,
      List.reverse_cons, List.append_assoc]
    rfl
  | escaped c _ ih =>
    rw [List.cons_append, tokens?, if_neg (by decide), Place.next, if_neg (by decide), if_pos rfl,
      List.cons_append, tokens?, ih, List.reverse_cons, List.reverse_cons, List.append_assoc,
      List.append_assoc]
    rfl

/-- A string literal keeps its blanks. -/
private theorem withoutSpacing_inside {raw : List Char} (h : Inner raw) (before rest : List Char) :
    withoutSpacing (.inside before) (raw ++ '"' :: rest) =
      raw ++ '"' :: withoutSpacing .outside rest := by
  induction h generalizing before with
  | nil => rw [List.nil_append, withoutSpacing, Place.next, if_pos rfl, List.nil_append]
  | plain quote backslash _ ih =>
    rw [List.cons_append, withoutSpacing, Place.next, if_neg quote, if_neg backslash, ih,
      List.cons_append]
  | escaped c _ ih =>
    rw [List.cons_append, withoutSpacing, Place.next, if_neg (by decide), if_pos rfl,
      List.cons_append, withoutSpacing, ih, List.cons_append, List.cons_append]

/-! ### Tokens of a text -/

/-- A layout that puts only blanks between tokens. -/
structure Layout.Spaced (layout : Layout) : Prop where
  lineBreak : ∀ depth, ∀ c ∈ (layout.lineBreak depth).toList, isSpacing c = true
  colon : ∃ spacing, layout.colon.toList = ':' :: spacing ∧ ∀ c ∈ spacing, isSpacing c = true

private theorem Layout.spaced_compact : Layout.compact.Spaced where
  lineBreak _ := by simp [Layout.compact]
  colon := ⟨[], rfl, by simp⟩

private theorem Layout.spaced_indented : Layout.indented.Spaced where
  lineBreak depth := by simp [Layout.indented, isSpacing]
  colon := ⟨[' '], rfl, by simp [isSpacing]⟩

/-- Only the word of the absent value is longer than a character. -/
private theorem tokens?_cons {c : Char} (h : c ≠ 'n') (rest : List Char) :
    tokens? .outside (c :: rest) =
      if c = '"' then tokens? (.inside []) rest
      else if isSpacing c then tokens? .outside rest
      else
        match Token.ofChar? c with
        | some token => (tokens? .outside rest).map (token :: ·)
        | none => none := by
  rw [tokens?]
  rintro - rfl
  exact absurd rfl h

private theorem tokens?_spacing {spacing : List Char} (h : ∀ c ∈ spacing, isSpacing c = true)
    (rest : List Char) : tokens? .outside (spacing ++ rest) = tokens? .outside rest := by
  induction spacing with
  | nil => rfl
  | cons c spacing ih =>
    have hc := h c (by simp)
    have hn : c ≠ 'n' := by
      rintro rfl
      cases hc
    have hq : c ≠ '"' := by
      rintro rfl
      cases hc
    rw [List.cons_append, tokens?_cons hn, if_neg hq, if_pos hc,
      ih fun d hd ↦ h d (List.mem_cons_of_mem _ hd)]

private theorem withoutSpacing_spacing {spacing : List Char} (h : ∀ c ∈ spacing, isSpacing c = true)
    (rest : List Char) :
    withoutSpacing .outside (spacing ++ rest) = withoutSpacing .outside rest := by
  induction spacing with
  | nil => rfl
  | cons c spacing ih =>
    rw [List.cons_append, withoutSpacing, if_pos (h c (by simp)),
      ih fun d hd ↦ h d (List.mem_cons_of_mem _ hd)]

private theorem toList_quote (value : String) :
    (quote value).toList = '"' :: (value.toList.flatMap escape ++ ['"']) := by
  rw [quote, String.toList_ofList]

/-- A token is read back, whatever follows. -/
private theorem tokens?_text {layout : Layout} (h : layout.Spaced) (token : Token)
    (rest : List Char) : tokens? .outside ((token.text layout).toList ++ rest) =
      (tokens? .outside rest).map (token :: ·) := by
  cases token with
  | string value =>
    rw [Token.text, toList_quote, List.cons_append, tokens?_cons (by decide), if_pos rfl,
      List.append_assoc, List.singleton_append, tokens?_inside (inner_flatMap_escape _),
      List.reverse_nil, List.nil_append, decode_flatMap_escape, String.ofList_toList]
  | colon =>
    obtain ⟨spacing, hcolon, hspacing⟩ := h.colon
    have hchar : tokens? .outside (':' :: (spacing ++ rest)) =
      (tokens? .outside (spacing ++ rest)).map (.colon :: ·) := rfl
    rw [Token.text, hcolon, List.cons_append, hchar, tokens?_spacing hspacing]
  | null | beginArray | endArray | beginObject | endObject | comma =>
    simp only [Token.text, String.reduceToList]
    rfl

/-- A token is the same in all layouts but for blanks. -/
private theorem withoutSpacing_text {layout : Layout} (h : layout.Spaced) (token : Token)
    (rest : List Char) :
    withoutSpacing .outside ((token.text layout).toList ++ rest) =
      (token.text .compact).toList ++ withoutSpacing .outside rest := by
  cases token with
  | string value =>
    rw [Token.text, Token.text, toList_quote, List.cons_append, withoutSpacing, if_neg (by decide),
      Place.next, if_pos rfl, List.append_assoc, List.singleton_append,
      withoutSpacing_inside (inner_flatMap_escape _), List.cons_append, List.append_assoc,
      List.singleton_append]
  | colon =>
    obtain ⟨spacing, hcolon, hspacing⟩ := h.colon
    have hchar : withoutSpacing .outside (':' :: (spacing ++ rest)) =
      ':' :: withoutSpacing .outside (spacing ++ rest) := rfl
    rw [Token.text, hcolon, List.cons_append, hchar, withoutSpacing_spacing hspacing]
    rfl
  | null | beginArray | endArray | beginObject | endObject | comma =>
    simp only [Token.text, String.reduceToList]
    rfl

variable {layout : Layout} {pieces : List String} {tokens : List Token}

private theorem Laid.tokens?_join (h : Laid layout pieces tokens) (hs : layout.Spaced) :
    tokens? .outside (String.join pieces).toList = some tokens := by
  induction h with
  | nil => rfl
  | token t _ ih =>
    rw [String.join_cons, String.toList_append, tokens?_text hs, ih]
    rfl
  | lineBreak depth _ ih =>
    rw [String.join_cons, String.toList_append, tokens?_spacing (hs.lineBreak depth), ih]

private theorem Laid.withoutSpacing_join (h : Laid layout pieces tokens) (hs : layout.Spaced) :
    withoutSpacing .outside (String.join pieces).toList =
      tokens.flatMap fun token ↦ (token.text .compact).toList := by
  induction h with
  | nil => rfl
  | token t _ ih =>
    rw [String.join_cons, String.toList_append, withoutSpacing_text hs, ih, List.flatMap_cons]
  | lineBreak depth _ ih =>
    rw [String.join_cons, String.toList_append, withoutSpacing_spacing (hs.lineBreak depth), ih]

/-- The compact layout puts nothing between tokens. -/
private theorem Laid.toList_join (h : Laid .compact pieces tokens) :
    (String.join pieces).toList = tokens.flatMap fun token ↦ (token.text .compact).toList := by
  induction h with
  | nil => rfl
  | token t _ ih => rw [String.join_cons, String.toList_append, ih, List.flatMap_cons]
  | lineBreak depth _ ih =>
    rw [String.join_cons, String.toList_append, ih]
    rfl

/-- Without its blanks, a text in any layout is the compact one. -/
private theorem withoutSpacing_toText (hs : layout.Spaced) (value : Json) :
    withoutSpacing .outside (value.toText layout).toList = (value.toText .compact).toList := by
  rw [toText, (laid_pieces layout 0 value).withoutSpacing_join hs, toText,
    (laid_pieces .compact 0 value).toList_join]

/-! ### Values from tokens -/

/-- What is open around a value: an array with the items before it, or an object with the fields
before it and the name of its own, each with the last one first. -/
inductive Frame where
  | array (items : List Json)
  | object (fields : List (String × Json)) (name : String)

/-- What may come next: a value, or what may stand behind an item, at the start of a field, behind
a name or behind a field. Around it stands what is still open. Once a value is complete nothing
may come. -/
inductive State where
  | value (stack : List Frame)
  | behindItem (items : List Json) (stack : List Frame)
  | field (fields : List (String × Json)) (stack : List Frame)
  | behindName (fields : List (String × Json)) (name : String) (stack : List Frame)
  | behindField (fields : List (String × Json)) (stack : List Frame)
  | complete (value : Json)

/-- What may come behind a value. -/
def State.behind (value : Json) : List Frame → State
  | [] => complete value
  | .array items :: stack => behindItem (value :: items) stack
  | .object fields name :: stack => behindField ((name, value) :: fields) stack

/-- Read a token. An array or an object may end where its first part is awaited, but not behind a
comma. -/
def State.step? : State → Token → Option State
  | value stack, .null => some (behind .null stack)
  | value stack, .string text => some (behind (.string text) stack)
  | value stack, .beginArray => some (value (.array [] :: stack))
  | value (.array [] :: stack), .endArray => some (behind (.array []) stack)
  | value stack, .beginObject => some (field [] stack)
  | behindItem items stack, .comma => some (value (.array items :: stack))
  | behindItem items stack, .endArray => some (behind (.array items.reverse) stack)
  | field fields stack, .string name => some (behindName fields name stack)
  | field [] stack, .endObject => some (behind (.object []) stack)
  | behindName fields name stack, .colon => some (value (.object fields name :: stack))
  | behindField fields stack, .comma => some (field fields stack)
  | behindField fields stack, .endObject => some (behind (.object fields.reverse) stack)
  | _, _ => none

/-- Read tokens one after the other. -/
def State.run? (state : State) (tokens : List Token) : Option State :=
  tokens.foldlM State.step? state

/-- The value that tokens are, if they are one. -/
def ofTokens? (tokens : List Token) : Option Json :=
  match State.run? (.value []) tokens with
  | some (.complete value) => some value
  | _ => none

/-- The value that a text is, if it is one. -/
def ofText? (text : String) : Option Json :=
  (tokens? .outside text.toList).bind ofTokens?

private theorem State.run?_cons {state next : State} {token : Token}
    (h : state.step? token = some next)
    (rest : List Token) : state.run? (token :: rest) = next.run? rest := by
  rw [run?, List.foldlM_cons, h]
  rfl

-- The stack and the tokens behind a value stay as they are, whatever they are.
mutual

/-- The tokens of a value are read as that value. -/
private theorem run?_tokens (stack : List Frame) (rest : List Token) : (value : Json) →
    State.run? (.value stack) (value.tokens ++ rest) = (State.behind value stack).run? rest
  | null => State.run?_cons rfl rest
  | string value => State.run?_cons rfl rest
  | array [] => by
    rw [Json.tokens, List.cons_append, State.run?_cons rfl, List.cons_append, State.run?_cons rfl,
      List.nil_append]
  | array (item :: items) => by
    rw [Json.tokens, List.cons_append, State.run?_cons rfl, List.append_assoc,
      run?_tokens (.array [] :: stack) _ item, State.behind, List.append_assoc,
      run?_itemTokens [item] stack _ items, List.singleton_append, State.run?_cons rfl]
    simp
  | object [] => by
    rw [Json.tokens, List.cons_append, State.run?_cons rfl, List.cons_append, State.run?_cons rfl,
      List.nil_append]
  | object ((name, value) :: fields) => by
    rw [Json.tokens, List.cons_append, State.run?_cons rfl, List.cons_append, State.run?_cons rfl,
      List.cons_append, State.run?_cons rfl, List.append_assoc,
      run?_tokens (.object [] name :: stack) _ value, State.behind, List.append_assoc,
      run?_fieldTokens [(name, value)] stack _ fields, List.singleton_append, State.run?_cons rfl]
    simp

private theorem run?_itemTokens (before : List Json) (stack : List Frame) (rest : List Token) :
    (items : List Json) → State.run? (.behindItem before stack) (itemTokens items ++ rest) =
      State.run? (.behindItem (items.reverse ++ before) stack) rest
  | [] => rfl
  | item :: items => by
    rw [itemTokens, List.cons_append, State.run?_cons rfl, List.append_assoc,
      run?_tokens (.array before :: stack) _ item, State.behind,
      run?_itemTokens (item :: before) stack rest items, List.reverse_cons, List.append_assoc,
      List.singleton_append]

private theorem run?_fieldTokens (before : List (String × Json)) (stack : List Frame)
    (rest : List Token) : (fields : List (String × Json)) →
    State.run? (.behindField before stack) (fieldTokens fields ++ rest) =
      State.run? (.behindField (fields.reverse ++ before) stack) rest
  | [] => rfl
  | (name, value) :: fields => by
    rw [fieldTokens, List.cons_append, State.run?_cons rfl, List.cons_append, State.run?_cons rfl,
      List.cons_append, State.run?_cons rfl, List.append_assoc,
      run?_tokens (.object before name :: stack) _ value, State.behind,
      run?_fieldTokens ((name, value) :: before) stack rest fields, List.reverse_cons,
      List.append_assoc, List.singleton_append]

end

private theorem ofTokens?_tokens (value : Json) : ofTokens? value.tokens = some value := by
  have h := run?_tokens [] [] value
  rw [List.append_nil] at h
  rw [ofTokens?, h]
  rfl

/-- A value is read back from its text in any layout. -/
private theorem ofText?_toText (hs : layout.Spaced) (value : Json) :
    ofText? (value.toText layout) = some value := by
  rw [ofText?, toText, (laid_pieces layout 0 value).tokens?_join hs, Option.bind_some,
    ofTokens?_tokens]

end Json

/-! ### Documents from values -/

/-- A text that may be absent, if a value is one. -/
def Json.toOption? : Json → Option (Option String)
  | .null => some none
  | .string value => some (some value)
  | _ => none

/-- The attribute that a value is, if it is one. -/
def Attribute.ofJson? : Json → Option Attribute
  | .object [("name", .string name), ("value", .string value)] => some ⟨name, value⟩
  | _ => none

/-- The attributes of a tag, which may be absent, if a value is these. -/
def TagHead.attributesOfJson? : Json → Option (Option (List Attribute))
  | .null => some none
  | .array items => (items.mapM Attribute.ofJson?).map some
  | _ => none

mutual

/-- The body that a value is, if it is one. A statement is an object, so it is told from an absent
body and from a block. -/
def Body.ofJson? : Json → Option Body
  | .null => some .absent
  | .object fields => (Statement.ofFields? fields).map .single
  | .array items => (Statement.ofItems? items).map .block
  | .string _ => none

/-- The statement that the fields of an object are, if they are one. -/
def Statement.ofFields? : List (String × Json) → Option Statement
  | [("type", .string "text"), ("value", .string value)] => some (.text value)
  | [("type", .string "tag"), ("value", .object [("name", .string name), ("class", className),
      ("id", id), ("attributes", attributes), ("body", body)])] => do
    let head := ⟨name, ← className.toOption?, ← id.toOption?,
      ← TagHead.attributesOfJson? attributes⟩
    return .tag head (← Body.ofJson? body)
  | _ => none

/-- The statements that items are, if each is one. -/
def Statement.ofItems? : List Json → Option (List Statement)
  | [] => some []
  | .object fields :: items => do
    let statement ← Statement.ofFields? fields
    return statement :: (← Statement.ofItems? items)
  | _ :: _ => none

end

/-- The document that a value is, if it is one. -/
def Document.ofJson? : Json → Option Document
  | .object [("statements", .array items)] => (Statement.ofItems? items).map .mk
  | _ => none

/-- The document that a text of JSON is, if it is one. -/
def Document.ofText? (text : String) : Option Document :=
  (Json.ofText? text).bind Document.ofJson?

private theorem Json.toOption?_ofOption (text : Option String) :
    (Json.ofOption text).toOption? = some text := by
  cases text <;> rfl

private theorem Attribute.mapM_ofJson?_toJson (attributes : List Attribute) :
    (attributes.map Attribute.toJson).mapM Attribute.ofJson? = some attributes := by
  induction attributes with
  | nil => rfl
  | cons first more ih =>
    have hfirst : Attribute.ofJson? first.toJson = some first := rfl
    rw [List.map_cons, List.mapM_cons, hfirst, ih]
    rfl

private theorem TagHead.attributesOfJson?_attributesJson (head : TagHead) :
    TagHead.attributesOfJson? head.attributesJson = some head.attributes := by
  obtain ⟨name, className, id, attributes⟩ := head
  cases attributes with
  | none => rfl
  | some attributes =>
    change ((attributes.map Attribute.toJson).mapM Attribute.ofJson?).map some =
      some (some attributes)
    rw [Attribute.mapM_ofJson?_toJson]
    rfl

mutual

/-- A statement is an object, which is read as the statement. -/
private theorem Statement.exists_toJson_eq_object : (statement : Statement) →
    ∃ fields, statement.toJson = .object fields ∧ Statement.ofFields? fields = some statement
  | .text value => ⟨_, rfl, rfl⟩
  | .tag head body => by
    refine ⟨_, rfl, ?_⟩
    rw [Statement.ofFields?, Json.toOption?_ofOption, Json.toOption?_ofOption,
      TagHead.attributesOfJson?_attributesJson, Body.ofJson?_toJson body]
    rfl

private theorem Body.ofJson?_toJson : (body : Body) → Body.ofJson? body.toJson = some body
  | .absent => rfl
  | .single statement => by
    obtain ⟨fields, hobject, hfields⟩ := Statement.exists_toJson_eq_object statement
    rw [Body.toJson, hobject, Body.ofJson?, hfields]
    rfl
  | .block statements => by
    rw [Body.toJson, Body.ofJson?, Statement.ofItems?_toJsonList statements]
    rfl

private theorem Statement.ofItems?_toJsonList : (statements : List Statement) →
    Statement.ofItems? (Statement.toJsonList statements) = some statements
  | [] => rfl
  | statement :: rest => by
    obtain ⟨fields, hobject, hfields⟩ := Statement.exists_toJson_eq_object statement
    rw [Statement.toJsonList, hobject, Statement.ofItems?, hfields,
      Statement.ofItems?_toJsonList rest]
    rfl

end

private theorem Document.ofJson?_toJson (document : Document) :
    Document.ofJson? document.toJson = some document := by
  rw [Document.toJson, Document.ofJson?, Statement.ofItems?_toJsonList]
  rfl

private theorem Document.ofText?_toText {layout : Json.Layout} (hs : layout.Spaced)
    (document : Document) : Document.ofText? (document.toJson.toText layout) = some document := by
  rw [Document.ofText?, Json.ofText?_toText hs, Option.bind_some, Document.ofJson?_toJson]

private theorem Document.toText_inj {layout : Json.Layout} (hs : layout.Spaced)
    {document other : Document} :
    document.toJson.toText layout = other.toJson.toText layout ↔ document = other := by
  constructor
  · intro h
    have hread := Document.ofText?_toText hs document
    rw [h, Document.ofText?_toText hs] at hread
    exact (Option.some.inj hread).symm
  · rintro rfl
    rfl

/-- A document is read back from its compact text and from its indented text, so no two documents
have the same text, and the indented text without the blanks outside its string literals is the
compact one. -/
theorem Document.ofText?_compact_and_indented (document other : Document) :
    Document.ofText? (document.toJson.toText .compact) = some document ∧
      Document.ofText? (document.toJson.toText .indented) = some document ∧
      (document.toJson.toText .compact = other.toJson.toText .compact ↔ document = other) ∧
      (document.toJson.toText .indented = other.toJson.toText .indented ↔ document = other) ∧
      Json.withoutSpacing .outside (document.toJson.toText .indented).toList =
        (document.toJson.toText .compact).toList :=
  ⟨Document.ofText?_toText Json.Layout.spaced_compact document,
    Document.ofText?_toText Json.Layout.spaced_indented document,
    Document.toText_inj Json.Layout.spaced_compact, Document.toText_inj Json.Layout.spaced_indented,
    Json.withoutSpacing_toText Json.Layout.spaced_indented document.toJson⟩

end TerseMarkup
