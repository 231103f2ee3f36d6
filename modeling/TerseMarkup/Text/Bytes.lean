/-!
# Texts measured in bytes

A text is a list of characters, and a place in it is named by the number of UTF-8 bytes before
it. This module measures texts and cuts them at such places. A cut falls between two characters
or it does not: `takeBytes` then stops early, and `dropBytes?` gives nothing.
-/

namespace TerseMarkup.Text

/-- The number of bytes that a text takes in UTF-8. -/
def byteLength : List Char → Nat
  | [] => 0
  | c :: text => c.utf8Size + byteLength text

/-- The longest beginning of a text that fits into a number of bytes. -/
def takeBytes : Nat → List Char → List Char
  | _, [] => []
  | n, c :: text => if c.utf8Size ≤ n then c :: takeBytes (n - c.utf8Size) text else []

/-- What follows a number of bytes, if a character starts there or the text ends there. -/
def dropBytes? : Nat → List Char → Option (List Char)
  | 0, text => some text
  | _ + 1, [] => none
  | n + 1, c :: text =>
    if c.utf8Size ≤ n + 1 then dropBytes? (n + 1 - c.utf8Size) text else none

/-- An empty text has no bytes. -/
@[simp] theorem byteLength_nil : byteLength [] = 0 := rfl

/-- A character adds its bytes. -/
@[simp] theorem byteLength_cons (c : Char) (text : List Char) :
    byteLength (c :: text) = c.utf8Size + byteLength text := rfl

/-- The bytes of two texts add up. -/
@[simp] theorem byteLength_append (text more : List Char) :
    byteLength (text ++ more) = byteLength text + byteLength more := by
  induction text with
  | nil => rw [List.nil_append, byteLength_nil, Nat.zero_add]
  | cons c text ih => rw [List.cons_append, byteLength_cons, ih, byteLength_cons, Nat.add_assoc]

/-- Only the empty text has no bytes. -/
theorem byteLength_eq_zero_iff {text : List Char} : byteLength text = 0 ↔ text = [] := by
  cases text with
  | nil => simp
  | cons c text => simp [Nat.ne_of_gt c.utf8Size_pos]

/-- A cut between two texts takes the first. -/
theorem takeBytes_append (before after : List Char) :
    takeBytes (byteLength before) (before ++ after) = before := by
  induction before with
  | nil =>
    cases after with
    | nil => rfl
    | cons c after =>
      have hpos := c.utf8Size_pos
      rw [List.nil_append, takeBytes, if_neg]
      rw [byteLength_nil]
      omega
  | cons c before ih =>
    rw [List.cons_append, takeBytes, byteLength_cons, if_pos (Nat.le_add_right _ _),
      Nat.add_sub_cancel_left, ih]

end TerseMarkup.Text
