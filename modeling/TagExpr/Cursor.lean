/-!
# Positions in a text

A cursor is a place in a text: the rest of the text and the byte offset at which it begins. Offsets
count bytes, because spans do.
-/

namespace TagExpr

/-- The number of bytes that the characters take. -/
def byteLength : List Char → Nat
  | [] => 0
  | c :: rest => c.utf8Size + byteLength rest

/-- A place in a text. -/
structure Cursor where
  /-- The number of bytes before this place. -/
  offset : Nat
  /-- What follows. -/
  rest : List Char
  deriving Repr, DecidableEq, Inhabited

namespace Cursor

/-- The beginning of a text. -/
def start (text : List Char) : Cursor := ⟨0, text⟩

/-- The place `count` characters further on. -/
def advance (at_ : Cursor) (count : Nat) : Cursor :=
  ⟨at_.offset + byteLength (at_.rest.take count), at_.rest.drop count⟩

/-- The place after all characters that satisfy `p` and follow without a gap. -/
def skipWhile (at_ : Cursor) (p : Char → Bool) : Cursor :=
  ⟨at_.offset + byteLength (at_.rest.takeWhile p), at_.rest.dropWhile p⟩

/-- The end of the text. -/
def endOffset (at_ : Cursor) : Nat := at_.offset + byteLength at_.rest

/-- The place at a byte offset of a text; nothing when it is past the end or inside a character. -/
def seek? : Nat → Cursor → Option Cursor
  | offset, ⟨at_, []⟩ => if at_ = offset then some ⟨at_, []⟩ else none
  | offset, ⟨at_, c :: rest⟩ =>
    if at_ = offset then some ⟨at_, c :: rest⟩ else seek? offset ⟨at_ + c.utf8Size, rest⟩
termination_by _ c => c.rest.length

end Cursor

theorem byteLength_append (a b : List Char) :
    byteLength (a ++ b) = byteLength a + byteLength b := by
  induction a with
  | nil => simp [byteLength]
  | cons c a ih => simp [byteLength, ih, Nat.add_assoc]

namespace Cursor

@[simp] theorem endOffset_advance (at_ : Cursor) (count : Nat) :
    (at_.advance count).endOffset = at_.endOffset := by
  simp only [advance, endOffset, Nat.add_assoc, ← byteLength_append, List.take_append_drop]

@[simp] theorem endOffset_skipWhile (at_ : Cursor) (p : Char → Bool) :
    (at_.skipWhile p).endOffset = at_.endOffset := by
  simp only [skipWhile, endOffset, Nat.add_assoc, ← byteLength_append,
    List.takeWhile_append_dropWhile]

end Cursor

end TagExpr
