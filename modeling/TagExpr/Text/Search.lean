/-!
# Finding and splitting text

Searches for a piece of text in another, counted in characters. The empty piece occurs at every
place, both ends included.
-/

namespace TagExpr.Text

/-- The first place at which `piece` occurs. -/
def find? (piece : List Char) : List Char → Option Nat
  | [] => if piece.isEmpty then some 0 else none
  | c :: rest =>
    if piece.isPrefixOf (c :: rest) then some 0 else (find? piece rest).map (· + 1)

/-- `piece` occurs in the text. -/
def contains (piece text : List Char) : Bool := (find? piece text).isSome

/-- Cuts the rest of a text at every occurrence of a non-empty separator. The first `skip`
characters belong to an occurrence already found, and `gathered` is the text since then,
backwards. -/
def splitFrom (separator : List Char) (skip : Nat) (gathered : List Char) :
    List Char → List (List Char)
  | [] => [gathered.reverse]
  | c :: rest =>
    match skip with
    | skip + 1 => splitFrom separator skip gathered rest
    | 0 =>
      if separator.isPrefixOf (c :: rest) then
        gathered.reverse :: splitFrom separator (separator.length - 1) [] rest
      else
        splitFrom separator 0 (c :: gathered) rest

/-- The pieces of the text between occurrences of the separator. -/
def split (separator text : List Char) : List (List Char) :=
  if separator.isEmpty then [] :: text.map ([·]) ++ [[]] else splitFrom separator 0 [] text

/-- Puts `new` in the place of every occurrence of `old`. -/
def replace (old new text : List Char) : List Char := new.intercalate (split old text)

theorem find?_nil (text : List Char) : find? [] text = some 0 := by
  cases text <;> simp [find?]

theorem split_ne_nil (separator text : List Char) : split separator text ≠ [] := by
  have h : ∀ skip gathered, splitFrom separator skip gathered text ≠ [] := by
    induction text with
    | nil => simp [splitFrom]
    | cons c rest ih =>
      intro skip gathered
      cases skip with
      | succ skip => exact ih skip gathered
      | zero =>
        rw [splitFrom]
        split
        · simp
        · exact ih 0 _
  unfold split
  split
  · simp
  · exact h 0 []

end TagExpr.Text
