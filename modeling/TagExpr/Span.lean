/-!
# Spans

Half-open byte ranges of a template file. Offsets are counted in 32 bits and saturate: everything
past the last countable offset is written as that offset.
-/

namespace TagExpr

/-- The byte range from `start` up to and not including `stop`. -/
structure Span where
  start : Nat
  stop : Nat
  deriving Repr, DecidableEq, Inhabited

namespace Span

/-- The largest offset a span can hold. -/
def maxOffset : Nat := Nat.pow 2 32 - 1

/-- An offset as a span holds it. -/
def saturate (offset : Nat) : Nat := min offset maxOffset

/-- The span of the range `start..stop`, its ends saturated. -/
def ofRange (start stop : Nat) : Span := ⟨saturate start, saturate stop⟩

/-- The empty span at `offset`. -/
def point (offset : Nat) : Span := ofRange offset offset

/-- The number of bytes covered. -/
def length (s : Span) : Nat := s.stop - s.start

def isEmpty (s : Span) : Bool := s.start == s.stop

/-- The smallest span that covers both. -/
def merge (s t : Span) : Span := ⟨min s.start t.start, max s.stop t.stop⟩

/-- Moves both ends by `offset` bytes. -/
def shift (s : Span) (offset : Nat) : Span := ofRange (s.start + offset) (s.stop + offset)

/-- The text `start..stop`. -/
def render (s : Span) : String := toString s.start ++ ".." ++ toString s.stop

instance : ToString Span := ⟨render⟩

theorem saturate_of_le {offset : Nat} (h : offset ≤ maxOffset) : saturate offset = offset :=
  Nat.min_eq_left h

theorem saturate_le (offset : Nat) : saturate offset ≤ maxOffset := Nat.min_le_right ..

theorem shift_of_le {s : Span} {offset : Nat} (hstart : s.start + offset ≤ maxOffset)
    (hstop : s.stop + offset ≤ maxOffset) :
    s.shift offset = ⟨s.start + offset, s.stop + offset⟩ := by
  simp [shift, ofRange, saturate_of_le hstart, saturate_of_le hstop]

theorem merge_comm (s t : Span) : s.merge t = t.merge s := by
  simp [merge, Nat.min_comm, Nat.max_comm]

end Span

end TagExpr
