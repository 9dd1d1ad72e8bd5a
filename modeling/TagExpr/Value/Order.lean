import TagExpr.Double.Arithmetic
import TagExpr.Value

/-!
# The order of values

All values are in one total order, on which equality, maps and sets rest. Values of different kinds
are ordered by kind, numbers by what they are worth, whether integer or double, and things that are
only numbered by their number.
-/

namespace TagExpr.Value

/-- The place of a kind of value among the kinds. All numbers are of one kind. -/
def kindRank : Value → Nat
  | null => 0
  | bool _ => 1
  | int _ | double _ => 2
  | str _ => 3
  | list _ => 4
  | map _ => 5
  | set _ => 6
  | range _ => 7
  | regex _ => 8
  | stream _ => 9
  | object .. => 10
  | type _ => 11

def compareRanges (a b : IntRange) : Ordering :=
  (compare a.start.toInt b.start.toInt).then
    ((compare a.stop.toInt b.stop.toInt).then (compare a.inclusive.toNat b.inclusive.toNat))

/-- Types are ordered by name; types of one name by number. -/
def compareTags (a b : TypeTag) : Ordering :=
  (compare a.name b.name).then (compare a.id b.id)

mutual

/-- Compares two values. -/
def cmp : Value → Value → Ordering
  | null, w => compare 0 w.kindRank
  | bool b, w => match w with
    | bool b' => compare b.toNat b'.toNat
    | w => compare 1 w.kindRank
  | int n, w => match w with
    | int n' => compare n.toInt n'.toInt
    | double d' => d'.compareInt n
    | w => compare 2 w.kindRank
  | double d, w => match w with
    | int n' => (d.compareInt n').swap
    | double d' => d.cmp d'
    | w => compare 2 w.kindRank
  | str s, w => match w with
    | str s' => compare s s'
    | w => compare 3 w.kindRank
  | list items, w => match w with
    | list items' => cmpList items items'
    | w => compare 4 w.kindRank
  | map entries, w => match w with
    | map entries' => cmpEntries entries entries'
    | w => compare 5 w.kindRank
  | set items, w => match w with
    | set items' => cmpList items items'
    | w => compare 6 w.kindRank
  | range r, w => match w with
    | range r' => compareRanges r r'
    | w => compare 7 w.kindRank
  | regex r, w => match w with
    | regex r' => compare r.source r'.source
    | w => compare 8 w.kindRank
  | stream id, w => match w with
    | stream id' => compare id id'
    | w => compare 9 w.kindRank
  | object id _ _ _, w => match w with
    | object id' _ _ _ => compare id id'
    | w => compare 10 w.kindRank
  | type tag, w => match w with
    | type tag' => compareTags tag tag'
    | w => compare 11 w.kindRank
termination_by structural v => v

/-- Compares two lists at the first place at which they differ; a list comes before its
continuations. -/
def cmpList : List Value → List Value → Ordering
  | [], ws => match ws with
    | [] => .eq
    | _ :: _ => .lt
  | v :: vs, ws => match ws with
    | [] => .gt
    | w :: ws => (cmp v w).then (cmpList vs ws)

/-- Compares the entries of two maps in the same way. -/
def cmpEntries : List (Value × Value) → List (Value × Value) → Ordering
  | [], ws => match ws with
    | [] => .eq
    | _ :: _ => .lt
  | v :: vs, ws => match ws with
    | [] => .gt
    | w :: ws => (cmpEntry v w).then (cmpEntries vs ws)

/-- Compares two entries by key, then by value. -/
def cmpEntry : Value × Value → Value × Value → Ordering
  | (k, v), (k', v') => (cmp k k').then (cmp v v')

end

/-- Equality of values, under which an integer equals the double of the same worth. -/
instance : BEq Value := ⟨fun a b => cmp a b == .eq⟩

/-- The order of `<` and its kin: numbers, texts and booleans each among themselves. -/
def partialCmp? : Value → Value → Option Ordering
  | int a, int b => some (cmp (int a) (int b))
  | int a, double b => some (cmp (int a) (double b))
  | double a, int b => some (cmp (double a) (int b))
  | double a, double b => some (cmp (double a) (double b))
  | str a, str b => some (cmp (str a) (str b))
  | bool a, bool b => some (cmp (bool a) (bool b))
  | _, _ => none

theorem beq_iff {a b : Value} : (a == b) = true ↔ cmp a b = .eq := by
  cases h : cmp a b <;> simp [BEq.beq, h]

theorem partialCmp?_eq_some {a b : Value} {o : Ordering} (h : partialCmp? a b = some o) :
    cmp a b = o := by
  unfold partialCmp? at h
  split at h <;> simp_all

theorem cmp_of_kindRank_ne {a b : Value} (h : a.kindRank ≠ b.kindRank) :
    cmp a b = compare a.kindRank b.kindRank := by
  cases a <;> cases b <;> simp_all [cmp, kindRank]

end TagExpr.Value
