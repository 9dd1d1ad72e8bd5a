import TagExpr.Proofs.Climbing.Chain

/-!
# Precedence climbing

The tree of a chain as a recursive descent finds it: an operator takes as its right operand whatever
follows and binds tighter than its limit. The parser does not recurse. It keeps the operators that
wait, and what it has to wait for is here called a frame. `resume` says what the climb makes of the
rest of a chain once the operators of the frames wait, and a frame may be left, or a new one be
entered, without changing it.
-/

namespace TagExpr

/-! ## Limits -/

/-- Behind every tier of the table. -/
def Operator.outermost : Nat := 21

/-- Operators in front of this tier belong to the operand of a prefix operator: all that bind
tighter. -/
def UnaryOp.limit (op : UnaryOp) : Nat := op.entry.precedence

/-- Operators in front of this tier belong to the right operand of a binary operator: all that bind
tighter, and those that bind equally tight if they associate to the right. -/
def BinaryOp.limit (op : BinaryOp) : Nat :=
  match op.entry.associativity with
  | .left => op.entry.precedence
  | .right => op.entry.precedence + 1

/-- Operators of one tier associate to one side. -/
theorem Operator.associativity_of_tier : ∀ a ∈ Operator.infixTable, ∀ b ∈ Operator.infixTable,
    a.precedence = b.precedence → a.associativity = b.associativity := by
  decide

theorem Operator.yieldsTo_iff {waiting incoming : Operator}
    (hw : waiting.kind.isContainer = false) (hi : incoming.kind.hasLeft) :
    waiting.yieldsTo incoming ↔ waiting.precedence < incoming.precedence ∨
      waiting.precedence = incoming.precedence ∧ incoming.associativity = .left := by
  simp [yieldsTo, hw, hi]

/-- No operator stands behind the last tier, and none in a tier of the prefix operators. -/
theorem BinaryOp.tier_entry (op : BinaryOp) :
    op.entry.precedence < Operator.outermost ∧
      ∀ other : UnaryOp, op.entry.precedence ≠ other.limit := by
  have hrows : ∀ row ∈ Operator.infixTable, row.precedence < Operator.outermost ∧
      row.precedence ≠ 2 ∧ row.precedence ≠ 19 := by
    decide
  obtain ⟨hlast, hnot, hdie⟩ := hrows _ op.entry_mem
  refine ⟨hlast, fun other => ?_⟩
  cases other with
  | die => exact hdie
  | _ => exact hnot

/-- A question mark binds looser than every binary operator. -/
theorem BinaryOp.tighter_question (op : BinaryOp) :
    op.entry.precedence < Operator.question.precedence := by
  cases op <;> decide

namespace Climbing

/-! ## The climb -/

inductive Tree where
  | atom (atom : Atom)
  | unary (op : UnaryOp) (operand : Tree)
  | binary (op : BinaryOp) (left right : Tree)

/-- What is left of a chain once a part of it has been read. -/
abbrev Rest (tail : Tail) := { rest : Tail // rest.length ≤ tail.length }

mutual

/-- The longest operand that begins here and whose operators stand in front of the limit. -/
def climb (limit : Nat) (prefixes : List UnaryOp) (atom : Atom) (tail : Tail) : Tree × Rest tail :=
  match prefixes with
  | [] => extend limit (.atom atom) tail
  | op :: prefixes =>
    let (operand, rest) := climb (op.limit) prefixes atom tail
    let (tree, last) := extend limit (.unary op operand) rest
    (tree, ⟨last, Nat.le_trans last.2 rest.2⟩)
termination_by (tail.length, prefixes.length + 1)
decreasing_by
  · exact .right _ (Nat.zero_lt_one)
  · exact .right _ (Nat.lt_succ_self _)
  · exact Prod.Lex.right' _ rest.2 (Nat.succ_pos _)

/-- The longest operand that `left` begins and whose operators stand in front of the limit. -/
def extend (limit : Nat) (left : Tree) (tail : Tail) : Tree × Rest tail :=
  match tail with
  | [] => (left, ⟨[], Nat.le_refl _⟩)
  | (op, term) :: after =>
    if op.entry.precedence < limit then
      let (right, rest) := climb (op.limit) term.prefixes term.atom after
      let (tree, last) := extend limit (.binary op left right) rest
      (tree, ⟨last, Nat.le_succ_of_le (Nat.le_trans last.2 rest.2)⟩)
    else
      (left, ⟨(op, term) :: after, Nat.le_refl _⟩)
termination_by (tail.length, 0)

end

/-- The tree of a whole chain. -/
def Chain.tree (c : Chain) : Tree := (climb Operator.outermost c.head.prefixes c.head.atom c.tail).1

/-! ## Frames -/

/-- An operator that waits for its right operand. -/
inductive Frame where
  | unary (op : UnaryOp)
  | binary (op : BinaryOp) (left : Tree)

namespace Frame

def row : Frame → Operator
  | unary op => op.entry
  | binary op _ => op.entry

def limit : Frame → Nat
  | unary op => op.limit
  | binary op _ => op.limit

/-- The operand that the frame makes of its right operand. -/
def plug : Frame → Tree → Tree
  | unary op, x => .unary op x
  | binary op left, x => .binary op left x

/-- A waiting operator yields to the next one just if that one stands behind its limit. -/
theorem yieldsTo_entry (f : Frame) (op : BinaryOp) :
    f.row.yieldsTo op.entry ↔ ¬ op.entry.precedence < f.limit := by
  have hleft : op.entry.kind.hasLeft := by rw [op.kind_entry]; rfl
  have hopen : f.row.kind.isContainer = false := by
    cases f with
    | unary other => rw [row, other.kind_entry]; rfl
    | binary other => rw [row, other.kind_entry]; rfl
  rw [Operator.yieldsTo_iff hopen hleft]
  cases f with
  | unary other =>
    have hne := op.tier_entry.2 other
    simp only [row, limit, UnaryOp.limit] at hne ⊢
    omega
  | binary other left =>
    have htier := Operator.associativity_of_tier _ other.entry_mem _ op.entry_mem
    simp only [row, limit, BinaryOp.limit]
    by_cases heq : other.entry.precedence = op.entry.precedence
    · rw [htier heq]
      cases op.entry.associativity with
      | left => simp [heq]
      | right => simp [heq]
    · cases other.entry.associativity with
      | left => simp only [heq, false_and, or_false]; omega
      | right => simp only [heq, false_and, or_false]; omega

end Frame

/-- What the climb makes of the rest of a chain while the operators of the frames wait, the
innermost first, and `x` has been read after them. -/
def resume : List Frame → Tree → Tail → Tree
  | [], x, tail => (extend Operator.outermost x tail).1
  | f :: frames, x, tail =>
    let (tree, rest) := extend f.limit x tail
    resume frames (f.plug tree) rest

/-- The frames of prefix operators, of which the last one is the innermost. -/
def framesOf (prefixes : List UnaryOp) : List Frame := prefixes.reverse.map .unary

/-- An operand that begins inside a frame is found by the climb with the limit of the frame. -/
theorem resume_climb (f : Frame) (frames : List Frame) (prefixes : List UnaryOp) (atom : Atom)
    (tail : Tail) :
    resume (framesOf prefixes ++ f :: frames) (.atom atom) tail =
      resume frames (f.plug (climb f.limit prefixes atom tail).1)
        (climb f.limit prefixes atom tail).2 := by
  induction prefixes generalizing f frames with
  | nil => rw [climb]; rfl
  | cons op prefixes ih =>
    rw [climb]
    simpa [framesOf, resume, Frame.limit, Frame.plug] using ih (.unary op) (f :: frames)

/-- A whole chain is what is made of it while nothing waits. -/
theorem Chain.tree_eq (c : Chain) :
    c.tree = resume (framesOf c.head.prefixes) (.atom c.head.atom) c.tail := by
  unfold Chain.tree
  cases c.head.prefixes with
  | nil => rw [climb]; rfl
  | cons op prefixes =>
    rw [climb]
    simpa [framesOf, resume, Frame.limit, Frame.plug] using
      (resume_climb (.unary op) [] prefixes c.head.atom c.tail).symm

/-- An operator that binds loosely takes all that follows, also behind one that binds tightly. -/
example (a b c : Atom) :
    Chain.tree ⟨⟨[], a⟩, [(.mul, ⟨[.die], b⟩), (.add, ⟨[], c⟩)]⟩ =
      .binary .mul (.atom a) (.unary .die (.binary .add (.atom b) (.atom c))) := by
  cbv

/-- At the end of the chain every frame is left. -/
theorem resume_nil (f : Frame) (frames : List Frame) (x : Tree) :
    resume (f :: frames) x [] = resume frames (f.plug x) [] := by
  simp [resume, extend]

/-- A frame is left before an operator behind its limit. -/
theorem resume_leave {f : Frame} {op : BinaryOp} (h : ¬ op.entry.precedence < f.limit)
    (frames : List Frame) (x : Tree) (term : Term) (tail : Tail) :
    resume (f :: frames) x ((op, term) :: tail) =
      resume frames (f.plug x) ((op, term) :: tail) := by
  simp [resume, extend, h]

/-- A frame is entered with an operator in front of the limit of the innermost one. -/
theorem resume_enter {frames : List Frame} {op : BinaryOp}
    (h : ∀ f ∈ frames.head?, op.entry.precedence < f.limit) (x : Tree) (term : Term)
    (tail : Tail) :
    resume frames x ((op, term) :: tail) =
      resume (framesOf term.prefixes ++ .binary op x :: frames) (.atom term.atom) tail := by
  rw [resume_climb]
  cases frames with
  | nil =>
    simp [resume, extend, op.tier_entry.1, Frame.limit, Frame.plug]
  | cons f frames =>
    have hlimit : op.entry.precedence < f.limit := h f rfl
    simp only [resume, extend, if_pos hlimit, Frame.plug]
    rfl

end Climbing

end TagExpr
