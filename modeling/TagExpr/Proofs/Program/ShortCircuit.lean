import TagExpr.Proofs.Eval.Steps
import TagExpr.Proofs.Program.Lowering

/-!
# Operators that choose between their sides

Six operators run their right side on demand. What they come to is what the operator makes of both
values, as if it were strict; the right side is left out when the value of the left one settles the
result by itself (`binary_short_circuits`).
-/

namespace TagExpr

namespace BinaryOp

variable {h : Host} {op : BinaryOp} {l : Value}

/-- After this left value, what the operator comes to can depend on the right value. -/
def DependsOnRight (h : Host) (op : BinaryOp) (l : Value) : Prop :=
  ∃ r r', Value.binary h op l r ≠ Value.binary h op l r'

/-- A right side that is left out would have made no difference. -/
theorem binary_eq_of_not_takesRight (settled : op.takesRight l = false) (r r' : Value) :
    Value.binary h op l r = Value.binary h op l r' := by
  cases op with
  | and | or | coalesce | elvis | ifPresent | ifTruthy =>
    simp_all [takesRight, Value.binary]
  | _ => simp [takesRight] at settled

/-- An operator on demand asks for the right side just where it matters. -/
theorem dependsOnRight_iff_takesRight (lazy : op.isLazy = true) :
    op.DependsOnRight h l ↔ op.takesRight l = true := by
  constructor
  · rintro ⟨r, r', differ⟩
    by_contra settled
    exact differ (binary_eq_of_not_takesRight (Bool.eq_false_iff.mpr settled) r r')
  · intro taken
    refine ⟨.bool true, .bool false, ?_⟩
    cases op with
    | and | or | coalesce | elvis | ifPresent | ifTruthy =>
      simp_all [takesRight, Value.binary, Value.isTruthy]
    | _ => simp [isLazy] at lazy

/-- Operators on demand are total. -/
theorem binary_isOk (h : Host) (lazy : op.isLazy = true) (l r : Value) :
    ∃ v, Value.binary h op l r = .ok v := by
  cases op with
  | and | or | coalesce | elvis | ifPresent | ifTruthy => exact ⟨_, rfl⟩
  | _ => simp [isLazy] at lazy

end BinaryOp

namespace Program

variable {op : BinaryOp} {left right : Program} {s : Scope} {m : Machine}

/-- The right side runs where it is taken, and what comes out is what the operator makes of the
values. -/
theorem binary_eq (op : BinaryOp) (left right : Program) (s : Scope) :
    binary op left right s = (do
      let l ← left s
      if op.takesRight l then
        let r ← right s
        Eval.ofExcept (Value.binary s.env.host op l r)
      else Eval.ofExcept (Value.binary s.env.host op l .null)) := by
  cases op with
  | and =>
    refine congrArg (left s >>= ·) (funext fun l => ?_)
    cases hl : l.isTruthy <;> simp [BinaryOp.takesRight, Value.binary, hl, Eval.ofExcept]
  | or =>
    refine congrArg (left s >>= ·) (funext fun l => ?_)
    cases hl : l.isTruthy <;> simp [BinaryOp.takesRight, Value.binary, hl, Eval.ofExcept]
  | coalesce | elvis | ifPresent | ifTruthy =>
    refine congrArg (left s >>= ·) (funext fun l => ?_)
    simp only [BinaryOp.takesRight, Value.binary]
    split <;> simp [Eval.ofExcept]
  | _ => rfl

/-- The machine that a program leaves, with a value or without. -/
def machineAfter (p : Program) (s : Scope) (m : Machine) : Machine :=
  match p s m with
  | .ok _ m' | .error _ m' => m'

/-- Every run of the program adds that much to the tally. -/
def Tallies (tally : Machine → Nat) (p : Program) (n : Nat) : Prop :=
  ∀ s m, tally (p.machineAfter s m) = tally m + n

/-- The left side has a value after which the right one matters. -/
def AsksRight (op : BinaryOp) (left : Program) (s : Scope) (m : Machine) : Prop :=
  ∃ l m', left s m = .ok l m' ∧ op.DependsOnRight s.env.host l

/-- What an operator on demand comes to. Each side runs on the machine that was left to it. -/
inductive ShortCircuit (op : BinaryOp) (left right : Program) (s : Scope) (m : Machine) :
    EStateM.Result Stop Machine Value → Prop
  | leftStops {stop : Stop} {m' : Machine} : left s m = .error stop m' →
      ShortCircuit op left right s m (.error stop m')
  | leftSettles {l v : Value} {m' : Machine} : left s m = .ok l m' →
      ¬ op.DependsOnRight s.env.host l → (∀ r, Value.binary s.env.host op l r = .ok v) →
      ShortCircuit op left right s m (.ok v m')
  | rightStops {l : Value} {stop : Stop} {m' m'' : Machine} : left s m = .ok l m' →
      op.DependsOnRight s.env.host l → right s m' = .error stop m'' →
      ShortCircuit op left right s m (.error stop m'')
  | bothRun {l r v : Value} {m' m'' : Machine} : left s m = .ok l m' →
      op.DependsOnRight s.env.host l → right s m' = .ok r m'' →
      Value.binary s.env.host op l r = .ok v → ShortCircuit op left right s m (.ok v m'')

section Result

variable {stop : Stop} {l r v : Value} {m' m'' : Machine}

theorem binary_leftStops (first : left s m = .error stop m') :
    binary op left right s m = .error stop m' := by
  simp only [binary_eq, bind, EStateM.bind, first]

theorem binary_leftSettles (first : left s m = .ok l m') (settled : op.takesRight l = false)
    (value : Value.binary s.env.host op l .null = .ok v) :
    binary op left right s m = .ok v m' := by
  simp only [binary_eq, bind, EStateM.bind, first, settled, value]
  rfl

theorem binary_rightStops (first : left s m = .ok l m') (taken : op.takesRight l = true)
    (second : right s m' = .error stop m'') : binary op left right s m = .error stop m'' := by
  simp only [binary_eq, bind, EStateM.bind, first, taken, if_true, second]

theorem binary_bothRun (first : left s m = .ok l m') (taken : op.takesRight l = true)
    (second : right s m' = .ok r m'') (value : Value.binary s.env.host op l r = .ok v) :
    binary op left right s m = .ok v m'' := by
  simp only [binary_eq, bind, EStateM.bind, first, taken, if_true, second, value]
  rfl

end Result

theorem shortCircuit (lazy : op.isLazy = true) (left right : Program) (s : Scope) (m : Machine) :
    ShortCircuit op left right s m (binary op left right s m) := by
  have matters (l : Value) := BinaryOp.dependsOnRight_iff_takesRight (h := s.env.host) (l := l) lazy
  cases first : left s m with
  | error stop m' => exact binary_leftStops first ▸ .leftStops first
  | ok l m' =>
    cases taken : op.takesRight l with
    | false =>
      obtain ⟨v, value⟩ := BinaryOp.binary_isOk s.env.host lazy l .null
      rw [binary_leftSettles first taken value]
      refine .leftSettles first (by simp [matters, taken]) fun r => ?_
      rw [BinaryOp.binary_eq_of_not_takesRight taken r .null, value]
    | true =>
      have depends : op.DependsOnRight s.env.host l := (matters l).mpr taken
      cases second : right s m' with
      | error stop m'' =>
        exact binary_rightStops first taken second ▸ .rightStops first depends second
      | ok r m'' =>
        obtain ⟨v, value⟩ := BinaryOp.binary_isOk s.env.host lazy l r
        exact binary_bothRun first taken second value ▸ .bothRun first depends second value

theorem asksRight_iff {l : Value} {m' : Machine} (first : left s m = .ok l m') :
    AsksRight op left s m ↔ op.DependsOnRight s.env.host l := by
  constructor
  · rintro ⟨l', m'', first', depends⟩
    rw [first] at first'
    cases first'
    exact depends
  · exact fun depends => ⟨l, m', first, depends⟩

/-- Each side adds to a tally as often as it runs. -/
theorem ShortCircuit.tally {tally : Machine → Nat} {a b : Nat} {p : Program}
    (run : ShortCircuit op left right s m (p s m)) (onLeft : Tallies tally left a)
    (onRight : Tallies tally right b) :
    (AsksRight op left s m → tally (p.machineAfter s m) = tally m + a + b) ∧
      (¬ AsksRight op left s m → tally (p.machineAfter s m) = tally m + a) := by
  have leftAdds := onLeft s m
  simp only [machineAfter] at leftAdds ⊢
  generalize p s m = result at run
  cases run with
  | leftStops first =>
    rw [first] at leftAdds
    refine ⟨?_, fun _ => leftAdds⟩
    rintro ⟨l, m', first', -⟩
    rw [first] at first'
    cases first'
  | leftSettles first settled value =>
    rw [first] at leftAdds
    exact ⟨fun asks => absurd ((asksRight_iff first).mp asks) settled, fun _ => leftAdds⟩
  | @rightStops _ _ m' _ first depends second =>
    have rightAdds := onRight s m'
    simp only [machineAfter, second] at rightAdds
    rw [first] at leftAdds
    exact ⟨fun _ => rightAdds.trans (congrArg (· + b) leftAdds),
      fun settled => absurd ((asksRight_iff first).mpr depends) settled⟩
  | @bothRun _ _ _ m' _ first depends second value =>
    have rightAdds := onRight s m'
    simp only [machineAfter, second] at rightAdds
    rw [first] at leftAdds
    exact ⟨fun _ => rightAdds.trans (congrArg (· + b) leftAdds),
      fun settled => absurd ((asksRight_iff first).mpr depends) settled⟩

/-- **An operator on demand is the strict one without the runs that cannot matter.** -/
theorem binary_short_circuits (lazy : op.isLazy = true) (left right : Program) :
    (∀ l r : Node, l.lower = some left → r.lower = some right →
      (Node.binary op l r).lower = some (binary op left right) ∧
        (Node.binary op l r).meaning = binary op left right) ∧
    ∀ s m, ShortCircuit op left right s m (binary op left right s m) ∧
      ∀ tally a b, Tallies tally left a → Tallies tally right b →
        (AsksRight op left s m →
          tally ((binary op left right).machineAfter s m) = tally m + a + b) ∧
        (¬ AsksRight op left s m →
          tally ((binary op left right).machineAfter s m) = tally m + a) := by
  refine ⟨fun l r hl hr => ⟨?lowered, ?meant⟩, fun s m => ?run⟩
  case lowered => simp [Node.lower, hl, hr]
  case meant =>
    rw [(Node.lower_eq_some_iff.mp hl).2, (Node.lower_eq_some_iff.mp hr).2, Node.binary_meaning]
  case run =>
    have run := shortCircuit lazy left right s m
    exact ⟨run, fun _ _ _ => run.tally⟩

/-- Notes its run and has a value. -/
def noting (v : Value) : Program := fun _ => do
  Eval.note v
  return v

theorem noting_tallies (v : Value) : Tallies (·.journal.length) (noting v) 1 := fun _ _ =>
  List.length_append

/-- The default for a null left side runs once after it. -/
theorem binary_short_circuits_coalesce : BinaryOp.coalesce.isLazy = true ∧
    ∀ s m, ((binary .coalesce (noting .null) (noting (.bool true))).machineAfter s
      m).journal.length = m.journal.length + 1 + 1 :=
  ⟨rfl, fun s m => (((binary_short_circuits rfl (noting .null) (noting (.bool true))).2 s m).2
    (·.journal.length) 1 1 (noting_tallies .null) (noting_tallies (.bool true))).1
    ⟨.null, _, rfl, (BinaryOp.dependsOnRight_iff_takesRight rfl).mpr rfl⟩⟩

end Program

end TagExpr
