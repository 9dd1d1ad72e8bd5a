import TagExpr.Proofs.Value.Collection
import TagExpr.Value.Builtin

/-!
# Numbers as integers

A number counts as the integer that it equals, and as none otherwise (`toInt64?_eq_some_iff`). What
takes an integer, or looks up a key, therefore cannot tell an integer from the double of the same
worth (`equal_numbers_interchange`); only a refusal may, which names the kinds of its operands.
-/

namespace TagExpr

namespace Value

theorem int64?_eq_some_iff {x : Int} {n : Int64} : int64? x = some n ↔ x = n.toInt := by
  unfold int64?
  constructor
  · intro h
    obtain ⟨⟨least, greatest⟩, same⟩ := Option.ite_none_right_eq_some.1 h
    rw [← Option.some.inj same, Int64.toInt_ofInt_of_le least (Int.lt_add_one_of_le greatest)]
  · rintro rfl
    rw [if_pos ⟨n.minValue_le_toInt, n.toInt_le⟩, Int64.ofInt_toInt]

end Value

namespace Double

theorem natAbs_units (d : Double) : d.units.natAbs = d.magnitude := by
  unfold units
  split
  · rw [Int.natAbs_neg, Int.natAbs_natCast]
  · rw [Int.natAbs_natCast]

/-- Infinities and NaNs have the units of no integer. -/
theorem isFinite_of_units_eq {d : Double} {n : Int64} (same : d.units = unitsOfInt n) :
    d.isFinite := by
  by_contra special
  have beyond := unitsOfIntEnd_lt_magnitude special
  have lower := neg_unitsOfIntEnd_le n
  have upper := unitsOfInt_lt n
  have size := natAbs_units d
  omega

/-- **A double counts as an integer just if the integer has its units.** -/
theorem wholeDouble?_eq_some_iff {d : Double} {n : Int64} :
    Value.wholeDouble? d = some n ↔ d.units = unitsOfInt n := by
  have positive : unitsOfOne ≠ 0 := unitsOfOne_pos.ne'
  have wholeDouble?_eq : Value.wholeDouble? d =
      if d.isFinite && d.units % unitsOfOne = 0 then Value.int64? (d.units / unitsOfOne)
      else none := rfl
  rw [wholeDouble?_eq]
  constructor
  · intro h
    obtain ⟨whole, found⟩ := Option.ite_none_right_eq_some.1 h
    simp only [Bool.and_eq_true, decide_eq_true_eq] at whole
    rw [unitsOfInt, ← Value.int64?_eq_some_iff.1 found]
    exact (Int.ediv_mul_cancel_of_emod_eq_zero whole.2).symm
  · intro same
    rw [isFinite_of_units_eq same, same, unitsOfInt, Int.mul_emod_left,
      Int.mul_ediv_cancel _ positive]
    exact Value.int64?_eq_some_iff.2 rfl

end Double

namespace Value

variable {h : Host} {a b j k v : Value} {n : Int64}

/-- **A value counts as an integer just if it equals it.** -/
theorem toInt64?_eq_some_iff : v.toInt64? = some n ↔ cmp v (int n) = .eq := by
  cases v with
  | int m =>
    rw [toInt64?, Option.some_inj, cmp, compare_eq_iff_eq, Int64.toInt_inj]
  | double d =>
    rw [toInt64?, Double.wholeDouble?_eq_some_iff, cmp, Double.compareInt_eq_compare,
      ← Std.OrientedOrd.eq_swap, compare_eq_iff_eq]
  | _ =>
    refine iff_of_false (by simp [toInt64?]) fun same => ?_
    have rank := kindRank_eq_of_cmp_eq same
    simp [kindRank] at rank

/-- **A value counts as an integer just if it is worth it.** -/
theorem toInt64?_eq_some_iff_worth? : v.toInt64? = some n ↔ v.worth? = some (n.toInt : ℚ) := by
  cases v with
  | int m =>
    rw [toInt64?, worth?, Option.some_inj, Option.some_inj, Int.cast_inj, Int64.toInt_inj]
  | double d =>
    rw [toInt64?, worth?, Double.wholeDouble?_eq_some_iff, Option.ite_none_right_eq_some,
      Option.some_inj]
    have positive : (Double.unitsOfOne : ℚ) ≠ 0 := Int.cast_ne_zero.2 Double.unitsOfOne_pos.ne'
    have worth : d.value = n.toInt ↔ d.units = Double.unitsOfInt n := by
      rw [← mul_left_inj' positive, d.value_mul_unitsOfOne, Double.unitsOfInt, ← Int.cast_mul,
        Int.cast_inj]
    rw [worth]
    exact ⟨fun same => ⟨Double.isFinite_of_units_eq same, same⟩, And.right⟩
  | _ => exact iff_of_false (by simp [toInt64?]) (by simp [worth?])

/-- Equal values count as the same integer, or as none. -/
theorem toInt64?_congr (same : cmp j k = .eq) : j.toInt64? = k.toInt64? := by
  refine Option.ext fun n => ?_
  rw [toInt64?_eq_some_iff, toInt64?_eq_some_iff, Std.TransCmp.congr_left same]

/-! ## Numbers that are equal -/

/-- One value, or two numbers of the same worth, whatever the kind of each. -/
def Same (j k : Value) : Prop := j = k ∨ j.kindRank = 2 ∧ cmp j k = .eq

theorem Same.cmp_eq (same : Same j k) : cmp j k = .eq := by
  rcases same with rfl | ⟨-, same⟩
  · exact Std.ReflCmp.compare_self
  · exact same

/-- A number that counts as no integer is a double. -/
theorem typeName_of_toInt64?_eq_none (number : v.kindRank = 2) (none : v.toInt64? = none) :
    v.typeName = "double" := by
  cases v with
  | double d => rfl
  | int n => contradiction
  | _ => simp [kindRank] at number

/-- Where they count as no integer, they are one value or both of them doubles. -/
theorem Same.typeName_eq (same : Same j k) (none : j.toInt64? = none) :
    j.typeName = k.typeName := by
  have none' : k.toInt64? = .none := toInt64?_congr same.cmp_eq ▸ none
  rcases same with rfl | ⟨number, same⟩
  · rfl
  · have number' : k.kindRank = 2 := kindRank_eq_of_cmp_eq same ▸ number
    rw [typeName_of_toInt64?_eq_none number none, typeName_of_toInt64?_eq_none number' none']

theorem find?_congr (same : cmp j k = .eq) (entries : List (Value × Value)) :
    find? entries j = find? entries k := by
  unfold find?
  simp only [Std.TransCmp.congr_left same]

theorem memberOf_congr (same : cmp j k = .eq) (items : List Value) :
    memberOf j items = memberOf k items := by
  unfold memberOf
  congr 1
  funext item
  rw [Bool.eq_iff_iff, beq_iff, beq_iff, Std.TransCmp.congr_left same]

/-! ## What takes an integer -/

theorem integerArgument_congr (same : Same j k) (method : String) :
    integerArgument method j = integerArgument method k := by
  unfold integerArgument
  rw [← toInt64?_congr same.cmp_eq]
  cases none : j.toInt64? with
  | some n => rfl
  | none => rw [same.typeName_eq none]

theorem placeArgument_congr (same : Same j k) (method : String) (text : List Char) :
    placeArgument method j text = placeArgument method k text := by
  unfold placeArgument
  rw [integerArgument_congr same]

/-- What is indexed by position or by key, and not by the text of the index. -/
def isIndexed : Value → Bool
  | list _ | map _ | str _ => true
  | _ => false

theorem index_congr (h : Host) {receiver : Value} (indexed : receiver.isIndexed)
    (same : Same j k) : index h receiver j = index h receiver k := by
  have integer : j.toInt64? = k.toInt64? := toInt64?_congr same.cmp_eq
  have refused : j.toInt64? = none → (EvalFault.cannotIndex receiver.typeName j.typeName) =
      .cannotIndex receiver.typeName k.typeName := fun none => by rw [same.typeName_eq none]
  cases receiver with
  | list items =>
    simp only [index]
    rw [← integer]
    cases found : j.toInt64? with
    | some n => rfl
    | none => exact congrArg _ (refused found)
  | str s =>
    simp only [index]
    rw [← integer]
    cases found : j.toInt64? with
    | some n => rfl
    | none => exact congrArg _ (refused found)
  | map entries => simp only [index, find?_congr same.cmp_eq]
  | _ => contradiction

end Value

namespace Builtin

open Value

variable {a a' b b' : Value}

/-- A method that looks at the text of an argument. -/
def readsText : Builtin → Bool
  | text .contains | text .startsWith | text .endsWith | text .indexOf | text .replace
  | text .split => true
  | _ => false

theorem textMethod_congr (h : Host) (s : String) {m : TextMethod}
    (values : (text m).readsText = false) (same : Same a a') (same' : Same b b') :
    m.call h s a b = m.call h s a' b' := by
  cases m <;> first | contradiction | rfl | skip
  case substringFrom => simp only [TextMethod.call, placeArgument_congr same]
  case substring =>
    simp only [TextMethod.call, placeArgument_congr same, placeArgument_congr same']
  case charAt => simp only [TextMethod.call, integerArgument_congr same]

theorem listMethod_congr (items : List Value) (m : ListMethod) (same : Same a a') :
    m.call items a = m.call items a' := by
  cases m with
  | get => simp only [ListMethod.call, integerArgument_congr same]
  | contains => simp only [ListMethod.call, memberOf_congr same.cmp_eq]
  | indexOf =>
    have equals (item : Value) : (item == a) = (item == a') := by
      rw [Bool.eq_iff_iff, beq_iff, beq_iff, Std.TransCmp.congr_right same.cmp_eq]
    simp only [ListMethod.call, equals]
  | _ => rfl

theorem mapMethod_congr (entries : List (Value × Value)) (m : MapMethod) (same : Same a a') :
    m.call entries a = m.call entries a' := by
  cases m <;> first | rfl | simp only [MapMethod.call, find?_congr same.cmp_eq]

theorem setMethod_congr (items : List Value) (m : SetMethod) (same : Same a a') :
    m.call items a = m.call items a' := by
  cases m <;> first | rfl | simp only [SetMethod.call, memberOf_congr same.cmp_eq]

theorem rangeMethod_congr (r : IntRange) (m : RangeMethod) (same : Same a a') :
    m.call r a = m.call r a' := by
  cases m <;> first | rfl | simp only [RangeMethod.call, toInt64?_congr same.cmp_eq]

theorem same_getD {args args' : List Value} (same : List.Forall₂ Same args args') (i : Nat) :
    Same (args.getD i .null) (args'.getD i .null) := by
  induction same generalizing i with
  | nil => exact .inl rfl
  | cons first _ ih =>
    cases i with
    | zero => exact first
    | succ i => exact ih i

/-- **Methods cannot tell equal numbers apart**, unless they take them as texts. -/
theorem call_congr (h : Host) (receiver : Value) {args args' : List Value} {m : Builtin}
    (values : m.readsText = false) (same : List.Forall₂ Same args args') :
    m.call h receiver args = m.call h receiver args' := by
  have first := same_getD same 0
  have second := same_getD same 1
  cases m with
  | text m =>
    cases receiver <;> first | rfl | exact textMethod_congr h _ values first second
  | list m => cases receiver <;> first | rfl | exact listMethod_congr _ m first
  | map m => cases receiver <;> first | rfl | exact mapMethod_congr _ m first
  | set m => cases receiver <;> first | rfl | exact setMethod_congr _ m first
  | range m => cases receiver <;> first | rfl | exact rangeMethod_congr _ m first

end Builtin

/-- An operator on integers: a bitwise one, a shift or one that makes a range. -/
def BinaryOp.isIntegral : BinaryOp → Bool
  | shiftLeft | shiftRight | shiftRightUnsigned | bitAnd | bitXor | bitOr | range
  | rangeExclusive => true
  | _ => false

namespace Value

variable {h : Host} {a b c d j k : Value} {op : BinaryOp} {es es' : List (Value × Value)}

/-! ## Operators on integers -/

/-- Both have the same value, or the operator refuses both for the kinds of their operands. -/
def Alike (h : Host) (op : BinaryOp) (a c b d : Value) : Prop :=
  (∃ v, binary h op a c = .ok v ∧ binary h op b d = .ok v) ∨
    binary h op a c = .error (invalidOperands op a c) ∧
      binary h op b d = .error (invalidOperands op b d)

theorem binary_congr (h : Host) (integers : op.isIntegral) (left : Same a b) (right : Same c d) :
    Alike h op a c b d := by
  have onIntegers : ∃ f, binary h op = integral op f := by
    cases op <;> first | contradiction | exact ⟨_, rfl⟩
  obtain ⟨f, onIntegers⟩ := onIntegers
  unfold Alike integral at *
  rw [onIntegers]
  simp only
  rw [← toInt64?_congr left.cmp_eq, ← toInt64?_congr right.cmp_eq]
  cases a.toInt64? with
  | none => exact .inr ⟨rfl, rfl⟩
  | some m =>
    cases c.toInt64? with
    | none => exact .inr ⟨rfl, rfl⟩
    | some n => exact .inl ⟨_, rfl, rfl⟩

theorem bitNot_congr (h : Host) (same : Same j k) : unary h .bitNot j = unary h .bitNot k := by
  simp only [unary]
  rw [← toInt64?_congr same.cmp_eq]
  cases none : j.toInt64? with
  | some n => rfl
  | none => rw [same.typeName_eq none]

/-! ## Keys -/

/-- Entries with one value whose keys are equal numbers, or one key. -/
def SameEntry (e e' : Value × Value) : Prop := Same e.1 e'.1 ∧ e.2 = e'.2

theorem forall₂_insertBy {e e' : Value × Value} (first : SameEntry e e')
    (same : List.Forall₂ SameEntry es es') :
    List.Forall₂ SameEntry (insertBy Prod.fst e es) (insertBy Prod.fst e' es') := by
  induction same with
  | nil => exact .cons first .nil
  | @cons f f' rest rest' second same ih =>
    have place : cmp e.1 f.1 = cmp e'.1 f'.1 := by
      rw [Std.TransCmp.congr_left first.1.cmp_eq, Std.TransCmp.congr_right second.1.cmp_eq]
    unfold insertBy
    rw [← place]
    cases cmp e.1 f.1 with
    | lt => exact .cons first (.cons second same)
    | eq => exact .cons second same
    | gt => exact .cons second ih

theorem forall₂_collectBy (same : List.Forall₂ SameEntry es es') :
    List.Forall₂ SameEntry (collectBy Prod.fst es) (collectBy Prod.fst es') := by
  induction same with
  | nil => exact .nil
  | cons first _ ih => exact forall₂_insertBy first ih

theorem cmpEntries_of_forall₂ (same : List.Forall₂ SameEntry es es') :
    cmpEntries es es' = .eq := by
  induction same with
  | nil => rfl
  | @cons e e' rest rest' first _ ih =>
    have second : cmp e.2 e'.2 = .eq := first.2 ▸ Std.ReflCmp.compare_self
    rw [cmpEntries, cmpEntry_eq_then, ih]
    simp only [first.1.cmp_eq, second]
    rfl

theorem find?_of_forall₂ (same : List.Forall₂ SameEntry es es') (k : Value) :
    find? es k = find? es' k := by
  unfold find?
  induction same with
  | nil => rfl
  | @cons e e' rest rest' first _ ih =>
    rw [List.find?_cons, List.find?_cons, Std.TransCmp.congr_right first.1.cmp_eq]
    cases cmp k e'.1 == .eq with
    | true => exact congrArg some first.2
    | false => exact ih

/-! ## Everything that takes an integer or a key -/

/-- **Equal numbers are interchangeable wherever an integer or a key is taken.** A value counts as
an integer just if it equals it, which is to be worth it. So an index, an argument of a method that
does not take it as a text, an operand of an operator on integers and a key may each be replaced by
a number that equals it. -/
theorem equal_numbers_interchange (h : Host) :
    (∀ (v : Value) (n : Int64), v.toInt64? = some n ↔ (v == int n) = true) ∧
    (∀ (v : Value) (n : Int64), v.toInt64? = some n ↔ v.worth? = some (n.toInt : ℚ)) ∧
    (∀ receiver j k : Value, receiver.isIndexed → Same j k →
      index h receiver j = index h receiver k) ∧
    (∀ (receiver : Value) (args args' : List Value) (m : Builtin), m.readsText = false →
      List.Forall₂ Same args args' → m.call h receiver args = m.call h receiver args') ∧
    (∀ (op : BinaryOp) (a b c d : Value), op.isIntegral → Same a b → Same c d →
      Alike h op a c b d) ∧
    (∀ j k : Value, Same j k → unary h .bitNot j = unary h .bitNot k) ∧
    ∀ es es' : List (Value × Value), List.Forall₂ SameEntry es es' →
      (ofEntries es == ofEntries es') = true ∧
        ∀ k, index h (ofEntries es) k = index h (ofEntries es') k := by
  refine ⟨fun v n => ?_, fun v n => ?_, fun receiver j k indexed same => index_congr h indexed same,
    fun receiver args args' m values same => Builtin.call_congr h receiver values same,
    fun op a b c d integers left right => binary_congr h integers left right,
    fun j k same => bitNot_congr h same, fun es es' same => ⟨?_, fun k => ?_⟩⟩
  · rw [toInt64?_eq_some_iff, beq_iff]
  · exact toInt64?_eq_some_iff_worth?
  · rw [beq_iff]
    exact cmpEntries_of_forall₂ (forall₂_collectBy same)
  · simp only [ofEntries, index, find?_of_forall₂ (forall₂_collectBy same)]

/-- The double `-2 ^ 63` counts as the least integer, and is as good as it in an operation on bits;
and a negative zero is the index of the first item. -/
theorem equal_numbers_interchange_at_integer_limit :
    (double ⟨0xC3E0000000000000⟩).toInt64? = some (-9223372036854775808) ∧
      Alike {} .bitXor (double ⟨0xC3E0000000000000⟩) (int 1) (int (-9223372036854775808)) (int 1) ∧
      index {} (list [bool true]) (double ⟨0x8000000000000000⟩) = .ok (bool true) := by
  obtain ⟨integers, -, indices, -, operators, -⟩ := equal_numbers_interchange {}
  have least : cmp (double ⟨0xC3E0000000000000⟩) (int (-9223372036854775808)) = .eq := by
    decide +kernel
  have zero : cmp (double ⟨0x8000000000000000⟩) (int 0) = .eq := by decide +kernel
  refine ⟨(integers _ _).2 (beq_iff.2 least), ?_, ?_⟩
  · exact operators .bitXor _ _ _ _ rfl (.inr ⟨rfl, least⟩) (.inl rfl)
  · rw [indices _ _ (int 0) rfl (.inr ⟨rfl, zero⟩)]
    rfl

/-- `2 ^ 63` is beyond the integers, though the greatest of them would be rounded to it. -/
example : (double ⟨0x43E0000000000000⟩).toInt64? = none := by decide +kernel

end Value

end TagExpr
