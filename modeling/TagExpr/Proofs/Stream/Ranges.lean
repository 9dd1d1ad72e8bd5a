import TagExpr.Proofs.Stream.Remains
import TagExpr.Proofs.Value.Integral

/-!
# Ranges hold their integers

The bounds, the length, the membership and the truth of a range are computed from its two ends, and
its stream counts from one to the other. They agree on one list of integers, `IntRange.integers`
(`ranges_hold_their_integers`), and none of them leaves 64 bits on the way: `Source.after` says
where the count is after some reads (`after_range`), and a counter of 64 bits that adds one with a
check gives the same elements (`IntRange.Counts.firsts`).
-/

namespace TagExpr

namespace IntRange

variable {r : IntRange} {n : Int64} {i : Nat}

/-! ## The bounds -/

/-- The first and the last member, found in 64 bits: where no integer is before an end that is left
out, there is no member. -/
def checkedBounds? (r : IntRange) : Option (Int64 × Int64) := do
  let last ← if r.inclusive then some r.stop else Value.int64? (r.stop.toInt - 1)
  if r.start ≤ last then some (r.start, last) else none

/-- **No bound leaves 64 bits**, for an exclusive range that ends at the least integer is empty. -/
theorem bounds?_eq_checkedBounds? (r : IntRange) :
    r.bounds? = r.checkedBounds?.map fun bounds => (bounds.1.toInt, bounds.2.toInt) := by
  have ordered (last : Int64) : (if r.start.toInt ≤ last.toInt then some (r.start.toInt, last.toInt)
      else none) = (if r.start ≤ last then some (r.start, last) else none).map
        fun bounds : Int64 × Int64 => (bounds.1.toInt, bounds.2.toInt) := by
    by_cases below : r.start ≤ last
    · rw [if_pos below, if_pos (Int64.le_iff_toInt_le.1 below)]
      rfl
    · rw [if_neg below, if_neg (mt Int64.le_iff_toInt_le.2 below)]
      rfl
  unfold bounds? checkedBounds?
  by_cases inclusive : r.inclusive
  · rw [if_pos inclusive, if_pos inclusive]
    exact ordered r.stop
  · rw [if_neg inclusive, if_neg inclusive]
    cases before : Value.int64? (r.stop.toInt - 1) with
    | some last =>
      rw [Value.int64?_eq_some_iff.1 before]
      exact ordered last
    | none =>
      have start := r.start.minValue_le_toInt
      have stop := r.stop.toInt_le
      refine if_neg fun below => ?_
      unfold Value.int64? at before
      rw [if_pos (by omega)] at before
      contradiction

/-! ## The integers -/

/-- The last bound, which an empty range has below its start. -/
def last (r : IntRange) : Int := if r.inclusive then r.stop.toInt else r.stop.toInt - 1

theorem bounds?_eq (r : IntRange) : r.bounds? =
    if r.start.toInt ≤ r.last then some (r.start.toInt, r.last) else none := rfl

theorem le_of_checkedBounds? {bounds : Int64 × Int64} (found : r.checkedBounds? = some bounds) :
    bounds.1 ≤ bounds.2 := by
  have same := bounds?_eq_checkedBounds? r
  rw [found, bounds?_eq, Option.map_some] at same
  obtain ⟨some_there, same⟩ := Option.ite_none_right_eq_some.1 same
  obtain ⟨first, last⟩ := Prod.mk.inj (Option.some.inj same)
  exact Int64.le_iff_toInt_le.2 (first ▸ last ▸ some_there)

theorem contains_iff : r.contains n.toInt = true ↔
    r.start ≤ n ∧ if r.inclusive then n ≤ r.stop else n < r.stop := by
  have upper : n.toInt ≤ r.last ↔ if r.inclusive then n ≤ r.stop else n < r.stop := by
    unfold last
    split
    · exact Int64.le_iff_toInt_le.symm
    · rw [Int64.lt_iff_toInt_lt]
      omega
  rw [← upper, Int64.le_iff_toInt_le, contains, bounds?_eq]
  by_cases some_member : r.start.toInt ≤ r.last
  · simp [some_member]
  · rw [if_neg some_member]
    exact iff_of_false Bool.false_ne_true (by omega)

/-- The integers of a range, in ascending order. -/
def integers (r : IntRange) : List Int64 := r.members.map Int64.ofInt

theorem members_eq (r : IntRange) : r.members =
    (List.range (r.last - r.start.toInt + 1).toNat).map fun i : Nat => r.start.toInt + i := by
  unfold members
  rw [bounds?_eq]
  by_cases some_member : r.start.toInt ≤ r.last
  · rw [if_pos some_member]
  · have none_there : (r.last - r.start.toInt + 1).toNat = 0 := by omega
    rw [if_neg some_member, none_there]
    rfl

theorem length_integers (r : IntRange) :
    r.integers.length = (r.last - r.start.toInt + 1).toNat := by
  rw [integers, List.length_map, members_eq, List.length_map, List.length_range]

/-- **The integers go up from the start one by one.** -/
theorem toInt_getElem_integers (h : i < r.integers.length) :
    r.integers[i].toInt = r.start.toInt + i := by
  have member : r.start.toInt + i ∈ r.members := by
    rw [length_integers] at h
    rw [members_eq]
    exact List.mem_map_of_mem (List.mem_range.2 h)
  simp only [integers, members_eq, List.getElem_map, List.getElem_range]
  exact toInt_ofInt member

theorem mem_integers : n ∈ r.integers ↔ r.contains n.toInt = true := by
  rw [← mem_members, integers, List.mem_map]
  constructor
  · rintro ⟨m, hm, rfl⟩
    rwa [toInt_ofInt hm]
  · intro hn
    exact ⟨n.toInt, hn, Int64.ofInt_toInt n⟩

theorem pairwise_integers (r : IntRange) : r.integers.Pairwise (· < ·) := by
  rw [List.pairwise_iff_getElem]
  intro i j hi hj below
  rw [Int64.lt_iff_toInt_lt, toInt_getElem_integers hi, toInt_getElem_integers hj]
  omega

theorem integers_eq_nil_iff : r.integers = [] ↔ r.last < r.start.toInt := by
  rw [List.eq_nil_iff_length_eq_zero, length_integers]
  omega

theorem bounds?_eq_none_iff : r.bounds? = none ↔ r.integers = [] := by
  rw [integers_eq_nil_iff, bounds?_eq]
  split <;> simp <;> omega

theorem isEmpty_iff : r.isEmpty = true ↔ r.integers = [] := by
  rw [isEmpty, Option.isNone_iff_eq_none, bounds?_eq_none_iff]

/-- The bounds are the first and the last of the integers. -/
theorem bounds?_eq_some_iff {first last : Int64} :
    r.bounds? = some (first.toInt, last.toInt) ↔
      r.integers.head? = some first ∧ r.integers.getLast? = some last := by
  by_cases none_there : r.integers = []
  · rw [bounds?_eq_none_iff.2 none_there, none_there]
    simp
  · have some_there : 0 < r.integers.length := List.length_pos_of_ne_nil none_there
    have count := length_integers r
    rw [bounds?_eq, if_pos (by omega), List.head?_eq_getElem?, List.getLast?_eq_getElem?,
      List.getElem?_eq_getElem some_there, List.getElem?_eq_getElem (by omega)]
    simp only [Option.some.injEq, Prod.mk.injEq, ← Int64.toInt_inj, toInt_getElem_integers]
    omega

theorem length_eq (r : IntRange) : r.length = min r.integers.length maxLength := by
  rw [length, length_integers, bounds?_eq]
  by_cases some_member : r.start.toInt ≤ r.last
  · rw [if_pos some_member]
  · have none_there : (r.last - r.start.toInt + 1).toNat = 0 := by omega
    rw [if_neg some_member, none_there]
    rfl

end IntRange

namespace Source

/-- What is left of a source after some reads, if all of them give an element. -/
def after : Nat → Source → Option Source
  | 0, s => some s
  | reads + 1, s => s.next?.bind fun next => next.2.after reads

/-- **The count goes up by one for each read** until it is past its end. -/
theorem after_range {next last : Int} {reads : Nat} (enough : next + reads ≤ last + 1) :
    (range next last).after reads = some (range (next + reads) last) := by
  induction reads generalizing next with
  | zero => rw [after, Int.natCast_zero, Int.add_zero]
  | succ reads ih =>
    have more : next ≤ last := by omega
    rw [after, next?, if_pos more]
    show (range (next + 1) last).after reads = _
    rw [ih (by omega)]
    congr 2
    omega

end Source

/-! ## The counter of 64 bits -/

/-- The first elements that come, at most so many. -/
def Source.firsts : Nat → Source → List Value
  | 0, _ => []
  | reads + 1, s =>
    match s.next? with
    | none => []
    | some (v, left) => v :: left.firsts reads

namespace IntRange

/-- A count that is kept in 64 bits: the integer that comes next and the last one, unless nothing is
left. -/
abbrev Counter := Option (Int64 × Int64)

namespace Counter

/-- The next integer, and what the counter is then. One is added if the sum has 64 bits, and never
at the last integer. -/
def next? : Counter → Option (Int64 × Counter)
  | none => none
  | some (n, last) =>
    some (n, if n < last then (Value.int64? (n.toInt + 1)).map fun next => (next, last) else none)

/-- The first integers that come, at most so many. -/
def firsts : Nat → Counter → List Int64
  | 0, _ => []
  | reads + 1, c =>
    match c.next? with
    | none => []
    | some (n, left) => n :: left.firsts reads

end Counter

/-- The counter stands where the source stands. -/
inductive Counts : Counter → Source → Prop where
  | more {n last : Int64} (some_left : n ≤ last) :
    Counts (some (n, last)) (.range n.toInt last.toInt)
  | done {s : Source} (none_left : s.next? = none) : Counts none s

namespace Counts

variable {c : Counter} {s : Source} {n last : Int64}

/-- Behind an integer the counter and the source stand at the same place again. -/
theorem behind (n last : Int64) :
    Counts (if n < last then (Value.int64? (n.toInt + 1)).map fun next => (next, last) else none)
      (.range (n.toInt + 1) last.toInt) := by
  by_cases another : n < last
  · have below := Int64.lt_iff_toInt_lt.1 another
    obtain ⟨next, fits⟩ : ∃ next, Value.int64? (n.toInt + 1) = some next := by
      have least := n.minValue_le_toInt
      have greatest := last.toInt_le
      exact ⟨_, if_pos ⟨by omega, by omega⟩⟩
    have sum := Value.int64?_eq_some_iff.1 fits
    rw [if_pos another, fits, sum]
    exact more (Int64.le_iff_toInt_le.2 (sum ▸ below))
  · rw [if_neg another]
    exact done (if_neg (mt Int64.lt_iff_toInt_lt.2 another))

/-- **One read of the counter is one read of the source.** -/
theorem step (same : Counts c s) : c.next? = none ∧ s.next? = none ∨
    ∃ n c' s', c.next? = some (n, c') ∧ s.next? = some (.int n, s') ∧ Counts c' s' := by
  cases same with
  | done none_left => exact .inl ⟨rfl, none_left⟩
  | @more n last some_left =>
    refine .inr ⟨n, _, _, rfl, ?_, behind n last⟩
    rw [Source.next?, if_pos (Int64.le_iff_toInt_le.1 some_left), Int64.ofInt_toInt]

/-- **However often they are read, both give the same integers.** -/
theorem firsts (same : Counts c s) (reads : Nat) : s.firsts reads = (c.firsts reads).map .int := by
  induction reads generalizing c s with
  | zero => rfl
  | succ reads ih =>
    obtain ⟨ended, ends⟩ | ⟨n, c', s', came, comes, same⟩ := same.step
    · rw [Source.firsts, Counter.firsts, ended, ends]
      rfl
    · rw [Source.firsts, Counter.firsts, came, comes]
      exact congrArg (Value.int n :: ·) (ih same)

/-- A range is read from a counter that starts with the bounds that are found in 64 bits. -/
theorem ofValue (h : Host) (r : IntRange) :
    Counts r.checkedBounds? (Source.ofValue h (.range r)) := by
  rw [Source.ofValue, bounds?_eq_checkedBounds?]
  cases bounds : r.checkedBounds? with
  | none => exact done rfl
  | some bounds => exact more (le_of_checkedBounds? bounds)

end Counts

end IntRange

/-! ## All that can be asked of a range -/

/-- Everything that is computed of the range is that of the list `ns`. -/
structure RangeOf (env : Environment) (r : IntRange) (ns : List Int64) : Prop where
  drained : ∀ fuel reads machine, 0 < fuel → ns.length < reads →
    Ends (do (Calls.levels env fuel).collect (← Eval.streamOf env.host (.range r)) reads) machine
      (fun found _ => found = ns.map .int) fun _ _ => False
  contains : ∀ n : Int64, r.contains n.toInt = true ↔ n ∈ ns
  member : ∀ v : Value, Builtin.call env.host (.range r) [v] (.range .contains) =
    .ok (.bool (ns.any fun n => v == .int n))
  length : r.length = min ns.length (2 ^ 64 - 1)
  size : ∃ n : Int64, Builtin.call env.host (.range r) [] (.range .size) = .ok (.int n) ∧
    n.toInt = (min ns.length (2 ^ 63 - 1) : Nat)
  bounds : ∀ first last : Int64, r.bounds? = some (first.toInt, last.toInt) ↔
    ns.head? = some first ∧ ns.getLast? = some last
  unbounded : r.bounds? = none ↔ ns = []
  isEmpty : r.isEmpty = true ↔ ns = []
  falsy : (Value.range r).isTruthy = false ↔ ns = []

/-- Nothing that is counted on the way through the list `ns` leaves 64 bits: neither the bounds, nor
where the source is as long as it has an element, nor one more than an element, if another
follows; and a counter of 64 bits gives the elements of the source. -/
structure CountsWithin (h : Host) (r : IntRange) (ns : List Int64) : Prop where
  bounds : r.bounds? = r.checkedBounds?.map fun bounds => (bounds.1.toInt, bounds.2.toInt)
  cursor : ∀ i (some_left : i < ns.length), ∃ last : Int64,
    (Source.ofValue h (.range r)).after i = some (.range ns[i].toInt last.toInt)
  step : ∀ i (another : i + 1 < ns.length),
    ns[i] + 1 = ns[i + 1] ∧ (ns[i] + 1).toInt = ns[i].toInt + 1
  exhausted : ∃ s, (Source.ofValue h (.range r)).after ns.length = some s ∧ s.next? = none
  counter : ∀ reads, (Source.ofValue h (.range r)).firsts reads =
    (IntRange.Counter.firsts reads r.checkedBounds?).map .int

namespace IntRange

theorem elements_eq (h : Host) (r : IntRange) :
    (Value.range r).elements h = r.integers.map .int := List.map_map.symm

theorem collect_integers (env : Environment) (r : IntRange) {fuel reads : Nat} (machine : Machine)
    (some_fuel : 0 < fuel) (many : r.integers.length < reads) :
    Ends (do (Calls.levels env fuel).collect (← Eval.streamOf env.host (.range r)) reads) machine
      (fun found _ => found = r.integers.map .int) fun _ _ => False := by
  let S : Setting := ⟨fun _ => True, fun _ _ => trivial⟩
  rw [ends_bind]
  refine (ends_streamOf (S := S) trivial ?plain).mono ?_ fun _ _ h => h
  case plain => exact fun id same => nomatch same
  rintro id m' ⟨-, -, left⟩
  rw [elements_eq] at left
  refine (left.collect trivial some_fuel ?_).mono ?_ fun _ _ h => h
  · rwa [List.length_map]
  · rintro found - ⟨rfl, -⟩
    rfl

/-- A value is a member just if it equals one, of whatever kind it is. -/
theorem call_contains (h : Host) (r : IntRange) (v : Value) :
    Builtin.call h (.range r) [v] (.range .contains) =
      .ok (.bool (r.integers.any fun n => v == .int n)) := by
  show Except.ok (Value.bool ((v.toInt64?.map fun n => r.contains n.toInt).getD false)) = _
  congr 2
  rw [Bool.eq_iff_iff, List.any_eq_true]
  cases integer : v.toInt64? with
  | some n =>
    rw [Option.map_some, Option.getD_some, ← mem_integers]
    constructor
    · intro member
      exact ⟨n, member, Value.beq_iff.2 (Value.toInt64?_eq_some_iff.1 integer)⟩
    · rintro ⟨m, member, same⟩
      have found := Value.toInt64?_eq_some_iff.2 (Value.beq_iff.1 same)
      rw [integer, Option.some_inj] at found
      exact found ▸ member
  | none =>
    refine iff_of_false Bool.false_ne_true ?_
    rintro ⟨m, -, same⟩
    have found := Value.toInt64?_eq_some_iff.2 (Value.beq_iff.1 same)
    rw [integer] at found
    contradiction

theorem call_size (h : Host) (r : IntRange) : ∃ n : Int64,
    Builtin.call h (.range r) [] (.range .size) = .ok (.int n) ∧
      n.toInt = (min r.integers.length (2 ^ 63 - 1) : Nat) := by
  refine ⟨_, rfl, ?_⟩
  have greatest : Int64.maxValue.toNatClampNeg = 2 ^ 63 - 1 := by decide
  have most : maxLength = 2 ^ 64 - 1 := by decide
  rw [length_eq, greatest, most, Int64.toInt_ofNat_of_lt (by omega)]
  omega

theorem source_after (h : Host) (r : IntRange) (some_there : r.integers ≠ []) {i : Nat}
    (enough : i ≤ r.integers.length) :
    (Source.ofValue h (.range r)).after i = some (.range (r.start.toInt + i) r.last) := by
  have some_member : r.start.toInt ≤ r.last := not_lt.1 (mt integers_eq_nil_iff.2 some_there)
  rw [length_integers] at enough
  simp only [Source.ofValue, bounds?_eq, if_pos some_member]
  exact Source.after_range (by omega)

theorem countsWithin (h : Host) (r : IntRange) : CountsWithin h r r.integers where
  bounds := bounds?_eq_checkedBounds? r
  cursor i some_left := by
    have some_there : r.integers ≠ [] := List.ne_nil_of_length_pos (by omega)
    have final : r.integers.length - 1 < r.integers.length := by omega
    have count := length_integers r
    have last : (r.integers[r.integers.length - 1]).toInt = r.last := by
      rw [toInt_getElem_integers final]
      omega
    refine ⟨r.integers[r.integers.length - 1], ?_⟩
    rw [source_after h r some_there some_left.le, toInt_getElem_integers some_left, last]
  step i another := by
    have next : r.integers[i + 1].toInt = r.integers[i].toInt + 1 := by
      rw [toInt_getElem_integers, toInt_getElem_integers]
      omega
    have fits : (r.integers[i] + 1).toInt = r.integers[i].toInt + 1 := by
      have one : (1 : Int64).toInt = 1 := rfl
      rw [Int64.toInt_add, one, ← next, Int64.toInt_bmod]
    exact ⟨Int64.toInt_inj.1 (fits.trans next.symm), fits⟩
  exhausted := by
    by_cases none_there : r.integers = []
    · rw [none_there]
      refine ⟨_, rfl, ?_⟩
      simp only [Source.ofValue, bounds?_eq_none_iff.2 none_there]
      rfl
    · refine ⟨_, source_after h r none_there le_rfl, if_neg ?_⟩
      rw [length_integers]
      omega
  counter := (Counts.ofValue h r).firsts

end IntRange

/-- **A range is its integers, in ascending order.** Draining it gives each of them once;
membership, length, bounds, emptiness and truth are those of the list of them; and no number on the
way leaves 64 bits. -/
theorem ranges_hold_their_integers (env : Environment) (r : IntRange) :
    ∃ ns : List Int64, ns.Pairwise (· < ·) ∧
      (∀ n, n ∈ ns ↔ r.start ≤ n ∧ if r.inclusive then n ≤ r.stop else n < r.stop) ∧
      RangeOf env r ns ∧ CountsWithin env.host r ns := by
  refine ⟨r.integers, r.pairwise_integers, fun n => ?_, ?_, r.countsWithin env.host⟩
  · rw [IntRange.mem_integers, IntRange.contains_iff]
  · exact {
      drained :=
        fun fuel reads machine some_fuel many => r.collect_integers env machine some_fuel many
      contains := fun n => IntRange.mem_integers.symm
      member := r.call_contains env.host
      length := r.length_eq
      size := r.call_size env.host
      bounds := fun first last => IntRange.bounds?_eq_some_iff
      unbounded := IntRange.bounds?_eq_none_iff
      isEmpty := IntRange.isEmpty_iff
      falsy := by
        rw [Value.isTruthy, Bool.not_eq_false', IntRange.isEmpty_iff] }

/-- The range of the two greatest integers gives both and then stops, and the one that leaves out
the least integer as its end has no bounds. -/
theorem ranges_hold_their_integers_at_limits :
    Ends (do
        (Calls.levels { host := {} } 1).collect
          (← Eval.streamOf {} (.range ⟨9223372036854775806, 9223372036854775807, true⟩)) 3)
      {} (fun found _ => found = [.int 9223372036854775806, .int 9223372036854775807])
      (fun _ _ => False) ∧
    IntRange.bounds? ⟨5, -9223372036854775808, false⟩ = none := by
  constructor
  · obtain ⟨ns, -, -, all, -⟩ := ranges_hold_their_integers { host := {} }
      ⟨9223372036854775806, 9223372036854775807, true⟩
    have length := all.length
    have counted : IntRange.length ⟨9223372036854775806, 9223372036854775807, true⟩ = 2 := by
      decide
    obtain ⟨first, last⟩ :=
      (all.bounds 9223372036854775806 9223372036854775807).1 (by decide)
    obtain ⟨m, n, rfl⟩ : ∃ m n, ns = [m, n] := List.length_eq_two.1 (by omega)
    obtain rfl := Option.some_inj.1 first
    obtain rfl := Option.some_inj.1 last
    exact all.drained 1 3 {} Nat.one_pos (by decide)
  · obtain ⟨ns, -, member, all, -⟩ := ranges_hold_their_integers { host := {} }
      ⟨5, -9223372036854775808, false⟩
    refine all.unbounded.2 (List.eq_nil_iff_forall_not_mem.2 fun n there => ?_)
    obtain ⟨-, below⟩ := (member n).1 there
    exact absurd (Int64.lt_iff_toInt_lt.1 below) (not_lt.2 n.minValue_le_toInt)

end TagExpr
