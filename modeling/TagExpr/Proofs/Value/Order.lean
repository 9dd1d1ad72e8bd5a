import TagExpr.Value.Collection
import TagExpr.Proofs.Double.Order
import Mathlib.Data.String.Basic

/-!
# The order of values is a total order

`Value.cmp` recurses on its first argument, and so do the proofs. `OrdersAt cmp a` says what
reversal and transitivity ask of the comparisons that start from `a`; it passes through pairs and
lists compared at the first difference, and holds of a value when it holds of what the values of its
kind are compared by (`Value.ordersAt_of_kind`). Numbers are compared by their units, which are what
finite ones are worth.
-/

namespace TagExpr

/-! ## Comparisons from one element -/

/-- The comparisons of `a` agree with those the other way round and with those of its neighbours. -/
structure OrdersAt {α : Type} (cmp : α → α → Ordering) (a : α) : Prop where
  swap : ∀ b, cmp b a = (cmp a b).swap
  lt : ∀ {b c}, cmp a b = .lt → cmp b c ≠ .gt → cmp a c = .lt
  eq : ∀ {b c}, cmp a b = .eq → cmp a c = cmp b c

namespace OrdersAt

variable {α β : Type} {cmp : α → α → Ordering} {other : β → β → Ordering}

theorem of_transCmp [Std.TransCmp cmp] (a : α) : OrdersAt cmp a where
  swap _ := Std.OrientedCmp.eq_swap
  lt below notAbove := Std.TransCmp.lt_of_lt_of_isLE below (Ordering.isLE_iff_ne_gt.2 notAbove)
  eq same := Std.TransCmp.congr_left same

theorem self_eq {a : α} (h : OrdersAt cmp a) : cmp a a = .eq := by
  have swap := h.swap a
  cases same : cmp a a with
  | eq => rfl
  | _ =>
    rw [same] at swap
    contradiction

/-- Two comparisons made one after the other. -/
theorem then_ {p : α × β} (first : OrdersAt cmp p.1) (second : OrdersAt other p.2) :
    OrdersAt (fun p q => (cmp p.1 q.1).then (other p.2 q.2)) p where
  swap q := by rw [first.swap, second.swap, Ordering.swap_then]
  lt {q r} below notAbove := by
    rcases Ordering.then_eq_lt.1 below with before | ⟨same, before⟩
    · have notAfter : cmp q.1 r.1 ≠ .gt := by
        intro after
        exact notAbove (by rw [after]; rfl)
      rw [first.lt before notAfter]
      rfl
    · rw [first.eq same]
      cases h : cmp q.1 r.1 with
      | lt => rfl
      | gt => exact absurd (by rw [h]; rfl) notAbove
      | eq =>
        rw [h] at notAbove
        exact second.lt before notAbove
  eq same := by
    obtain ⟨sameFirst, sameSecond⟩ := Ordering.then_eq_eq.1 same
    rw [first.eq sameFirst, second.eq sameSecond]

/-- A comparison of what is seen of the elements. -/
theorem comap (view : β → α) {b : β} (h : OrdersAt cmp (view b)) :
    OrdersAt (fun b c => cmp (view b) (view c)) b where
  swap _ := h.swap _
  lt := h.lt
  eq := h.eq

/-- Lists compared at their first difference. -/
theorem compareLex {as : List α} (h : ∀ a ∈ as, OrdersAt cmp a) :
    OrdersAt (List.compareLex cmp) as := by
  induction as with
  | nil =>
    constructor
    case swap => rintro (_ | _) <;> rfl
    case lt => rintro (_ | _) (_ | _) <;> simp [List.compareLex]
    case eq => rintro (_ | _) (_ | _) <;> simp [List.compareLex]
  | cons a as ih =>
    have both : OrdersAt (fun p q => (cmp p.1 q.1).then (List.compareLex cmp p.2 q.2)) (a, as) :=
      then_ (h a List.mem_cons_self) (ih fun b hb => h b (List.mem_cons_of_mem a hb))
    constructor
    case swap =>
      intro bs
      cases bs with
      | nil => rfl
      | cons b bs => simpa only [List.compareLex_cons_cons] using both.swap (b, bs)
    case lt =>
      intro bs cs below notAbove
      cases bs with
      | nil => simp [List.compareLex_cons_nil] at below
      | cons b bs =>
        cases cs with
        | nil => simp [List.compareLex_cons_nil] at notAbove
        | cons c cs =>
          simp only [List.compareLex_cons_cons] at *
          exact both.lt (b := (b, bs)) (c := (c, cs)) below notAbove
    case eq =>
      intro bs cs same
      cases bs with
      | nil => simp [List.compareLex_cons_nil] at same
      | cons b bs =>
        cases cs with
        | nil => simp [List.compareLex_cons_nil]
        | cons c cs =>
          simp only [List.compareLex_cons_cons] at *
          exact both.eq (b := (b, bs)) (c := (c, cs)) same

end OrdersAt

namespace Value

/-! ## Values of one kind -/

/-- The kinds of two values are in order when the values are. -/
theorem kindRank_le {a b : Value} (h : cmp a b ≠ .gt) : a.kindRank ≤ b.kindRank := by
  by_cases same : a.kindRank = b.kindRank
  · exact same.le
  · rw [cmp_of_kindRank_ne same] at h
    exact not_lt.1 (mt compare_gt_iff_gt.2 h)

theorem cmp_of_kindRank_lt {a b : Value} (h : a.kindRank < b.kindRank) : cmp a b = .lt := by
  rw [cmp_of_kindRank_ne h.ne]
  exact compare_lt_iff_lt.2 h

theorem kindRank_eq_of_cmp_eq {a b : Value} (h : cmp a b = .eq) : a.kindRank = b.kindRank := by
  by_contra differ
  rw [cmp_of_kindRank_ne differ] at h
  exact differ (compare_eq_iff_eq.1 h)

/-- A value is in order when every value of its kind is compared by something (`keyed`) that is in
order. Against values of other kinds, and between them, the kinds decide. -/
theorem ordersAt_of_kind {α : Type} {compareKeys : α → α → Ordering} {a : Value} {k : α}
    (keyed : Value → α → Prop) (every : ∀ b, b.kindRank = a.kindRank → ∃ k, keyed b k)
    (cmp_keyed : ∀ {b c k l}, keyed b k → keyed c l → cmp b c = compareKeys k l)
    (ha : keyed a k) (h : OrdersAt compareKeys k) : OrdersAt cmp a where
  swap b := by
    by_cases same : b.kindRank = a.kindRank
    · obtain ⟨l, hb⟩ := every b same
      rw [cmp_keyed hb ha, cmp_keyed ha hb, h.swap]
    · rw [cmp_of_kindRank_ne same, cmp_of_kindRank_ne (Ne.symm same)]
      exact Std.OrientedOrd.eq_swap
  lt {b c} below notAbove := by
    have first : a.kindRank ≤ b.kindRank := kindRank_le (by rw [below]; decide)
    have second : b.kindRank ≤ c.kindRank := kindRank_le notAbove
    by_cases same : c.kindRank = a.kindRank
    · obtain ⟨l, hb⟩ := every b (by omega)
      obtain ⟨m, hc⟩ := every c same
      rw [cmp_keyed ha hb] at below
      rw [cmp_keyed hb hc] at notAbove
      rw [cmp_keyed ha hc]
      exact h.lt below notAbove
    · exact cmp_of_kindRank_lt (by omega)
  eq {b c} equal := by
    have same : a.kindRank = b.kindRank := kindRank_eq_of_cmp_eq equal
    by_cases third : c.kindRank = a.kindRank
    · obtain ⟨l, hb⟩ := every b same.symm
      obtain ⟨m, hc⟩ := every c third
      rw [cmp_keyed ha hb] at equal
      rw [cmp_keyed ha hc, cmp_keyed hb hc]
      exact h.eq equal
    · rw [cmp_of_kindRank_ne (Ne.symm third), cmp_of_kindRank_ne (by omega), same]

/-! ## Numbers -/

/-- A number as a multiple of the least positive double. -/
def units? : Value → Option Int
  | int n => some (Double.unitsOfInt n)
  | double d => some d.units
  | _ => none

/-- **Numbers are in the order of their units**, integers and doubles among each other. -/
theorem cmp_of_units? {a b : Value} {x y : Int} (ha : a.units? = some x) (hb : b.units? = some y) :
    cmp a b = compare x y := by
  cases a <;> cases b <;> simp only [units?, Option.some.injEq, reduceCtorEq] at ha hb <;>
    subst ha <;> subst hb <;> simp only [cmp]
  case int.int m n =>
    have positive := Double.unitsOfOne_pos
    exact (Double.compare_congr (Int.mul_lt_mul_right positive)
      (Int.mul_lt_mul_right positive)).symm
  case int.double => exact Double.compareInt_eq_compare _ _
  case double.int => rw [Double.compareInt_eq_compare, ← Std.OrientedOrd.eq_swap]
  case double.double => exact Double.cmp_eq_compare _ _

/-- What a number is worth that is no infinity and no NaN. -/
def worth? : Value → Option ℚ
  | int n => some n.toInt
  | double d => if d.isFinite then some d.value else none
  | _ => none

theorem units?_of_worth? {a : Value} {x : ℚ} (h : a.worth? = some x) :
    ∃ u : Int, a.units? = some u ∧ x * Double.unitsOfOne = u := by
  cases a with
  | int n =>
    obtain rfl : (n.toInt : ℚ) = x := by simpa [worth?] using h
    refine ⟨_, rfl, ?_⟩
    unfold Double.unitsOfInt
    push_cast
    rfl
  | double d =>
    obtain rfl : d.value = x := by
      have := (Option.ite_none_right_eq_some.1 h).2
      simpa using this
    exact ⟨_, rfl, d.value_mul_unitsOfOne⟩
  | _ => contradiction

theorem cmp_of_worth? {a b : Value} {x y : ℚ} (ha : a.worth? = some x) (hb : b.worth? = some y) :
    cmp a b = compare x y := by
  obtain ⟨u, hu, xu⟩ := units?_of_worth? ha
  obtain ⟨v, hv, yv⟩ := units?_of_worth? hb
  have positive : (0 : ℚ) < Double.unitsOfOne := Int.cast_pos.2 Double.unitsOfOne_pos
  rw [cmp_of_units? hu hv]
  rcases lt_trichotomy x y with h | h | h
  · have : (u : ℚ) < v := by
      rw [← xu, ← yv]
      exact mul_lt_mul_of_pos_right h positive
    rw [compare_lt_iff_lt.2 h, compare_lt_iff_lt.2 (Int.cast_lt.1 this)]
  · have : (u : ℚ) = v := by rw [← xu, ← yv, h]
    rw [compare_eq_iff_eq.2 h, compare_eq_iff_eq.2 (Int.cast_inj.1 this)]
  · have : (v : ℚ) < u := by
      rw [← xu, ← yv]
      exact mul_lt_mul_of_pos_right h positive
    rw [compare_gt_iff_gt.2 h, compare_gt_iff_gt.2 (Int.cast_lt.1 this)]

theorem ordersAt_of_units? {a : Value} {x : Int} (h : a.units? = some x) : OrdersAt cmp a := by
  have rank : a.kindRank = 2 := by cases a <;> simp_all [units?, kindRank]
  refine ordersAt_of_kind (fun b u => b.units? = some u) ?_ cmp_of_units? h (.of_transCmp x)
  intro b same
  rw [rank] at same
  cases b <;> simp_all [units?, kindRank]

/-! ## All values -/

theorem cmpList_eq_compareLex (vs ws : List Value) : cmpList vs ws = List.compareLex cmp vs ws := by
  induction vs generalizing ws with
  | nil => cases ws <;> rfl
  | cons v vs ih =>
    cases ws with
    | nil => rfl
    | cons w ws => rw [cmpList, List.compareLex_cons_cons, ih]

theorem cmpEntries_eq_compareLex (vs ws : List (Value × Value)) :
    cmpEntries vs ws = List.compareLex cmpEntry vs ws := by
  induction vs generalizing ws with
  | nil => cases ws <;> rfl
  | cons v vs ih =>
    cases ws with
    | nil => rfl
    | cons w ws => rw [cmpEntries, List.compareLex_cons_cons, ih]

theorem cmpEntry_eq_then :
    cmpEntry = fun entry other => (cmp entry.1 other.1).then (cmp entry.2 other.2) := by
  funext entry other
  cases entry
  cases other
  rfl

theorem ordersAt_compareRanges (r : IntRange) : OrdersAt compareRanges r :=
  .comap (fun r : IntRange => (r.start.toInt, r.stop.toInt, r.inclusive.toNat))
    (.then_ (.of_transCmp _) (.then_ (.of_transCmp _) (.of_transCmp _)))

theorem ordersAt_compareTags (tag : TypeTag) : OrdersAt compareTags tag :=
  .comap (fun tag : TypeTag => (tag.name, tag.id))
    (.then_ (.of_transCmp _) (.of_transCmp _))

/-- The values of a kind are `view k` for some `k`, and are compared by it. -/
theorem ordersAt_view {α : Type} {compareKeys : α → α → Ordering} (view : α → Value)
    (cmp_view : ∀ k l, cmp (view k) (view l) = compareKeys k l) {k : α}
    (every : ∀ b, b.kindRank = (view k).kindRank → ∃ l, view l = b) (h : OrdersAt compareKeys k) :
    OrdersAt cmp (view k) := by
  refine ordersAt_of_kind (fun b l => view l = b) every ?_ rfl h
  rintro _ _ k l rfl rfl
  exact cmp_view k l

theorem sizeOf_entry_lt {entry : Value × Value} {entries : List (Value × Value)}
    (h : entry ∈ entries) :
    sizeOf entry.1 < sizeOf entries ∧ sizeOf entry.2 < sizeOf entries := by
  have := List.sizeOf_lt_of_mem h
  obtain ⟨key, value⟩ := entry
  rw [Prod.mk.sizeOf_spec] at this
  dsimp only
  omega

/-- **Every value orders its comparisons**, by recursion on what the value is made of. -/
theorem ordersAt : ∀ a : Value, OrdersAt cmp a
  | null =>
    ordersAt_view (fun _ : Unit => null) (fun _ _ => rfl) (by rintro ⟨⟩ <;> simp [kindRank])
      (k := ()) ⟨fun _ => rfl, nofun, fun _ => rfl⟩
  | bool b =>
    ordersAt_view bool (fun _ _ => by rw [cmp]) (by rintro ⟨⟩ <;> simp [kindRank])
      (.comap Bool.toNat (.of_transCmp b.toNat))
  | int n => ordersAt_of_units? rfl
  | double d => ordersAt_of_units? rfl
  | str s =>
    ordersAt_view str (fun _ _ => by rw [cmp]) (by rintro ⟨⟩ <;> simp [kindRank])
      (.of_transCmp s)
  | list items =>
    ordersAt_view list (fun _ _ => by rw [cmp, cmpList_eq_compareLex])
      (by rintro ⟨⟩ <;> simp [kindRank]) (.compareLex fun a _ => ordersAt a)
  | map entries =>
    ordersAt_view map (fun _ _ => by rw [cmp, cmpEntries_eq_compareLex, cmpEntry_eq_then])
      (by rintro ⟨⟩ <;> simp [kindRank])
      (.compareLex fun entry h =>
        have smaller := sizeOf_entry_lt h
        .then_ (ordersAt entry.1) (ordersAt entry.2))
  | set items =>
    ordersAt_view set (fun _ _ => by rw [cmp, cmpList_eq_compareLex])
      (by rintro ⟨⟩ <;> simp [kindRank]) (.compareLex fun a _ => ordersAt a)
  | range r =>
    ordersAt_view range (fun _ _ => by rw [cmp]) (by rintro ⟨⟩ <;> simp [kindRank])
      (ordersAt_compareRanges r)
  | regex r =>
    ordersAt_view regex (fun _ _ => by rw [cmp]) (by rintro ⟨⟩ <;> simp [kindRank])
      (.comap Regex.source (.of_transCmp r.source))
  | stream id =>
    ordersAt_view stream (fun _ _ => by rw [cmp]) (by rintro ⟨⟩ <;> simp [kindRank])
      (.of_transCmp id)
  | object id tag carrier content => by
    have numbered : OrdersAt compare id := .of_transCmp id
    refine ordersAt_of_kind (fun b k => ∃ tag carrier content, b = object k tag carrier content)
      ?_ ?_ ⟨tag, carrier, content, rfl⟩ numbered
    · rintro ⟨⟩ <;> simp [kindRank]
    · rintro _ _ k l ⟨_, _, _, rfl⟩ ⟨_, _, _, rfl⟩
      rw [cmp]
  | type tag =>
    ordersAt_view type (fun _ _ => by rw [cmp]) (by rintro ⟨⟩ <;> simp [kindRank])
      (ordersAt_compareTags tag)
termination_by a => sizeOf a

instance : Std.TransCmp cmp where
  eq_swap := (ordersAt _).swap _
  isLE_trans {a b c} first second := by
    have notAbove : cmp b c ≠ .gt := Ordering.isLE_iff_ne_gt.1 second
    cases h : cmp a b with
    | lt => rw [(ordersAt a).lt h notAbove]; rfl
    | eq => rwa [(ordersAt a).eq h]
    | gt =>
      rw [h] at first
      contradiction

/-- **The order of values is a total order, exact on numbers.** Every value is equal to itself, the
other way round a comparison is reversed, what is not above chains, equality chains, and finite
numbers, integers and doubles alike, are compared by what they are worth. -/
theorem cmp_totalOrder :
    (∀ a, cmp a a = .eq) ∧
    (∀ a b, cmp b a = (cmp a b).swap) ∧
    (∀ a b c, cmp a b ≠ .gt → cmp b c ≠ .gt → cmp a c ≠ .gt) ∧
    (∀ a b c, cmp a b = .eq → cmp b c = .eq → cmp a c = .eq) ∧
    ∀ (a b : Value) (x y : ℚ), a.worth? = some x → b.worth? = some y → cmp a b = compare x y := by
  refine ⟨fun a => (ordersAt a).self_eq, fun a b => (ordersAt a).swap b, ?_, ?_,
    fun a b x y ha hb => cmp_of_worth? ha hb⟩
  · intro a b c first second
    have chain : (cmp a c).isLE = true :=
      Std.TransCmp.isLE_trans (Ordering.isLE_iff_ne_gt.2 first) (Ordering.isLE_iff_ne_gt.2 second)
    exact Ordering.isLE_iff_ne_gt.1 chain
  · intro a b c first second
    rw [(ordersAt a).eq first, second]

/-- `2 ^ 53 + 1` is above the double `2 ^ 53`, to which it would be rounded; and from a negative NaN
over `2 ^ 53` to `2 ^ 53 + 1` the order chains. -/
theorem cmp_totalOrder_above_two_pow_53 :
    cmp (int 9007199254740993) (double ⟨0x4340000000000000⟩) = .gt ∧
      cmp (double ⟨0xFFF8000000000000⟩) (int 9007199254740993) ≠ .gt := by
  obtain ⟨-, -, chains, -, exact⟩ := cmp_totalOrder
  constructor
  · have worth : (double ⟨0x4340000000000000⟩).worth? = some 9007199254740992 := by
      have exponent : (⟨0x4340000000000000⟩ : Double).exponentField = 1076 := by decide
      have fraction : (⟨0x4340000000000000⟩ : Double).fractionField = 0 := by decide
      have sign : (⟨0x4340000000000000⟩ : Double).isNegative = false := by decide
      simp only [worth?, Double.isFinite, Double.value, Double.absValue, exponent, fraction, sign]
      norm_num [Double.specialExponent]
    rw [exact (int 9007199254740993) _ 9007199254740993 _ rfl worth]
    exact compare_gt_iff_gt.2 (by norm_num)
  · exact chains _ (double ⟨0x4340000000000000⟩) _ (by decide +kernel) (by decide +kernel)

end Value

end TagExpr
