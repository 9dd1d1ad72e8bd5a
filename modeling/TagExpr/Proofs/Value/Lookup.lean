import TagExpr.Proofs.Draining.Ways
import TagExpr.Proofs.Stream.Remains

/-!
# What maps and sets hold

A map or set holds, of the members that it is made of, the last one of each class of members with
equal keys (`find?_collectBy`). All that can be asked of a map comes back to that: its index, its
methods, its key set and its entries as a stream agree on every key (`collections_keep_last`).
-/

namespace TagExpr

namespace Value

variable {α : Type} {key : α → Value} {members sorted : List α} {a : α} {j k : Value}

/-! ## The last member of a class -/

/-- Equal values equal the same values. -/
theorem beq_congr (h : cmp j k = .eq) (v : Value) : (j == v) = (k == v) := by
  rw [Bool.eq_iff_iff, beq_iff, beq_iff, Std.TransCmp.congr_left h]

theorem beq_symm (j k : Value) : (j == k) = (k == j) := by
  rw [Bool.eq_iff_iff, beq_iff, beq_iff, Std.OrientedCmp.eq_comm]

/-- The member has a key that equals `k`. -/
def under (key : α → Value) (k : Value) (a : α) : Bool := key a == k

/-- The last of the members whose key equals `k`. -/
def last? (key : α → Value) (members : List α) (k : Value) : Option α :=
  (members.filter (under key k)).getLast?

theorem last?_cons (a : α) (members : List α) (k : Value) :
    last? key (a :: members) k =
      (last? key members k).or (if under key k a then some a else none) := by
  unfold last?
  rw [List.filter_cons]
  split
  · rw [List.getLast?_cons, Option.or_some]
  · rw [Option.or_none]

theorem isSome_last? (members : List α) (k : Value) :
    (last? key members k).isSome = members.any (under key k) := by
  induction members with
  | nil => rfl
  | cons a members ih =>
    rw [last?_cons, Option.isSome_or, ih, List.any_cons, Bool.or_comm]
    cases under key k a <;> rfl

/-- Members above one whose key equals `k` have other keys. -/
theorem find?_of_below (h : ∀ b ∈ members, cmp (key a) (key b) = .lt) (hk : under key k a) :
    members.find? (under key k) = none := by
  rw [List.find?_eq_none]
  intro b hb same
  have below := h b hb
  rw [Std.TransCmp.congr_right (beq_iff.mp same), beq_iff.mp hk] at below
  cases below

/-- A member that is put in is found just if none with an equal key has been there. -/
theorem find?_insertBy (a : α) (h : Ascends key members) (k : Value) :
    (insertBy key a members).find? (under key k) =
      (members.find? (under key k)).or (if under key k a then some a else none) := by
  induction members with
  | nil => cases same : under key k a <;> simp [insertBy, same]
  | cons b rest ih =>
    obtain ⟨below, ascends⟩ := List.pairwise_cons.1 h
    rw [insertBy]
    cases place : cmp (key a) (key b) with
    | lt =>
      cases same : under key k a with
      | false => simp [List.find?_cons, same]
      | true =>
        have above : ∀ c ∈ b :: rest, cmp (key a) (key c) = .lt :=
          List.forall_mem_cons.2 ⟨place, fun c hc => Std.TransCmp.lt_trans place (below c hc)⟩
        simp [find?_of_below above same, same]
    | eq =>
      have both : under key k b = under key k a := (beq_congr place k).symm
      cases same : under key k a <;> simp [same, both]
    | gt => cases same : under key k b <;> simp [same, ih ascends]

/-- **Of the members with equal keys the last one stays.** -/
theorem find?_collectBy (members : List α) (k : Value) :
    (collectBy key members).find? (under key k) = last? key members k := by
  induction members with
  | nil => rfl
  | cons a members ih =>
    rw [collectBy_cons, find?_insertBy a (ascends_collectBy key members), ih, last?_cons]

/-- The integer and the double are equal keys. -/
example : cmp (.int 1) (.double (.ofInt 1)) = .eq := by decide +kernel

/-- Among members in ascending order there is at most one for each key. -/
theorem find?_eq_some_iff (h : Ascends key sorted) :
    sorted.find? (under key k) = some a ↔ a ∈ sorted ∧ under key k a := by
  constructor
  · intro found
    exact ⟨List.mem_of_find?_eq_some found, List.find?_some found⟩
  · rintro ⟨ha, hk⟩
    induction sorted with
    | nil => cases ha
    | cons b rest ih =>
      obtain ⟨below, ascends⟩ := List.pairwise_cons.1 h
      rcases List.mem_cons.1 ha with rfl | ha
      · exact List.find?_cons_of_pos hk
      · have other : ¬ under key k b := by
          intro hb
          have apart := below a ha
          have self : cmp k k = .eq := Std.ReflCmp.compare_self
          rw [Std.TransCmp.congr_left (beq_iff.mp hb), Std.TransCmp.congr_right (beq_iff.mp hk),
            self] at apart
          cases apart
        rw [List.find?_cons_of_neg other, ih ascends ha]

theorem filter_of_ascends (h : Ascends key sorted) (k : Value) :
    sorted.filter (under key k) = (sorted.find? (under key k)).toList := by
  induction sorted with
  | nil => rfl
  | cons a rest ih =>
    obtain ⟨below, ascends⟩ := List.pairwise_cons.1 h
    cases same : under key k a with
    | false => rw [List.filter_cons_of_neg (by simp [same]), List.find?_cons, same, ih ascends]
    | true =>
      rw [List.filter_cons_of_pos same, List.find?_cons, same, ih ascends,
        find?_of_below below same]
      rfl

/-- Whether a key is there, in the collected members as in all of them. -/
theorem any_collectBy (members : List α) (k : Value) :
    (collectBy key members).any (under key k) = (last? key members k).isSome := by
  rw [← find?_collectBy, List.isSome_find?]

/-- The value of a key in the entries that are collected is the one of the last such pair. -/
theorem find?_entries (pairs : List (Value × Value)) (k : Value) :
    find? (collectBy Prod.fst pairs) k = (last? Prod.fst pairs k).map (·.2) := by
  rw [← find?_collectBy, find?]
  congr 2
  funext entry
  exact beq_symm k entry.1

/-- A value is one of the items that are collected just if an equal one was given. -/
theorem memberOf_collectBy (items : List Value) (k : Value) :
    memberOf k (collectBy id items) = items.any (· == k) := by
  have given := (@any_collectBy Value id items k).trans (isSome_last? items k)
  rw [memberOf, ← funext fun item => beq_symm item k]
  exact given

/-- A value that is an entry of a map, as a key and a value. -/
def pair? : Value → Option (Value × Value)
  | map members => do return (← find? members (str "key"), ← find? members (str "value"))
  | _ => none

theorem pair?_entryMap (k v : Value) : (entryMap k v).pair? = some (k, v) := by
  have entry (name : String) : find? (collectBy Prod.fst [(str "key", k), (str "value", v)])
      (str name) = (last? Prod.fst [(str "key", k), (str "value", v)] (str name)).map (·.2) :=
    find?_entries _ _
  simp only [entryMap, ofEntries, pair?, entry]
  rfl

end Value

/-! ## Members of builtin values -/

/-- Every identifier of that member finds `v` on the receiver, whatever it has learnt, and makes no
objects. -/
def Identifier.Finds (h : Host) (key : IdentKey) (receiver : Value) (args : List Value)
    (v : Value) : Prop :=
  ∀ i : Identifier, i.SameWays h (.fresh key) → ∀ next,
    ((i.get h receiver args).run next).1.1 = some v ∧ ((i.get h receiver args).run next).2 = next

theorem Identifier.finds_builtin {h : Host} {key : IdentKey} {receiver v : Value}
    {args : List Value} {m : Builtin}
    (found : Resolver.find? h key receiver args.length = some (.builtin m))
    (call : m.call h receiver args = .ok v) : Finds h key receiver args v := by
  intro i same next
  have way : (Identifier.fresh key).way h receiver (args.map Value.shape) = .builtin m := by
    simp [Identifier.way, Identifier.fresh, found]
  rw [same.run_get, way]
  simp only [Resolver.follow, call]
  exact ⟨rfl, rfl⟩

/-! ## What can be asked of a map and of a set -/

namespace Value

/-- The map is the one of these pairs. Its keys ascend, and of the pairs with equal keys it has the
last one; so say its index, its methods, its key set and its entries one by one. -/
structure MapOf (env : Environment) (pairs : List (Value × Value)) (m : Value) : Prop where
  entries : ∃ entries, m = map entries ∧ Ascends Prod.fst entries ∧
    ∀ k entry, entry ∈ entries ∧ entry.1 == k ↔ last? Prod.fst pairs k = some entry
  index : ∀ k, m.index env.host k = .ok (((last? Prod.fst pairs k).map (·.2)).getD null)
  get : ∀ k, Identifier.Finds env.host (.method "get" 1) m [k]
    (((last? Prod.fst pairs k).map (·.2)).getD null)
  containsKey : ∀ k, Identifier.Finds env.host (.method "containsKey" 1) m [k]
    (bool (last? Prod.fst pairs k).isSome)
  keySet : ∃ keys, Identifier.Finds env.host (.method "keySet" 0) m [] keys ∧
    ∀ k, Identifier.Finds env.host (.method "contains" 1) keys [k]
      (bool (last? Prod.fst pairs k).isSome)
  scan : ∀ fuel reads machine, 0 < fuel → (m.elements env.host).length < reads →
    Ends (do (Calls.levels env fuel).collect (← Eval.streamOf env.host m) reads) machine
      (fun found _ => ∀ k,
        (found.filterMap pair?).filter (under Prod.fst k) = (last? Prod.fst pairs k).toList)
      fun _ _ => False

/-- The set is the one of these items. Its elements ascend, and of equal items it has the last. -/
structure SetOf (h : Host) (items : List Value) (s : Value) : Prop where
  elements : ∃ elements, s = set elements ∧ Ascends id elements ∧
    ∀ k item, item ∈ elements ∧ item == k ↔ last? id items k = some item
  contains : ∀ k, Identifier.Finds h (.method "contains" 1) s [k] (bool (items.any (· == k)))

theorem mem_collectBy_iff (members : List α) (k : Value) (a : α) :
    a ∈ collectBy key members ∧ key a == k ↔ last? key members k = some a := by
  rw [← find?_collectBy, find?_eq_some_iff (ascends_collectBy key members)]
  rfl

theorem setOf_ofItems (h : Host) (items : List Value) : SetOf h items (ofItems items) where
  elements := ⟨_, rfl, ascends_collectBy id items, mem_collectBy_iff items⟩
  contains k := by
    refine Identifier.finds_builtin (m := .set .contains) rfl ?_
    rw [← memberOf_collectBy]
    rfl

/-- The entries of a map as its stream gives them. -/
theorem scan_ofEntries (env : Environment) (pairs : List (Value × Value)) {fuel reads : Nat}
    (machine : Machine) (some_fuel : 0 < fuel)
    (many : ((ofEntries pairs).elements env.host).length < reads) :
    Ends (do (Calls.levels env fuel).collect (← Eval.streamOf env.host (ofEntries pairs)) reads)
      machine (fun found _ => found.filterMap pair? = collectBy Prod.fst pairs)
      fun _ _ => False := by
  let S : Setting := ⟨fun _ => True, fun _ _ => trivial⟩
  rw [ends_bind]
  refine (ends_streamOf (S := S) trivial ?plain).mono ?_ fun _ _ h => h
  case plain => exact fun id same => nomatch same
  rintro id m' ⟨-, -, left⟩
  refine (left.collect trivial some_fuel many).mono ?_ fun _ _ h => h
  rintro found - ⟨rfl, -⟩
  show ((collectBy Prod.fst pairs).map fun entry => entryMap entry.1 entry.2).filterMap pair? = _
  rw [List.filterMap_map]
  refine Eq.trans (List.filterMap_congr fun entry _ => ?_) List.filterMap_some
  exact pair?_entryMap entry.1 entry.2

theorem mapOf_ofEntries (env : Environment) (pairs : List (Value × Value)) :
    MapOf env pairs (ofEntries pairs) where
  entries := ⟨_, rfl, ascends_collectBy Prod.fst pairs, mem_collectBy_iff pairs⟩
  index k := by
    rw [← find?_entries]
    rfl
  get k := by
    refine Identifier.finds_builtin (m := .map .get) rfl ?_
    rw [← find?_entries]
    rfl
  containsKey k := by
    refine Identifier.finds_builtin (m := .map .containsKey) rfl ?_
    rw [← Option.isSome_map (f := Prod.snd), ← find?_entries]
    rfl
  keySet := by
    refine ⟨ofItems ((collectBy Prod.fst pairs).map (·.1)),
      Identifier.finds_builtin (m := .map .keySet) rfl rfl, fun k => ?_⟩
    have keys := (setOf_ofItems env.host ((collectBy Prod.fst pairs).map (·.1))).contains k
    rw [List.any_map] at keys
    rw [← any_collectBy]
    exact keys
  scan fuel reads machine some_fuel many := by
    refine (scan_ofEntries env pairs machine some_fuel many).mono ?_ fun _ _ h => h
    rintro found - found_eq k
    rw [found_eq, filter_of_ascends (ascends_collectBy Prod.fst pairs), find?_collectBy]

end Value

/-- **Maps and sets hold the last of equal members.** A map that is built of pairs, directly or by a
literal, is the map of these pairs, and a set is the one of its items. -/
theorem collections_keep_last (env : Environment) :
    (∀ pairs, Value.MapOf env pairs (.ofEntries pairs)) ∧
    (∀ items, Value.SetOf env.host items (.ofItems items)) ∧
    ∀ (calls : Calls) (fuel : Nat) (e : Expression) (frame : FrameId) (machine : Machine),
      (∀ nodes, Ends (Node.eval env calls fuel e frame (.map nodes)) machine
        (fun m machine' => ∃ pairs,
          Node.evalEntries env calls fuel e frame nodes machine = .ok pairs machine' ∧
            Value.MapOf env pairs m)
        fun stop machine' =>
          Node.evalEntries env calls fuel e frame nodes machine = .error stop machine') ∧
      ∀ nodes, Ends (Node.eval env calls fuel e frame (.set nodes)) machine
        (fun s machine' => ∃ items,
          Node.evalList env calls fuel e frame nodes machine = .ok items machine' ∧
            Value.SetOf env.host items s)
        fun stop machine' =>
          Node.evalList env calls fuel e frame nodes machine = .error stop machine' := by
  refine ⟨Value.mapOf_ofEntries env, Value.setOf_ofItems env.host, ?_⟩
  intro calls fuel e frame machine
  refine ⟨fun nodes => ?_, fun nodes => ?_⟩
  · rw [Node.eval, ends_bind]
    unfold Ends
    cases evaluated : Node.evalEntries env calls fuel e frame nodes machine with
    | ok pairs machine' => exact ⟨pairs, rfl, Value.mapOf_ofEntries env pairs⟩
    | error stop machine' => rfl
  · rw [Node.eval, ends_bind]
    unfold Ends
    cases evaluated : Node.evalList env calls fuel e frame nodes machine with
    | ok items machine' => exact ⟨items, rfl, Value.setOf_ofItems env.host items⟩
    | error stop machine' => rfl

end TagExpr
