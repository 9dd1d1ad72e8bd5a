import TagExpr.Parse.Bench

/-!
# What the positions in a tree stand for

A tree refers to locals, members, named expressions and bindings by position. `Names` lists what
stands at these positions, and `Describes` ties it to the tables of an expression and the scope of
its file. While a text is parsed the lists only grow at their ends, so what a position stands for
never changes.

The name of a local slot outlives its visibility: it is kept here although the tables forget it at
the end of its scope.
-/

namespace TagExpr.Parse

variable {ε : Type}

/-- What the positions in a tree stand for. -/
structure Names where
  /-- The name under which each local slot was declared. -/
  slots : List String
  identifiers : List IdentKey
  /-- The names of the named expressions called. -/
  expressions : List String
  bindings : TemplateId → List String
  /-- The named expression that a recursive call calls. -/
  defining : Option String
  /-- A mention of the name can be a call of a named expression. -/
  callable : String → Bool
  extensions : Extensions

/-- Every position that stands for something in `N` stands for the same in `M`. -/
structure Names.Grows (N M : Names) : Prop where
  slots : N.slots <+: M.slots
  identifiers : N.identifiers <+: M.identifiers
  expressions : N.expressions <+: M.expressions
  bindings : ∀ id, N.bindings id <+: M.bindings id
  defining : M.defining = N.defining
  callable : M.callable = N.callable
  extensions : M.extensions = N.extensions

theorem getElem?_of_prefix {α : Type} {l m : List α} (h : l <+: m) {i : Nat} {a : α}
    (ha : l[i]? = some a) : m[i]? = some a := by
  obtain ⟨rest, rfl⟩ := h
  have hi : i < l.length := (List.getElem?_eq_some_iff.mp ha).1
  rw [List.getElem?_append_left hi, ha]

namespace Names.Grows

variable {N M L : Names}

theorem refl (N : Names) : N.Grows N :=
  ⟨List.prefix_rfl, List.prefix_rfl, List.prefix_rfl, fun _ => List.prefix_rfl, rfl, rfl,
    rfl⟩

theorem trans (h : N.Grows M) (h' : M.Grows L) : N.Grows L :=
  ⟨h.slots.trans h'.slots, h.identifiers.trans h'.identifiers, h.expressions.trans h'.expressions,
    fun id => (h.bindings id).trans (h'.bindings id), h'.defining.trans h.defining,
    h'.callable.trans h.callable, h'.extensions.trans h.extensions⟩

theorem slot (h : N.Grows M) {slot : Nat} {name : String} (hs : N.slots[slot]? = some name) :
    M.slots[slot]? = some name :=
  getElem?_of_prefix h.slots hs

theorem identifier (h : N.Grows M) {ident : Nat} {key : IdentKey}
    (hi : N.identifiers[ident]? = some key) : M.identifiers[ident]? = some key :=
  getElem?_of_prefix h.identifiers hi

theorem expression (h : N.Grows M) {target : Nat} {name : String}
    (he : N.expressions[target]? = some name) : M.expressions[target]? = some name :=
  getElem?_of_prefix h.expressions he

theorem binding (h : N.Grows M) {id : TemplateId} {slot : Nat} {name : String}
    (hb : (N.bindings id)[slot]? = some name) : (M.bindings id)[slot]? = some name :=
  getElem?_of_prefix (h.bindings id) hb

end Names.Grows

/-- While the named expression `defining` is being defined, if any is, a mention of the name can be
a call of a named expression. -/
def canCall (scope : TemplateScope ε) (defining : Option String) (name : String) : Bool :=
  scope.extensions.namedExpressions &&
    match scope.named? name with
    | none => false
    | some .pending => defining == some name
    | some (.defined _) => true

/-- The positions of the tables and the scope stand for what `N` says. A visible local is a slot of
its name, no member has two positions, and a named expression called is the one defined. -/
structure Describes (N : Names) (tables : Tables ε) (scope : TemplateScope ε) : Prop where
  slots : N.slots.length = tables.localCount
  locals : ∀ p ∈ tables.locals, N.slots[p.2]? = some p.1
  identifiers : N.identifiers = tables.identifiers
  nodup : tables.identifiers.Nodup
  expressions : N.expressions = tables.expressions.map (·.1)
  defined : ∀ p ∈ tables.expressions, scope.named? p.1 = some (.defined p.2)
  bindings : N.bindings = scope.bindingNames
  defining : N.defining = tables.defining
  callable : N.callable = canCall scope tables.defining
  extensions : N.extensions = scope.extensions

namespace Describes

variable {N : Names} {tables : Tables ε} {scope : TemplateScope ε}

/-! ## Looking up -/

theorem slot_of_local? (h : Describes N tables scope) {name : String} {slot : Nat}
    (hl : tables.local? name = some slot) : N.slots[slot]? = some name := by
  obtain ⟨before, after, heq, -⟩ := List.lookup_eq_some_iff.mp hl
  exact h.locals (name, slot) (by simp [heq])

theorem slot_of_slot? (h : Describes N tables scope) {id : TemplateId} {name : String} {slot : Nat}
    (hs : scope.slot? id name = some slot) : (N.bindings id)[slot]? = some name := by
  obtain ⟨hlt, heq, -⟩ := List.findIdx?_eq_some_iff_getElem.mp hs
  rw [h.bindings, List.getElem?_eq_getElem hlt]
  simpa using heq

theorem binding_of_findBinding? (h : Describes N tables scope) {name : String} {id : TemplateId}
    {slot : Nat} (hb : scope.findBinding? name = some (id, slot)) :
    (N.bindings id)[slot]? = some name := by
  obtain ⟨other, -, hs⟩ := List.exists_of_findSome?_eq_some hb
  obtain ⟨found, hf, heq⟩ := Option.map_eq_some_iff.mp hs
  cases heq
  exact h.slot_of_slot? hf

/-! ## Changing the tables -/

theorem identifier (h : Describes N tables scope) (key : IdentKey) :
    ∃ M, N.Grows M ∧ Describes M (tables.identifier key).2 scope ∧
      M.identifiers[(tables.identifier key).1]? = some key := by
  unfold Tables.identifier
  cases hf : tables.identifiers.findIdx? (· == key) with
  | some index =>
    obtain ⟨hlt, heq, -⟩ := List.findIdx?_eq_some_iff_getElem.mp hf
    refine ⟨N, .refl N, h, ?_⟩
    rw [h.identifiers, List.getElem?_eq_getElem hlt]
    simpa using heq
  | none =>
    have hnew : key ∉ tables.identifiers := by
      intro hmem
      simpa using List.findIdx?_eq_none_iff.mp hf key hmem
    refine ⟨{ N with identifiers := N.identifiers ++ [key] }, ?_, ?_, ?_⟩
    · exact { Names.Grows.refl N with identifiers := List.prefix_append _ _ }
    · refine { h with identifiers := by simp [h.identifiers], nodup := ?_ }
      exact List.nodup_append.mpr
        ⟨h.nodup, by simp, by simpa using fun k hk => ne_of_mem_of_not_mem hk hnew⟩
    · simp [h.identifiers]

theorem expression (h : Describes N tables scope) {name : String} {e : ε}
    (he : scope.named? name = some (.defined e)) :
    ∃ M, N.Grows M ∧ Describes M (tables.expression name e).2 scope ∧
      M.expressions[(tables.expression name e).1]? = some name := by
  unfold Tables.expression
  cases hf : tables.expressions.findIdx? (·.1 == name) with
  | some index =>
    obtain ⟨hlt, heq, -⟩ := List.findIdx?_eq_some_iff_getElem.mp hf
    refine ⟨N, .refl N, h, ?_⟩
    simpa [h.expressions, List.getElem?_eq_getElem hlt] using heq
  | none =>
    refine ⟨{ N with expressions := N.expressions ++ [name] }, ?_, ?_, ?_⟩
    · exact { Names.Grows.refl N with expressions := List.prefix_append _ _ }
    · refine { h with expressions := by simp [h.expressions], defined := ?_ }
      intro p hp
      rcases List.mem_append.mp hp with hp | hp
      · exact h.defined p hp
      · rw [List.mem_singleton.mp hp]
        exact he
    · simp [h.expressions]

theorem declareLocal (h : Describes N tables scope) (name : String) :
    ∃ M, N.Grows M ∧ Describes M (tables.declareLocal name).2 scope ∧
      M.slots[(tables.declareLocal name).1]? = some name := by
  have hgrows : N.Grows { N with slots := N.slots ++ [name] } :=
    { Names.Grows.refl N with slots := List.prefix_append _ _ }
  have hnew : (N.slots ++ [name])[tables.localCount]? = some name := by simp [← h.slots]
  refine ⟨_, hgrows, ?_, hnew⟩
  -- A visible local of that name, if there is one, keeps its slot and is hidden.
  refine { h with slots := by simp [Tables.declareLocal, h.slots], locals := ?_ }
  intro p hp
  rcases List.mem_cons.mp hp with rfl | hp
  · exact hnew
  · exact hgrows.slot (h.locals p hp)

theorem endScope (h : Describes N tables scope) (mark : Nat) :
    Describes N (tables.endScope mark) scope :=
  { h with locals := fun p hp => h.locals p (List.mem_of_mem_drop hp) }

/-! ## Changing the scope -/

theorem lookup_cons_entry {κ α : Type} [DecidableEq κ] (key other : κ) (a : α)
    (rest : List (κ × α)) :
    ((key, a) :: rest).lookup other = if other = key then some a else rest.lookup other := by
  by_cases h : other = key
  · simp [h]
  · have hne : (other == key) = false := beq_false_of_ne h
    simp [List.lookup_cons, hne, h]

theorem lookup_setBindingNames (bindings : List (TemplateId × List String)) (id other : TemplateId)
    (names : List String) :
    (TemplateScope.setBindingNames bindings id names).lookup other =
      if other = id then some names else bindings.lookup other := by
  induction bindings with
  | nil => rw [TemplateScope.setBindingNames, lookup_cons_entry]
  | cons entry rest ih =>
    obtain ⟨first, old⟩ := entry
    rw [TemplateScope.setBindingNames]
    by_cases hf : first = id
    · rw [if_pos hf, lookup_cons_entry, lookup_cons_entry, hf]
      split <;> rfl
    · rw [if_neg hf, lookup_cons_entry, ih, lookup_cons_entry]
      by_cases ho : other = first
      · simp [ho, hf]
      · simp [ho]

theorem declareBinding (h : Describes N tables scope) (name : String) :
    ∃ M, N.Grows M ∧ Describes M tables (scope.declareBinding name).2 ∧
      (M.bindings (scope.declareBinding name).1.1)[(scope.declareBinding name).1.2]? =
        some name := by
  cases hs : scope.slot? scope.current name with
  | some slot =>
    have heq : scope.declareBinding name = ((scope.current, slot), scope) := by
      simp [TemplateScope.declareBinding, hs]
    rw [heq]
    exact ⟨N, .refl N, h, h.slot_of_slot? hs⟩
  | none =>
    let names := scope.bindingNames scope.current
    let after : TemplateScope ε := { scope with
      bindings := TemplateScope.setBindingNames scope.bindings scope.current (names ++ [name]) }
    have heq : scope.declareBinding name = ((scope.current, names.length), after) := by
      simp [TemplateScope.declareBinding, hs, names, after]
    have hafter : ∀ other, after.bindingNames other =
        if other = scope.current then names ++ [name] else scope.bindingNames other := by
      intro other
      simp only [TemplateScope.bindingNames, after, lookup_setBindingNames]
      by_cases ho : other = scope.current <;> simp [ho]
    rw [heq]
    refine ⟨{ N with bindings := after.bindingNames }, ?_, { h with bindings := rfl }, ?_⟩
    · refine { Names.Grows.refl N with bindings := fun other => ?_ }
      simp only [hafter, h.bindings]
      by_cases ho : other = scope.current
      · simp [ho, names]
      · simp [ho]
    · simp [hafter]

end Describes

end TagExpr.Parse
