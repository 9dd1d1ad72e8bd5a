import TagExpr.Machine

/-!
# What identifiers learn

An identifier keeps the ways to its member that it has found. What it keeps changes nothing about
the ways that it takes later (`Identifier.way_resolver`), so two machines on which the same ways are
taken give the same members, however much their identifiers have learnt. Whether a way leads to
something can be told without following it (`Resolver.isSome_follow`).
-/

namespace TagExpr

namespace Resolver

variable {h : Host} {v w : Value}

/-- The way to a member depends on the shape of the receiver. -/
theorem find?_of_shape (key : IdentKey) (arity : Nat) (hs : v.shape = w.shape) :
    find? h key v arity = find? h key w arity := by
  obtain ⟨name, mentioned⟩ := key
  cases v <;> cases w <;> first | (cases mentioned <;> rfl) | cases hs | skip
  case object.object =>
    have id := Shape.object.inj hs
    cases mentioned <;> simp only [find?, id]
  case type.type =>
    have id := Shape.type.inj hs
    cases mentioned <;> simp only [find?, id]

/-- Following the way on the receiver leads to a member of that name. -/
def answers (name : String) (receiver : Value) : Resolver → Bool
  | mapLookup => match receiver with
    | .map entries => (Value.find? entries (.str name)).isSome
    | _ => false
  | hostLookup t => match receiver with
    | .object _ _ carrier content => (t.lookup? carrier content name).isSome
    | _ => false
  | builtin _ => true
  | field t _ => match receiver with
    | .object _ _ carrier content => (t.accept? carrier content).isSome
    | _ => false
  | method _ _ => match receiver with
    | .object .. => true
    | _ => false
  | staticField _ | staticMethod _ => match receiver with
    | .type _ => true
    | _ => false
  | missing => false

theorem isSome_settle (call : HostCall) (next : ObjectId) : ((settle call).run next).1.isSome := by
  simp only [settle, StateT.run]
  cases call.run next <;> rfl

theorem isSome_follow (r : Resolver) (name : String) (receiver : Value) (args : List Value)
    (next : ObjectId) :
    ((r.follow h name receiver args).run next).1.isSome = r.answers name receiver := by
  cases r with
  | mapLookup | hostLookup | missing => cases receiver <;> rfl
  | field t get =>
    cases receiver with
    | object id tag carrier content =>
      show ((t.accept? carrier content).map get).isSome = _
      rw [Option.isSome_map]
      rfl
    | _ => rfl
  | builtin m =>
    simp only [follow]
    cases m.call h receiver args <;> rfl
  | method t call =>
    cases receiver with
    | object id tag carrier content =>
      simp only [follow]
      cases t.accept? carrier content with
      | some content => exact isSome_settle _ next
      | none => rfl
    | _ => rfl
  | staticField v => cases receiver <;> rfl
  | staticMethod call =>
    cases receiver with
    | type tag => exact isSome_settle _ next
    | _ => rfl

/-- A way that leads to nothing makes no objects. -/
theorem follow_of_not_answers {r : Resolver} {name : String} {receiver : Value}
    (hr : r.answers name receiver = false) (args : List Value) (next : ObjectId) :
    (r.follow h name receiver args).run next = (none, next) := by
  have found : ((r.follow h name receiver args).run next).1 = none := by
    rw [← Option.not_isSome_iff_eq_none, isSome_follow, hr]
    exact Bool.false_ne_true
  cases r with
  | builtin m => cases hr
  | mapLookup | hostLookup | missing | field | staticField =>
    cases receiver <;> exact Prod.ext found rfl
  | method => cases receiver <;> first | rfl | cases hr
  | staticMethod => cases receiver <;> first | rfl | cases hr

end Resolver

namespace Identifier

variable {h : Host} {i : Identifier}

/-- The way that is taken to the member on a receiver, with arguments of these shapes. -/
def way (h : Host) (i : Identifier) (receiver : Value) (args : List Shape) : Resolver :=
  (i.known.lookup ⟨receiver.shape, args⟩).getD
    ((Resolver.find? h i.key receiver args.length).getD .missing)

theorem resolver_eq_way (receiver : Value) (args : List Value) :
    (i.resolver h receiver args).1 = i.way h receiver (args.map Value.shape) := by
  unfold resolver way
  simp only
  split
  case h_1 r found => rw [found, Option.getD_some]
  case h_2 found => rw [found, Option.getD_none, List.length_map]

/-- **What an identifier learns changes none of its ways.** -/
theorem way_resolver (receiver other : Value) (args : List Value) (shapes : List Shape) :
    (i.resolver h receiver args).2.way h other shapes = i.way h other shapes := by
  unfold resolver
  simp only
  split
  case h_1 => rfl
  case h_2 found =>
    unfold way
    simp only [List.lookup_cons]
    split
    case h_2 => rfl
    case h_1 same =>
      obtain ⟨hs, rfl⟩ := ShapeKey.mk.inj (eq_of_beq same)
      rw [hs, found, Option.getD_some, Option.getD_none, List.length_map,
        Resolver.find?_of_shape i.key args.length hs]

/-- Reading a member takes the way to it and learns it. -/
theorem run_get (receiver : Value) (args : List Value) (next : ObjectId) :
    (i.get h receiver args).run next =
      let reached :=
        ((i.way h receiver (args.map Value.shape)).follow h i.key.name receiver args).run next
      ((reached.1, (i.resolver h receiver args).2), reached.2) := by
  rw [← resolver_eq_way, ← key_resolver h i receiver args]
  rfl

/-- The ways that are taken to the member on a receiver, whatever shapes so many arguments have. -/
def ways (h : Host) (i : Identifier) (receiver : Value) (count : Nat) : List Resolver :=
  (Resolver.find? h i.key receiver count).getD .missing ::
    (i.known.filter fun entry => entry.1.receiver == receiver.shape &&
      entry.1.args.length == count).map (·.2)

theorem way_mem_ways (receiver : Value) (args : List Shape) :
    i.way h receiver args ∈ i.ways h receiver args.length := by
  unfold way ways
  cases found : i.known.lookup ⟨receiver.shape, args⟩ with
  | none => exact List.mem_cons_self
  | some r =>
    refine List.mem_cons_of_mem _ (List.mem_map.mpr ⟨(⟨receiver.shape, args⟩, r), ?_, rfl⟩)
    obtain ⟨before, after, entries, -⟩ := List.lookup_eq_some_iff.mp found
    simp [entries]

/-- The member is there, whichever of its ways is taken. -/
def finds (h : Host) (i : Identifier) (receiver : Value) (count : Nat) : Bool :=
  (i.ways h receiver count).all (·.answers i.key.name receiver)

/-- The member is not there, whichever of its ways is taken. -/
def misses (h : Host) (i : Identifier) (receiver : Value) (count : Nat) : Bool :=
  (i.ways h receiver count).all (!·.answers i.key.name receiver)

theorem answers_of_finds {receiver : Value} {args : List Value}
    (found : i.finds h receiver args.length) :
    (i.way h receiver (args.map Value.shape)).answers i.key.name receiver := by
  have taken := way_mem_ways (h := h) (i := i) receiver (args.map Value.shape)
  rw [List.length_map] at taken
  exact List.all_eq_true.mp found _ taken

theorem not_answers_of_misses {receiver : Value} {args : List Value}
    (missed : i.misses h receiver args.length) :
    (i.way h receiver (args.map Value.shape)).answers i.key.name receiver = false := by
  have taken := way_mem_ways (h := h) (i := i) receiver (args.map Value.shape)
  rw [List.length_map] at taken
  simpa using List.all_eq_true.mp missed _ taken

/-- Both identifiers are the same member, and the same ways to it are taken. -/
structure SameWays (h : Host) (i j : Identifier) : Prop where
  key : i.key = j.key
  way : ∀ receiver args, i.way h receiver args = j.way h receiver args

namespace SameWays

variable {j : Identifier}

theorem refl (i : Identifier) : i.SameWays h i := ⟨rfl, fun _ _ => rfl⟩

theorem learn (same : i.SameWays h j) (receiver : Value) (args : List Value) :
    (i.resolver h receiver args).2.SameWays h j where
  key := (key_resolver h i receiver args).trans same.key
  way other shapes := (way_resolver receiver other args shapes).trans (same.way other shapes)

theorem run_get (same : i.SameWays h j) (receiver : Value) (args : List Value) (next : ObjectId) :
    (i.get h receiver args).run next =
      let reached :=
        ((j.way h receiver (args.map Value.shape)).follow h j.key.name receiver args).run next
      ((reached.1, (i.resolver h receiver args).2), reached.2) := by
  rw [Identifier.run_get, same.key, same.way]

end SameWays

end Identifier

end TagExpr
