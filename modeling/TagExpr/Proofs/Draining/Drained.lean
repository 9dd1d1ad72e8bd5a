import TagExpr.Proofs.Draining.Scopes
import TagExpr.Proofs.Session.Run

/-!
# A stream has the same elements whenever it is drained

The stages of a stream keep the local slots of the expression that they are part of, but not the
sections that it saw. So the elements depend on the moment at which they are taken, but only by what
their bodies look up: where these are steady, the elements are those that the scope itself would
have taken.

A definition that takes the last element inside of its call is compared with one that hands the
stream out. The tree of the stream is part of another expression there, which is one more lapse.
-/

namespace TagExpr

/-! ## Taking the last element inside -/

namespace Expression

/-- `h` takes the parameters of `f`, and its value is the last element of the body of `f`: with
`f -> E` it is `h -> (E) #< r -> r`. -/
structure LastOf (f h : Expression) (r : Retelling) : Prop where
  identifiers : h.identifiers = f.identifiers
  expressions : ∀ target, h.expressions[r.target target]? = f.expressions[target]?
  self : ∀ target, r.self = some target → h.expressions[target]? = some f
  params : h.params = f.params
  localCount : h.localCount = f.localCount + 1
  body : h.body =
    .stream .reduce (f.body.retell r) (some f.localCount) (.localVar f.localCount)

/-- The lapse between a call of `f` from the machine `m` and one of another definition in which its
tree is retold. That has one more local slot. -/
def lapse (f : Expression) (r : Retelling) (numbering : Nat → IdentKey) (m : Machine) : Lapse where
  around := m.context.sections.toList
  hidden frame slot := frame == m.frames.size && slot == f.localCount
  renamed e := f.sharesProgram e && r.self.isNone
  learnt := m.learnt numbering

/-- The elements of the value of a call, taken before the call is left, where only trees run that
are steady under the lapse to another definition. -/
def drainSteadily (f : Expression) (args : List Value) (env : Environment) (r : Retelling)
    (numbering : Nat → IdentKey) (fuel : Nat) : Eval (List Value) := fun m =>
  let steady := Calls.steady env (f.lapse r numbering m) fuel
  f.within args (fun frame => do
    steady.takeAll env.host fuel (← steady.run f frame f.body)) m

theorem getElem?_initialSlots {α : Type} (e : Expression) (null : α) (args : List α) (slot : Nat) :
    (e.initialSlots null args)[slot]? =
      if slot < e.localCount then some ((args.take e.params)[slot]?.getD null) else none := by
  unfold initialSlots
  split
  case isFalse beyond =>
    refine List.getElem?_eq_none ?_
    have := length_initialSlots e null args
    unfold initialSlots at this
    omega
  case isTrue within =>
    rw [List.getElem?_append]
    split
    case isTrue given =>
      rw [List.getElem?_take_of_lt within]
      simp only [List.length_take] at given
      rw [List.getElem?_eq_getElem (by rw [List.length_take]; omega), Option.getD_some]
    case isFalse given =>
      simp only [List.length_take] at given
      rw [List.getElem?_replicate, if_pos (by simp only [List.length_take]; omega),
        List.getElem?_eq_none (by rw [List.length_take]; omega), Option.getD_none]

variable {f h : Expression} {r : Retelling} {env : Environment} {numbering : Nat → IdentKey}
  {args : List Value} {m m₁ : Machine} {fuel : Nat} {xs : List Value}

/-- The two calls begin as twins. -/
theorem LastOf.twins (last : f.LastOf h r) (host : Host) (m : Machine) :
    (f.lapse r numbering m).Twins host [] (f.framed args m) (h.framed args m) := by
  have slots (e : Expression) (frame : FrameId) (slot : Nat) :
      (e.framed args m).slot? frame slot =
        if frame = m.frames.size then (e.initialSlots .null args)[slot]?
        else m.slot? frame slot := Lapse.slot?_newFrame m (e.initialSlots .null args) frame slot
  exact {
    context := ⟨rfl, rfl, Nat.le_refl _, rfl, rfl⟩
    streamCount := rfl
    streams := fun id => Lapse.Streams.rel_refl _
    frameCount := by simp [framed]
    slots := fun frame slot seen => by
      rw [slots, slots, getElem?_initialSlots, getElem?_initialSlots, last.params, last.localCount]
      by_cases new : frame = m.frames.size
      · have other : slot ≠ f.localCount := by simpa [lapse, new] using seen
        simp only [new, if_true]
        by_cases given : slot < f.localCount
        · rw [if_pos given, if_pos (Nat.lt_succ_of_lt given)]
        · rw [if_neg given, if_neg (by omega)]
      · simp only [new, if_false]
    present := fun frame slot hidden => by
      obtain ⟨new, added⟩ : frame = m.frames.size ∧ slot = f.localCount := by
        simpa [lapse] using hidden
      rw [slots, if_pos new, getElem?_initialSlots, last.localCount, added,
        if_pos (Nat.lt_succ_self _)]
      rfl
    knows := Lapse.knows_learnt rfl
    knows' := Lapse.knows_learnt rfl
    nextObject := rfl }

/-- A call of the other definition has the last element as its value. -/
theorem LastOf.invoke (last : f.LastOf h r)
    (ran : f.drainSteadily args env r numbering fuel m = .ok xs m₁) {fuel' : Nat}
    (lt : fuel < fuel') :
    ∃ m₂, (Calls.ofLevels env (pure .null) fuel').invoke h args m = .ok (xs.getLastD .null) m₂ := by
  obtain ⟨below, ran⟩ := within_eq_ok.mp ran
  have pos : 0 < fuel := by
    obtain ⟨v, inside, after, taken, -⟩ := exists_of_during ran
    exact Calls.pos_of_takeAll taken
  obtain ⟨less, rfl⟩ : ∃ less, fuel' = less + 1 + 1 := ⟨fuel' - 2, by omega⟩
  have le : fuel ≤ less + 1 := Nat.le_of_lt_succ lt
  let L := f.lapse r numbering m
  let frame := m.frames.size
  let calls := Calls.ofLevels env (pure .null) (less + 1)
  let above := Calls.ofLevels env (pure .null) (less + 1 + 1)
  -- The body of `h` runs that of `f` and takes the elements of its value.
  have body : above.run h frame h.body = (do
      calls.takeLast env.host (less + 1) h frame f.localCount
        (← above.run h frame (f.body.retell r))) := by
    rw [last.body]
    rfl
  have units : L.Units r f h := by
    refine ⟨last.identifiers, last.expressions, ?_⟩
    split
    case h_1 target known => exact last.self target known
    case h_2 unknown =>
      intro kept
      simp [L, lapse, sharesProgram, unknown] at kept
  have hidden : L.hidden frame f.localCount := by simp [L, lapse, frame]
  have inside : L.Follows env.host (callSections args.head? ++ [])
      (fun xs v => v = xs.getLastD .null)
      (do
        let steady := Calls.steady env L fuel
        steady.takeAll env.host fuel (← steady.run f frame f.body))
      (above.run h frame h.body) := by
    have runs : L.FollowsCalls env (Calls.steady env L fuel) above :=
      Lapse.followsCalls_steady (Nat.le_of_lt lt)
    have reads : L.FollowsCalls env (Calls.steady env L fuel) calls := Lapse.followsCalls_steady le
    rw [body]
    exact (runs.run _ r f h frame f.body units).bind_eq fun v =>
      reads.takeLast hidden (fun m v => Calls.run_localVar less h) le v
  obtain ⟨v, m₂, ran', rfl, -⟩ := inside.call _ _ (last.twins env.host m) xs m₁ ran
  exact ⟨m₂, within_eq_ok.mpr ⟨below, ran'⟩⟩

end Expression

/-! ## Now or later -/

theorem run'_eq_some {α : Type} {x : Eval α} {m : Machine} {a : α} :
    x.run' m = some a ↔ ∃ m₁, x m = .ok a m₁ := by
  unfold EStateM.run' EStateM.run
  cases x m with
  | ok b m₁ => simp
  | error stop m₁ => simp

/-- **A stream has the same elements whenever it is drained, if its bodies are steady.** Let `xs` be
the elements that are taken before the scope is left: before the call returns whose body has the
stream as its value, or the stage that runs that body for an element. Let it make no difference if
only trees run meanwhile that are steady: that look at no section that goes or comes and at no local
slot that is assigned, and call no annotation. Then the scope has a value, and draining it later
gives `xs`, whatever sections `w` has put on top and whatever slots it has assigned; also a
reduction that puts the elements into one of these slots has the last of them as its value. In
particular `f(a) #< r -> r` and `h(a)` are equal for `f -> E` and `h -> (E) #< r -> r`. -/
theorem drained_whenever (env : Environment) (numbering : Nat → IdentKey) (fuel : Nat)
    (w : Meanwhile) (scope : Scope) (m : Machine) (xs : List Value)
    (drained : (scope.drain env fuel).run' m = some xs)
    (steady : (scope.drainSteadily env w numbering fuel).run' m = (scope.drain env fuel).run' m) :
    let levels := Calls.ofLevels env (pure .null)
    ∃ v m', scope.run (levels fuel) m = .ok v m' ∧
      (∀ m'', w.Passes m' m'' → ∀ fuel', fuel ≤ fuel' →
        ((levels fuel').takeAll env.host fuel' v).run' m'' = some xs ∧
        ∀ e frame slot, (frame, slot) ∈ w.slots → (m'.slot? frame slot).isSome →
          ((levels fuel').takeLast env.host fuel' e frame slot v).run' m'' =
            some (xs.getLastD .null)) ∧
      ∀ f args h r, scope = .call f args → f.LastOf h r →
        (f.drainSteadily args env r numbering fuel).run' m = (scope.drain env fuel).run' m →
        ∀ fuel', fuel < fuel' →
          ((levels fuel').invoke h args).run' m = some (xs.getLastD .null) ∧
          (w.sections = [] → ∀ e frame slot, (frame, slot) ∈ w.slots →
            (m'.slot? frame slot).isSome →
            ((levels fuel).invoke f args >>=
                (levels fuel').takeLast env.host fuel' e frame slot).run' m =
              ((levels fuel').invoke h args).run' m) := by
  intro levels
  obtain ⟨m₁, ran⟩ := run'_eq_some.mp (steady.trans drained)
  obtain ⟨v, m', left, later⟩ := Scope.drained_later ran
  have both (m'' : Machine) (passes : w.Passes m' m'') (fuel' : Nat) (le : fuel ≤ fuel') :
      ((levels fuel').takeAll env.host fuel' v).run' m'' = some xs ∧
      ∀ e frame slot, (frame, slot) ∈ w.slots → (m'.slot? frame slot).isSome →
        ((levels fuel').takeLast env.host fuel' e frame slot v).run' m'' =
          some (xs.getLastD .null) := by
    obtain ⟨all, last⟩ := later m'' passes fuel' le
    exact ⟨run'_eq_some.mpr all, fun e frame slot written there =>
      run'_eq_some.mpr (last e frame slot written there)⟩
  refine ⟨v, m', left, both, ?_⟩
  rintro f args h r rfl last alone fuel' lt
  obtain ⟨m₂, retold⟩ := run'_eq_some.mp (alone.trans drained)
  have inside : ((levels fuel').invoke h args).run' m = some (xs.getLastD .null) :=
    run'_eq_some.mpr (last.invoke retold lt)
  refine ⟨inside, fun still e frame slot written there => ?_⟩
  have atOnce : w.Passes m' m' := by
    obtain ⟨sections, slots⟩ := w
    obtain rfl : sections = [] := still
    exact .refl m' slots
  obtain ⟨m₃, taken⟩ := run'_eq_some.mp
    ((both m' atOnce fuel' (Nat.le_of_lt lt)).2 e frame slot written there)
  rw [inside, run'_eq_some]
  refine ⟨m₃, ?_⟩
  have returned : (levels fuel).invoke f args m = .ok v m' := left
  simp only [Bind.bind, EStateM.bind, returned, taken]

namespace Expression

/-- Whether `h` is the last of `f`, for expressions that call no others. -/
def isLastOf (f h : Expression) : Bool :=
  h.identifiers == f.identifiers && f.expressions.isEmpty && h.expressions.isEmpty &&
    h.params == f.params && h.localCount == f.localCount + 1 &&
    h.body == .stream .reduce f.body (some f.localCount) (.localVar f.localCount)

theorem lastOf_of_isLastOf {f h : Expression} (last : f.isLastOf h) : f.LastOf h .none := by
  simp only [isLastOf, Bool.and_eq_true, beq_iff_eq, List.isEmpty_iff] at last
  obtain ⟨⟨⟨⟨⟨identifiers, none⟩, none'⟩, params⟩, localCount⟩, body⟩ := last
  refine ⟨identifiers, fun target => ?_, nofun, params, localCount, ?_⟩
  · rw [none, none', Retelling.target_none]
  · rw [Node.retell_none, body]

end Expression

/-- Whether the values are these integers. -/
def areInts : List Value → List Int64 → Bool
  | [], [] => true
  | .int v :: vs, n :: ns => v == n && areInts vs ns
  | _, _ => false

theorem eq_of_areInts {vs : List Value} {ns : List Int64} (h : areInts vs ns) :
    vs = ns.map .int := by
  induction vs, ns using areInts.induct with
  | case1 => rfl
  | case2 v vs n ns ih =>
    obtain ⟨here, rest⟩ := Bool.and_eq_true_iff.mp h
    rw [eq_of_beq here, ih rest]
    rfl
  | case3 vs ns _ _ => simp [areInts] at h

theorem eq_some_of_areInts {found : Option (List Value)} {ns : List Int64}
    (h : found.any (areInts · ns)) : found = some (ns.map .int) := by
  cases found with
  | none => cases h
  | some vs => rw [eq_of_areInts h]

/-- Whether the first reply is an expression that passes the check, given the replies after it. -/
def Reply.headPasses (check : Expression → List Reply → Bool) : List Reply → Bool
  | .compiled (.ok e) :: replies => check e replies
  | _ => false

theorem Reply.exists_of_headPasses {check : Expression → List Reply → Bool} {replies : List Reply}
    (h : headPasses check replies) :
    ∃ e rest, replies = .compiled (.ok e) :: rest ∧ check e rest := by
  unfold headPasses at h
  split at h
  case h_1 e rest => exact ⟨e, rest, rfl, h⟩
  case h_2 => cases h

/-- The body of the stage looks `n` up past the argument of the call, to the data beneath. -/
theorem drained_whenever_of_call :
    ∃ f h s, (Session.fresh {} .all).run [.compile "f(p) -> p #> x -> x + n" 0,
        .compile "h(p) -> (p #> x -> x + n) #< r -> r" 0] =
          ([.compiled (.ok f), .compiled (.ok h)], s) ∧
      let m : Machine :=
        { context := .fresh (.map [(.str "n", .int 10)]), frames := #[#[.null]] }
      let args := [.list [.int 1, .int 2]]
      let levels := Calls.ofLevels {} (pure .null)
      ((Scope.call f args).drain {} 8).run' m = some [.int 11, .int 12] ∧
      (∃ v m', (levels 8).invoke f args m = .ok v m' ∧
        ((levels 8).takeAll {} 8 v).run' m' = some [.int 11, .int 12]) ∧
      ((levels 8).invoke f args >>= (levels 9).takeLast {} 9 default 0 0).run' m =
        ((levels 9).invoke h args).run' m := by
  let m : Machine := { context := .fresh (.map [(.str "n", .int 10)]), frames := #[#[.null]] }
  let args : List Value := [.list [.int 1, .int 2]]
  let w : Meanwhile := { slots := [(0, 0)] }
  let numbering (_ : Nat) : IdentKey := .property "n"
  have check : Reply.headPasses (fun f replies => Reply.headPasses (fun h replies =>
        let scope : Scope := .call f args
        replies.isEmpty && f.isLastOf h && ((scope.drain {} 8).run' m).any (areInts · [11, 12]) &&
          ((scope.drainSteadily {} w numbering 8).run' m).any (areInts · [11, 12]) &&
          ((f.drainSteadily args {} .none numbering 8).run' m).any (areInts · [11, 12]) &&
          (match (Calls.ofLevels {} (pure .null) 8).invoke f args m with
            | .ok _ m' => (m'.slot? 0 0).isSome
            | .error _ _ => false)) replies)
      ((Session.fresh {} .all).run [.compile "f(p) -> p #> x -> x + n" 0,
        .compile "h(p) -> (p #> x -> x + n) #< r -> r" 0]).1 = true := by decide +kernel
  generalize (Session.fresh {} .all).run [.compile "f(p) -> p #> x -> x + n" 0,
    .compile "h(p) -> (p #> x -> x + n) #< r -> r" 0] = ran at check ⊢
  obtain ⟨replies, s⟩ := ran
  obtain ⟨f, others, rfl, second⟩ := Reply.exists_of_headPasses check
  obtain ⟨h, others, rfl, passed⟩ := Reply.exists_of_headPasses second
  simp only [Bool.and_eq_true, List.isEmpty_iff] at passed
  obtain ⟨⟨⟨⟨⟨rfl, last⟩, drained⟩, steady⟩, alone⟩, there⟩ := passed
  have drained := eq_some_of_areInts drained
  have steady := eq_some_of_areInts steady
  have alone := eq_some_of_areInts alone
  obtain ⟨v, m', ran, later, inside⟩ :=
    drained_whenever {} numbering 8 w (.call f args) m _ drained (steady.trans drained.symm)
  have ran : (Calls.ofLevels {} (pure .null) 8).invoke f args m = .ok v m' := ran
  rw [ran] at there
  refine ⟨f, h, s, rfl, drained, ⟨v, m', ran, ?_⟩, ?_⟩
  · exact (later m' (.refl m' _) 8 (Nat.le_refl 8)).1
  · have last := Expression.lastOf_of_isLastOf last
    exact (inside f args h .none rfl last (alone.trans drained.symm) 9 (by decide)).2
      rfl default 0 0 (by decide) there

/-- The argument of a call is a section until the call is left: `.` in the body of the stage is the
argument where the call takes the elements, and nothing where they are taken afterwards. -/
theorem section_of_call_is_gone :
    ∃ f h late early s, (Session.fresh {} .all).run [.compile "f -> [1, 2] #> x -> ." 0,
        .compile "h -> ([1, 2] #> x -> .) #< r -> r" 0, .compile "f(5) #< r -> r" 0,
        .compile "h(5)" 0] =
          ([.compiled (.ok f), .compiled (.ok h), .compiled (.ok late), .compiled (.ok early)], s) ∧
      f.LastOf h .none ∧ (late.tryEvaluate {} []).run' {} = some .null ∧
      (early.tryEvaluate {} []).run' {} = some (.int 5) := by
  have check : Reply.headPasses (fun f replies => Reply.headPasses (fun h replies =>
        Reply.headPasses (fun late replies => Reply.headPasses (fun early replies =>
          replies.isEmpty && f.isLastOf h && ((late.tryEvaluate {} []).run' {}).any Value.isNull &&
            ((early.tryEvaluate {} []).run' {}).any fun v => areInts [v] [5]) replies) replies)
          replies)
      ((Session.fresh {} .all).run [.compile "f -> [1, 2] #> x -> ." 0,
        .compile "h -> ([1, 2] #> x -> .) #< r -> r" 0, .compile "f(5) #< r -> r" 0,
        .compile "h(5)" 0]).1 = true := by decide +kernel
  generalize (Session.fresh {} .all).run [.compile "f -> [1, 2] #> x -> ." 0,
    .compile "h -> ([1, 2] #> x -> .) #< r -> r" 0, .compile "f(5) #< r -> r" 0,
    .compile "h(5)" 0] = ran at check ⊢
  obtain ⟨replies, s⟩ := ran
  obtain ⟨f, others, rfl, second⟩ := Reply.exists_of_headPasses check
  obtain ⟨h, others, rfl, third⟩ := Reply.exists_of_headPasses second
  obtain ⟨late, others, rfl, fourth⟩ := Reply.exists_of_headPasses third
  obtain ⟨early, others, rfl, passed⟩ := Reply.exists_of_headPasses fourth
  simp only [Bool.and_eq_true, List.isEmpty_iff] at passed
  obtain ⟨⟨⟨rfl, last⟩, nothing⟩, five⟩ := passed
  refine ⟨f, h, late, early, s, rfl, Expression.lastOf_of_isLastOf last, ?_, ?_⟩
  · obtain ⟨v, found, null⟩ := (Option.any_eq_true _ _).mp nothing
    cases v <;> first | exact found | cases null
  · obtain ⟨v, found, five⟩ := (Option.any_eq_true _ _).mp five
    rw [found, (List.cons.inj (eq_of_areInts five)).1]

end TagExpr
