import TagExpr.Proofs.Compile
import TagExpr.Proofs.Eval.Finishes

/-!
# The steps of an evaluation

The trees that an evaluation comes to are counted, each with the number of calls around it. A tree
is come to at most once for each time that the tree around it is, and a call comes to a whole tree
again; so their number is bounded by the size of the trees and the calls that are left
(`evaluation_terminates`).
-/

namespace TagExpr

/-! ## The size of trees -/

namespace Node

mutual

/-- The number of trees in a tree, itself among them. -/
def size : Node → Nat
  | .literal _ | .regex _ | .current _ | .internal _ _ | .localVar _ | .binding _ _
  | .identifier _ _ => 1
  | .call _ _ args | .named _ args | .recurse args | .annotated _ args => sizeOfList args + 1
  | .member receiver _ _ => size receiver + 1
  | .method receiver _ args _ => size receiver + sizeOfList args + 1
  | .index receiver key _ => size receiver + size key + 1
  | .unary _ operand => size operand + 1
  | .binary _ left right => size left + size right + 1
  | .ternary condition yes no => size condition + (size yes + size no) + 1
  | .concat items | .list items | .set items | .sequence items => sizeOfList items + 1
  | .map entries => sizeOfEntries entries + 1
  | .assignLocal _ value | .assignBinding _ _ value => size value + 1
  | .stream _ source _ body => size source + size body + 1
termination_by structural n => n

def sizeOfList : List Node → Nat
  | [] => 0
  | n :: rest => size n + sizeOfList rest

def sizeOfEntries : List (Node × Node) → Nat
  | [] => 0
  | entry :: rest => sizeOfEntry entry + sizeOfEntries rest

def sizeOfEntry : Node × Node → Nat
  | (key, value) => size key + size value

end

end Node

/-! ## What an evaluation comes to -/

/-- A tree that an evaluation comes to. -/
structure Footstep where
  /-- The calls that the evaluation has made around the tree. -/
  nested : Nat
  /-- The number of calls that the context counts. -/
  running : Nat

/-- Inside of one more call of the evaluation. -/
def Footstep.inside (s : Footstep) : Footstep := { s with nested := s.nested + 1 }

/-- The trees that an evaluation comes to, in order. -/
abbrev Trail := Machine → List Footstep

namespace Trail

def none : Trail := fun _ => []

/-- First the tree itself. -/
def here (rest : Trail) : Trail := fun m => ⟨0, m.context.callDepth⟩ :: rest m

/-- What is come to after a step, which decides it if it has a value. -/
def after {α : Type} (x : Eval α) (rest : α → Trail) : Trail := fun m =>
  match x m with
  | .ok a m' => rest a m'
  | .error _ _ => []

def andThen {α : Type} (first : Trail) (x : Eval α) (rest : α → Trail) : Trail := fun m =>
  first m ++ after x rest m

end Trail

/-- The operator takes its right side if its left side has this value. -/
def BinaryOp.takesRight (op : BinaryOp) (l : Value) : Bool :=
  match op with
  | .and => l.isTruthy
  | .or => !l.isTruthy
  | .coalesce | .elvis | .ifPresent | .ifTruthy => Value.selectsRight op l
  | _ => true

namespace Node

section Trail

variable (env : Environment) (calls : Calls) (fuel : Nat) (e : Expression) (frame : FrameId)
  (invoking : Expression → List Value → Trail)

mutual

/-- The trees that the evaluation of a tree comes to. Those of a stage are not counted. -/
def trail : Node → Trail
  | .literal _ | .regex _ | .current _ | .internal _ _ | .localVar _ | .binding _ _
  | .identifier _ _ => .here .none
  | .call _ _ args | .annotated _ args => .here (trailOfList args)
  | .member receiver _ _ => .here (trail receiver)
  | .method receiver _ args safe =>
    .here (.andThen (trail receiver) (eval env calls fuel e frame receiver) fun target =>
      if target.isNull && safe then .none else trailOfList args)
  | .index receiver key safe =>
    .here (.andThen (trail receiver) (eval env calls fuel e frame receiver) fun target =>
      if target.isNull && safe then .none else trail key)
  | .named target args =>
    .here (.andThen (trailOfList args) (evalList env calls fuel e frame args) fun values =>
      match e.expressions[target]? with
      | some callee => invoking callee values
      | none => .none)
  | .recurse args =>
    .here (.andThen (trailOfList args) (evalList env calls fuel e frame args) (invoking e))
  | .unary _ operand => .here (trail operand)
  | .binary op left right =>
    .here (.andThen (trail left) (eval env calls fuel e frame left) fun l =>
      if op.takesRight l then trail right else .none)
  | .ternary condition yes no =>
    .here (.andThen (trail condition) (eval env calls fuel e frame condition) fun verdict =>
      if verdict.isTruthy then trail yes else trail no)
  | .concat items | .list items | .set items | .sequence items => .here (trailOfList items)
  | .map entries => .here (trailOfEntries entries)
  | .assignLocal _ value | .assignBinding _ _ value => .here (trail value)
  | .stream _ source _ _ => .here (trail source)
termination_by structural n => n

def trailOfList : List Node → Trail
  | [] => .none
  | n :: rest =>
    .andThen (trail n) (eval env calls fuel e frame n) fun _ => trailOfList rest

def trailOfEntries : List (Node × Node) → Trail
  | [] => .none
  | entry :: rest =>
    .andThen (trailOfEntry entry) (evalEntry env calls fuel e frame entry) fun _ =>
      trailOfEntries rest

def trailOfEntry : Node × Node → Trail
  | (key, value) => .andThen (trail key) (eval env calls fuel e frame key) fun _ => trail value

end

end Trail

end Node

/-- The trees that a call comes to, with that many levels at hand. -/
def Calls.trail (env : Environment) : Nat → Expression → List Value → Machine → List Footstep
  | 0, _, _, _ => []
  | levels + 1, e, args, m =>
    if m.context.maxCallDepth ≤ m.context.callDepth then []
    else
      (e.body.trail env (ofLevels env (pure .null) levels) levels e m.frames.size
        (trail env levels) (m.entered e args)).map Footstep.inside

/-! ## How many they are -/

/-- The number of trees that suffices for calls of expressions whose trees have at most that size,
if so many more calls can begin inside of each other. -/
def stepBound (size : Nat) : Nat → Nat
  | 0 => 0
  | calls + 1 => size * (1 + stepBound size calls)

/-- From contexts that leave so many calls at most `count` trees are come to. None is inside of more
calls than that, and the context counts all of them. -/
def Trail.Within (limit calls count : Nat) (v : Trail) : Prop :=
  ∀ m, m.context.Leaves limit calls → (v m).length ≤ count ∧
    ∀ s ∈ v m, s.nested ≤ calls ∧ s.running + calls = limit + s.nested

namespace Trail.Within

variable {limit calls count count' : Nat} {v : Trail} {α : Type} {x : Eval α} {rest : α → Trail}

theorem none : Within limit calls count .none :=
  fun _ _ => ⟨Nat.zero_le _, fun _ h => (List.not_mem_nil h).elim⟩

theorem mono (h : Within limit calls count v) (hc : count ≤ count') : Within limit calls count' v :=
  fun m hm => ⟨Nat.le_trans (h m hm).1 hc, (h m hm).2⟩

theorem here (h : Within limit calls count v) : Within limit calls (count + 1) (.here v) := by
  intro m hm
  obtain ⟨length, nesting⟩ := h m hm
  exact ⟨Nat.succ_le_succ length, List.forall_mem_cons.2 ⟨⟨Nat.zero_le _, hm.running⟩, nesting⟩⟩

/-- A step that finishes hands on a context that leaves as many calls. -/
theorem andThen (h : Within limit calls count v) (hx : Finishes limit calls x x)
    (hn : ∀ a, Within limit calls count' (rest a)) :
    Within limit calls (count + count') (.andThen v x rest) := by
  intro m hm
  obtain ⟨length, nesting⟩ := h m hm
  obtain ⟨length', nesting'⟩ : (after x rest m).length ≤ count' ∧
      ∀ s ∈ after x rest m, s.nested ≤ calls ∧ s.running + calls = limit + s.nested := by
    unfold after
    cases hr : x m with
    | ok a m' => exact hn a m' ((hx m hm).2.ok hr)
    | error stop m' => exact none m hm
  refine ⟨?_, List.forall_mem_append.2 ⟨nesting, nesting'⟩⟩
  show (v m ++ _).length ≤ _
  rw [List.length_append]
  exact Nat.add_le_add length length'

theorem ite {p : Prop} [Decidable p] {w : Trail} (h : Within limit calls count v)
    (h' : Within limit calls count w) : Within limit calls count (if p then v else w) := by
  split
  · exact h
  · exact h'

variable {bound size size' : Nat}

/-- A tree whose parts have that size, and which makes one call. -/
theorem calling (h : Within limit calls (size * (1 + bound) + bound) v) :
    Within limit calls ((size + 1) * (1 + bound)) (.here v) :=
  h.here.mono (by rw [Nat.succ_mul]; omega)

/-- A tree whose parts have that size. -/
theorem tree (h : Within limit calls (size * (1 + bound)) v) :
    Within limit calls ((size + 1) * (1 + bound)) (.here v) :=
  calling (h.mono (Nat.le_add_right _ _))

/-- The parts of a tree, one after the other. -/
theorem parts (h : Within limit calls (size * (1 + bound)) v) (hx : Finishes limit calls x x)
    (hn : ∀ a, Within limit calls (size' * (1 + bound)) (rest a)) :
    Within limit calls ((size + size') * (1 + bound)) (.andThen v x rest) :=
  (h.andThen hx hn).mono (Nat.le_of_eq (Nat.add_mul _ _ _).symm)

end Trail.Within

namespace Node

variable {limit calls bound : Nat} {reached : Expression → Prop} {env : Environment} {c : Calls}
  {fuel : Nat} {e : Expression} {frame : FrameId} {invoking : Expression → List Value → Trail}

/-- What calls of these expressions come to. -/
abbrev InvokingWithin (limit calls bound : Nat) (reached : Expression → Prop)
    (invoking : Expression → List Value → Trail) : Prop :=
  ∀ e, reached e → ∀ args, (invoking e args).Within limit calls bound

mutual

/-- A part is come to at most once for each time that the tree is, and makes at most one call. -/
theorem trail_within (quiet : env.annotations = []) (h : FinishingCalls limit calls reached c c)
    (self : reached e) (invokes : InvokingWithin limit calls bound reached invoking) :
    ∀ n : Node, n.streamless = true → Leads e reached n.targets →
    (n.trail env c fuel e frame invoking).Within limit calls (n.size * (1 + bound))
  | .literal _, _, _ | .regex _, _, _ | .current _, _, _ | .internal _ _, _, _ | .localVar _, _, _
  | .binding _ _, _, _ | .identifier _ _, _, _ =>
    (Trail.Within.none.mono (Nat.zero_le _)).tree
  | .call _ _ args, hs, ht | .annotated _ args, hs, ht =>
    (trailOfList_within quiet h self invokes args hs ht).tree
  | .member receiver _ _, hs, ht => (trail_within quiet h self invokes receiver hs ht).tree
  | .method receiver _ args _, hs, ht => by
    obtain ⟨hs, hs'⟩ := Bool.and_eq_true_iff.1 hs
    obtain ⟨ht, ht'⟩ := leads_append.1 ht
    exact ((trail_within quiet h self invokes receiver hs ht).parts
      (finishes quiet h self receiver hs ht) fun _ =>
        .ite (Trail.Within.none.mono (Nat.zero_le _))
          (trailOfList_within quiet h self invokes args hs' ht')).tree
  | .index receiver key _, hs, ht => by
    obtain ⟨hs, hs'⟩ := Bool.and_eq_true_iff.1 hs
    obtain ⟨ht, ht'⟩ := leads_append.1 ht
    exact ((trail_within quiet h self invokes receiver hs ht).parts
      (finishes quiet h self receiver hs ht) fun _ =>
        .ite (Trail.Within.none.mono (Nat.zero_le _))
          (trail_within quiet h self invokes key hs' ht')).tree
  | .named target args, hs, ht => by
    have ht' : Leads e reached (targetsOfList args) := fun t hmem =>
      ht t (List.mem_cons_of_mem _ hmem)
    refine ((trailOfList_within quiet h self invokes args hs ht').andThen
      (finishesList quiet h self args hs ht') fun values => ?_).calling
    split
    case h_1 callee hc => exact invokes callee (ht target List.mem_cons_self callee hc) values
    case h_2 => exact Trail.Within.none.mono (Nat.zero_le _)
  | .recurse args, hs, ht =>
    ((trailOfList_within quiet h self invokes args hs ht).andThen
      (finishesList quiet h self args hs ht) fun values => invokes e self values).calling
  | .unary _ operand, hs, ht => (trail_within quiet h self invokes operand hs ht).tree
  | .binary op left right, hs, ht => by
    obtain ⟨hs, hs'⟩ := Bool.and_eq_true_iff.1 hs
    obtain ⟨ht, ht'⟩ := leads_append.1 ht
    exact ((trail_within quiet h self invokes left hs ht).parts
      (finishes quiet h self left hs ht) fun _ =>
        .ite (trail_within quiet h self invokes right hs' ht')
          (Trail.Within.none.mono (Nat.zero_le _))).tree
  | .ternary condition yes no, hs, ht => by
    obtain ⟨hs, hs'⟩ := Bool.and_eq_true_iff.1 hs
    obtain ⟨hyes, hno⟩ := Bool.and_eq_true_iff.1 hs'
    obtain ⟨ht, ht'⟩ := leads_append.1 ht
    obtain ⟨tyes, tno⟩ := leads_append.1 ht'
    exact ((trail_within quiet h self invokes condition hs ht).parts
      (finishes quiet h self condition hs ht) fun _ =>
        .ite ((trail_within quiet h self invokes yes hyes tyes).mono
            (Nat.mul_le_mul_right _ (Nat.le_add_right _ _)))
          ((trail_within quiet h self invokes no hno tno).mono
            (Nat.mul_le_mul_right _ (Nat.le_add_left _ _)))).tree
  | .concat items, hs, ht | .list items, hs, ht | .set items, hs, ht | .sequence items, hs, ht =>
    (trailOfList_within quiet h self invokes items hs ht).tree
  | .map entries, hs, ht => (trailOfEntries_within quiet h self invokes entries hs ht).tree
  | .assignLocal _ value, hs, ht | .assignBinding _ _ value, hs, ht =>
    (trail_within quiet h self invokes value hs ht).tree
  | .stream _ _ _ _, hs, _ => by cases hs

theorem trailOfList_within (quiet : env.annotations = [])
    (h : FinishingCalls limit calls reached c c)
    (self : reached e) (invokes : InvokingWithin limit calls bound reached invoking) :
    ∀ ns : List Node, streamlessList ns = true → Leads e reached (targetsOfList ns) →
    (trailOfList env c fuel e frame invoking ns).Within limit calls (sizeOfList ns * (1 + bound))
  | [], _, _ => Trail.Within.none.mono (Nat.zero_le _)
  | n :: ns, hs, ht =>
    have hs := Bool.and_eq_true_iff.1 hs
    have ht := leads_append.1 ht
    (trail_within quiet h self invokes n hs.1 ht.1).parts (finishes quiet h self n hs.1 ht.1)
      fun _ => trailOfList_within quiet h self invokes ns hs.2 ht.2

theorem trailOfEntries_within (quiet : env.annotations = [])
    (h : FinishingCalls limit calls reached c c)
    (self : reached e) (invokes : InvokingWithin limit calls bound reached invoking) :
    ∀ entries : List (Node × Node), streamlessEntries entries = true →
    Leads e reached (targetsOfEntries entries) →
    (trailOfEntries env c fuel e frame invoking entries).Within limit calls
      (sizeOfEntries entries * (1 + bound))
  | [], _, _ => Trail.Within.none.mono (Nat.zero_le _)
  | entry :: entries, hs, ht =>
    have hs := Bool.and_eq_true_iff.1 hs
    have ht := leads_append.1 ht
    (trailOfEntry_within quiet h self invokes entry hs.1 ht.1).parts
      (finishesEntry quiet h self entry hs.1 ht.1) fun _ =>
        trailOfEntries_within quiet h self invokes entries hs.2 ht.2

theorem trailOfEntry_within (quiet : env.annotations = [])
    (h : FinishingCalls limit calls reached c c)
    (self : reached e) (invokes : InvokingWithin limit calls bound reached invoking) :
    ∀ entry : Node × Node, streamlessEntry entry = true →
    Leads e reached (targetsOfEntry entry) →
    (trailOfEntry env c fuel e frame invoking entry).Within limit calls
      (sizeOfEntry entry * (1 + bound))
  | (key, value), hs, ht =>
    have hs := Bool.and_eq_true_iff.1 hs
    have ht := leads_append.1 ht
    (trail_within quiet h self invokes key hs.1 ht.1).parts (finishes quiet h self key hs.1 ht.1)
      fun _ => trail_within quiet h self invokes value hs.2 ht.2

end

end Node

variable {env : Environment} {reached : Expression → Prop}

theorem Calls.trail_limit (levels : Nat) (e : Expression) (args : List Value) {m : Machine}
    (h : m.context.maxCallDepth ≤ m.context.callDepth) : trail env levels e args m = [] := by
  cases levels with
  | zero => rfl
  | succ levels => rw [trail, if_pos h]

/-- The trees that a call comes to are bounded by the size of the trees and the calls that are left,
and no more than those calls are inside of each other. -/
theorem Calls.trail_within (quiet : env.annotations = []) (closed : Expression.Closed reached)
    {size : Nat} (sized : ∀ e, reached e → e.body.size ≤ size) {limit calls levels : Nat}
    (h : calls ≤ levels) :
    Node.InvokingWithin limit calls (stepBound size calls) reached (trail env levels) := by
  induction calls generalizing levels with
  | zero =>
    intro e _ args m hm
    have max_eq := hm.max_eq
    have running := hm.running
    rw [trail_limit levels e args (by omega)]
    exact Trail.Within.none m hm
  | succ calls ih =>
    obtain ⟨levels, rfl⟩ : ∃ less, levels = less + 1 := ⟨levels - 1, by omega⟩
    have h := Nat.le_of_succ_le_succ h
    intro e he args m hm
    rcases Nat.lt_or_ge m.context.callDepth m.context.maxCallDepth with below | limit
    · have within : (e.body.trail env (ofLevels env (pure .null) levels) levels e m.frames.size
          (trail env levels)).Within limit calls _ :=
        Node.trail_within quiet (finishes_ofLevels quiet closed h h) he (ih h) e.body
          (closed.streamless e he) (closed.leads e he)
      obtain ⟨length, nesting⟩ := within (m.entered e args) (hm.enterCall args.head?)
      rw [trail, if_neg (Nat.not_le_of_lt below)]
      refine ⟨?_, List.forall_mem_map.2 fun s hs => ?_⟩
      · rw [List.length_map]
        exact Nat.le_trans length (Nat.mul_le_mul_right _ (sized e he))
      · obtain ⟨nested, running⟩ := nesting s hs
        exact ⟨Nat.succ_le_succ nested, congrArg Nat.succ running⟩
    · rw [trail_limit _ e args limit]
      exact Trail.Within.none m hm

/-! ## Evaluation terminates -/

namespace Expression

mutual

/-- The size of the largest tree among those of the expression and of what it calls. -/
def largest : Expression → Nat
  | ⟨_, _, _, _, _, _, _, expressions, _, body⟩ => max body.size (largestOfList expressions)
termination_by structural e => e

def largestOfList : List Expression → Nat
  | [] => 0
  | e :: rest => max (largest e) (largestOfList rest)

end

theorem largest_eq (e : Expression) :
    e.largest = max e.body.size (largestOfList e.expressions) := by
  cases e
  rfl

theorem size_le_largest (e : Expression) : e.body.size ≤ e.largest := by
  rw [largest_eq]
  exact Nat.le_max_left _ _

theorem largest_le_of_mem {e : Expression} {es : List Expression} (h : e ∈ es) :
    e.largest ≤ largestOfList es := by
  induction es with
  | nil => cases h
  | cons e' es ih =>
    rcases List.mem_cons.1 h with rfl | h
    · exact Nat.le_max_left _ _
    · exact Nat.le_trans (ih h) (Nat.le_max_right _ _)

theorem Reaches.largest_le {e e' : Expression} (h : e.Reaches e') : e'.largest ≤ e.largest := by
  induction h with
  | self => exact Nat.le_refl _
  | @call caller callee target _ _ found ih =>
    calc callee.largest ≤ largestOfList caller.expressions :=
          largest_le_of_mem (List.mem_of_getElem? found)
      _ ≤ caller.largest := by
          rw [largest_eq]
          exact Nat.le_max_right _ _
      _ ≤ e.largest := ih

end Expression

/-- **Evaluation without streaming operators terminates**, however the recursion is written. With
the calls that are left as levels at hand, or more, it has always the same result, which is not that
the levels were used up. It comes to no more trees than the size of the largest one and those calls
allow, none inside of more calls than that, each of which the context counts; and a call that begins
with the limit reached fails. -/
theorem evaluation_terminates (quiet : env.annotations = []) {e : Expression}
    (streamless : ∀ e', e.Reaches e' → e'.body.streamless = true) (args : List Value) {m : Machine}
    (within : m.context.callDepth ≤ m.context.maxCallDepth)
    (known : ∀ s ∈ m.context.sections.toList, ∃ b, s.following = .known b) :
    let calls := m.context.maxCallDepth - m.context.callDepth
    let result := (Calls.ofLevels env (pure .null) calls).invoke e args m
    (∀ m', result ≠ .error .exhausted m') ∧
      (calls ≤ Calls.maxLevels → e.tryEvaluate env args m = result) ∧
      (∀ levels, calls ≤ levels →
        (Calls.ofLevels env (pure .null) levels).invoke e args m = result ∧
        (Calls.trail env levels e args m).length ≤ stepBound e.largest calls ∧
        ∀ s ∈ Calls.trail env levels e args m,
          s.nested ≤ calls ∧ s.running = m.context.callDepth + s.nested) ∧
      ∀ (c : Calls) (e' : Expression) (args' : List Value) (m' : Machine),
        m'.context.maxCallDepth ≤ m'.context.callDepth →
        c.invoke e' args' m' =
          .error (.error { fault := .recursionLimit m'.context.maxCallDepth }) m' := by
  intro calls result
  have closed := Expression.closed_reaches streamless
  have leaves : m.context.Leaves m.context.maxCallDepth calls :=
    ⟨rfl, by show m.context.callDepth + (_ - _) = _; omega, known⟩
  have finishes {levels : Nat} (h : calls ≤ levels) :=
    (finishes_ofLevels quiet closed (Nat.le_refl calls) h).invoke e .self args m leaves
  refine ⟨fun m' h => (finishes (Nat.le_refl calls)).2.error h rfl, fun h => (finishes h).1,
    fun levels h => ?_, fun c e' args' m' => c.invoke_limit e' args'⟩
  obtain ⟨length, nesting⟩ := Calls.trail_within quiet closed
    (fun e' he => Nat.le_trans e'.size_le_largest he.largest_le) h e .self args m leaves
  refine ⟨(finishes h).1, length, fun s hs => ?_⟩
  obtain ⟨nested, running⟩ := nesting s hs
  exact ⟨nested, by have := leaves.running; omega⟩

theorem Expression.Reaches.eq_self {e e' : Expression} (none : e.expressions = [])
    (h : e.Reaches e') : e' = e := by
  induction h with
  | self => rfl
  | call _ _ found ih =>
    subst ih
    rw [none] at found
    cases found

/-- A recursion that does not end by itself is stopped by the limit, under which its trees are
counted. -/
theorem evaluation_terminates_of_recursion :
    ∃ e t c, Compiler.compile {} .fresh "f(n) -> [f(n + 1), f(n + 1)]" 0 = (.ok e, t, c) ∧
      (∀ e', e.Reaches e' → e'.body.streamless = true) ∧
      ∀ m : Machine, m.context = { Context.fresh with maxCallDepth := 3 } →
        e.tryEvaluate {} [] m = (Calls.ofLevels {} (pure .null) 3).invoke e [] m ∧
        (Calls.trail {} 5 e [] m).length ≤ stepBound 9 3 ∧
        ∀ s ∈ Calls.trail {} 5 e [] m, s.nested ≤ 3 ∧ s.running = s.nested := by
  obtain ⟨e, t, c, h⟩ := Compiler.compile_of_isOk {} .fresh "f(n) -> [f(n + 1), f(n + 1)]" 0
    (by decide +kernel)
  have shape : (Compiler.compile {} .fresh "f(n) -> [f(n + 1), f(n + 1)]" 0).1.toOption.map
      (fun e => (e.expressions.isEmpty, e.body.streamless, e.largest)) = some (true, true, 9) := by
    decide +kernel
  simp only [h, Except.toOption, Option.map_some, Option.some.injEq, Prod.mk.injEq,
    List.isEmpty_iff] at shape
  obtain ⟨none, streamless, largest⟩ := shape
  have streamless : ∀ e', e.Reaches e' → e'.body.streamless = true := fun e' he => by
    rw [he.eq_self none]
    exact streamless
  refine ⟨e, t, c, h, streamless, fun m hm => ?_⟩
  have known : ∀ s ∈ m.context.sections.toList, ∃ b, s.following = .known b := fun s hs => by
    rw [hm] at hs
    rcases List.mem_singleton.1 hs with rfl
    exact ⟨false, rfl⟩
  have quiet : ({} : Environment).annotations = [] := rfl
  obtain ⟨-, same, levels, -⟩ :=
    evaluation_terminates quiet streamless [] (by rw [hm]; decide) known
  have calls : m.context.maxCallDepth - m.context.callDepth = 3 := by rw [hm]; rfl
  rw [calls] at same levels
  obtain ⟨-, length, nesting⟩ := levels 5 (by decide)
  refine ⟨same (by decide +kernel), largest ▸ length, fun s hs => ?_⟩
  obtain ⟨nested, running⟩ := nesting s hs
  exact ⟨nested, by rw [running, hm]; exact Nat.zero_add _⟩

end TagExpr
