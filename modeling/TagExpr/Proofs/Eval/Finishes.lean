import TagExpr.Eval
import TagExpr.Proofs.Eval.Upkeep

/-!
# Evaluation without streams finishes

A tree without streaming operators is evaluated along its parts, and goes on in another tree only
where an expression is called. Each call that begins takes one from the calls that the limit leaves,
so as many levels as there are calls left are enough, and more of them change nothing
(`finishes_ofLevels`). The recursion of named expressions needs no measure of its own.
-/

namespace TagExpr

/-! ## Trees without streaming operators -/

namespace Node

mutual

/-- No streaming operator is in the tree. -/
def streamless : Node → Bool
  | .literal _ | .regex _ | .current _ | .internal _ _ | .localVar _ | .binding _ _
  | .identifier _ _ => true
  | .call _ _ args | .named _ args | .recurse args | .annotated _ args => streamlessList args
  | .member receiver _ _ => streamless receiver
  | .method receiver _ args _ => streamless receiver && streamlessList args
  | .index receiver key _ => streamless receiver && streamless key
  | .unary _ operand => streamless operand
  | .binary _ left right => streamless left && streamless right
  | .ternary condition yes no => streamless condition && (streamless yes && streamless no)
  | .concat items | .list items | .set items | .sequence items => streamlessList items
  | .map entries => streamlessEntries entries
  | .assignLocal _ value | .assignBinding _ _ value => streamless value
  | .stream _ _ _ _ => false
termination_by structural n => n

def streamlessList : List Node → Bool
  | [] => true
  | n :: rest => streamless n && streamlessList rest

def streamlessEntries : List (Node × Node) → Bool
  | [] => true
  | entry :: rest => streamlessEntry entry && streamlessEntries rest

def streamlessEntry : Node × Node → Bool
  | (key, value) => streamless key && streamless value

end

mutual

/-- The positions of the named expressions that the tree calls. -/
def targets : Node → List Nat
  | .literal _ | .regex _ | .current _ | .internal _ _ | .localVar _ | .binding _ _
  | .identifier _ _ => []
  | .call _ _ args | .recurse args | .annotated _ args => targetsOfList args
  | .named target args => target :: targetsOfList args
  | .member receiver _ _ => targets receiver
  | .method receiver _ args _ => targets receiver ++ targetsOfList args
  | .index receiver key _ => targets receiver ++ targets key
  | .unary _ operand => targets operand
  | .binary _ left right => targets left ++ targets right
  | .ternary condition yes no => targets condition ++ (targets yes ++ targets no)
  | .concat items | .list items | .set items | .sequence items => targetsOfList items
  | .map entries => targetsOfEntries entries
  | .assignLocal _ value | .assignBinding _ _ value => targets value
  | .stream _ source _ body => targets source ++ targets body
termination_by structural n => n

def targetsOfList : List Node → List Nat
  | [] => []
  | n :: rest => targets n ++ targetsOfList rest

def targetsOfEntries : List (Node × Node) → List Nat
  | [] => []
  | entry :: rest => targetsOfEntry entry ++ targetsOfEntries rest

def targetsOfEntry : Node × Node → List Nat
  | (key, value) => targets key ++ targets value

end

end Node

/-- The named expressions that an evaluation can get to, itself among them. -/
inductive Expression.Reaches (e : Expression) : Expression → Prop
  | self : e.Reaches e
  | call {caller callee : Expression} {target : Nat} : e.Reaches caller →
      target ∈ caller.body.targets → caller.expressions[target]? = some callee → e.Reaches callee

/-! ## Contexts -/

namespace Context

/-- Under a limit so many more calls can begin inside of each other, and no stage is running: only
the sections that stages make ask a stream whether another element follows. -/
structure Leaves (c : Context) (limit calls : Nat) : Prop where
  max_eq : c.maxCallDepth = limit
  running : c.callDepth + calls = limit
  known : ∀ s ∈ c.sections.toList, ∃ b, s.following = .known b

variable {c c' : Context} {limit calls : Nat}

theorem Leaves.enterCall (h : c.Leaves limit (calls + 1)) (first : Option Value) :
    (c.enterCall first).Leaves limit calls := by
  have begun : c.callDepth + 1 + calls = limit := by
    have := h.running
    omega
  cases first with
  | none => exact ⟨h.max_eq, begun, h.known⟩
  | some v =>
    refine ⟨h.max_eq, begun, fun s hs => ?_⟩
    rcases List.mem_cons.1 hs with rfl | hs
    · exact ⟨false, rfl⟩
    · exact h.known s hs

theorem Leaves.dropSection (h : c.Leaves limit calls) : c.dropSection.Leaves limit calls := by
  unfold Context.dropSection Stack.pop?
  cases hs : c.sections.toList with
  | nil => exact h
  | cons s below =>
    refine ⟨h.max_eq, h.running, fun s' hs' => h.known s' ?_⟩
    rw [hs]
    exact List.mem_cons_of_mem _ hs'

theorem Leaves.leaveCall (h : c.Leaves limit calls) (below : calls < limit)
    (first : Option Value) : (c.leaveCall first).Leaves limit (calls + 1) := by
  have ends {c : Context} (h : c.Leaves limit calls) :
      Leaves { c with callDepth := c.callDepth - 1 } limit (calls + 1) := by
    have := h.running
    exact ⟨h.max_eq, by show c.callDepth - 1 + (calls + 1) = limit; omega, h.known⟩
  cases first with
  | none => exact ends h
  | some v => exact ends h.dropSection

theorem Leaves.setBinding {template : TemplateId} {slot : Nat} {v : Value}
    (h : c.Leaves limit calls) (hset : c.setBinding template slot v = .ok c') :
    c'.Leaves limit calls := by
  unfold Context.setBinding at hset
  split at hset
  · cases hset
    exact ⟨h.max_eq, h.running, h.known⟩
  · cases hset

theorem Leaves.following (h : c.Leaves limit calls) {lookup : Lookup} {s : Section}
    (hs : c.section? lookup = some s) : ∃ b, s.following = .known b := by
  refine h.known s ?_
  cases lookup with
  | unstated => exact List.mem_of_mem_head? hs
  | backreach levels => exact List.mem_of_getElem? hs
  | root => exact List.mem_reverse.1 (List.mem_of_getElem? hs)

end Context

/-! ## Steps that finish -/

/-- From contexts that leave so many calls both steps do the same, which ends in a value or in an
error, and in such a context. -/
def Finishes {α : Type} (limit calls : Nat) (x y : Eval α) : Prop :=
  ∀ m, m.context.Leaves limit calls → y m = x m ∧
    Ends x m (fun _ m' => m'.context.Leaves limit calls) fun stop _ => stop ≠ .exhausted

section Finishes

variable {α β : Type} {limit calls : Nat} {x y : Eval α} {f g : α → Eval β}

theorem Finishes.bind (h : Finishes limit calls x y) (hn : ∀ a, Finishes limit calls (f a) (g a)) :
    Finishes limit calls (x >>= f) (y >>= g) := by
  intro m hm
  obtain ⟨same, ends⟩ := h m hm
  rw [ends_bind]
  simp only [Bind.bind, EStateM.bind, same]
  cases hx : x m with
  | error stop m' => exact ⟨rfl, by simpa only [Ends, hx] using ends⟩
  | ok a m' =>
    obtain ⟨same', ends'⟩ := hn a m' (ends.ok hx)
    exact ⟨same', by simpa only [Ends, hx] using ends'⟩

/-- What the context is afterwards is all that is asked of a step that does not call. -/
theorem finishes_of_ends (h : ∀ m, m.context.Leaves limit calls →
    Ends x m (fun _ m' => m'.context.Leaves limit calls) fun stop _ => stop ≠ .exhausted) :
    Finishes limit calls x x := fun m hm => ⟨rfl, h m hm⟩

theorem finishes_pure (a : α) : Finishes limit calls (pure a) (pure a) :=
  finishes_of_ends fun _ hm => hm

theorem finishes_fail (fault : EvalFault) :
    Finishes limit calls (Eval.fail fault : Eval α) (Eval.fail fault) :=
  finishes_of_ends fun _ _ => Stop.noConfusion

theorem finishes_context : Finishes limit calls Eval.context Eval.context :=
  finishes_of_ends fun _ hm => hm

theorem finishes_ofExcept (r : Except EvalFault α) :
    Finishes limit calls (Eval.ofExcept r) (Eval.ofExcept r) := by
  cases r with
  | ok a => exact finishes_pure a
  | error fault => exact finishes_fail fault

theorem finishes_localValue? (frame : FrameId) (slot : Nat) :
    Finishes limit calls (Eval.localValue? frame slot) (Eval.localValue? frame slot) :=
  finishes_of_ends fun _ hm => hm

theorem finishes_setLocal (frame : FrameId) (slot : Nat) (v : Value) :
    Finishes limit calls (Eval.setLocal frame slot v) (Eval.setLocal frame slot v) :=
  finishes_of_ends fun _ hm => hm

theorem finishes_member (h : Host) (ref : IdentifierRef) (receiver : Value) (args : List Value) :
    Finishes limit calls (Eval.member h ref receiver args) (Eval.member h ref receiver args) :=
  finishes_of_ends fun _ hm => hm

theorem finishes_searchMember (h : Host) (ref : IdentifierRef) (args : List Value)
    (sections : List Section) : Finishes limit calls (Eval.searchMember h ref args sections)
      (Eval.searchMember h ref args sections) := by
  induction sections with
  | nil => exact finishes_pure _
  | cons s rest ih =>
    refine (finishes_member h ref s.value args).bind fun found => ?_
    cases found with
    | some v => exact finishes_pure v
    | none => exact ih

theorem finishes_resolve (h : Host) (ref : IdentifierRef) (lookup : Lookup) (args : List Value) :
    Finishes limit calls (Eval.resolve h ref lookup args) (Eval.resolve h ref lookup args) :=
  finishes_context.bind fun _ => finishes_searchMember h ref args _

theorem finishes_access (h : Host) (ref : IdentifierRef) (receiver : Value) (args : List Value)
    (safe : Bool) : Finishes limit calls (Eval.access h ref receiver args safe)
      (Eval.access h ref receiver args safe) := by
  unfold Eval.access
  split
  · split
    · exact finishes_pure _
    · exact finishes_fail _
  · exact (finishes_member h ref receiver args).bind fun _ => finishes_pure _

theorem finishes_assign (template : TemplateId) (slot : Nat) (v : Value) :
    Finishes limit calls
      (do
        let c ← Eval.ofExcept ((← Eval.context).setBinding template slot v)
        Eval.modifyContext fun _ => c
        return v)
      (do
        let c ← Eval.ofExcept ((← Eval.context).setBinding template slot v)
        Eval.modifyContext fun _ => c
        return v) := by
  refine finishes_of_ends fun m hm => ?_
  rw [ends_bind]
  show Ends (Eval.ofExcept (m.context.setBinding template slot v) >>= _) m _ _
  cases h : m.context.setBinding template slot v with
  | error fault => exact Stop.noConfusion
  | ok c => exact hm.setBinding h

/-- In such a context no stream is asked whether another element follows. -/
theorem finishes_internal (c c' : Calls) (lookup : Lookup) (name : InternalName) :
    Finishes limit calls (c.internal lookup name) (c'.internal lookup name) := by
  intro m hm
  obtain ⟨v, answers⟩ : ∃ v, ∀ c : Calls, c.internal lookup name m = .ok v m := by
    have context (next : Context → Eval Value) : (Eval.context >>= next) m = next m.context m := rfl
    cases hs : m.context.section? lookup with
    | none => exact ⟨.null, fun c => by rw [Calls.internal, context, hs]; rfl⟩
    | some s =>
      obtain ⟨b, known⟩ := hm.following hs
      cases name with
      | index | isFirst => exact ⟨_, fun c => by rw [Calls.internal, context, hs]; rfl⟩
      | hasNext =>
        refine ⟨.bool b, fun c => ?_⟩
        rw [Calls.internal, context, hs]
        simp only [known]
        rfl
  unfold Ends
  rw [answers c, answers c']
  exact ⟨rfl, hm⟩

/-! ## Trees -/

/-- The calls of some expressions finish, and are alike. -/
structure FinishingCalls (limit calls : Nat) (reached : Expression → Prop)
    (c c' : Calls) : Prop where
  invoke : ∀ e, reached e → ∀ args, Finishes limit calls (c.invoke e args) (c'.invoke e args)
  missing : Finishes limit calls c.missing c'.missing

end Finishes

namespace Node

variable {limit calls : Nat} {reached : Expression → Prop} {env : Environment} {c c' : Calls}
  {fuel fuel' : Nat} {e : Expression} {frame : FrameId}

/-- The expressions at these positions of the table are among those. -/
abbrev Leads (e : Expression) (reached : Expression → Prop) (targets : List Nat) : Prop :=
  ∀ target ∈ targets, ∀ callee, e.expressions[target]? = some callee → reached callee

theorem leads_append {ts ts' : List Nat} :
    Leads e reached (ts ++ ts') ↔ Leads e reached ts ∧ Leads e reached ts' := by
  simp only [Leads, List.mem_append, or_imp, forall_and]

mutual

/-- Trees without streaming operators finish if their calls do. -/
theorem finishes (quiet : env.annotations = []) (h : FinishingCalls limit calls reached c c')
    (self : reached e) : ∀ n : Node, n.streamless = true → Leads e reached n.targets →
    Finishes limit calls (n.eval env c fuel e frame) (n.eval env c' fuel' e frame)
  | .literal _, _, _ => finishes_pure _
  | .regex source, _, _ => by
    unfold eval
    split
    · exact finishes_pure _
    · exact finishes_fail _
  | .current _, _, _ => finishes_context.bind fun _ => finishes_pure _
  | .internal lookup name, _, _ => finishes_internal c c' lookup name
  | .localVar slot, _, _ => by
    refine (finishes_localValue? frame slot).bind fun found => ?_
    cases found with
    | some v => exact finishes_pure v
    | none => exact h.missing
  | .binding _ _, _, _ => finishes_context.bind fun _ => finishes_pure _
  | .identifier ident lookup, _, _ => by
    unfold eval
    split
    · exact finishes_resolve _ _ _ _
    · exact h.missing
  | .call ident lookup args, hs, ht => by
    refine (finishesList quiet h self args hs ht).bind fun values => ?_
    split
    · exact finishes_resolve _ _ _ _
    · exact h.missing
  | .member receiver ident safe, hs, ht => by
    refine (finishes quiet h self receiver hs ht).bind fun target => ?_
    split
    · exact finishes_access _ _ _ _ _
    · exact h.missing
  | .method receiver ident args safe, hs, ht => by
    obtain ⟨hs, hs'⟩ := Bool.and_eq_true_iff.1 hs
    obtain ⟨ht, ht'⟩ := leads_append.1 ht
    refine (finishes quiet h self receiver hs ht).bind fun target => ?_
    split
    · exact finishes_pure _
    · refine (finishesList quiet h self args hs' ht').bind fun values => ?_
      split
      · exact finishes_access _ _ _ _ _
      · exact h.missing
  | .index receiver key safe, hs, ht => by
    obtain ⟨hs, hs'⟩ := Bool.and_eq_true_iff.1 hs
    obtain ⟨ht, ht'⟩ := leads_append.1 ht
    refine (finishes quiet h self receiver hs ht).bind fun target => ?_
    split
    · exact finishes_pure _
    · exact (finishes quiet h self key hs' ht').bind fun _ => finishes_ofExcept _
  | .named target args, hs, ht => by
    refine (finishesList quiet h self args hs fun t hmem => ht t (List.mem_cons_of_mem _ hmem)).bind
      fun values => ?_
    split
    case h_1 callee hc => exact h.invoke callee (ht target List.mem_cons_self callee hc) values
    case h_2 => exact h.missing
  | .recurse args, hs, ht =>
    (finishesList quiet h self args hs ht).bind fun values => h.invoke e self values
  | .annotated name args, hs, ht => by
    refine (finishesList quiet h self args hs ht).bind fun values => ?_
    unfold Eval.annotate
    rw [quiet]
    exact finishes_pure _
  | .unary _ operand, hs, ht =>
    (finishes quiet h self operand hs ht).bind fun _ => finishes_ofExcept _
  | .binary op left right, hs, ht => by
    obtain ⟨hs, hs'⟩ := Bool.and_eq_true_iff.1 hs
    obtain ⟨ht, ht'⟩ := leads_append.1 ht
    have truth : Finishes limit calls
        (do return Value.bool (← eval env c fuel e frame right).isTruthy)
        (do return Value.bool (← eval env c' fuel' e frame right).isTruthy) :=
      (finishes quiet h self right hs' ht').bind fun _ => finishes_pure _
    have chosen (op : BinaryOp) (l : Value) : Finishes limit calls
        (if Value.selectsRight op l then eval env c fuel e frame right else pure l)
        (if Value.selectsRight op l then eval env c' fuel' e frame right else pure l) := by
      split
      · exact finishes quiet h self right hs' ht'
      · exact finishes_pure l
    refine (finishes quiet h self left hs ht).bind fun l => ?_
    split
    · split
      · exact truth
      · exact finishes_pure _
    · split
      · exact finishes_pure _
      · exact truth
    · exact chosen .coalesce l
    · exact chosen .elvis l
    · exact chosen .ifPresent l
    · exact chosen .ifTruthy l
    · exact (finishes quiet h self right hs' ht').bind fun _ => finishes_ofExcept _
  | .ternary condition yes no, hs, ht => by
    obtain ⟨hs, hs'⟩ := Bool.and_eq_true_iff.1 hs
    obtain ⟨hyes, hno⟩ := Bool.and_eq_true_iff.1 hs'
    obtain ⟨ht, ht'⟩ := leads_append.1 ht
    obtain ⟨tyes, tno⟩ := leads_append.1 ht'
    refine (finishes quiet h self condition hs ht).bind fun verdict => ?_
    split
    · exact finishes quiet h self yes hyes tyes
    · exact finishes quiet h self no hno tno
  | .concat parts, hs, ht => (finishesList quiet h self parts hs ht).bind fun _ => finishes_pure _
  | .list items, hs, ht => (finishesList quiet h self items hs ht).bind fun _ => finishes_pure _
  | .set items, hs, ht => (finishesList quiet h self items hs ht).bind fun _ => finishes_pure _
  | .map entries, hs, ht =>
    (finishesEntries quiet h self entries hs ht).bind fun _ => finishes_pure _
  | .assignLocal slot value, hs, ht =>
    (finishes quiet h self value hs ht).bind fun _ =>
      (finishes_setLocal _ _ _).bind fun _ => finishes_pure _
  | .assignBinding template slot value, hs, ht =>
    (finishes quiet h self value hs ht).bind fun v => finishes_assign template slot v
  | .sequence items, hs, ht => (finishesList quiet h self items hs ht).bind fun _ => finishes_pure _
  | .stream _ _ _ _, hs, _ => by cases hs

theorem finishesList (quiet : env.annotations = []) (h : FinishingCalls limit calls reached c c')
    (self : reached e) : ∀ ns : List Node, streamlessList ns = true →
    Leads e reached (targetsOfList ns) →
    Finishes limit calls (evalList env c fuel e frame ns) (evalList env c' fuel' e frame ns)
  | [], _, _ => finishes_pure _
  | n :: ns, hs, ht =>
    have hs := Bool.and_eq_true_iff.1 hs
    have ht := leads_append.1 ht
    (finishes quiet h self n hs.1 ht.1).bind fun _ =>
      (finishesList quiet h self ns hs.2 ht.2).bind fun _ => finishes_pure _

theorem finishesEntries (quiet : env.annotations = []) (h : FinishingCalls limit calls reached c c')
    (self : reached e) : ∀ entries : List (Node × Node), streamlessEntries entries = true →
    Leads e reached (targetsOfEntries entries) →
    Finishes limit calls (evalEntries env c fuel e frame entries)
      (evalEntries env c' fuel' e frame entries)
  | [], _, _ => finishes_pure _
  | entry :: entries, hs, ht =>
    have hs := Bool.and_eq_true_iff.1 hs
    have ht := leads_append.1 ht
    (finishesEntry quiet h self entry hs.1 ht.1).bind fun _ =>
      (finishesEntries quiet h self entries hs.2 ht.2).bind fun _ => finishes_pure _

theorem finishesEntry (quiet : env.annotations = []) (h : FinishingCalls limit calls reached c c')
    (self : reached e) : ∀ entry : Node × Node, streamlessEntry entry = true →
    Leads e reached (targetsOfEntry entry) →
    Finishes limit calls (evalEntry env c fuel e frame entry) (evalEntry env c' fuel' e frame entry)
  | (key, value), hs, ht =>
    have hs := Bool.and_eq_true_iff.1 hs
    have ht := leads_append.1 ht
    (finishes quiet h self key hs.1 ht.1).bind fun _ =>
      (finishes quiet h self value hs.2 ht.2).bind fun _ => finishes_pure _

end

end Node

/-! ## Calls -/

/-- Some expressions without streaming operators, which call no others. -/
structure Expression.Closed (reached : Expression → Prop) : Prop where
  streamless : ∀ e, reached e → e.body.streamless = true
  leads : ∀ e, reached e → Node.Leads e reached e.body.targets

theorem Expression.closed_reaches {e : Expression}
    (h : ∀ e', e.Reaches e' → e'.body.streamless = true) : Expression.Closed e.Reaches :=
  ⟨h, fun _ hr _ hmem _ found => hr.call hmem found⟩

variable {env : Environment} {reached : Expression → Prop}

/-- The machine in which the tree of a call runs. -/
def Machine.entered (m : Machine) (e : Expression) (args : List Value) : Machine :=
  { m with
    frames := m.frames.push (e.initialSlots .null args).toArray
    context := m.context.enterCall args.head? }

/-- A call finishes if its tree does, with one call less left. -/
theorem Finishes.invoke {limit calls : Nat} {c c' : Calls} {e : Expression} (args : List Value)
    (h : ∀ frame, ∀ less, calls = less + 1 →
      Finishes limit less (c.run e frame e.body) (c'.run e frame e.body)) :
    Finishes limit calls (c.invoke e args) (c'.invoke e args) := by
  intro m hm
  have max_eq := hm.max_eq
  have running := hm.running
  rcases Nat.lt_or_ge m.context.callDepth m.context.maxCallDepth with below | reached
  · obtain ⟨less, rfl⟩ : ∃ less, calls = less + 1 := ⟨calls - 1, by omega⟩
    unfold Ends
    rw [Calls.invoke_below c e args below, Calls.invoke_below c' e args below]
    obtain ⟨same, ends⟩ := h m.frames.size less rfl (m.entered e args) (hm.enterCall args.head?)
    simp only [Machine.entered] at same ends
    simp only [Eval.located, Eval.during, same]
    cases hx : c.run e m.frames.size e.body _ with
    | ok v m' => exact ⟨trivial, (ends.ok hx).leaveCall (by omega) args.head?⟩
    | error stop m' =>
      cases stop with
      | error error => exact ⟨trivial, Stop.noConfusion⟩
      | exhausted => exact absurd rfl (ends.error hx)
  · unfold Ends
    rw [Calls.invoke_limit c e args reached, Calls.invoke_limit c' e args reached]
    exact ⟨rfl, Stop.noConfusion⟩

/-- **As many levels as there are calls left are enough**, and more of them change nothing. -/
theorem finishes_ofLevels (quiet : env.annotations = []) (closed : Expression.Closed reached)
    {limit calls levels levels' : Nat} (h : calls ≤ levels) (h' : calls ≤ levels') :
    FinishingCalls limit calls reached (Calls.ofLevels env (pure .null) levels)
      (Calls.ofLevels env (pure .null) levels') := by
  induction calls generalizing levels levels' with
  | zero =>
    refine ⟨fun e _ args => .invoke args fun _ _ h => ?_, finishes_pure _⟩
    cases h
  | succ calls ih =>
    obtain ⟨levels, rfl⟩ : ∃ less, levels = less + 1 := ⟨levels - 1, by omega⟩
    obtain ⟨levels', rfl⟩ : ∃ less, levels' = less + 1 := ⟨levels' - 1, by omega⟩
    refine ⟨fun e he args => .invoke args fun frame less hless => ?_, finishes_pure _⟩
    obtain rfl : calls = less := Nat.succ.inj hless
    exact Node.finishes quiet (ih (Nat.le_of_succ_le_succ h) (Nat.le_of_succ_le_succ h')) he e.body
      (closed.streamless e he) (closed.leads e he)

end TagExpr
