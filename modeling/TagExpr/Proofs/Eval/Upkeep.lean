import TagExpr.Proofs.Eval.Spares

/-!
# What evaluation owes to the context

Calls and the sections of stages change the context for the time of a step, assignments to bindings
change it for good, and nothing else does. An upkeep says what is to be left of a context whatever
of this happens. Under an upkeep two evaluations are alike if they do the same in every context that
it admits, and leave of it what they should, also where they stop.

The two evaluations differ only in the calls that they are given (`Upkeep.AlikeCalls`); all that is
built from alike calls is alike.
-/

namespace TagExpr

/-- What is to be left of a context (`keeps`), and in which contexts (`admits`). -/
structure Upkeep where
  admits : Context → Prop
  keeps : Context → Context → Prop
  refl : ∀ c, keeps c c
  trans : ∀ {c c' c''}, keeps c c' → keeps c' c'' → keeps c c''
  lasts : ∀ {c c'}, keeps c c' → admits c → admits c'
  assigns : ∀ {c c' template slot v}, c.setBinding template slot v = .ok c' → keeps c c'
  /-- A call is only begun below the limit. -/
  enters : ∀ {c}, admits c → c.callDepth < c.maxCallDepth → ∀ first, admits (c.enterCall first)
  leaves : ∀ {c c' first}, keeps (c.enterCall first) c' → keeps c (c'.leaveCall first)
  nests : ∀ {c}, admits c → ∀ s, admits (c.pushSection s)
  unnests : ∀ {c c' s}, keeps (c.pushSection s) c' → keeps c c'.dropSection

namespace Upkeep

variable {U : Upkeep} {α β : Type} {x y : Eval α} {f g : α → Eval β} {m : Machine}

/-- From this machine both steps do the same, and leave of the context what they should. -/
def AlikeAt (U : Upkeep) (m : Machine) (x y : Eval α) : Prop :=
  y m = x m ∧
    Ends x m (fun _ m' => U.keeps m.context m'.context) fun _ m' => U.keeps m.context m'.context

/-- The steps are alike from every machine whose context is admitted. -/
def Alike (U : Upkeep) (x y : Eval α) : Prop := ∀ m, U.admits m.context → U.AlikeAt m x y

theorem AlikeAt.bind (h : U.AlikeAt m x y)
    (hn : ∀ a m', x m = .ok a m' → U.keeps m.context m'.context → U.AlikeAt m' (f a) (g a)) :
    U.AlikeAt m (x >>= f) (y >>= g) := by
  obtain ⟨same, ends⟩ := h
  unfold AlikeAt
  rw [ends_bind]
  simp only [Bind.bind, EStateM.bind, same]
  cases hx : x m with
  | error stop m' => exact ⟨rfl, by simpa only [Ends, hx] using ends⟩
  | ok a m' =>
    have kept : U.keeps m.context m'.context := ends.ok hx
    obtain ⟨same', ends'⟩ := hn a m' hx kept
    refine ⟨same', ?_⟩
    simp only [Ends, hx]
    exact ends'.mono (fun _ _ => U.trans kept) fun _ _ => U.trans kept

theorem Alike.bind (h : U.Alike x y) (hn : ∀ a, U.Alike (f a) (g a)) :
    U.Alike (x >>= f) (y >>= g) :=
  fun m hm => (h m hm).bind fun a m' _ kept => hn a m' (U.lasts kept hm)

theorem alikeAt_of_context (h : Ends x m (fun _ m' => m'.context = m.context)
    fun _ m' => m'.context = m.context) : U.AlikeAt m x x := by
  have kept {m' : Machine} (hm' : m'.context = m.context) : U.keeps m.context m'.context := by
    rw [hm']
    exact U.refl _
  exact ⟨rfl, h.mono (fun _ _ => kept) fun _ _ => kept⟩

theorem alike_of_spares (h : x.Spares) : U.Alike x x :=
  fun m _ => alikeAt_of_context ((h m).mono (fun _ _ hl => hl.context) fun _ _ hl => hl.context)

theorem alike_pure (a : α) : U.Alike (pure a) (pure a) := alike_of_spares (Eval.spares_pure a)

theorem alike_throw (stop : Stop) : U.Alike (throw stop : Eval α) (throw stop) :=
  fun m _ => ⟨rfl, U.refl m.context⟩

theorem alike_context : U.Alike Eval.context Eval.context := alike_of_spares Eval.spares_context

theorem alike_ofExcept (r : Except EvalFault α) : U.Alike (Eval.ofExcept r) (Eval.ofExcept r) :=
  alike_of_spares (Eval.spares_ofExcept r)

/-! ## Local slots and streams -/

theorem alike_setLocal (frame : FrameId) (slot : Nat) (v : Value) :
    U.Alike (Eval.setLocal frame slot v) (Eval.setLocal frame slot v) :=
  fun _ _ => alikeAt_of_context rfl

theorem alike_newStream (s : Stream) : U.Alike (Eval.newStream s) (Eval.newStream s) :=
  fun _ _ => alikeAt_of_context rfl

theorem alike_modifyStream (id : StreamId) (φ : Stream → Stream) :
    U.Alike (Eval.modifyStream id φ) (Eval.modifyStream id φ) :=
  fun _ _ => alikeAt_of_context rfl

theorem alike_stream? (id : StreamId) : U.Alike (Eval.stream? id) (Eval.stream? id) :=
  alike_of_spares (Eval.spares_stream? id)

theorem alike_streamOf (h : Host) (v : Value) :
    U.Alike (Eval.streamOf h v) (Eval.streamOf h v) := by
  unfold Eval.streamOf
  split
  · exact alike_pure _
  · exact alike_newStream _

theorem alike_takePeeked (id : StreamId) : U.Alike (Eval.takePeeked id) (Eval.takePeeked id) := by
  refine (alike_stream? id).bind fun s => ?_
  by_cases h : (s.bind (·.peeked)).isSome = true
  · simp only [h, if_true]
    exact (alike_modifyStream id _).bind fun _ => alike_pure _
  · simp only [h, Bool.false_eq_true, if_false]
    exact alike_pure _

theorem alike_countPulled (id : StreamId) : U.Alike (Eval.countPulled id) (Eval.countPulled id) :=
  (alike_stream? id).bind fun _ => (alike_modifyStream id _).bind fun _ => alike_pure _

theorem alike_innerStream? (id : StreamId) :
    U.Alike (Eval.innerStream? id) (Eval.innerStream? id) := by
  refine (alike_stream? id).bind fun s => ?_
  split
  · exact alike_pure _
  · exact alike_pure _

theorem alike_setInner (id : StreamId) (inner : Option StreamId) :
    U.Alike (Eval.setInner id inner) (Eval.setInner id inner) := alike_modifyStream id _

/-! ## Changes of the context -/

/-- What is changed for the time of a step and then undone. -/
theorem AlikeAt.during {enter leave : Context → Context}
    (h : U.AlikeAt { m with context := enter m.context } x y)
    (undone : ∀ c', U.keeps (enter m.context) c' → U.keeps m.context (leave c')) :
    U.AlikeAt m (Eval.during enter leave x) (Eval.during enter leave y) := by
  obtain ⟨same, ends⟩ := h
  unfold AlikeAt Eval.during Ends
  simp only [same]
  cases hx : x { m with context := enter m.context } with
  | ok a m' => exact ⟨trivial, undone _ (ends.ok hx)⟩
  | error stop m' => exact ⟨trivial, undone _ (ends.error hx)⟩

theorem AlikeAt.located (span : Span) (h : U.AlikeAt m x y) :
    U.AlikeAt m (Eval.located span x) (Eval.located span y) := by
  obtain ⟨same, ends⟩ := h
  unfold AlikeAt Eval.located Ends
  simp only [same]
  cases hx : x m with
  | ok a m' => exact ⟨trivial, ends.ok hx⟩
  | error stop m' =>
    have kept := ends.error hx
    cases stop with
    | error e => exact ⟨trivial, kept⟩
    | exhausted => exact ⟨trivial, kept⟩

theorem Alike.section_ (h : U.Alike x y) (s : Section) :
    U.Alike (Eval.during (·.pushSection s) (·.dropSection) x)
      (Eval.during (·.pushSection s) (·.dropSection) y) := by
  intro m hm
  exact (h _ (U.nests hm s)).during fun _ => U.unnests

/-- The last step of an assignment to a binding. -/
theorem alike_assign (template : TemplateId) (slot : Nat) (v : Value) :
    U.Alike
      (do
        let c ← Eval.ofExcept ((← Eval.context).setBinding template slot v)
        Eval.modifyContext fun _ => c
        return v)
      (do
        let c ← Eval.ofExcept ((← Eval.context).setBinding template slot v)
        Eval.modifyContext fun _ => c
        return v) := by
  intro m _
  refine ⟨rfl, ?_⟩
  rw [ends_bind]
  show Ends (Eval.ofExcept (m.context.setBinding template slot v) >>= _) m _ _
  cases h : m.context.setBinding template slot v with
  | error fault => exact U.refl m.context
  | ok c => exact U.assigns h

end Upkeep

/-! ## Alike calls -/

/-- Whatever goes on outside the tree at hand is alike, and so are the handlers of annotations. -/
structure Upkeep.AlikeCalls (U : Upkeep) (env : Environment) (c c' : Calls) : Prop where
  run : ∀ e frame n, U.Alike (c.run e frame n) (c'.run e frame n)
  pull : ∀ id, U.Alike (c.pull id) (c'.pull id)
  missing : U.Alike c.missing c'.missing
  handlers : ∀ name handler, env.annotations.lookup name = some handler →
    ∀ args, U.Alike (handler args) (handler args)

/-- A call at the limit fails, whatever it calls. -/
theorem Calls.invoke_limit (c : Calls) (e : Expression) (args : List Value) {m : Machine}
    (h : m.context.maxCallDepth ≤ m.context.callDepth) : c.invoke e args m =
      .error (.error { fault := .recursionLimit m.context.maxCallDepth }) m := by
  show (if m.context.maxCallDepth ≤ m.context.callDepth then _ else _ : Eval Value) m = _
  rw [if_pos h]
  rfl

/-- Below the limit the tree of the expression runs in a new frame. -/
theorem Calls.invoke_below (c : Calls) (e : Expression) (args : List Value) {m : Machine}
    (h : m.context.callDepth < m.context.maxCallDepth) : c.invoke e args m =
      Eval.located e.span (Eval.during (·.enterCall args.head?) (·.leaveCall args.head?)
        (c.run e m.frames.size e.body))
        { m with frames := m.frames.push (e.initialSlots .null args).toArray } := by
  show (if m.context.maxCallDepth ≤ m.context.callDepth then _ else _ : Eval Value) m = _
  rw [if_neg (Nat.not_le_of_lt h)]
  rfl

namespace Upkeep.AlikeCalls

variable {U : Upkeep} {env : Environment} {c c' : Calls} (h : U.AlikeCalls env c c')

include h

theorem invoke (e : Expression) (args : List Value) :
    U.Alike (c.invoke e args) (c'.invoke e args) := by
  intro m hm
  unfold AlikeAt Ends
  rcases Nat.lt_or_ge m.context.callDepth m.context.maxCallDepth with below | limit
  · rw [Calls.invoke_below c e args below, Calls.invoke_below c' e args below]
    have admitted := U.enters hm below args.head?
    exact ((h.run e _ e.body _ admitted).during fun _ => U.leaves).located e.span
  · rw [Calls.invoke_limit c e args limit, Calls.invoke_limit c' e args limit]
    exact ⟨rfl, U.refl m.context⟩

/-! ### Streams -/

theorem next (id : StreamId) : U.Alike (c.next id) (c'.next id) := by
  refine (alike_takePeeked id).bind fun peeked => ?_
  cases peeked with
  | some v => exact alike_pure _
  | none => exact h.pull id

theorem hasNext (id : StreamId) : U.Alike (c.hasNext id) (c'.hasNext id) := by
  refine (alike_stream? id).bind fun s => ?_
  split
  · exact alike_pure _
  · exact (h.pull id).bind fun v => (alike_modifyStream id _).bind fun _ => alike_pure _

theorem collect (id : StreamId) (fuel : Nat) :
    U.Alike (c.collect id fuel) (c'.collect id fuel) := by
  induction fuel with
  | zero => exact alike_throw _
  | succ fuel ih =>
    refine (h.next id).bind fun found => ?_
    cases found with
    | none => exact alike_pure _
    | some v => exact ih.bind fun _ => alike_pure _

variable (stage : Stage)

theorem runStage (item : Value) (index : Nat) :
    U.Alike (c.runStage stage item index) (c'.runStage stage item index) := by
  have body := h.run stage.unit stage.frame stage.body
  unfold Calls.runStage
  split
  · exact (alike_setLocal _ _ _).bind fun _ => body
  · exact body.section_ _

theorem stageNext (id : StreamId) : U.Alike (c.stageNext id stage) (c'.stageNext id stage) := by
  refine (h.next stage.input).bind fun found => ?_
  cases found with
  | none => exact alike_pure _
  | some item =>
    exact (alike_countPulled id).bind fun index =>
      (h.runStage stage item index).bind fun _ => alike_pure _

theorem pullFiltered (id : StreamId) (fuel : Nat) :
    U.Alike (c.pullFiltered id stage fuel) (c'.pullFiltered id stage fuel) := by
  induction fuel with
  | zero => exact alike_throw _
  | succ fuel ih =>
    refine (h.stageNext stage id).bind ?_
    rintro (_ | ⟨item, verdict⟩)
    · exact alike_pure _
    · simp only
      split
      · exact alike_pure _
      · exact ih

/-- A flat-remap without an inner stream takes the next value of its body apart. -/
theorem refillFlat (host : Host) (id : StreamId) (fuel : Nat)
    (h' : U.Alike (c.pullFlat host id stage fuel) (c'.pullFlat host id stage fuel)) :
    U.Alike
      (do
        Eval.setInner id none
        match ← c.stageNext id stage with
        | none => return none
        | some (_, produced) =>
          let inner ← Eval.streamOf host produced
          Eval.setInner id (some inner)
          c.pullFlat host id stage fuel)
      (do
        Eval.setInner id none
        match ← c'.stageNext id stage with
        | none => return none
        | some (_, produced) =>
          let inner ← Eval.streamOf host produced
          Eval.setInner id (some inner)
          c'.pullFlat host id stage fuel) := by
  refine (alike_setInner id none).bind fun _ => (h.stageNext stage id).bind ?_
  rintro (_ | ⟨item, produced⟩)
  · exact alike_pure _
  · exact (alike_streamOf host produced).bind fun next =>
      (alike_setInner id (some next)).bind fun _ => h'

theorem pullFlat (host : Host) (id : StreamId) (fuel : Nat) :
    U.Alike (c.pullFlat host id stage fuel) (c'.pullFlat host id stage fuel) := by
  induction fuel with
  | zero => exact alike_throw _
  | succ fuel ih =>
    have fromStage := h.refillFlat stage host id fuel ih
    refine (alike_innerStream? id).bind fun inner => ?_
    cases inner with
    | none => exact fromStage
    | some inner =>
      refine (h.next inner).bind fun found => ?_
      cases found with
      | none => exact fromStage
      | some v => exact alike_pure _

theorem pullStream (host : Host) (fuel : Nat) (id : StreamId) :
    U.Alike (c.pullStream host fuel id) (c'.pullStream host fuel id) := by
  refine (alike_stream? id).bind fun s => ?_
  cases s with
  | none => exact alike_pure _
  | some s =>
    obtain ⟨kind, peeked, pulled⟩ := s
    cases kind with
    | source source =>
      simp only
      split
      · exact alike_pure _
      · exact (alike_modifyStream id _).bind fun _ => alike_pure _
    | remap stage => exact (h.stageNext stage id).bind fun _ => alike_pure _
    | filter stage => exact h.pullFiltered stage id fuel
    | flatRemap stage inner => exact h.pullFlat stage host id fuel

theorem reduceStage (fuel index : Nat) (last : Value) :
    U.Alike (c.reduceStage stage fuel index last) (c'.reduceStage stage fuel index last) := by
  induction fuel generalizing index last with
  | zero => exact alike_throw _
  | succ fuel ih =>
    refine (h.next stage.input).bind fun found => ?_
    cases found with
    | none => exact alike_pure _
    | some item => exact (h.runStage stage item index).bind fun v => ih _ v

theorem firstOfStage (fuel index : Nat) :
    U.Alike (c.firstOfStage stage fuel index) (c'.firstOfStage stage fuel index) := by
  induction fuel generalizing index with
  | zero => exact alike_throw _
  | succ fuel ih =>
    refine (h.next stage.input).bind fun found => ?_
    cases found with
    | none => exact alike_pure _
    | some item =>
      refine (h.runStage stage item index).bind fun v => ?_
      by_cases null : v.isNull = true
      · simp only [null, if_true]
        exact ih _
      · simp only [null, Bool.false_eq_true, if_false]
        exact alike_pure _

theorem applyStage (fuel : Nat) (op : StreamOp) :
    U.Alike (c.applyStage fuel stage op) (c'.applyStage fuel stage op) := by
  cases op with
  | remap | filter | flatRemap => exact (alike_newStream _).bind fun _ => alike_pure _
  | reduce => exact h.reduceStage stage fuel 0 .null
  | first => exact h.firstOfStage stage fuel 0

theorem internal (lookup : Lookup) (name : InternalName) :
    U.Alike (c.internal lookup name) (c'.internal lookup name) := by
  refine alike_context.bind fun context => ?_
  split
  · exact alike_pure _
  · cases name with
    | index | isFirst => exact alike_pure _
    | hasNext =>
      simp only
      split
      · exact alike_pure _
      · exact (h.hasNext _).bind fun _ => alike_pure _

theorem annotate (name : String) (args : List Value) :
    U.Alike (Eval.annotate env name args) (Eval.annotate env name args) := by
  unfold Eval.annotate
  split
  case h_1 handler found => exact h.handlers name handler found args
  case h_2 => exact alike_pure _

end Upkeep.AlikeCalls

/-! ## Alike trees -/

namespace Node

open Upkeep

variable {U : Upkeep} {env : Environment} {c c' : Calls} {fuel : Nat} {e : Expression}
  {frame : FrameId}

mutual

/-- Trees are alike that are evaluated with alike calls. -/
theorem alike (h : U.AlikeCalls env c c') :
    ∀ n : Node, U.Alike (n.eval env c fuel e frame) (n.eval env c' fuel e frame)
  | .literal _ => alike_pure _
  | .regex source => by
    unfold eval
    split
    · exact alike_pure _
    · exact alike_throw _
  | .current _ => alike_context.bind fun _ => alike_pure _
  | .internal lookup name => h.internal lookup name
  | .localVar slot => by
    refine (alike_of_spares (Eval.spares_localValue? frame slot)).bind fun found => ?_
    cases found with
    | some v => exact alike_pure v
    | none => exact h.missing
  | .binding _ _ => alike_context.bind fun _ => alike_pure _
  | .identifier ident lookup => by
    unfold eval
    split
    · exact alike_of_spares (Eval.spares_resolve _ _ _ _)
    · exact h.missing
  | .call ident lookup args => by
    refine (alikeList h args).bind fun values => ?_
    split
    · exact alike_of_spares (Eval.spares_resolve _ _ _ _)
    · exact h.missing
  | .member receiver ident safe => by
    refine (alike h receiver).bind fun target => ?_
    split
    · exact alike_of_spares (Eval.spares_access _ _ _ _ _)
    · exact h.missing
  | .method receiver ident args safe => by
    refine (alike h receiver).bind fun target => ?_
    split
    · exact alike_pure _
    · refine (alikeList h args).bind fun values => ?_
      split
      · exact alike_of_spares (Eval.spares_access _ _ _ _ _)
      · exact h.missing
  | .index receiver key safe => by
    refine (alike h receiver).bind fun target => ?_
    split
    · exact alike_pure _
    · exact (alike h key).bind fun _ => alike_ofExcept _
  | .named target args => by
    refine (alikeList h args).bind fun values => ?_
    split
    · exact h.invoke _ values
    · exact h.missing
  | .recurse args => (alikeList h args).bind fun values => h.invoke e values
  | .annotated name args => (alikeList h args).bind fun values => h.annotate name values
  | .unary _ operand => (alike h operand).bind fun _ => alike_ofExcept _
  | .binary op left right => by
    have truth : U.Alike (do return Value.bool (← eval env c fuel e frame right).isTruthy)
        (do return Value.bool (← eval env c' fuel e frame right).isTruthy) :=
      (alike h right).bind fun _ => alike_pure _
    have chosen (op : BinaryOp) (l : Value) : U.Alike
        (if Value.selectsRight op l then eval env c fuel e frame right else pure l)
        (if Value.selectsRight op l then eval env c' fuel e frame right else pure l) := by
      split
      · exact alike h right
      · exact alike_pure l
    refine (alike h left).bind fun l => ?_
    split
    · split
      · exact truth
      · exact alike_pure _
    · split
      · exact alike_pure _
      · exact truth
    · exact chosen .coalesce l
    · exact chosen .elvis l
    · exact chosen .ifPresent l
    · exact chosen .ifTruthy l
    · exact (alike h right).bind fun _ => alike_ofExcept _
  | .ternary condition yes no => by
    refine (alike h condition).bind fun verdict => ?_
    split
    · exact alike h yes
    · exact alike h no
  | .concat parts => (alikeList h parts).bind fun _ => alike_pure _
  | .list items => (alikeList h items).bind fun _ => alike_pure _
  | .set items => (alikeList h items).bind fun _ => alike_pure _
  | .map entries => (alikeEntries h entries).bind fun _ => alike_pure _
  | .assignLocal slot value =>
    (alike h value).bind fun _ => (alike_setLocal _ _ _).bind fun _ => alike_pure _
  | .assignBinding template slot value => (alike h value).bind fun v => alike_assign template slot v
  | .sequence items => (alikeList h items).bind fun _ => alike_pure _
  | .stream op source slot body =>
    (alike h source).bind fun v => (alike_streamOf env.host v).bind fun _ => h.applyStage _ fuel op

theorem alikeList (h : U.AlikeCalls env c c') : ∀ ns : List Node,
    U.Alike (evalList env c fuel e frame ns) (evalList env c' fuel e frame ns)
  | [] => alike_pure _
  | n :: ns => (alike h n).bind fun _ => (alikeList h ns).bind fun _ => alike_pure _

theorem alikeEntries (h : U.AlikeCalls env c c') : ∀ entries : List (Node × Node),
    U.Alike (evalEntries env c fuel e frame entries) (evalEntries env c' fuel e frame entries)
  | [] => alike_pure _
  | entry :: entries =>
    (alikeEntry h entry).bind fun _ => (alikeEntries h entries).bind fun _ => alike_pure _

theorem alikeEntry (h : U.AlikeCalls env c c') : ∀ entry : Node × Node,
    U.Alike (evalEntry env c fuel e frame entry) (evalEntry env c' fuel e frame entry)
  | (key, value) => (alike h key).bind fun _ => (alike h value).bind fun _ => alike_pure _

end

end Node

end TagExpr
