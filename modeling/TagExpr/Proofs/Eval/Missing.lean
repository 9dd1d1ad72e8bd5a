import TagExpr.Eval
import TagExpr.Proofs.Eval.Agree

/-!
# Nothing is looked up in vain

What an evaluation would come to at a position outside its table does not matter: no expression that
has been compiled comes to such a position, nor do the expressions that it calls and the stages of
the streams that it leaves behind.
-/

namespace TagExpr

variable {P : Standing} {c c' : Calls} {env : Environment} {e : Expression} {frame : FrameId}

/-- Bodies run alike, if they may run, and streams are read alike. -/
structure Calls.Alike (c c' : Calls) : Prop where
  run : ∀ e frame n, Agree (.fits e frame n) (c.run e frame n) (c'.run e frame n)
  pull : ∀ id, Agree .any (c.pull id) (c'.pull id)

/-- The handlers of annotations leave a sound machine sound. -/
def Environment.Sound (env : Environment) : Prop :=
  ∀ name handler, env.annotations.lookup name = some handler →
    ∀ args, Agree .any (handler args) (handler args)

theorem agree_fail {α : Type} (fault : EvalFault) :
    Agree P (Eval.fail fault : Eval α) (Eval.fail fault) := agree_throw _

theorem agree_annotate (henv : env.Sound) (name : String) (args : List Value) :
    Agree P (Eval.annotate env name args) (Eval.annotate env name args) := by
  unfold Eval.annotate
  split
  case h_1 handler hlookup => exact (henv name handler hlookup args).weaken fun _ _ => trivial
  case h_2 => exact agree_pure _

namespace Calls.Alike

variable (h : c.Alike c')

include h

/-! ## Calls of expressions -/

theorem invoke (he : e.Covered) (args : List Value) :
    Agree P (c.invoke e args) (c'.invoke e args) := by
  refine Eval.spares_context.agree.bind fun context => ?_
  split
  · exact agree_fail _
  · -- The frame is made for this expression, so it has all its slots.
    refine (agree_newFrame _).bind_of (R := fun frame => .fits e frame e.body) ?_ fun frame => ?_
    · intro m frame m' _ _ hframe _
      refine ⟨he, ?_, ?_⟩
      · obtain ⟨scope, hwithin, -⟩ := he
        exact ⟨scope, hwithin⟩
      · rw [slotCount?_newFrame hframe, e.length_initialSlots]
    · exact ((h.run e frame e.body).during _ _).located _

/-! ## Streams -/

theorem next (id : StreamId) : Agree P (c.next id) (c'.next id) := by
  refine (agree_takePeeked id).bind fun peeked => ?_
  cases peeked with
  | some v => exact agree_pure _
  | none => exact (h.pull id).weaken fun _ _ => trivial

theorem hasNext (id : StreamId) : Agree P (c.hasNext id) (c'.hasNext id) := by
  refine (Eval.spares_stream? id).agree.bind fun s => ?_
  split
  · exact agree_pure _
  · refine Agree.bind ((h.pull id).weaken fun _ _ => trivial) fun v => ?_
    refine (agree_modifyStream id ?_).bind fun _ => agree_pure _
    exact fun _ _ h => h

variable {stage : Stage}

theorem runStage (item : Value) (index : Nat) :
    Agree (.fitsStage stage) (c.runStage stage item index) (c'.runStage stage item index) := by
  have hrun := h.run stage.unit stage.frame stage.body
  unfold Calls.runStage
  split
  · exact (agree_setLocal _ _ _).bind fun _ => hrun
  · exact hrun.during _ _

theorem stageNext (id : StreamId) :
    Agree (.fitsStage stage) (c.stageNext id stage) (c'.stageNext id stage) := by
  refine (h.next stage.input).bind fun found => ?_
  cases found with
  | none => exact agree_pure _
  | some item =>
    exact (agree_countPulled id).bind fun index =>
      (h.runStage item index).bind fun _ => agree_pure _

theorem pullFiltered (id : StreamId) (fuel : Nat) :
    Agree (.fitsStage stage) (c.pullFiltered id stage fuel) (c'.pullFiltered id stage fuel) := by
  induction fuel with
  | zero => exact agree_throw _
  | succ fuel ih =>
    refine (h.stageNext id).bind ?_
    rintro (_ | ⟨item, verdict⟩)
    · exact agree_pure _
    · simp only
      split
      · exact agree_pure _
      · exact ih

theorem pullFlat (host : Host) (id : StreamId) (fuel : Nat) :
    Agree (.fitsStage stage) (c.pullFlat host id stage fuel) (c'.pullFlat host id stage fuel) := by
  induction fuel with
  | zero => exact agree_throw _
  | succ fuel ih =>
    refine (agree_innerStream? id).bind ?_
    -- Without an inner stream the stage runs at once, else where the inner stream has ended.
    rintro (_ | inner)
    case' none => refine (agree_pure none).bind ?_
    case' some => refine (h.next inner).bind ?_
    all_goals
      rintro (_ | v)
      · refine (agree_setInner id none).bind fun _ => (h.stageNext id).bind ?_
        rintro (_ | ⟨item, produced⟩)
        · exact agree_pure _
        · exact (agree_streamOf host produced).bind fun next =>
            (agree_setInner id (some next)).bind fun _ => ih
      · exact agree_pure _

theorem pullStream (host : Host) (fuel : Nat) (id : StreamId) :
    Agree .any (c.pullStream host fuel id) (c'.pullStream host fuel id) := by
  refine (Eval.spares_stream? id).agree.bind_of (R := .fitsStream) ?_ fun s => ?_
  · intro m s m' hm _ hs _
    exact fitsStream_of_stream? hm hs
  · cases s with
    | none => exact agree_pure _
    | some s =>
      obtain ⟨kind, peeked, pulled⟩ := s
      cases kind with
      | source source =>
        simp only
        split
        · exact agree_pure _
        · refine (agree_modifyStream id ?_).bind fun _ => agree_pure _
          intro s stage hstage
          cases hstage
      | remap stage =>
        refine Agree.weaken (P := .fitsStage stage) ?_ ?_
        · exact (h.stageNext id).bind fun _ => agree_pure _
        · exact fun m hm => hm _ rfl stage rfl
      | filter stage =>
        exact (h.pullFiltered id fuel).weaken fun m hm => hm _ rfl stage rfl
      | flatRemap stage inner =>
        exact (h.pullFlat host id fuel).weaken fun m hm => hm _ rfl stage rfl

theorem reduceStage (fuel index : Nat) (last : Value) :
    Agree (.fitsStage stage) (c.reduceStage stage fuel index last)
      (c'.reduceStage stage fuel index last) := by
  induction fuel generalizing index last with
  | zero => exact agree_throw _
  | succ fuel ih =>
    refine (h.next stage.input).bind fun found => ?_
    cases found with
    | none => exact agree_pure _
    | some item => exact (h.runStage item index).bind fun v => ih _ v

theorem firstOfStage (fuel index : Nat) :
    Agree (.fitsStage stage) (c.firstOfStage stage fuel index)
      (c'.firstOfStage stage fuel index) := by
  induction fuel generalizing index with
  | zero => exact agree_throw _
  | succ fuel ih =>
    refine (h.next stage.input).bind fun found => ?_
    cases found with
    | none => exact agree_pure _
    | some item =>
      refine (h.runStage item index).bind fun v => ?_
      split
      · exact ih _
      · exact agree_pure _

theorem applyStage (fuel : Nat) (op : StreamOp) :
    Agree (.fitsStage stage) (c.applyStage fuel stage op) (c'.applyStage fuel stage op) := by
  have made (s : Stream) (hs : s.kind.stage? = some stage) :
      Agree (.fitsStage stage) (do return Value.stream (← Eval.newStream s))
        (do return Value.stream (← Eval.newStream s)) := by
    refine Agree.bind (agree_newStream ?_) fun _ => agree_pure _
    intro m hm found hfound
    rw [hs] at hfound
    cases hfound
    exact hm
  cases op with
  | remap | filter | flatRemap => exact made _ rfl
  | reduce => exact h.reduceStage fuel 0 .null
  | first => exact h.firstOfStage fuel 0

theorem internal (lookup : Lookup) (name : InternalName) :
    Agree P (c.internal lookup name) (c'.internal lookup name) := by
  refine Eval.spares_context.agree.bind fun context => ?_
  split
  · exact agree_pure _
  · cases name with
    | index | isFirst => exact agree_pure _
    | hasNext =>
      simp only
      split
      · exact agree_pure _
      · exact (h.hasNext _).bind fun _ => agree_pure _

end Calls.Alike

/-! ## Trees -/

/-- Whatever goes on outside the tree at hand runs alike. -/
structure Expression.Alike (env : Environment) (c c' : Calls) (e : Expression) : Prop where
  calls : c.Alike c'
  handlers : env.Sound
  covered : e.Covered

theorem Expression.Covered.callee (he : e.Covered) {target : Nat}
    (ht : target < e.expressions.length) :
    ∃ callee, e.expressions[target]? = some callee ∧ callee.Covered := by
  obtain ⟨scope, hwithin, hcallees⟩ := he
  exact ⟨e.expressions[target], List.getElem?_eq_getElem ht, hcallees _ (List.getElem_mem ht)⟩

theorem Expression.identifier_of_limits {scope : TemplateScope Expression} {ident : Nat}
    {key : IdentKey} (h : (e.limits scope).identifiers[ident]? = some key) :
    ∃ ref, e.identifiers[ident]? = some ref := by
  rw [Expression.limits, List.getElem?_map] at h
  obtain ⟨ref, href, -⟩ := Option.map_eq_some_iff.mp h
  exact ⟨ref, href⟩

/-- A slot that the frame has is found. -/
theorem isSome_of_localValue? {m m' : Machine} {slot count : Nat} {found : Option Value}
    (hm : m.slotCount? frame = some count) (hslot : slot < count)
    (h : Eval.localValue? frame slot m = .ok found m') : found.isSome := by
  cases h
  obtain ⟨slots, hslots, rfl⟩ := Option.map_eq_some_iff.mp hm
  simp [hslots, hslot]

namespace Node

variable {scope : TemplateScope Expression} {fuel : Nat}

mutual

/-- A tree within the tables of its expression runs alike in a frame that has all local slots. -/
theorem agree (h : e.Alike env c c') : ∀ {n : Node}, n.Within (e.limits scope) →
    Agree (.slots frame e.localCount) (n.eval env c fuel e frame) (n.eval env c' fuel e frame)
  | .literal _, _ => agree_pure _
  | .regex source, _ => by
    unfold eval
    split
    · exact agree_pure _
    · exact agree_fail _
  | .current _, _ => Eval.spares_context.agree.bind fun _ => agree_pure _
  | .internal lookup name, _ => h.calls.internal lookup name
  | .localVar slot, hw => by
    unfold eval
    refine (Eval.spares_localValue? frame slot).agree.bind_of
      (R := fun found => .fact found.isSome) ?_ ?_
    · intro m found m' _ hm hfound _
      exact isSome_of_localValue? hm hw hfound
    · rintro (_ | v)
      · intro m _ hnone
        cases hnone
      · exact agree_pure v
  | .binding _ _, _ => Eval.spares_context.agree.bind fun _ => agree_pure _
  | .identifier ident lookup, ⟨name, hw⟩ => by
    obtain ⟨ref, href⟩ := Expression.identifier_of_limits hw
    simp only [eval, href]
    exact (Eval.spares_resolve _ _ _ _).agree
  | .call ident lookup args, hw => by
    obtain ⟨⟨name, hident⟩, hargs⟩ := hw
    obtain ⟨ref, href⟩ := Expression.identifier_of_limits hident
    simp only [eval, href]
    exact (agreeList h hargs).bind fun values => (Eval.spares_resolve _ _ _ _).agree
  | .member receiver ident safe, hw => by
    obtain ⟨hreceiver, name, hident⟩ := hw
    obtain ⟨ref, href⟩ := Expression.identifier_of_limits hident
    simp only [eval, href]
    exact (agree h hreceiver).bind fun target => (Eval.spares_access _ _ _ _ _).agree
  | .method receiver ident args safe, hw => by
    obtain ⟨hreceiver, ⟨name, hident⟩, hargs⟩ := hw
    obtain ⟨ref, href⟩ := Expression.identifier_of_limits hident
    simp only [eval, href]
    refine (agree h hreceiver).bind fun target => ?_
    split
    · exact agree_pure _
    · exact (agreeList h hargs).bind fun values => (Eval.spares_access _ _ _ _ _).agree
  | .index receiver key safe, hw => by
    unfold eval
    refine (agree h hw.1).bind fun target => ?_
    split
    · exact agree_pure _
    · exact (agree h hw.2).bind fun key => (Eval.spares_ofExcept _).agree
  | .named target args, hw => by
    obtain ⟨callee, hcallee, hcovered⟩ := h.covered.callee hw.1
    simp only [eval, hcallee]
    exact (agreeList h hw.2).bind fun values => h.calls.invoke hcovered values
  | .recurse args, hw => (agreeList h hw.2).bind fun _ => h.calls.invoke h.covered _
  | .annotated name args, hw => (agreeList h hw).bind fun _ => agree_annotate h.handlers name _
  | .unary op operand, hw => by
    unfold eval
    exact (agree (n := operand) h hw).bind fun v => (Eval.spares_ofExcept _).agree
  | .binary op left right, hw => by
    -- The right operand of a connective, or of an operator that may keep the left one, is not
    -- always evaluated; the value on the left decides, and it is the same on both sides.
    have truth : Agree (.slots frame e.localCount)
        (do return Value.bool (← eval env c fuel e frame right).isTruthy)
        (do return Value.bool (← eval env c' fuel e frame right).isTruthy) :=
      (agree h hw.2).bind fun v => agree_pure _
    have chosen (op : BinaryOp) (l : Value) : Agree (.slots frame e.localCount)
        (if Value.selectsRight op l then eval env c fuel e frame right else pure l)
        (if Value.selectsRight op l then eval env c' fuel e frame right else pure l) := by
      split
      · exact agree h hw.2
      · exact agree_pure l
    unfold eval
    refine (agree h hw.1).bind fun l => ?_
    split
    · split
      · exact truth
      · exact agree_pure _
    · split
      · exact agree_pure _
      · exact truth
    · exact chosen .coalesce l
    · exact chosen .elvis l
    · exact chosen .ifPresent l
    · exact chosen .ifTruthy l
    · exact (agree h hw.2).bind fun r => (Eval.spares_ofExcept _).agree
  | .ternary condition yes no, hw => by
    unfold eval
    refine (agree h hw.1).bind fun verdict => ?_
    split
    · exact agree h hw.2.1
    · exact agree h hw.2.2
  | .concat parts, hw => (agreeList h hw).bind fun _ => agree_pure _
  | .list items, hw => (agreeList h hw).bind fun _ => agree_pure _
  | .set items, hw => (agreeList h hw).bind fun _ => agree_pure _
  | .map entries, hw => (agreeEntries h hw).bind fun _ => agree_pure _
  | .assignLocal slot value, hw =>
    (agree h hw.2).bind fun _ => (agree_setLocal _ _ _).bind fun _ => agree_pure _
  | .assignBinding template slot value, hw => by
    unfold eval
    exact (agree h hw.2).bind fun v => Eval.spares_context.agree.bind fun _ =>
      (Eval.spares_ofExcept _).agree.bind fun _ =>
        (agree_modifyContext _).bind fun _ => agree_pure _
  | .sequence items, hw => (agreeList h hw).bind fun _ => agree_pure _
  | .stream op source slot body, hw => by
    unfold eval
    refine (agree h hw.1).bind fun v => (agree_streamOf env.host v).bind fun input => ?_
    refine (h.calls.applyStage fuel op).weaken ?_
    exact fun m hm => ⟨h.covered, ⟨scope, hw.2.2⟩, hm⟩

theorem agreeList (h : e.Alike env c c') : ∀ {ns : List Node}, WithinList (e.limits scope) ns →
    Agree (.slots frame e.localCount) (evalList env c fuel e frame ns)
      (evalList env c' fuel e frame ns)
  | [], _ => agree_pure _
  | _ :: _, hw => (agree h hw.1).bind fun _ => (agreeList h hw.2).bind fun _ => agree_pure _

theorem agreeEntries (h : e.Alike env c c') : ∀ {entries : List (Node × Node)},
    WithinEntries (e.limits scope) entries →
    Agree (.slots frame e.localCount) (evalEntries env c fuel e frame entries)
      (evalEntries env c' fuel e frame entries)
  | [], _ => agree_pure _
  | _ :: _, hw =>
    (agreeEntry h hw.1).bind fun _ => (agreeEntries h hw.2).bind fun _ => agree_pure _

theorem agreeEntry (h : e.Alike env c c') : ∀ {entry : Node × Node},
    WithinEntry (e.limits scope) entry →
    Agree (.slots frame e.localCount) (evalEntry env c fuel e frame entry)
      (evalEntry env c' fuel e frame entry)
  | (_, _), hw => (agree h hw.1).bind fun _ => (agree h hw.2).bind fun _ => agree_pure _

end

end Node

/-! ## Levels -/

/-- Evaluation does the same whatever it would come to outside a table. -/
theorem Calls.alike_ofLevels (henv : env.Sound) (missing missing' : Eval Value) (fuel : Nat) :
    (Calls.ofLevels env missing fuel).Alike (Calls.ofLevels env missing' fuel) := by
  induction fuel with
  | zero =>
    constructor
    · exact fun _ _ _ => agree_throw .exhausted
    · exact fun _ => agree_throw .exhausted
  | succ fuel ih =>
    constructor
    · intro e frame n m hm hfits
      obtain ⟨hcovered, ⟨scope, hwithin⟩, hslots⟩ := hfits
      exact Node.agree ⟨ih, henv, hcovered⟩ hwithin m hm hslots
    · exact ih.pullStream env.host fuel

/-- Every position in a parsed tree lies in its table, no member is listed twice and the parameters
are local slots. The same holds of a compiled expression and the tables it runs with, so that it
does not matter what its evaluation would come to outside of them, nor what reading the streams
would that it leaves behind. -/
theorem tables_cover_tree (text : String) (offset : Nat) :
    (∀ (ε : Type) (scope scope' : TemplateScope ε) (p : Parsed ε),
      parse text offset scope = (.ok p, scope') →
      p.node.Within (p.limits scope') ∧ p.identifiers.Nodup ∧ p.params ≤ p.localCount) ∧
    ∀ (c c' : Compiler) (t t' : Template) (e : Expression), t.Reachable →
      c.compile t text offset = (.ok e, t', c') →
      (e.body.Within (e.limits t'.scope) ∧ (e.identifiers.map (·.key)).Nodup ∧
        e.params ≤ e.localCount) ∧
      ∀ (env : Environment), env.Sound → ∀ (missing : Eval Value) (fuel : Nat),
        (∀ args, Agree .any ((Calls.ofLevels env missing fuel).invoke e args)
          ((Calls.ofLevels env (pure .null) fuel).invoke e args)) ∧
        ∀ id, Agree .any ((Calls.ofLevels env missing fuel).pull id)
          ((Calls.ofLevels env (pure .null) fuel).pull id) := by
  refine ⟨fun ε scope scope' p h => Parsed.within h, ?_⟩
  intro c c' t t' e ht h
  refine ⟨Compiler.compile_within h, ?_⟩
  intro env henv missing fuel
  have halike := Calls.alike_ofLevels henv missing (pure .null) fuel
  exact ⟨halike.invoke (ht.covered.compile h), halike.pull⟩

theorem tables_cover_tree_of_calls :
    (∃ p scope', parse "x = f(a.b, y := 1); x + f(y)" 0 (TemplateScope.fresh : TemplateScope Nat) =
        (.ok p, scope') ∧
      p.node.Within (p.limits scope') ∧ p.identifiers.Nodup ∧ p.params ≤ p.localCount) ∧
    ∃ e t' c', Compiler.compile {} .fresh "x = f(a.b, y := 1); x + f(y)" 0 = (.ok e, t', c') ∧
      ∀ (missing : Eval Value) (fuel : Nat),
        (Calls.ofLevels {} (pure .null) fuel).invoke e [] {} =
          (Calls.ofLevels {} missing fuel).invoke e [] {} := by
  constructor
  · obtain ⟨p, scope', h⟩ := Parse.parse_of_isOk "x = f(a.b, y := 1); x + f(y)" 0
      (TemplateScope.fresh : TemplateScope Nat) (by decide +kernel)
    exact ⟨p, scope', h, (tables_cover_tree _ _).1 Nat _ _ p h⟩
  · obtain ⟨e, t', c', h⟩ := Compiler.compile_of_isOk {} .fresh "x = f(a.b, y := 1); x + f(y)" 0
      (by decide +kernel)
    refine ⟨e, t', c', h, fun missing fuel => ?_⟩
    have henv : Environment.Sound {} := by
      intro name handler hlookup
      cases hlookup
    have hcover := (tables_cover_tree _ _).2 {} c' .fresh t' e (.fresh .all) h
    exact ((hcover.2 {} henv missing fuel).1 [] {} (Machine.sound_of_isEmpty rfl) trivial).1

end TagExpr
