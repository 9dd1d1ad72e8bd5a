import TagExpr.Eval
import TagExpr.Proofs.Draining.Lookups

/-!
# Steady evaluation

Whether a tree comes to the same at both moments can be told before it runs: it is steady if its
look-ups come to the same members and sections, if the local slots that it reads hold the same, and
if it calls no annotation. Bodies of stages run later and are looked at then. Evaluation in which
only steady trees run is followed by evaluation at the second moment (`Lapse.followsCalls_steady`),
by induction on the levels and, for one level, on the tree.
-/

namespace TagExpr

/-! ## Steady trees -/

namespace Node

variable (L : Lapse) (env : Environment) (own : List Section) (e : Expression) (frame : FrameId)

mutual

/-- The tree comes to the same at both moments, while the sections `own` lie on top. -/
def steady : Node → Bool
  | .literal _ | .regex _ | .binding _ _ => true
  | .current levels => L.sees own (.backreach levels)
  | .internal lookup _ => L.sees own lookup
  | .localVar slot => !L.hidden frame slot
  | .identifier ident lookup =>
    e.identifiers[ident]?.all fun ref => L.keyed ref && L.resolves env.host own ref 0 lookup
  | .call ident lookup args =>
    (e.identifiers[ident]?.all fun ref =>
      L.keyed ref && L.resolves env.host own ref args.length lookup) && steadyList args
  | .member receiver ident _ => e.identifiers[ident]?.all L.keyed && steady receiver
  | .method receiver ident args _ =>
    e.identifiers[ident]?.all L.keyed && steady receiver && steadyList args
  | .index receiver key _ => steady receiver && steady key
  | .named _ args => steadyList args
  | .recurse args => !L.renamed e && steadyList args
  | .annotated name args => (env.annotations.lookup name).isNone && steadyList args
  | .unary _ operand => steady operand
  | .binary _ left right => steady left && steady right
  | .ternary condition yes no => steady condition && steady yes && steady no
  | .concat items | .list items | .set items | .sequence items => steadyList items
  | .map entries => steadyEntries entries
  | .assignLocal _ value | .assignBinding _ _ value => steady value
  | .stream _ source _ _ => steady source
termination_by structural n => n

def steadyList : List Node → Bool
  | [] => true
  | n :: rest => steady n && steadyList rest

def steadyEntries : List (Node × Node) → Bool
  | [] => true
  | entry :: rest => steadyEntry entry && steadyEntries rest

def steadyEntry : Node × Node → Bool
  | (key, value) => steady key && steady value

end

end Node

/-- Of these sections, those that lie on top of what the lapse names. -/
def Lapse.own (L : Lapse) (c : Context) : List Section :=
  c.sections.toList.take (c.sections.size - (L.gone ++ L.around).length)

/-- Evaluation at the first moment with that many levels at hand, which stops before a tree that is
not steady. -/
def Calls.steady (env : Environment) (L : Lapse) : Nat → Calls
  | 0 => ofLevels env (pure .null) 0
  | fuel + 1 =>
    let calls := steady env L fuel
    { run e frame n := fun m =>
        if n.steady L env (L.own m.context) e frame then n.eval env calls fuel e frame m
        else .error .exhausted m
      pull id := calls.pullStream env.host fuel id
      missing := pure .null }

namespace Lapse

variable {L : Lapse} {env : Environment} {own : List Section} {c c' : Calls} {e e' : Expression}
  {frame : FrameId}

/-- What goes on outside the tree at hand follows. -/
structure FollowsCalls (L : Lapse) (env : Environment) (c c' : Calls) : Prop where
  run : ∀ own r e e' frame n, L.Units r e e' →
    L.Repeats env.host own (c.run e frame n) (c'.run e' frame (n.retell r))
  pull : ∀ own id, L.Repeats env.host own (c.pull id) (c'.pull id)
  missing : ∀ own, L.Repeats env.host own c.missing c'.missing

namespace FollowsCalls

variable (hc : L.FollowsCalls env c c')

include hc

theorem invoke (callee : Expression) (args : List Value) :
    L.Repeats env.host own (c.invoke callee args) (c'.invoke callee args) := by
  refine follows_context.bind fun context context' contexts => ?_
  split
  · exact follows_throw _
  case isFalse below =>
    have below' : ¬ context'.maxCallDepth ≤ context'.callDepth := by
      have depth := contexts.callDepth
      rw [contexts.maxCallDepth]
      omega
    rw [if_neg below']
    refine (repeats_newFrame _).bind_eq fun frame => ?_
    have run := hc.run (callSections args.head? ++ own) .none callee callee frame callee.body
      (.refl callee)
    rw [Node.retell_none] at run
    exact run.call.located _ _

/-! ### Streams -/

theorem next (id : StreamId) : L.Repeats env.host own (c.next id) (c'.next id) := by
  refine (repeats_takePeeked id).bind_eq fun found => ?_
  cases found with
  | some v => exact follows_pure rfl
  | none => exact hc.pull own id

theorem hasNext (id : StreamId) : L.Repeats env.host own (c.hasNext id) (c'.hasNext id) := by
  refine (follows_stream? id).bind fun s s' hs => ?_
  rw [bind_peeked hs]
  split
  · exact follows_pure rfl
  · refine (hc.pull own id).bind_eq fun v => ?_
    refine (repeats_modifyStream id ?_).bind_eq fun _ => follows_pure rfl
    exact fun _ _ hs => ⟨hs.kind, rfl, hs.pulled⟩

theorem collect (id : StreamId) {fuel fuel' : Nat} (le : fuel ≤ fuel') :
    L.Repeats env.host own (c.collect id fuel) (c'.collect id fuel') := by
  induction fuel generalizing fuel' with
  | zero => exact follows_throw _
  | succ fuel ih =>
    obtain ⟨fuel', rfl⟩ := Nat.exists_eq_add_of_le' le
    refine (hc.next id).bind_eq fun found => ?_
    cases found with
    | none => exact follows_pure rfl
    | some v => exact (ih (Nat.le_add_left _ _)).bind_eq fun _ => follows_pure rfl

variable {stage stage' : Stage}

theorem runStage (hs : L.Stages stage stage') (item : Value) (index : Nat) :
    L.Repeats env.host own (c.runStage stage item index) (c'.runStage stage' item index) := by
  obtain ⟨r, units, body⟩ := hs.unit
  unfold Calls.runStage
  rw [hs.input, body, hs.frame, hs.binding]
  have run (own : List Section) := hc.run own r _ _ stage.frame stage.body units
  split
  · exact (repeats_setLocal _ _ _).bind_eq fun _ => run own
  · exact (run _).section_

theorem stageNext (hs : L.Stages stage stage') (id : StreamId) :
    L.Repeats env.host own (c.stageNext id stage) (c'.stageNext id stage') := by
  unfold Calls.stageNext
  rw [hs.input]
  refine (hc.next stage.input).bind_eq fun found => ?_
  cases found with
  | none => exact follows_pure rfl
  | some item =>
    exact (repeats_countPulled id).bind_eq fun index =>
      (hc.runStage hs item index).bind_eq fun _ => follows_pure rfl

variable {fuel fuel' : Nat}

theorem pullFiltered (hs : L.Stages stage stage') (id : StreamId) (le : fuel ≤ fuel') :
    L.Repeats env.host own (c.pullFiltered id stage fuel) (c'.pullFiltered id stage' fuel') := by
  induction fuel generalizing fuel' with
  | zero => exact follows_throw _
  | succ fuel ih =>
    obtain ⟨fuel', rfl⟩ := Nat.exists_eq_add_of_le' le
    refine (hc.stageNext hs id).bind_eq ?_
    rintro (_ | ⟨item, verdict⟩)
    · exact follows_pure rfl
    · simp only
      split
      · exact follows_pure rfl
      · exact ih (Nat.le_add_left _ _)

/-- A flat-remap without an inner stream takes the next value of its body apart. -/
theorem refillFlat (hs : L.Stages stage stage') (id : StreamId)
    (rest : L.Repeats env.host own (c.pullFlat env.host id stage fuel)
      (c'.pullFlat env.host id stage' fuel')) :
    L.Repeats env.host own
      (do
        Eval.setInner id none
        match ← c.stageNext id stage with
        | none => return none
        | some (_, produced) =>
          let inner ← Eval.streamOf env.host produced
          Eval.setInner id (some inner)
          c.pullFlat env.host id stage fuel)
      (do
        Eval.setInner id none
        match ← c'.stageNext id stage' with
        | none => return none
        | some (_, produced) =>
          let inner ← Eval.streamOf env.host produced
          Eval.setInner id (some inner)
          c'.pullFlat env.host id stage' fuel') := by
  refine (repeats_setInner id none).bind_eq fun _ => (hc.stageNext hs id).bind_eq ?_
  rintro (_ | ⟨item, produced⟩)
  · exact follows_pure rfl
  · exact (repeats_streamOf produced).bind_eq fun next =>
      (repeats_setInner id (some next)).bind_eq fun _ => rest

theorem pullFlat (hs : L.Stages stage stage') (id : StreamId) (le : fuel ≤ fuel') :
    L.Repeats env.host own (c.pullFlat env.host id stage fuel)
      (c'.pullFlat env.host id stage' fuel') := by
  induction fuel generalizing fuel' with
  | zero => exact follows_throw _
  | succ fuel ih =>
    obtain ⟨fuel', rfl⟩ := Nat.exists_eq_add_of_le' le
    have fromStage := hc.refillFlat hs id (ih (Nat.le_add_left fuel fuel'))
    refine (repeats_innerStream? id).bind_eq fun inner => ?_
    cases inner with
    | none => exact fromStage
    | some inner =>
      refine (hc.next inner).bind_eq fun found => ?_
      cases found with
      | none => exact fromStage
      | some v => exact follows_pure rfl

theorem pullStream (le : fuel ≤ fuel') (id : StreamId) :
    L.Repeats env.host own (c.pullStream env.host fuel id) (c'.pullStream env.host fuel' id) := by
  refine (follows_stream? id).bind fun s s' hs => ?_
  cases hs with
  | none => exact follows_pure rfl
  | @some s s' hs =>
    obtain ⟨kind, peeked, pulled⟩ := s
    obtain ⟨kind', peeked', pulled'⟩ := s'
    cases hs.kind with
    | source source =>
      simp only
      split
      · exact follows_pure rfl
      · refine (repeats_modifyStream id ?_).bind_eq fun _ => follows_pure rfl
        exact fun _ _ hs => ⟨.source _, hs.peeked, hs.pulled⟩
    | remap stages => exact (hc.stageNext stages id).bind_eq fun _ => follows_pure rfl
    | filter stages => exact hc.pullFiltered stages id le
    | flatRemap inner stages => exact hc.pullFlat stages id le

theorem reduceStage (hs : L.Stages stage stage') (le : fuel ≤ fuel') (index : Nat) (last : Value) :
    L.Repeats env.host own (c.reduceStage stage fuel index last)
      (c'.reduceStage stage' fuel' index last) := by
  induction fuel generalizing fuel' index last with
  | zero => exact follows_throw _
  | succ fuel ih =>
    obtain ⟨fuel', rfl⟩ := Nat.exists_eq_add_of_le' le
    unfold Calls.reduceStage
    rw [hs.input]
    refine (hc.next stage.input).bind_eq fun found => ?_
    cases found with
    | none => exact follows_pure rfl
    | some item =>
      exact (hc.runStage hs item index).bind_eq fun v => ih (Nat.le_add_left _ _) _ v

theorem firstOfStage (hs : L.Stages stage stage') (le : fuel ≤ fuel') (index : Nat) :
    L.Repeats env.host own (c.firstOfStage stage fuel index)
      (c'.firstOfStage stage' fuel' index) := by
  induction fuel generalizing fuel' index with
  | zero => exact follows_throw _
  | succ fuel ih =>
    obtain ⟨fuel', rfl⟩ := Nat.exists_eq_add_of_le' le
    unfold Calls.firstOfStage
    rw [hs.input]
    refine (hc.next stage.input).bind_eq fun found => ?_
    cases found with
    | none => exact follows_pure rfl
    | some item =>
      refine (hc.runStage hs item index).bind_eq fun v => ?_
      split
      · exact ih (Nat.le_add_left _ _) _
      · exact follows_pure rfl

theorem applyStage (hs : L.Stages stage stage') (le : fuel ≤ fuel') (op : StreamOp) :
    L.Repeats env.host own (c.applyStage fuel stage op) (c'.applyStage fuel' stage' op) := by
  have made {s s' : Stream} (hs : L.Streams s s') :
      L.Repeats env.host own (do return Value.stream (← Eval.newStream s))
        (do return Value.stream (← Eval.newStream s')) :=
    (follows_newStream hs).bind_eq fun _ => follows_pure rfl
  cases op with
  | remap => exact made ⟨.remap hs, rfl, rfl⟩
  | filter => exact made ⟨.filter hs, rfl, rfl⟩
  | flatRemap => exact made ⟨.flatRemap none hs, rfl, rfl⟩
  | reduce => exact hc.reduceStage hs le 0 .null
  | first => exact hc.firstOfStage hs le 0

/-! ### Sections -/

theorem internal {lookup : Lookup} (seen : L.sees own lookup) (name : InternalName) :
    L.Repeats env.host own (c.internal lookup name) (c'.internal lookup name) := by
  refine follows_context.bind fun context context' contexts => ?_
  rw [contexts.section? seen]
  split
  · exact follows_pure rfl
  · cases name with
    | index | isFirst => exact follows_pure rfl
    | hasNext =>
      simp only
      split
      · exact follows_pure rfl
      · exact (hc.hasNext _).bind_eq fun _ => follows_pure rfl

end FollowsCalls

end Lapse

/-! ## Trees -/

namespace Node

open Lapse

variable {L : Lapse} {env : Environment} {own : List Section} {c c' : Calls} {fuel fuel' : Nat}
  {r : Retelling} {e e' : Expression} {frame : FrameId}

/-- What the tree at hand is run with at both moments. -/
structure Alongside (L : Lapse) (env : Environment) (c c' : Calls) (fuel fuel' : Nat)
    (r : Retelling) (e e' : Expression) : Prop where
  calls : L.FollowsCalls env c c'
  levels : fuel ≤ fuel'
  units : L.Units r e e'

/-- A member that is read with an identifier of the table. -/
theorem repeats_ident {table : List IdentifierRef} {ident : Nat} {ok : IdentifierRef → Bool}
    (steady : table[ident]?.all ok) {x x' : IdentifierRef → Eval Value} {y y' : Eval Value}
    (found : ∀ ref, ok ref → L.Repeats env.host own (x ref) (x' ref))
    (missing : L.Repeats env.host own y y') :
    L.Repeats env.host own (match table[ident]? with | some ref => x ref | none => y)
      (match table[ident]? with | some ref => x' ref | none => y') := by
  cases entry : table[ident]? with
  | none => exact missing
  | some ref =>
    rw [entry] at steady
    exact found ref steady

mutual

/-- A steady tree comes to the same at both moments. -/
theorem repeats (h : Alongside L env c c' fuel fuel' r e e') : ∀ {n : Node},
    n.steady L env own e frame →
    L.Repeats env.host own (n.eval env c fuel e frame) ((n.retell r).eval env c' fuel' e' frame)
  | .literal _, _ => follows_pure rfl
  | .regex source, _ => by
    rw [retell]
    unfold eval
    split
    · exact follows_pure rfl
    · exact follows_throw _
  | .current levels, hn =>
    follows_context.bind fun _ _ contexts => follows_pure (contexts.sectionValue hn).symm
  | .internal lookup name, hn => h.calls.internal hn name
  | .localVar slot, hn => by
    have seen : L.hidden frame slot = false := by simpa [steady] using hn
    refine (repeats_localValue? seen).bind_eq fun found => ?_
    cases found with
    | some v => exact follows_pure rfl
    | none => exact h.calls.missing own
  | .binding template slot, _ =>
    follows_context.bind fun context context' contexts => follows_pure <| by
      unfold Context.binding
      rw [contexts.templates]
  | .identifier ident lookup, hn => by
    rw [retell]
    unfold eval
    rw [h.units.identifiers]
    refine repeats_ident hn (fun ref ok => ?_) (h.calls.missing own)
    obtain ⟨keyed, resolves⟩ := Bool.and_eq_true_iff.mp ok
    exact repeats_resolve keyed [] resolves
  | .call ident lookup args, hn => by
    obtain ⟨hident, hargs⟩ := Bool.and_eq_true_iff.mp hn
    rw [retell]
    unfold eval
    rw [h.units.identifiers]
    refine (repeatsList h hargs).bind_of fun values count => ?_
    refine repeats_ident hident (fun ref ok => ?_) (h.calls.missing own)
    obtain ⟨keyed, resolves⟩ := Bool.and_eq_true_iff.mp ok
    exact repeats_resolve keyed values (count ▸ resolves)
  | .member receiver ident safe, hn => by
    obtain ⟨hident, hreceiver⟩ := Bool.and_eq_true_iff.mp hn
    rw [retell]
    unfold eval
    rw [h.units.identifiers]
    exact (repeats h hreceiver).bind_eq fun target =>
      repeats_ident hident (fun ref keyed => repeats_access keyed target [] safe)
        (h.calls.missing own)
  | .method receiver ident args safe, hn => by
    obtain ⟨hn, hargs⟩ := Bool.and_eq_true_iff.mp hn
    obtain ⟨hident, hreceiver⟩ := Bool.and_eq_true_iff.mp hn
    rw [retell]
    unfold eval
    rw [h.units.identifiers]
    refine (repeats h hreceiver).bind_eq fun target => ?_
    split
    · exact follows_pure rfl
    · exact (repeatsList h hargs).bind_of fun values _ =>
        repeats_ident hident (fun ref keyed => repeats_access keyed target values safe)
          (h.calls.missing own)
  | .index receiver key safe, hn => by
    obtain ⟨hreceiver, hkey⟩ := Bool.and_eq_true_iff.mp hn
    refine (repeats h hreceiver).bind_eq fun target => ?_
    split
    · exact follows_pure rfl
    · exact (repeats h hkey).bind_eq fun _ => repeats_ofExcept _
  | .named target args, hn => by
    refine (repeatsList h hn).bind_of fun values _ => ?_
    rw [h.units.expressions]
    split
    · exact h.calls.invoke _ values
    · exact h.calls.missing own
  | .recurse args, hn => by
    obtain ⟨kept, hargs⟩ := Bool.and_eq_true_iff.mp hn
    have kept : L.renamed e = false := by simpa using kept
    have self := h.units.self
    have followed := repeatsList h hargs
    unfold retell
    split
    case h_1 target known =>
      rw [known] at self
      refine followed.bind_of fun values _ => ?_
      rw [self]
      exact h.calls.invoke e values
    case h_2 unknown =>
      rw [unknown] at self
      refine followed.bind_of fun values _ => ?_
      rw [self kept]
      exact h.calls.invoke e values
  | .annotated name args, hn => by
    obtain ⟨unhandled, hargs⟩ := Bool.and_eq_true_iff.mp hn
    refine (repeatsList h hargs).bind_of fun values _ => ?_
    unfold Eval.annotate
    rw [Option.isNone_iff_eq_none.mp unhandled]
    exact follows_pure rfl
  | .unary _ operand, hn => (repeats (n := operand) h hn).bind_eq fun _ => repeats_ofExcept _
  | .binary op left right, hn => by
    obtain ⟨hleft, hright⟩ := Bool.and_eq_true_iff.mp hn
    have truth : L.Repeats env.host own
        (do return Value.bool (← eval env c fuel e frame right).isTruthy)
        (do return Value.bool (← eval env c' fuel' e' frame (retell r right)).isTruthy) :=
      (repeats h hright).bind_eq fun _ => follows_pure rfl
    have chosen (op : BinaryOp) (l : Value) : L.Repeats env.host own
        (if Value.selectsRight op l then eval env c fuel e frame right else pure l)
        (if Value.selectsRight op l then eval env c' fuel' e' frame (retell r right)
          else pure l) := by
      split
      · exact repeats h hright
      · exact follows_pure rfl
    refine (repeats h hleft).bind_eq fun l => ?_
    split
    · split
      · exact truth
      · exact follows_pure rfl
    · split
      · exact follows_pure rfl
      · exact truth
    · exact chosen .coalesce l
    · exact chosen .elvis l
    · exact chosen .ifPresent l
    · exact chosen .ifTruthy l
    · exact (repeats h hright).bind_eq fun _ => repeats_ofExcept _
  | .ternary condition yes no, hn => by
    obtain ⟨hn, hno⟩ := Bool.and_eq_true_iff.mp hn
    obtain ⟨hcondition, hyes⟩ := Bool.and_eq_true_iff.mp hn
    refine (repeats h hcondition).bind_eq fun verdict => ?_
    split
    · exact repeats h hyes
    · exact repeats h hno
  | .concat parts, hn => (repeatsList h hn).bind_of fun _ _ => follows_pure rfl
  | .list items, hn => (repeatsList h hn).bind_of fun _ _ => follows_pure rfl
  | .set items, hn => (repeatsList h hn).bind_of fun _ _ => follows_pure rfl
  | .map entries, hn => (repeatsEntries h hn).bind_eq fun _ => follows_pure rfl
  | .assignLocal slot value, hn =>
    (repeats (n := value) h hn).bind_eq fun v =>
      (repeats_setLocal frame slot v).bind_eq fun _ => follows_pure rfl
  | .assignBinding template slot value, hn =>
    (repeats (n := value) h hn).bind_eq fun v => repeats_assign template slot v
  | .sequence items, hn => (repeatsList h hn).bind_of fun _ _ => follows_pure rfl
  | .stream op source slot body, hn =>
    (repeats (n := source) h hn).bind_eq fun v => (repeats_streamOf v).bind_eq fun input =>
      h.calls.applyStage (h.units.stages input body frame slot) h.levels op

theorem repeatsList (h : Alongside L env c c' fuel fuel' r e e') : ∀ {ns : List Node},
    steadyList L env own e frame ns →
    L.Follows env.host own (fun vs vs' => vs' = vs ∧ vs.length = ns.length)
      (evalList env c fuel e frame ns) (evalList env c' fuel' e' frame (retellList r ns))
  | [], _ => follows_pure ⟨rfl, rfl⟩
  | _ :: _, hns => by
    obtain ⟨hn, hns⟩ := Bool.and_eq_true_iff.mp hns
    exact (repeats h hn).bind_eq fun v => (repeatsList h hns).bind_of fun vs count =>
      follows_pure ⟨rfl, congrArg (· + 1) count⟩

theorem repeatsEntries (h : Alongside L env c c' fuel fuel' r e e') :
    ∀ {entries : List (Node × Node)}, steadyEntries L env own e frame entries →
    L.Repeats env.host own (evalEntries env c fuel e frame entries)
      (evalEntries env c' fuel' e' frame (retellEntries r entries))
  | [], _ => follows_pure rfl
  | _ :: _, hentries => by
    obtain ⟨hentry, hentries⟩ := Bool.and_eq_true_iff.mp hentries
    exact (repeatsEntry h hentry).bind_eq fun _ => (repeatsEntries h hentries).bind_eq fun _ =>
      follows_pure rfl

theorem repeatsEntry (h : Alongside L env c c' fuel fuel' r e e') : ∀ {entry : Node × Node},
    steadyEntry L env own e frame entry →
    L.Repeats env.host own (evalEntry env c fuel e frame entry)
      (evalEntry env c' fuel' e' frame (retellEntry r entry))
  | (_, _), hentry => by
    obtain ⟨hkey, hvalue⟩ := Bool.and_eq_true_iff.mp hentry
    exact (repeats h hkey).bind_eq fun _ => (repeats h hvalue).bind_eq fun _ => follows_pure rfl

end

end Node

/-! ## Levels -/

namespace Lapse

variable {L : Lapse} {env : Environment} {own : List Section}

theorem Contexts.own_eq {c c' : Context} (hc : L.Contexts own c c') : L.own c = own := by
  unfold Lapse.own Stack.size
  rw [hc.sections, List.length_append, Nat.add_sub_cancel]
  exact List.take_left

/-- **Steady evaluation is followed**, also with more levels at hand. -/
theorem followsCalls_steady {fuel fuel' : Nat} (le : fuel ≤ fuel') :
    L.FollowsCalls env (Calls.steady env L fuel) (Calls.ofLevels env (pure .null) fuel') := by
  induction fuel generalizing fuel' with
  | zero =>
    exact ⟨fun _ _ _ _ _ _ _ => follows_throw _, fun _ _ => follows_throw _,
      fun _ => follows_pure rfl⟩
  | succ fuel ih =>
    obtain ⟨fuel', rfl⟩ := Nat.exists_eq_add_of_le' le
    have lower := ih (Nat.le_add_left fuel fuel')
    refine ⟨fun own r e e' frame n units => ?_,
      fun _ id => lower.pullStream (Nat.le_add_left fuel fuel') id, fun _ => follows_pure rfl⟩
    intro m m' twins v m₁ ran
    simp only [Calls.steady, twins.context.own_eq] at ran
    by_cases steady : n.steady L env own e frame
    · rw [if_pos steady] at ran
      exact n.repeats ⟨lower, Nat.le_add_left fuel fuel', units⟩ steady m m' twins v m₁ ran
    · rw [if_neg steady] at ran
      cases ran

end Lapse

end TagExpr
