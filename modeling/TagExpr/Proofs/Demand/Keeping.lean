import TagExpr.Eval
import TagExpr.Expression
import TagExpr.Proofs.Eval.Upkeep
import TagExpr.Proofs.Stream.Pipeline

/-!
# What evaluation owes to the streams

Whether another element follows is a question that reads a stream ahead. A tree is quiet if neither
it nor a tree that it comes to run asks it: named expressions and the expression itself run where
they are called, and the bodies of stages count as parts of the tree that they stand in.

A stream keeps its stage as long as there is a machine, and while only quiet trees run nothing is
read ahead. Besides, a run that ends does the same with more levels at hand. All three are shown in
one walk over evaluation: a step follows another one, which has fewer levels, if it does the same
wherever that one ends, and the streams are kept.
-/

namespace TagExpr

/-- What a tree turns to beside its own parts. -/
inductive Resort where
  /-- Whether another element follows. -/
  | hasNext
  /-- The named expression at that position of the table. -/
  | named (target : Nat)
  /-- The expression that the tree belongs to. -/
  | itself

namespace Node

mutual

/-- All that the tree turns to, the bodies of its stages included. -/
def resorts : Node → List Resort
  | .internal _ .hasNext => [.hasNext]
  | .literal _ | .regex _ | .current _ | .internal _ _ | .localVar _ | .binding _ _
  | .identifier _ _ => []
  | .call _ _ args | .annotated _ args => resortsOfList args
  | .named target args => .named target :: resortsOfList args
  | .recurse args => .itself :: resortsOfList args
  | .member receiver _ _ => resorts receiver
  | .method receiver _ args _ => resorts receiver ++ resortsOfList args
  | .index receiver key _ => resorts receiver ++ resorts key
  | .unary _ operand => resorts operand
  | .binary _ left right => resorts left ++ resorts right
  | .ternary condition yes no => resorts condition ++ (resorts yes ++ resorts no)
  | .concat items | .list items | .set items | .sequence items => resortsOfList items
  | .map entries => resortsOfEntries entries
  | .assignLocal _ value | .assignBinding _ _ value => resorts value
  | .stream _ source _ body => resorts source ++ resorts body
termination_by structural n => n

def resortsOfList : List Node → List Resort
  | [] => []
  | n :: rest => resorts n ++ resortsOfList rest

def resortsOfEntries : List (Node × Node) → List Resort
  | [] => []
  | entry :: rest => resortsOfEntry entry ++ resortsOfEntries rest

def resortsOfEntry : Node × Node → List Resort
  | (key, value) => resorts key ++ resorts value

end

/-- The trees that may run where a tree of the expression runs, itself among them. -/
inductive Runs (e : Expression) (n : Node) : Expression → Node → Prop
  | self : Runs e n e n
  | named {caller callee : Expression} {tree : Node} {target : Nat} : Runs e n caller tree →
      .named target ∈ tree.resorts → caller.expressions[target]? = some callee →
      Runs e n callee callee.body
  | itself {caller : Expression} {tree : Node} : Runs e n caller tree → .itself ∈ tree.resorts →
      Runs e n caller caller.body

/-- No tree that may run asks whether another element follows. -/
def Quiet (e : Expression) (n : Node) : Prop :=
  ∀ caller tree, Runs e n caller tree → .hasNext ∉ tree.resorts

/-- A quiet tree of the expression may turn to this. -/
def Allows (e : Expression) : Resort → Prop
  | .hasNext => False
  | .named target => ∀ callee, e.expressions[target]? = some callee → Quiet callee callee.body
  | .itself => Quiet e e.body

variable {e e' : Expression} {n n' : Node}

theorem Runs.trans {e'' : Expression} {n'' : Node} (h : Runs e n e' n') (h' : Runs e' n' e'' n'') :
    Runs e n e'' n'' := by
  induction h' with
  | self => exact h
  | named _ mem found ih => exact .named ih mem found
  | itself _ mem ih => exact .itself ih mem

theorem Quiet.allows (quiet : Quiet e n) : ∀ r ∈ n.resorts, Allows e r := by
  intro r mem
  cases r with
  | hasNext => exact quiet e n .self mem
  | named target =>
    intro callee found caller tree runs
    exact quiet caller tree ((Runs.self.named mem found).trans runs)
  | itself =>
    intro caller tree runs
    exact quiet caller tree ((Runs.self.itself mem).trans runs)

/-- A tree is quiet if it turns only to what is quiet. -/
theorem quiet_iff : Quiet e n ↔ ∀ r ∈ n.resorts, Allows e r := by
  refine ⟨Quiet.allows, fun allows caller tree runs => ?_⟩
  suffices h : ∀ r ∈ tree.resorts, Allows caller r from fun mem => h .hasNext mem
  induction runs with
  | self => exact allows
  | named _ mem found ih => exact Quiet.allows (ih _ mem _ found)
  | itself _ mem ih => exact Quiet.allows (ih _ mem)

end Node

end TagExpr

namespace TagExpr

/-- How a stream passes elements on, and the stage that it does so with. -/
def StreamKind.station? : StreamKind → Option (Passage × Stage)
  | .source _ => none
  | .remap stage => some (.remap, stage)
  | .filter stage => some (.filter, stage)
  | .flatRemap stage _ => some (.flatRemap, stage)

/-- The body of the stage does not ask whether another element follows. -/
def Stage.Quiet (stage : Stage) : Prop := stage.body.Quiet stage.unit

namespace Machine

def station? (m : Machine) (id : StreamId) : Option (Passage × Stage) :=
  (m.kind? id).bind (·.station?)

/-- The bodies of all stages are quiet. -/
def Quiet (m : Machine) : Prop :=
  ∀ id passage stage, m.station? id = some (passage, stage) → stage.Quiet

/-- The streams have kept their stages. If `quiet` holds, the stages that have come are quiet, and
where nothing was read ahead nothing is. -/
structure Keeps (quiet : Prop) (m m' : Machine) : Prop where
  stations : ∀ {id station}, m.station? id = some station → m'.station? id = some station
  remains : quiet → m'.Quiet
  unread : quiet → ∀ {id}, m.peeked? id = none → m'.peeked? id = none

variable {quiet : Prop} {m m' m'' : Machine}

theorem Keeps.refl (h : quiet → m.Quiet) : m.Keeps quiet m := ⟨id, h, fun _ _ => id⟩

theorem Keeps.trans (h : m.Keeps quiet m') (h' : m'.Keeps quiet m'') : m.Keeps quiet m'' where
  stations known := h'.stations (h.stations known)
  remains := h'.remains
  unread hq _ before := h'.unread hq (h.unread hq before)

theorem keeps_of_streams (h : quiet → m.Quiet) (same : m'.streams = m.streams) :
    m.Keeps quiet m' := by
  have station (id : StreamId) : m'.station? id = m.station? id := by
    rw [station?, station?, kind?, kind?, same]
  refine ⟨fun known => (station _).trans known, fun hq id passage stage known => ?_,
    fun _ id none => ?_⟩
  · exact h hq id passage stage ((station id).symm.trans known)
  · rwa [peeked?, same]

theorem keeps_push (h : quiet → m.Quiet) {kind : StreamKind}
    (made : quiet → ∀ passage stage, kind.station? = some (passage, stage) → stage.Quiet) :
    m.Keeps quiet { m with streams := m.streams.push { kind } } := by
  have at_ (id : StreamId) : (m.streams.push { kind })[id]? =
      if id = m.streams.size then some { kind } else m.streams[id]? := Array.getElem?_push ..
  refine ⟨fun {id station} known => ?_, fun hq id passage stage known => ?_, fun _ id before => ?_⟩
  · obtain ⟨k, found, -⟩ := Option.bind_eq_some_iff.1 known
    have old : id ≠ m.streams.size := Nat.ne_of_lt (lt_of_kind? found)
    rwa [station?, kind?, at_, if_neg old]
  · rw [station?, kind?, at_] at known
    split at known
    · exact made hq passage stage known
    · exact h hq id passage stage known
  · rw [peeked?, at_]
    split
    · rfl
    · exact before

theorem keeps_update (h : quiet → m.Quiet) {id : StreamId} {φ : Stream → Stream}
    (station : ∀ s, m.streams[id]? = some s → (φ s).kind.station? = s.kind.station?)
    (unread : quiet → ∀ s, s.peeked = none → (φ s).peeked = none) :
    m.Keeps quiet (m.update id φ) := by
  have same (i : StreamId) : (m.update id φ).station? i = m.station? i := by
    rw [station?, station?, kind?, kind?]
    by_cases hi : i = id
    · subst hi
      rw [getElem?_update_self]
      cases found : m.streams[i]? with
      | none => rfl
      | some s => exact station s found
    · rw [getElem?_update_ne hi]
  refine ⟨fun known => (same _).trans known, fun hq i passage stage known => ?_,
    fun hq i before => ?_⟩
  · exact h hq i passage stage ((same i).symm.trans known)
  · rw [peeked?] at before ⊢
    by_cases hi : i = id
    · subst hi
      rw [getElem?_update_self]
      cases found : m.streams[i]? with
      | none => rfl
      | some s =>
        rw [found] at before
        exact unread hq s before
    · rwa [getElem?_update_ne hi]

end Machine

/-- Begins with the elements of the next value of the body of a flat-remap and, if there is one,
goes on as told. -/
def Calls.refill (c : Calls) (host : Host) (id : StreamId) (stage : Stage)
    (again : Eval (Option Value)) : Eval (Option Value) := do
  match ← c.stageNext id stage with
  | none => return none
  | some (_, produced) =>
    let inner ← Eval.streamOf host produced
    Eval.setInner id (some inner)
    again

namespace Demand

/-! ## Steps that follow others -/

variable {quiet : Prop} {α β : Type} {x y : Eval α} {f g : α → Eval β} {m m' : Machine}

/-- From this machine `y` does what `x` does, unless the levels of `x` are used up, and the streams
are kept. -/
def FollowsAt (quiet : Prop) (m : Machine) (x y : Eval α) : Prop :=
  Ends x m (fun a m' => y m = .ok a m' ∧ m.Keeps quiet m') fun stop m' =>
    (stop ≠ .exhausted → y m = .error stop m') ∧ m.Keeps quiet m'

/-- The second step follows the first from every machine, as long as only quiet stages are there if
`quiet` holds. -/
def Follows (quiet : Prop) (x y : Eval α) : Prop := ∀ m, (quiet → m.Quiet) → FollowsAt quiet m x y

theorem FollowsAt.bind (h : FollowsAt quiet m x y)
    (hn : ∀ a m', x m = .ok a m' → m.Keeps quiet m' → FollowsAt quiet m' (f a) (g a)) :
    FollowsAt quiet m (x >>= f) (y >>= g) := by
  unfold FollowsAt at *
  rw [ends_bind]
  refine h.and_self.mono ?_ ?_
  · rintro a m' ⟨⟨same, kept⟩, ran⟩
    have same' : (y >>= g) m = g a m' := by
      simp only [Bind.bind, EStateM.bind, same]
    refine (hn a m' ran kept).mono ?_ ?_
    · rintro b m'' ⟨same'', kept'⟩
      exact ⟨same'.trans same'', kept.trans kept'⟩
    · rintro stop m'' ⟨same'', kept'⟩
      exact ⟨fun ended => same'.trans (same'' ended), kept.trans kept'⟩
  · rintro stop m' ⟨⟨same, kept⟩, -⟩
    refine ⟨fun ended => ?_, kept⟩
    simp only [Bind.bind, EStateM.bind, same ended]

theorem Follows.bind (h : Follows quiet x y) (hn : ∀ a, Follows quiet (f a) (g a)) :
    Follows quiet (x >>= f) (y >>= g) :=
  fun m hm => (h m hm).bind fun a m' _ kept => hn a m' kept.remains

/-- A step that keeps the streams follows itself. -/
theorem follows_of_keeps (h : ∀ m, (quiet → m.Quiet) →
    Ends x m (fun _ m' => m.Keeps quiet m') fun _ m' => m.Keeps quiet m') : Follows quiet x x := by
  intro m hm
  refine (h m hm).and_self.mono ?_ ?_
  · exact fun _ _ ⟨kept, ran⟩ => ⟨ran, kept⟩
  · exact fun _ _ ⟨kept, ran⟩ => ⟨fun _ => ran, kept⟩

theorem follows_of_streams (h : ∀ m, Ends x m (fun _ m' => m'.streams = m.streams)
    fun _ m' => m'.streams = m.streams) : Follows quiet x x :=
  follows_of_keeps fun m hm =>
    (h m).mono (fun _ _ => Machine.keeps_of_streams hm) fun _ _ => Machine.keeps_of_streams hm

theorem follows_of_spares (h : x.Spares) : Follows quiet x x :=
  follows_of_streams fun m => (h m).mono (fun _ _ hl => hl.streams) fun _ _ hl => hl.streams

theorem follows_pure (a : α) : Follows quiet (pure a) (pure a) :=
  follows_of_spares (Eval.spares_pure a)

theorem follows_exhausted (y : Eval α) : Follows quiet (throw .exhausted) y :=
  fun _ hm => ⟨fun ended => absurd rfl ended, .refl hm⟩

theorem follows_fail (fault : EvalFault) :
    Follows quiet (Eval.fail fault : Eval α) (Eval.fail fault) :=
  follows_of_spares (Eval.spares_fail fault)

theorem follows_context : Follows quiet Eval.context Eval.context :=
  follows_of_spares Eval.spares_context

theorem follows_ofExcept (r : Except EvalFault α) :
    Follows quiet (Eval.ofExcept r) (Eval.ofExcept r) :=
  follows_of_spares (Eval.spares_ofExcept r)

theorem follows_setLocal (frame : FrameId) (slot : Nat) (v : Value) :
    Follows quiet (Eval.setLocal frame slot v) (Eval.setLocal frame slot v) :=
  follows_of_streams fun _ => rfl

theorem follows_modifyContext (change : Context → Context) :
    Follows quiet (Eval.modifyContext change) (Eval.modifyContext change) :=
  follows_of_streams fun _ => rfl

/-! ### Streams -/

theorem follows_newStream {kind : StreamKind}
    (made : quiet → ∀ passage stage, kind.station? = some (passage, stage) → stage.Quiet) :
    Follows quiet (Eval.newStream { kind }) (Eval.newStream { kind }) :=
  follows_of_keeps fun _ hm => Machine.keeps_push hm made

theorem follows_modifyStream (id : StreamId) {φ : Stream → Stream}
    (station : ∀ s, (φ s).kind.station? = s.kind.station?)
    (unread : quiet → ∀ s, s.peeked = none → (φ s).peeked = none) :
    Follows quiet (Eval.modifyStream id φ) (Eval.modifyStream id φ) :=
  follows_of_keeps fun _ hm => Machine.keeps_update hm (fun s _ => station s) unread

theorem follows_stream? (id : StreamId) : Follows quiet (Eval.stream? id) (Eval.stream? id) :=
  follows_of_spares (Eval.spares_stream? id)

theorem follows_streamOf (h : Host) (v : Value) :
    Follows quiet (Eval.streamOf h v) (Eval.streamOf h v) := by
  unfold Eval.streamOf
  split
  · exact follows_pure _
  · exact follows_newStream fun _ _ _ known => nomatch known

theorem follows_takePeeked (id : StreamId) :
    Follows quiet (Eval.takePeeked id) (Eval.takePeeked id) := by
  refine (follows_stream? id).bind fun s => ?_
  by_cases ahead : (s.bind (·.peeked)).isSome = true
  · simp only [ahead, if_true]
    have taken : Follows quiet (Eval.modifyStream id fun s => { s with peeked := none })
        (Eval.modifyStream id fun s => { s with peeked := none }) :=
      follows_modifyStream id (fun _ => rfl) fun _ _ _ => rfl
    exact taken.bind fun _ => follows_pure _
  · simp only [ahead, Bool.false_eq_true, if_false]
    exact follows_pure _

theorem follows_countPulled (id : StreamId) :
    Follows quiet (Eval.countPulled id) (Eval.countPulled id) := by
  have counted : Follows quiet (Eval.modifyStream id fun s => { s with pulled := s.pulled + 1 })
      (Eval.modifyStream id fun s => { s with pulled := s.pulled + 1 }) :=
    follows_modifyStream id (fun _ => rfl) fun _ _ unread => unread
  exact (follows_stream? id).bind fun _ => counted.bind fun _ => follows_pure _

theorem follows_innerStream? (id : StreamId) :
    Follows quiet (Eval.innerStream? id) (Eval.innerStream? id) := by
  refine (follows_stream? id).bind fun s => ?_
  split
  · exact follows_pure _
  · exact follows_pure _

theorem follows_setInner (id : StreamId) (inner : Option StreamId) :
    Follows quiet (Eval.setInner id inner) (Eval.setInner id inner) := by
  refine follows_modifyStream id (fun s => ?_) fun _ s unread => ?_
  · split
    case h_1 known => rw [known]; rfl
    case h_2 => rfl
  · split
    · exact unread
    · exact unread

/-! ### Changes of the context -/

theorem Follows.during (enter leave : Context → Context) (h : Follows quiet x y) :
    Follows quiet (Eval.during enter leave x) (Eval.during enter leave y) := by
  intro m hm
  -- The context takes no part in the streams, so it may be changed before and after.
  have begun : m.Keeps quiet { m with context := enter m.context } :=
    Machine.keeps_of_streams hm rfl
  have done {m' : Machine} (kept : Machine.Keeps quiet { m with context := enter m.context } m') :
      m.Keeps quiet { m' with context := leave m'.context } :=
    (begun.trans kept).trans (Machine.keeps_of_streams kept.remains rfl)
  have follows := h _ begun.remains
  unfold FollowsAt Ends
  cases hx : x { m with context := enter m.context } with
  | ok a m' =>
    obtain ⟨same, kept⟩ := follows.ok hx
    simp only [Eval.during, hx, same]
    exact ⟨trivial, done kept⟩
  | error stop m' =>
    obtain ⟨same, kept⟩ := follows.error hx
    simp only [Eval.during, hx]
    refine ⟨fun ended => ?_, done kept⟩
    simp only [same ended]

theorem Follows.located (span : Span) (h : Follows quiet x y) :
    Follows quiet (Eval.located span x) (Eval.located span y) := by
  intro m hm
  have follows := h m hm
  unfold FollowsAt Ends
  cases hx : x m with
  | ok a m' =>
    obtain ⟨same, kept⟩ := follows.ok hx
    simp only [Eval.located, hx, same]
    exact ⟨trivial, kept⟩
  | error stop m' =>
    obtain ⟨same, kept⟩ := follows.error hx
    cases stop with
    | error e =>
      simp only [Eval.located, hx, same Stop.noConfusion]
      exact ⟨fun _ => trivial, kept⟩
    | exhausted =>
      simp only [Eval.located, hx]
      exact ⟨fun ended => absurd rfl ended, kept⟩

/-! ## Calls that follow others -/

/-- If `quiet` holds, a tree of the expression may turn to all of this. -/
def Tame (quiet : Prop) (e : Expression) (rs : List Resort) : Prop :=
  quiet → ∀ r ∈ rs, Node.Allows e r

theorem Tame.to_quiet {e : Expression} {n : Node} (h : Tame quiet e n.resorts)
    (hq : quiet) : n.Quiet e :=
  Node.quiet_iff.2 (h hq)

theorem tame_of_quiet {e : Expression} {n : Node} (h : quiet → n.Quiet e) :
    Tame quiet e n.resorts :=
  fun hq => (h hq).allows

theorem tame_append {e : Expression} {rs rs' : List Resort} :
    Tame quiet e (rs ++ rs') ↔ Tame quiet e rs ∧ Tame quiet e rs' := by
  simp only [Tame, List.forall_mem_append]
  exact ⟨fun h => ⟨fun hq => (h hq).1, fun hq => (h hq).2⟩, fun h hq => ⟨h.1 hq, h.2 hq⟩⟩

theorem tame_cons {e : Expression} {r : Resort} {rs : List Resort} :
    Tame quiet e (r :: rs) ↔ (quiet → Node.Allows e r) ∧ Tame quiet e rs := by
  simp only [Tame, List.forall_mem_cons]
  exact ⟨fun h => ⟨fun hq => (h hq).1, fun hq => (h hq).2⟩, fun h hq => ⟨h.1 hq, h.2 hq⟩⟩

/-- The handlers of annotations keep the streams. -/
def Upholds (quiet : Prop) (env : Environment) : Prop :=
  ∀ name handler, env.annotations.lookup name = some handler → ∀ args m, (quiet → m.Quiet) →
    Ends (handler args) m (fun _ m' => m.Keeps quiet m') fun _ m' => m.Keeps quiet m'

/-- What goes on outside the tree at hand follows. -/
structure FollowsCalls (quiet : Prop) (env : Environment) (c c' : Calls) : Prop where
  run : ∀ e frame n, Tame quiet e n.resorts → Follows quiet (c.run e frame n) (c'.run e frame n)
  pull : ∀ id, Follows quiet (c.pull id) (c'.pull id)
  missing : Follows quiet c.missing c'.missing
  handlers : Upholds quiet env

namespace FollowsCalls

variable {env : Environment} {c c' : Calls} {fuel fuel' : Nat} {stage : Stage}
  (h : FollowsCalls quiet env c c')

include h

theorem invoke (e : Expression) (tame : quiet → e.body.Quiet e) (args : List Value) :
    Follows quiet (c.invoke e args) (c'.invoke e args) := by
  refine follows_context.bind fun context => ?_
  split
  · exact follows_fail _
  · have framed (slots : List Value) : Follows quiet (Eval.newFrame slots) (Eval.newFrame slots) :=
      follows_of_streams fun _ => rfl
    refine (framed _).bind fun frame => ?_
    exact ((h.run e frame e.body (tame_of_quiet tame)).during _ _).located e.span

/-! ### Streams -/

theorem next (id : StreamId) : Follows quiet (c.next id) (c'.next id) := by
  refine (follows_takePeeked id).bind fun peeked => ?_
  cases peeked with
  | some v => exact follows_pure _
  | none => exact h.pull id

theorem hasNext (loud : ¬ quiet) (id : StreamId) :
    Follows quiet (c.hasNext id) (c'.hasNext id) := by
  refine (follows_stream? id).bind fun s => ?_
  split
  · exact follows_pure _
  · refine (h.pull id).bind fun v => ?_
    have ahead : Follows quiet (Eval.modifyStream id fun s => { s with peeked := v })
        (Eval.modifyStream id fun s => { s with peeked := v }) :=
      follows_modifyStream id (fun _ => rfl) fun hq => absurd hq loud
    exact ahead.bind fun _ => follows_pure _

theorem runStage (tame : quiet → stage.Quiet) (item : Value) (index : Nat) :
    Follows quiet (c.runStage stage item index) (c'.runStage stage item index) := by
  have body := h.run stage.unit stage.frame stage.body (tame_of_quiet tame)
  unfold Calls.runStage
  split
  · exact (follows_setLocal _ _ _).bind fun _ => body
  · exact body.during _ _

theorem stageNext (tame : quiet → stage.Quiet) (id : StreamId) :
    Follows quiet (c.stageNext id stage) (c'.stageNext id stage) := by
  refine (h.next stage.input).bind fun found => ?_
  cases found with
  | none => exact follows_pure _
  | some item =>
    exact (follows_countPulled id).bind fun index =>
      (h.runStage tame item index).bind fun _ => follows_pure _

theorem pullFiltered (tame : quiet → stage.Quiet) (id : StreamId) (le : fuel ≤ fuel') :
    Follows quiet (c.pullFiltered id stage fuel) (c'.pullFiltered id stage fuel') := by
  induction fuel generalizing fuel' with
  | zero => exact follows_exhausted _
  | succ fuel ih =>
    obtain ⟨fuel', rfl⟩ : ∃ less, fuel' = less + 1 := ⟨fuel' - 1, by omega⟩
    refine (h.stageNext tame id).bind ?_
    rintro (_ | ⟨item, verdict⟩)
    · exact follows_pure _
    · simp only
      split
      · exact follows_pure _
      · exact ih (by omega)

theorem refill (tame : quiet → stage.Quiet) (host : Host) (id : StreamId)
    {again again' : Eval (Option Value)} (more : Follows quiet again again') :
    Follows quiet (c.refill host id stage again) (c'.refill host id stage again') := by
  refine (h.stageNext tame id).bind ?_
  rintro (_ | ⟨item, produced⟩)
  · exact follows_pure _
  · exact (follows_streamOf host produced).bind fun next =>
      (follows_setInner id (some next)).bind fun _ => more

theorem pullFlat (tame : quiet → stage.Quiet) (host : Host) (id : StreamId) (le : fuel ≤ fuel') :
    Follows quiet (c.pullFlat host id stage fuel) (c'.pullFlat host id stage fuel') := by
  induction fuel generalizing fuel' with
  | zero => exact follows_exhausted _
  | succ fuel ih =>
    obtain ⟨fuel', rfl⟩ : ∃ less, fuel' = less + 1 := ⟨fuel' - 1, by omega⟩
    have fromStage : Follows quiet
        (do Eval.setInner id none; c.refill host id stage (c.pullFlat host id stage fuel))
        (do Eval.setInner id none; c'.refill host id stage (c'.pullFlat host id stage fuel')) :=
      (follows_setInner id none).bind fun _ => h.refill tame host id (ih (by omega))
    refine (follows_innerStream? id).bind fun inner => ?_
    cases inner with
    | none => exact fromStage
    | some inner =>
      refine (h.next inner).bind fun found => ?_
      cases found with
      | none => exact fromStage
      | some v => exact follows_pure _

theorem pullStream (host : Host) (le : fuel ≤ fuel') (id : StreamId) :
    Follows quiet (c.pullStream host fuel id) (c'.pullStream host fuel' id) := by
  intro m hm
  refine (follows_stream? id m hm).bind fun s m' ran _ => ?_
  cases ran
  cases found : m.streams[id]? with
  | none => exact follows_pure _ m hm
  | some s =>
    have tame (passage : Passage) (stage : Stage)
        (known : s.kind.station? = some (passage, stage)) :
        quiet → stage.Quiet := by
      refine fun hq => hm hq id passage stage ?_
      rw [Machine.station?, Machine.kind?, found]
      exact known
    obtain ⟨kind, peeked, pulled⟩ := s
    cases kind with
    | source source =>
      simp only
      split
      case h_1 => exact follows_pure _ m hm
      case h_2 v rest _ =>
        have kept : m.Keeps quiet (m.update id fun s => { s with kind := .source rest }) := by
          refine Machine.keeps_update hm (fun s known => ?_) fun _ _ unread => unread
          rw [found] at known
          cases known
          rfl
        exact ⟨rfl, kept⟩
    | remap stage =>
      exact ((h.stageNext (tame .remap stage rfl) id).bind fun _ => follows_pure _) m hm
    | filter stage => exact h.pullFiltered (tame .filter stage rfl) id le m hm
    | flatRemap stage inner => exact h.pullFlat (tame .flatRemap stage rfl) host id le m hm

theorem reduceStage (tame : quiet → stage.Quiet) (le : fuel ≤ fuel') (index : Nat) (last : Value) :
    Follows quiet (c.reduceStage stage fuel index last)
      (c'.reduceStage stage fuel' index last) := by
  induction fuel generalizing fuel' index last with
  | zero => exact follows_exhausted _
  | succ fuel ih =>
    obtain ⟨fuel', rfl⟩ : ∃ less, fuel' = less + 1 := ⟨fuel' - 1, by omega⟩
    refine (h.next stage.input).bind fun found => ?_
    cases found with
    | none => exact follows_pure _
    | some item => exact (h.runStage tame item index).bind fun v => ih (by omega) _ v

theorem firstOfStage (tame : quiet → stage.Quiet) (le : fuel ≤ fuel') (index : Nat) :
    Follows quiet (c.firstOfStage stage fuel index) (c'.firstOfStage stage fuel' index) := by
  induction fuel generalizing fuel' index with
  | zero => exact follows_exhausted _
  | succ fuel ih =>
    obtain ⟨fuel', rfl⟩ : ∃ less, fuel' = less + 1 := ⟨fuel' - 1, by omega⟩
    refine (h.next stage.input).bind fun found => ?_
    cases found with
    | none => exact follows_pure _
    | some item =>
      refine (h.runStage tame item index).bind fun v => ?_
      by_cases null : v.isNull = true
      · simp only [null, if_true]
        exact ih (by omega) _
      · simp only [null, Bool.false_eq_true, if_false]
        exact follows_pure _

theorem applyStage (tame : quiet → stage.Quiet) (le : fuel ≤ fuel') (op : StreamOp) :
    Follows quiet (c.applyStage fuel stage op) (c'.applyStage fuel' stage op) := by
  have made (passage : Passage) : Follows quiet (Eval.newStream { kind := passage.kind stage })
      (Eval.newStream { kind := passage.kind stage }) := by
    refine follows_newStream fun hq _ found known => ?_
    have same : stage = found := by cases passage <;> exact (Prod.mk.inj (Option.some.inj known)).2
    exact same ▸ tame hq
  cases op with
  | remap => exact (made .remap).bind fun _ => follows_pure _
  | filter => exact (made .filter).bind fun _ => follows_pure _
  | flatRemap => exact (made .flatRemap).bind fun _ => follows_pure _
  | reduce => exact h.reduceStage tame le 0 .null
  | first => exact h.firstOfStage tame le 0

theorem internal {e : Expression} {lookup : Lookup} {name : InternalName}
    (tame : Tame quiet e (Node.resorts (.internal lookup name))) :
    Follows quiet (c.internal lookup name) (c'.internal lookup name) := by
  refine follows_context.bind fun context => ?_
  split
  · exact follows_pure _
  · cases name with
    | index | isFirst => exact follows_pure _
    | hasNext =>
      have loud : ¬ quiet := fun hq => tame hq .hasNext (List.mem_singleton_self _)
      simp only
      split
      · exact follows_pure _
      · exact (h.hasNext loud _).bind fun _ => follows_pure _

theorem annotate (name : String) (args : List Value) :
    Follows quiet (Eval.annotate env name args) (Eval.annotate env name args) := by
  unfold Eval.annotate
  split
  case h_1 handler found => exact follows_of_keeps (h.handlers name handler found args)
  case h_2 => exact follows_pure _

end FollowsCalls

end Demand

/-! ## Trees that follow others -/

namespace Node

open Demand

variable {quiet : Prop} {env : Environment} {c c' : Calls} {fuel fuel' : Nat} {e : Expression}
  {frame : FrameId}

mutual

/-- Trees follow that are evaluated with calls that follow, and with no fewer rounds. -/
theorem follows (h : FollowsCalls quiet env c c') (le : fuel ≤ fuel') : ∀ n : Node,
    Tame quiet e n.resorts →
    Follows quiet (n.eval env c fuel e frame) (n.eval env c' fuel' e frame)
  | .literal _, _ => follows_pure _
  | .regex source, _ => by
    unfold eval
    split
    · exact follows_pure _
    · exact follows_fail _
  | .current _, _ => follows_context.bind fun _ => follows_pure _
  | .internal lookup name, tame => h.internal tame
  | .localVar slot, _ => by
    refine (follows_of_spares (Eval.spares_localValue? frame slot)).bind fun found => ?_
    cases found with
    | some v => exact follows_pure v
    | none => exact h.missing
  | .binding _ _, _ => follows_context.bind fun _ => follows_pure _
  | .identifier ident lookup, _ => by
    unfold eval
    split
    · exact follows_of_spares (Eval.spares_resolve _ _ _ _)
    · exact h.missing
  | .call ident lookup args, tame => by
    refine (followsList h le args tame).bind fun values => ?_
    split
    · exact follows_of_spares (Eval.spares_resolve _ _ _ _)
    · exact h.missing
  | .member receiver ident safe, tame => by
    refine (follows h le receiver tame).bind fun target => ?_
    split
    · exact follows_of_spares (Eval.spares_access _ _ _ _ _)
    · exact h.missing
  | .method receiver ident args safe, tame => by
    obtain ⟨tame, tame'⟩ := tame_append.1 tame
    refine (follows h le receiver tame).bind fun target => ?_
    split
    · exact follows_pure _
    · refine (followsList h le args tame').bind fun values => ?_
      split
      · exact follows_of_spares (Eval.spares_access _ _ _ _ _)
      · exact h.missing
  | .index receiver key safe, tame => by
    obtain ⟨tame, tame'⟩ := tame_append.1 tame
    refine (follows h le receiver tame).bind fun target => ?_
    split
    · exact follows_pure _
    · exact (follows h le key tame').bind fun _ => follows_ofExcept _
  | .named target args, tame => by
    obtain ⟨allows, tame⟩ := tame_cons.1 tame
    refine (followsList h le args tame).bind fun values => ?_
    split
    case h_1 callee found => exact h.invoke callee (fun hq => allows hq callee found) values
    case h_2 => exact h.missing
  | .recurse args, tame => by
    obtain ⟨allows, tame⟩ := tame_cons.1 tame
    exact (followsList h le args tame).bind fun values => h.invoke e allows values
  | .annotated name args, tame =>
    (followsList h le args tame).bind fun values => h.annotate name values
  | .unary _ operand, tame => (follows h le operand tame).bind fun _ => follows_ofExcept _
  | .binary op left right, tame => by
    obtain ⟨tame, tame'⟩ := tame_append.1 tame
    have other : Follows quiet (eval env c fuel e frame right) (eval env c' fuel' e frame right) :=
      follows h le right tame'
    have truth : Follows quiet
        (do return Value.bool (← eval env c fuel e frame right).isTruthy)
        (do return Value.bool (← eval env c' fuel' e frame right).isTruthy) :=
      other.bind fun _ => follows_pure _
    have chosen (op : BinaryOp) (l : Value) : Follows quiet
        (if Value.selectsRight op l then eval env c fuel e frame right else pure l)
        (if Value.selectsRight op l then eval env c' fuel' e frame right else pure l) := by
      split
      · exact other
      · exact follows_pure l
    refine (follows h le left tame).bind fun l => ?_
    split
    · split
      · exact truth
      · exact follows_pure _
    · split
      · exact follows_pure _
      · exact truth
    · exact chosen .coalesce l
    · exact chosen .elvis l
    · exact chosen .ifPresent l
    · exact chosen .ifTruthy l
    · exact other.bind fun _ => follows_ofExcept _
  | .ternary condition yes no, tame => by
    obtain ⟨tame, tame'⟩ := tame_append.1 tame
    obtain ⟨tame', tame''⟩ := tame_append.1 tame'
    refine (follows h le condition tame).bind fun verdict => ?_
    split
    · exact follows h le yes tame'
    · exact follows h le no tame''
  | .concat parts, tame => (followsList h le parts tame).bind fun _ => follows_pure _
  | .list items, tame => (followsList h le items tame).bind fun _ => follows_pure _
  | .set items, tame => (followsList h le items tame).bind fun _ => follows_pure _
  | .map entries, tame => (followsEntries h le entries tame).bind fun _ => follows_pure _
  | .assignLocal slot value, tame =>
    (follows h le value tame).bind fun _ => (follows_setLocal _ _ _).bind fun _ => follows_pure _
  | .assignBinding template slot value, tame => by
    refine (follows h le value tame).bind fun v => follows_context.bind fun context => ?_
    exact (follows_ofExcept _).bind fun c =>
      (follows_modifyContext fun _ => c).bind fun _ => follows_pure _
  | .sequence items, tame => (followsList h le items tame).bind fun _ => follows_pure _
  | .stream op source slot body, tame => by
    obtain ⟨tame, tame'⟩ := tame_append.1 tame
    refine (follows h le source tame).bind fun v =>
      (follows_streamOf env.host v).bind fun input => ?_
    have stage : quiet → Stage.Quiet { input, body, unit := e, frame, binding := slot } :=
      tame'.to_quiet
    exact h.applyStage stage le op

theorem followsList (h : FollowsCalls quiet env c c') (le : fuel ≤ fuel') : ∀ ns : List Node,
    Tame quiet e (resortsOfList ns) →
    Follows quiet (evalList env c fuel e frame ns) (evalList env c' fuel' e frame ns)
  | [], _ => follows_pure _
  | n :: ns, tame => by
    obtain ⟨tame, tame'⟩ := tame_append.1 tame
    exact (follows h le n tame).bind fun _ =>
      (followsList h le ns tame').bind fun _ => follows_pure _

theorem followsEntries (h : FollowsCalls quiet env c c') (le : fuel ≤ fuel') :
    ∀ entries : List (Node × Node), Tame quiet e (resortsOfEntries entries) →
    Follows quiet (evalEntries env c fuel e frame entries)
      (evalEntries env c' fuel' e frame entries)
  | [], _ => follows_pure _
  | entry :: entries, tame => by
    obtain ⟨tame, tame'⟩ := tame_append.1 tame
    exact (followsEntry h le entry tame).bind fun _ =>
      (followsEntries h le entries tame').bind fun _ => follows_pure _

theorem followsEntry (h : FollowsCalls quiet env c c') (le : fuel ≤ fuel') :
    ∀ entry : Node × Node, Tame quiet e (resortsOfEntry entry) →
    Follows quiet (evalEntry env c fuel e frame entry) (evalEntry env c' fuel' e frame entry)
  | (key, value), tame => by
    obtain ⟨tame, tame'⟩ := tame_append.1 tame
    exact (follows h le key tame).bind fun _ =>
      (follows h le value tame').bind fun _ => follows_pure _

end

end Node

namespace Demand

variable {quiet : Prop} {env : Environment} {fuel fuel' : Nat}

/-- **More levels change nothing.** Evaluation with more levels follows evaluation with fewer. -/
theorem followsCalls_levels (upholds : Upholds quiet env) (le : fuel ≤ fuel') :
    FollowsCalls quiet env (Calls.levels env fuel) (Calls.levels env fuel') := by
  induction fuel generalizing fuel' with
  | zero =>
    exact ⟨fun _ _ _ _ => follows_exhausted _, fun _ => follows_exhausted _, follows_pure _,
      upholds⟩
  | succ fuel ih =>
    obtain ⟨fuel', rfl⟩ : ∃ less, fuel' = less + 1 := ⟨fuel' - 1, by omega⟩
    have le' : fuel ≤ fuel' := Nat.le_of_succ_le_succ le
    exact
      { run := fun e frame n tame => n.follows (ih le') le' tame
        pull := (ih le').pullStream env.host le'
        missing := follows_pure _
        handlers := upholds }

end Demand

end TagExpr
