import TagExpr.Proofs.Draining.Steady
import TagExpr.Proofs.Ends

/-!
# Streams that outlive their scope

A stream is created in a scope: in a call of an expression, or where a stage runs its body for an
element. It can be drained there or after the scope has been left, when other sections lie on top
and local slots have been assigned. Between the two lies a lapse that can be read off the machine
(`Scope.lapse`), and if in the scope only steady trees run while the stream is drained, it has the
same elements afterwards (`Scope.drained_later`).
-/

namespace TagExpr

/-! ## Draining -/

namespace Calls

/-- The elements of a value; of a stream those that it has left. -/
def takeAll (calls : Calls) (h : Host) (reads : Nat) (v : Value) : Eval (List Value) := do
  calls.collect (← Eval.streamOf h v) reads

/-- The last element of a value: each is put into a local slot and read from there. -/
def takeLast (calls : Calls) (h : Host) (reads : Nat) (e : Expression) (frame : FrameId)
    (slot : Nat) (v : Value) : Eval Value := do
  let input ← Eval.streamOf h v
  calls.applyStage reads
    { input, body := .localVar slot, unit := e, frame, binding := some slot } .reduce

end Calls

namespace Lapse

variable {L : Lapse} {h : Host} {env : Environment} {own : List Section} {m m' : Machine}
  {c c' : Calls} {α β γ : Type} {R : α → β → Prop} {x : Eval α} {x' : Eval β}

/-- A step that is taken at the second moment only. -/
theorem Follows.after {y : Eval γ} {b : γ} {f : γ → Eval β}
    (hy : ∀ m m', L.Twins h own m m' → ∃ m'', y m' = .ok b m'' ∧ L.Twins h own m m'')
    (hx : L.Follows h own R x (f b)) : L.Follows h own R x (y >>= f) := by
  intro m m' twins a m₁ ran
  obtain ⟨m'', taken, twins'⟩ := hy m m' twins
  obtain ⟨v, m₁', ran', holds⟩ := hx m m'' twins' a m₁ ran
  refine ⟨v, m₁', ?_, holds⟩
  simp only [Bind.bind, EStateM.bind, taken]
  exact ran'

/-- An assignment to a hidden slot leaves twins. -/
theorem Twins.setLocal (twins : L.Twins h own m m') {frame : FrameId} {slot : Nat}
    (hidden : L.hidden frame slot) (v : Value) :
    L.Twins h own m
      { m' with frames := m'.frames.modify frame (·.setIfInBounds slot v) } := by
  refine { twins with frameCount := ?_, slots := ?_, present := ?_ }
  · simp only [Array.size_modify, twins.frameCount]
  · intro frame' slot' seen
    have other : ¬ (frame' = frame ∧ slot' = slot) := by
      rintro ⟨rfl, rfl⟩
      rw [hidden] at seen
      cases seen
    rw [slot?_setLocal, if_neg other, twins.slots frame' slot' seen]
  · intro frame' slot' hidden'
    rw [isSome_slot?_setLocal]
    exact twins.present frame' slot' hidden'

namespace FollowsCalls

variable (hc : L.FollowsCalls env c c') {reads reads' : Nat}

include hc

theorem takeAll (le : reads ≤ reads') (v : Value) :
    L.Repeats env.host own (c.takeAll env.host reads v) (c'.takeAll env.host reads' v) :=
  (repeats_streamOf v).bind_eq fun id => hc.collect id le

variable {e : Expression} {frame : FrameId} {slot : Nat}

/-- At the second moment the elements are put into a hidden slot, one after the other. -/
theorem reduceStage_of_hidden (hidden : L.hidden frame slot)
    (reads_slot : ∀ m v, m.slot? frame slot = some v →
      c'.run e frame (.localVar slot) m = .ok v m)
    (le : reads ≤ reads') (id : StreamId) (index : Nat) (last : Value) :
    L.Follows env.host own (fun xs v => v = xs.getLastD last) (c.collect id reads)
      (c'.reduceStage
        { input := id, body := .localVar slot, unit := e, frame, binding := some slot }
        reads' index last) := by
  induction reads generalizing reads' index last with
  | zero => exact follows_throw _
  | succ reads ih =>
    obtain ⟨reads', rfl⟩ := Nat.exists_eq_add_of_le' le
    refine (hc.next id).bind_eq fun found => ?_
    cases found with
    | none => exact follows_pure rfl
    | some item =>
      refine Follows.after (b := item) ?_ ?_
      · intro m m' twins
        have there := twins.present frame slot hidden
        refine ⟨_, reads_slot _ item ?_, twins.setLocal hidden item⟩
        obtain ⟨before, holds⟩ := Option.isSome_iff_exists.mp there
        rw [slot?_setLocal, if_pos ⟨rfl, rfl⟩, holds]
        rfl
      · have rest := ih (Nat.le_add_left reads reads') (index + 1) item
        rw [← bind_pure (Calls.reduceStage _ _ _ _ _)]
        exact rest.bind fun xs v hv => follows_pure (by rw [hv, List.getLastD_cons])

theorem takeLast (hidden : L.hidden frame slot)
    (reads_slot : ∀ m v, m.slot? frame slot = some v →
      c'.run e frame (.localVar slot) m = .ok v m)
    (le : reads ≤ reads') (v : Value) :
    L.Follows env.host own (fun xs last => last = xs.getLastD .null)
      (c.takeAll env.host reads v) (c'.takeLast env.host reads' e frame slot v) :=
  (repeats_streamOf v).bind_eq fun id => hc.reduceStage_of_hidden hidden reads_slot le id 0 .null

end FollowsCalls

end Lapse

/-! ## Scopes -/

/-- Takes a step within a call of the expression, in the frame of the call. -/
def Expression.within {α : Type} (e : Expression) (args : List Value) (step : FrameId → Eval α) :
    Eval α := do
  let c ← Eval.context
  if c.maxCallDepth ≤ c.callDepth then
    Eval.fail (.recursionLimit c.maxCallDepth)
  else
    let frame ← Eval.newFrame (e.initialSlots .null args)
    Eval.located e.span (Eval.during (·.enterCall args.head?) (·.leaveCall args.head?) (step frame))

/-- Takes a step where the stage runs its body for an element. -/
def Stage.within {α : Type} (s : Stage) (item : Value) (index : Nat) (step : Eval α) : Eval α := do
  match s.binding with
  | some slot =>
    Eval.setLocal s.frame slot item
    step
  | none =>
    let s : Section :=
      { value := item, index := some index, following := .stream s.input }
    Eval.during (·.pushSection s) (·.dropSection) step

/-- What encloses a tree whose value is a stream: a call of an expression, or a stage that runs its
body for an element. -/
inductive Scope where
  | call (e : Expression) (args : List Value)
  | stage (s : Stage) (item : Value) (index : Nat)

namespace Scope

variable {α : Type}

/-- The value of the body, once the scope is left. -/
def run (calls : Calls) : Scope → Eval Value
  | call e args => calls.invoke e args
  | stage s item index => calls.runStage s item index

/-- What a step makes of the value of the body, before the scope is left. -/
def runThen (calls : Calls) (next : Value → Eval α) : Scope → Eval α
  | call e args => e.within args fun frame => do next (← calls.run e frame e.body)
  | stage s item index => s.within item index do next (← calls.run s.unit s.frame s.body)

/-- The context once the scope is left. -/
def leave : Scope → Context → Context
  | call _ args => (·.leaveCall args.head?)
  | stage s _ _ => if s.binding.isSome then id else (·.dropSection)

/-- The number of sections that the scope adds. -/
def depth : Scope → Nat
  | call _ args => args.head?.toList.length
  | stage s _ _ => if s.binding.isSome then 0 else 1

end Scope

/-- A step that has a value under a change of the context has it in the changed context. -/
theorem exists_of_during {α β : Type} {enter leave : Context → Context} {x : Eval α}
    {next : α → Eval β} {m m₁ : Machine} {b : β}
    (ran : Eval.during enter leave (do next (← x)) m = .ok b m₁) :
    ∃ a inside after, next a inside = .ok b after ∧
      Eval.during enter leave x m =
        .ok a { inside with context := leave inside.context } := by
  unfold Eval.during at ran ⊢
  cases both : (do next (← x)) { m with context := enter m.context } with
  | error stop after =>
    rw [both] at ran
    cases ran
  | ok b' after =>
    rw [both] at ran
    cases ran
    obtain ⟨a, inside, hx, hn⟩ := exists_of_bind both
    rw [hx]
    exact ⟨a, inside, after, hn, rfl⟩

theorem located_eq_ok {α : Type} {span : Span} {x : Eval α} {m m₁ : Machine} {a : α} :
    Eval.located span x m = .ok a m₁ ↔ x m = .ok a m₁ := by
  unfold Eval.located
  cases x m with
  | ok b m₂ => rfl
  | error stop m₂ => cases stop <;> simp

namespace Expression

variable {α : Type} {e : Expression} {args : List Value} {step : FrameId → Eval α} {m m₁ : Machine}

/-- The machine with the frame of a call of the expression. -/
def framed (e : Expression) (args : List Value) (m : Machine) : Machine :=
  { m with frames := m.frames.push (e.initialSlots .null args).toArray }

/-- A call has a value if it is begun below the limit and its step has one in the new frame. -/
theorem within_eq_ok {a : α} : e.within args step m = .ok a m₁ ↔
    m.context.callDepth < m.context.maxCallDepth ∧
      Eval.during (·.enterCall args.head?) (·.leaveCall args.head?) (step m.frames.size)
        (e.framed args m) = .ok a m₁ := by
  show (if m.context.maxCallDepth ≤ m.context.callDepth then _ else _ : Eval α) m = _ ↔ _
  by_cases limit : m.context.maxCallDepth ≤ m.context.callDepth
  · rw [if_pos limit]
    constructor
    · nofun
    · rintro ⟨below, -⟩
      omega
  · rw [if_neg limit]
    exact located_eq_ok.trans (and_iff_right (Nat.lt_of_not_le limit)).symm

end Expression

/-- If a step has a value in the scope, then the body has one that the step is taken on. -/
theorem Scope.exists_of_runThen {α : Type} {scope : Scope} {calls : Calls}
    {next : Value → Eval α} {m m₁ : Machine} {a : α}
    (ran : scope.runThen calls next m = .ok a m₁) :
    ∃ v inside after, next v inside = .ok a after ∧
      scope.run calls m = .ok v { inside with context := scope.leave inside.context } := by
  cases scope with
  | call e args =>
    obtain ⟨below, ran⟩ := Expression.within_eq_ok.mp ran
    obtain ⟨v, inside, after, hn, left⟩ := exists_of_during ran
    exact ⟨v, inside, after, hn, Expression.within_eq_ok.mpr ⟨below, left⟩⟩
  | stage s item index =>
    obtain ⟨input, body, unit, frame, binding⟩ := s
    cases binding with
    | none =>
      have pushed : Eval.during (·.pushSection
          { value := item, index := some index, following := .stream input }) (·.dropSection)
          (do next (← calls.run unit frame body)) m = .ok a m₁ := ran
      exact exists_of_during pushed
    | some slot =>
      have assigned : (do next (← calls.run unit frame body))
          { m with frames := m.frames.modify frame (·.setIfInBounds slot item) } = .ok a m₁ := ran
      obtain ⟨v, inside, value, hn⟩ := exists_of_bind assigned
      exact ⟨v, inside, m₁, hn, value⟩

/-! ## What happens meanwhile -/

/-- What happens between leaving a scope and draining a stream that was made in it: sections come
on top, and local slots are assigned. -/
structure Meanwhile where
  sections : List Section := []
  slots : List (FrameId × Nat) := []

/-- From `m` to `m'` no more has happened. -/
structure Meanwhile.Passes (w : Meanwhile) (m m' : Machine) : Prop where
  context : m'.context = { m.context with sections := ⟨w.sections ++ m.context.sections.toList⟩ }
  streams : m'.streams = m.streams
  frameCount : m'.frames.size = m.frames.size
  slots : ∀ frame slot, (frame, slot) ∉ w.slots → m'.slot? frame slot = m.slot? frame slot
  present : ∀ frame slot, (m'.slot? frame slot).isSome = (m.slot? frame slot).isSome
  identifiers : m'.identifiers = m.identifiers
  nextObject : m'.nextObject = m.nextObject

theorem Meanwhile.Passes.refl (m : Machine) (slots : List (FrameId × Nat)) :
    Meanwhile.Passes { slots } m m := ⟨rfl, rfl, rfl, fun _ _ _ => rfl, fun _ _ => rfl, rfl, rfl⟩

/-- The members that the identifiers of the machine stand for, others being numbered as given. -/
def Machine.learnt (m : Machine) (numbering : Nat → IdentKey) (id : Nat) : Identifier :=
  m.identifiers.getD id (.fresh (numbering id))

theorem Lapse.knows_learnt {L : Lapse} {h : Host} {m : Machine} {numbering : Nat → IdentKey}
    (learnt : L.learnt = m.learnt numbering) : L.Knows h m.identifiers := by
  intro id
  rw [learnt]
  unfold Machine.learnt
  rw [Std.HashMap.getD_eq_getD_getElem?, Std.HashMap.getD_eq_getD_getElem?]
  cases m.identifiers[id]? with
  | none => exact .refl _
  | some i => exact .refl _

namespace Scope

/-- The lapse between draining in the scope, from the machine `m`, and draining after it has been
left and the time `w` has passed. -/
def lapse (scope : Scope) (w : Meanwhile) (numbering : Nat → IdentKey) (m : Machine) : Lapse where
  gone := m.context.sections.toList.take scope.depth
  come := w.sections
  around := m.context.sections.toList.drop scope.depth
  hidden frame slot := w.slots.contains (frame, slot) && (m.slot? frame slot).isSome
  learnt := m.learnt numbering

theorem dropSection_eq (c : Context) :
    c.dropSection = { c with sections := ⟨c.sections.toList.drop 1⟩ } := by
  unfold Context.dropSection Stack.pop?
  obtain ⟨⟨sections⟩, _, _, _, _⟩ := c
  cases sections <;> rfl

/-- Leaving a scope drops its sections and does not begin calls. -/
theorem leave_eq (scope : Scope) (c : Context) : ∃ callDepth ≤ c.callDepth,
    scope.leave c = { c with
      sections := ⟨c.sections.toList.drop scope.depth⟩
      callDepth } := by
  cases scope with
  | call e args =>
    refine ⟨c.callDepth - 1, Nat.sub_le _ _, ?_⟩
    simp only [leave, depth, Context.leaveCall]
    cases args.head? with
    | none => rfl
    | some v =>
      simp only [Option.isSome_some, if_true, dropSection_eq]
      rfl
  | stage s item index =>
    refine ⟨c.callDepth, Nat.le_refl _, ?_⟩
    simp only [leave, depth]
    split
    · rfl
    · exact dropSection_eq c

/-- The machine that the scope is drained on and the one that it is drained on later are twins. -/
theorem twins {scope : Scope} {w : Meanwhile} {m m' : Machine} (h : Host)
    (numbering : Nat → IdentKey)
    (passes : w.Passes { m with context := scope.leave m.context } m') :
    (scope.lapse w numbering m).Twins h [] m m' := by
  obtain ⟨callDepth, lower, left⟩ := scope.leave_eq m.context
  have context := passes.context
  rw [left] at context
  have present : ∀ frame slot,
      (m'.slot? frame slot).isSome = (m.slot? frame slot).isSome := passes.present
  have slots : ∀ frame slot, (scope.lapse w numbering m).hidden frame slot = false →
      m'.slot? frame slot = m.slot? frame slot := by
    intro frame slot seen
    by_cases written : (frame, slot) ∈ w.slots
    · -- A slot that is not there is not there afterwards either.
      have absent : m.slot? frame slot = none := by simpa [lapse, written] using seen
      rw [absent, ← Option.not_isSome_iff_eq_none, present, absent]
      exact Bool.false_ne_true
    · exact passes.slots frame slot written
  exact {
    context := {
      sections := (List.take_append_drop scope.depth _).symm
      sections' := by rw [context]; rfl
      callDepth := by rw [context]; exact lower
      maxCallDepth := by rw [context]
      templates := by rw [context] }
    streamCount := by rw [passes.streams]
    streams := fun id => by
      rw [passes.streams]
      exact Lapse.Streams.rel_refl _
    frameCount := passes.frameCount
    slots
    present := fun frame slot hidden => by
      rw [present]
      exact (Bool.and_eq_true_iff.mp hidden).2
    knows := Lapse.knows_learnt rfl
    knows' := by
      rw [passes.identifiers]
      exact Lapse.knows_learnt rfl
    nextObject := passes.nextObject }

/-! ## Draining within the scope and after it -/

/-- The elements of the value of the body, taken before the scope is left. -/
def drain (scope : Scope) (env : Environment) (fuel : Nat) : Eval (List Value) :=
  let calls := Calls.ofLevels env (pure .null) fuel
  scope.runThen calls (calls.takeAll env.host fuel)

/-- The same, in which only trees run that are steady until the time `w` has passed. -/
def drainSteadily (scope : Scope) (env : Environment) (w : Meanwhile)
    (numbering : Nat → IdentKey) (fuel : Nat) : Eval (List Value) :=
  scope.runThen (Calls.ofLevels env (pure .null) fuel) fun v m =>
    (Calls.steady env (scope.lapse w numbering m) fuel).takeAll env.host fuel v m

end Scope

theorem Calls.run_localVar {env : Environment} {missing : Eval Value} (fuel : Nat) (e : Expression)
    {frame : FrameId} {slot : Nat} {m : Machine} {v : Value} (holds : m.slot? frame slot = some v) :
    (ofLevels env missing (fuel + 1)).run e frame (.localVar slot) m = .ok v m := by
  have read : Eval.localValue? frame slot m = .ok (some v) m :=
    congrArg (EStateM.Result.ok · m) holds
  show (Eval.localValue? frame slot >>= _) m = _
  simp only [bind, EStateM.bind, read]
  rfl

theorem Calls.pos_of_takeAll {calls : Calls} {h : Host} {reads : Nat} {v : Value} {m m₁ : Machine}
    {xs : List Value} (ran : calls.takeAll h reads v m = .ok xs m₁) : 0 < reads := by
  refine Nat.pos_of_ne_zero fun zero => ?_
  obtain ⟨id, m', -, none⟩ := exists_of_bind ran
  rw [zero] at none
  cases none

/-- Elements that are taken in steady evaluation are those that are taken at the second moment, and
the last of them is the value of a reduction there that puts them into a hidden slot. -/
theorem Lapse.Twins.drained {L : Lapse} {env : Environment} {own : List Section}
    {m m' m₁ : Machine} {fuel fuel' : Nat} {v : Value} {xs : List Value}
    (twins : L.Twins env.host own m m') (le : fuel ≤ fuel')
    (ran : (Calls.steady env L fuel).takeAll env.host fuel v m = .ok xs m₁) :
    let calls := Calls.ofLevels env (pure .null) fuel'
    (∃ m₂, calls.takeAll env.host fuel' v m' = .ok xs m₂) ∧
    ∀ e frame slot, L.hidden frame slot →
      ∃ m₂, calls.takeLast env.host fuel' e frame slot v m' = .ok (xs.getLastD .null) m₂ := by
  intro calls
  have follows : L.FollowsCalls env (Calls.steady env L fuel) calls := Lapse.followsCalls_steady le
  constructor
  · obtain ⟨xs', m₂, ran', rfl, -⟩ := follows.takeAll le v m m' twins xs m₁ ran
    exact ⟨m₂, ran'⟩
  · intro e frame slot hidden
    obtain ⟨less, rfl⟩ : ∃ less, fuel' = less + 1 :=
      ⟨fuel' - 1, by have := Calls.pos_of_takeAll ran; omega⟩
    obtain ⟨last, m₂, ran', rfl, -⟩ := follows.takeLast hidden
      (fun m v => Calls.run_localVar less e) le v m m' twins xs m₁ ran
    exact ⟨m₂, ran'⟩

theorem Scope.drained_later {scope : Scope} {env : Environment} {w : Meanwhile}
    {numbering : Nat → IdentKey} {fuel : Nat} {m m₁ : Machine} {xs : List Value}
    (ran : scope.drainSteadily env w numbering fuel m = .ok xs m₁) :
    ∃ v m', scope.run (Calls.ofLevels env (pure .null) fuel) m = .ok v m' ∧
      ∀ m'', w.Passes m' m'' → ∀ fuel', fuel ≤ fuel' →
        let calls := Calls.ofLevels env (pure .null) fuel'
        (∃ m₂, calls.takeAll env.host fuel' v m'' = .ok xs m₂) ∧
        ∀ e frame slot, (frame, slot) ∈ w.slots → (m'.slot? frame slot).isSome →
          ∃ m₂, calls.takeLast env.host fuel' e frame slot v m'' =
            .ok (xs.getLastD .null) m₂ := by
  obtain ⟨v, inside, after, drained, left⟩ := exists_of_runThen ran
  refine ⟨v, _, left, fun m'' passes fuel' le => ?_⟩
  obtain ⟨all, last⟩ := (scope.twins env.host numbering passes).drained le drained
  refine ⟨all, fun e frame slot written there => last e frame slot ?_⟩
  exact Bool.and_eq_true_iff.mpr ⟨by simpa using written, there⟩

end TagExpr
