import TagExpr.Eval.Step
import TagExpr.Proofs.Draining.Retelling
import TagExpr.Proofs.Draining.Ways

/-!
# Two moments

A stream can be read now or later. In between sections have gone and others have come, calls have
been left, and local slots have been assigned. A lapse says how far the two moments lie apart; twins
are the machines that one step is taken on at the first and at the second moment. A step at the
second moment follows one at the first if on twins it has the value that the other one has, and
leaves twins again. Nothing is said where the step at the first moment stops.

Twins may know different ways of their identifiers: a section that is there at one of the moments
only may be searched in vain. The ways that they would take are the same.
-/

namespace TagExpr

/-- How two moments lie apart. -/
structure Lapse where
  /-- The sections that are there at the first moment only. -/
  gone : List Section := []
  /-- The sections that are there at the second moment only. -/
  come : List Section := []
  /-- The sections beneath these at both moments. -/
  around : List Section
  /-- Local slots that may hold something else at the second moment. -/
  hidden : FrameId → Nat → Bool := fun _ _ => false
  /-- Expressions for which another one may stand at the second moment without mentioning them. -/
  renamed : Expression → Bool := fun _ => false
  /-- The identifiers by number, of which the ways are those that are taken at both moments. -/
  learnt : Nat → Identifier

/-- The value of a local slot. -/
def Machine.slot? (m : Machine) (frame : FrameId) (slot : Nat) : Option Value :=
  m.frames[frame]?.bind (·[slot]?)

/-- The section that a call with this first argument adds. -/
def callSections (first : Option Value) : List Section := first.toList.map fun v => { value := v }

namespace Lapse

variable {L : Lapse} {h : Host} {own : List Section} {m m' : Machine}

/-! ## Twins -/

/-- At the second moment `e'` stands for `e`, and its trees are retold: its table has the named
expressions of `e` and, where it is mentioned, `e` itself. -/
structure Units (L : Lapse) (r : Retelling) (e e' : Expression) : Prop where
  identifiers : e'.identifiers = e.identifiers
  expressions : ∀ target, e'.expressions[r.target target]? = e.expressions[target]?
  self : match r.self with
    | some target => e'.expressions[target]? = some e
    | none => L.renamed e = false → e' = e

/-- Both stages run the same body on the same elements. -/
structure Stages (L : Lapse) (s s' : Stage) : Prop where
  input : s'.input = s.input
  unit : ∃ r, L.Units r s.unit s'.unit ∧ s'.body = s.body.retell r
  frame : s'.frame = s.frame
  binding : s'.binding = s.binding

theorem Units.stages {r : Retelling} {e e' : Expression} (units : L.Units r e e') (input : StreamId)
    (body : Node) (frame : FrameId) (binding : Option Nat) :
    L.Stages { input, body, unit := e, frame, binding }
      { input, body := body.retell r, unit := e', frame, binding } :=
  ⟨rfl, ⟨r, units, rfl⟩, rfl, rfl⟩

/-- The elements come from the same place. -/
inductive Kinds (L : Lapse) : StreamKind → StreamKind → Prop
  | source (s : Source) : L.Kinds (.source s) (.source s)
  | remap {s s' : Stage} : L.Stages s s' → L.Kinds (.remap s) (.remap s')
  | filter {s s' : Stage} : L.Stages s s' → L.Kinds (.filter s) (.filter s')
  | flatRemap {s s' : Stage} (inner : Option StreamId) :
    L.Stages s s' → L.Kinds (.flatRemap s inner) (.flatRemap s' inner)

/-- The streams are at the same place. -/
structure Streams (L : Lapse) (s s' : Stream) : Prop where
  kind : L.Kinds s.kind s'.kind
  peeked : s'.peeked = s.peeked
  pulled : s'.pulled = s.pulled

theorem Units.refl (e : Expression) : L.Units .none e e := ⟨rfl, fun _ => rfl, fun _ => rfl⟩

theorem Streams.refl (s : Stream) : L.Streams s s := by
  obtain ⟨kind, peeked, pulled⟩ := s
  have stages (s : Stage) : L.Stages s s :=
    ⟨rfl, ⟨.none, .refl s.unit, (s.body.retell_none).symm⟩, rfl, rfl⟩
  refine ⟨?_, rfl, rfl⟩
  cases kind with
  | source s => exact .source s
  | remap s => exact .remap (stages s)
  | filter s => exact .filter (stages s)
  | flatRemap s inner => exact .flatRemap inner (stages s)

theorem Streams.rel_refl (found : Option Stream) : Option.Rel L.Streams found found := by
  cases found with
  | none => exact .none
  | some s => exact .some (.refl s)

/-- The contexts agree, but for what has gone and come beneath the sections `own`. -/
structure Contexts (L : Lapse) (own : List Section) (c c' : Context) : Prop where
  sections : c.sections.toList = own ++ (L.gone ++ L.around)
  sections' : c'.sections.toList = own ++ (L.come ++ L.around)
  callDepth : c'.callDepth ≤ c.callDepth
  maxCallDepth : c'.maxCallDepth = c.maxCallDepth
  templates : c'.templates = c.templates

/-- Of every identifier the ways are taken that the lapse names. -/
def Knows (L : Lapse) (h : Host) (identifiers : Std.HashMap Nat Identifier) : Prop :=
  ∀ id, (identifiers.getD id (.fresh (L.learnt id).key)).SameWays h (L.learnt id)

/-- The machines at the two moments, while the sections `own` lie on top. -/
structure Twins (L : Lapse) (h : Host) (own : List Section) (m m' : Machine) : Prop where
  context : L.Contexts own m.context m'.context
  streamCount : m'.streams.size = m.streams.size
  streams : ∀ id : StreamId, Option.Rel L.Streams m.streams[id]? m'.streams[id]?
  frameCount : m'.frames.size = m.frames.size
  slots : ∀ frame slot, L.hidden frame slot = false → m'.slot? frame slot = m.slot? frame slot
  /-- A hidden slot is there at the second moment. -/
  present : ∀ frame slot, L.hidden frame slot → (m'.slot? frame slot).isSome
  knows : L.Knows h m.identifiers
  knows' : L.Knows h m'.identifiers
  nextObject : m'.nextObject = m.nextObject

/-! ## Steps that follow -/

variable {α α' β β' : Type} {R : α → α' → Prop} {S : β → β' → Prop} {x : Eval α} {x' : Eval α'}
  {f : α → Eval β} {f' : α' → Eval β'}

/-- On twins `x'` does at the second moment what `x` does at the first, if that has a value. -/
def Follows (L : Lapse) (h : Host) (own : List Section) (R : α → α' → Prop) (x : Eval α)
    (x' : Eval α') : Prop :=
  ∀ m m', L.Twins h own m m' → ∀ a m₁, x m = .ok a m₁ →
    ∃ b m₁', x' m' = .ok b m₁' ∧ R a b ∧ L.Twins h own m₁ m₁'

theorem follows_pure {a : α} {b : α'} (hR : R a b) : L.Follows h own R (pure a) (pure b) := by
  intro m m' twins a₁ m₁ ran
  cases ran
  exact ⟨b, m', rfl, hR, twins⟩

theorem follows_throw (stop : Stop) : L.Follows h own R (throw stop : Eval α) x' := nofun

theorem Follows.bind (hx : L.Follows h own R x x')
    (hf : ∀ a b, R a b → L.Follows h own S (f a) (f' b)) :
    L.Follows h own S (x >>= f) (x' >>= f') := by
  intro m m' twins b m₂ ran
  simp only [Bind.bind, EStateM.bind] at ran ⊢
  cases hxm : x m with
  | error stop m₁ =>
    rw [hxm] at ran
    cases ran
  | ok a m₁ =>
    rw [hxm] at ran
    obtain ⟨a', m₁', ran', hR, twins₁⟩ := hx m m' twins a m₁ hxm
    rw [ran']
    exact hf a a' hR m₁ m₁' twins₁ b m₂ ran

/-- The values are the same. -/
abbrev Repeats (L : Lapse) (h : Host) (own : List Section) (x x' : Eval α) : Prop :=
  L.Follows h own Eq x x'

theorem Follows.bind_eq {x' : Eval α} {f' : α → Eval β'} (hx : L.Repeats h own x x')
    (hf : ∀ a, L.Follows h own S (f a) (f' a)) : L.Follows h own S (x >>= f) (x' >>= f') :=
  hx.bind fun a _ same => same ▸ hf a

theorem Follows.bind_of {P : α → Prop} {x' : Eval α} {f' : α → Eval β'}
    (hx : L.Follows h own (fun a a' => a' = a ∧ P a) x x')
    (hf : ∀ a, P a → L.Follows h own S (f a) (f' a)) :
    L.Follows h own S (x >>= f) (x' >>= f') := by
  refine hx.bind fun a a' ha => ?_
  rw [ha.1]
  exact hf a ha.2

/-- A step that always has a value. -/
theorem follows_of_ok {value : Machine → α} {value' : Machine → α'} {next next' : Machine → Machine}
    (hx : ∀ m, x m = .ok (value m) (next m)) (hx' : ∀ m, x' m = .ok (value' m) (next' m))
    (holds : ∀ m m', L.Twins h own m m' →
      R (value m) (value' m') ∧ L.Twins h own (next m) (next' m')) :
    L.Follows h own R x x' := by
  intro m m' twins a m₁ ran
  rw [hx] at ran
  cases ran
  exact ⟨_, _, hx' m', holds m m' twins⟩

theorem follows_context :
    L.Follows h own (L.Contexts own) Eval.context Eval.context :=
  follows_of_ok (fun _ => rfl) (fun _ => rfl) fun _ _ twins => ⟨twins.context, twins⟩

theorem repeats_ofExcept (r : Except EvalFault α) :
    L.Repeats h own (Eval.ofExcept r) (Eval.ofExcept r) := by
  cases r with
  | ok a => exact follows_pure rfl
  | error fault => exact follows_throw _

/-! ## Changes of the context -/

/-- A change of the context for the time of a step. -/
theorem Follows.during {own' : List Section} {enter leave : Context → Context}
    (entered : ∀ c c', L.Contexts own c c' → L.Contexts own' (enter c) (enter c'))
    (left : ∀ c c', L.Contexts own' c c' → L.Contexts own (leave c) (leave c'))
    (hx : L.Follows h own' R x x') :
    L.Follows h own R (Eval.during enter leave x) (Eval.during enter leave x') := by
  intro m m' twins a m₁ ran
  have inside : L.Twins h own' { m with context := enter m.context }
      { m' with context := enter m'.context } :=
    { twins with context := entered _ _ twins.context }
  unfold Eval.during at ran ⊢
  cases hxm : x { m with context := enter m.context } with
  | error stop m₂ =>
    rw [hxm] at ran
    cases ran
  | ok b m₂ =>
    rw [hxm] at ran
    cases ran
    obtain ⟨a', m₂', ran', hR, twins₂⟩ := hx _ _ inside a m₂ hxm
    rw [ran']
    exact ⟨a', _, rfl, hR, { twins₂ with context := left _ _ twins₂.context }⟩

theorem Contexts.pushSection {c c' : Context} (hc : L.Contexts own c c') (s : Section) :
    L.Contexts (s :: own) (c.pushSection s) (c'.pushSection s) where
  sections := congrArg (s :: ·) hc.sections
  sections' := congrArg (s :: ·) hc.sections'
  callDepth := hc.callDepth
  maxCallDepth := hc.maxCallDepth
  templates := hc.templates

/-- Leaving a section takes the top of the sections off. -/
theorem dropSection_of_toList {c : Context} {s : Section} {below : List Section}
    (hc : c.sections.toList = s :: below) : c.dropSection = { c with sections := ⟨below⟩ } := by
  unfold Context.dropSection Stack.pop?
  rw [hc]

theorem Contexts.dropSection {c c' : Context} {s : Section}
    (hc : L.Contexts (s :: own) c c') : L.Contexts own c.dropSection c'.dropSection := by
  rw [dropSection_of_toList hc.sections, dropSection_of_toList hc.sections']
  exact ⟨rfl, rfl, hc.callDepth, hc.maxCallDepth, hc.templates⟩

theorem Follows.section_ {s : Section} (hx : L.Follows h (s :: own) R x x') :
    L.Follows h own R (Eval.during (·.pushSection s) (·.dropSection) x)
      (Eval.during (·.pushSection s) (·.dropSection) x') :=
  hx.during (fun _ _ hc => hc.pushSection s) fun _ _ hc => hc.dropSection

theorem Contexts.enterCall {c c' : Context} (hc : L.Contexts own c c') (first : Option Value) :
    L.Contexts (callSections first ++ own) (c.enterCall first) (c'.enterCall first) := by
  have counted : L.Contexts own { c with callDepth := c.callDepth + 1 }
      { c' with callDepth := c'.callDepth + 1 } :=
    { hc with callDepth := Nat.succ_le_succ hc.callDepth }
  cases first with
  | none => exact counted
  | some v => exact counted.pushSection { value := v }

theorem Contexts.leaveCall {c c' : Context} {first : Option Value}
    (hc : L.Contexts (callSections first ++ own) c c') :
    L.Contexts own (c.leaveCall first) (c'.leaveCall first) := by
  have counted {c c' : Context} (hc : L.Contexts own c c') :
      L.Contexts own { c with callDepth := c.callDepth - 1 }
        { c' with callDepth := c'.callDepth - 1 } :=
    { hc with callDepth := Nat.pred_le_pred hc.callDepth }
  cases first with
  | none => exact counted hc
  | some v => exact counted hc.dropSection

theorem Follows.call {first : Option Value}
    (hx : L.Follows h (callSections first ++ own) R x x') :
    L.Follows h own R (Eval.during (·.enterCall first) (·.leaveCall first) x)
      (Eval.during (·.enterCall first) (·.leaveCall first) x') :=
  hx.during (fun _ _ hc => hc.enterCall first) fun _ _ hc => hc.leaveCall

theorem Follows.located (span span' : Span) (hx : L.Follows h own R x x') :
    L.Follows h own R (Eval.located span x) (Eval.located span' x') := by
  intro m m' twins a m₁ ran
  have inner : x m = .ok a m₁ := by
    unfold Eval.located at ran
    cases hxm : x m with
    | ok b m₂ => simpa only [hxm] using ran
    | error stop m₂ => cases stop <;> simp only [hxm] at ran <;> cases ran
  obtain ⟨b, m₁', ran', holds⟩ := hx m m' twins a m₁ inner
  refine ⟨b, m₁', ?_, holds⟩
  unfold Eval.located
  rw [ran']

theorem repeats_assign (template : TemplateId) (slot : Nat) (v : Value) :
    L.Repeats h own
      (do
        let c ← Eval.ofExcept ((← Eval.context).setBinding template slot v)
        Eval.modifyContext fun _ => c
        return v)
      (do
        let c ← Eval.ofExcept ((← Eval.context).setBinding template slot v)
        Eval.modifyContext fun _ => c
        return v) := by
  intro m m' twins a m₁ ran
  obtain ⟨sections, sections', callDepth, maxCallDepth, templates⟩ := twins.context
  -- The frame that takes the value is the same one at both moments.
  have place : m'.context.frameDepth? template = m.context.frameDepth? template := by
    unfold Context.frameDepth?
    rw [templates]
  show ∃ b m₁', (Eval.ofExcept (m'.context.setBinding template slot v) >>= _) m' = _ ∧ _
  replace ran : (Eval.ofExcept (m.context.setBinding template slot v) >>= _) m = _ := ran
  unfold Context.setBinding at ran ⊢
  rw [place]
  cases found : m.context.frameDepth? template with
  | none =>
    simp only [found] at ran
    cases ran
  | some depth =>
    simp only [found] at ran ⊢
    cases ran
    refine ⟨v, _, rfl, rfl, { twins with context := ?_ }⟩
    exact ⟨sections, sections', callDepth, maxCallDepth, by rw [templates]⟩

/-! ## Local slots -/

theorem repeats_localValue? {frame : FrameId} {slot : Nat} (seen : L.hidden frame slot = false) :
    L.Repeats h own (Eval.localValue? frame slot) (Eval.localValue? frame slot) :=
  follows_of_ok (fun _ => rfl) (fun _ => rfl) fun _ _ twins =>
    ⟨(twins.slots frame slot seen).symm, twins⟩

theorem lt_of_isSome_slot? {frame : FrameId} {slot : Nat} (there : (m.slot? frame slot).isSome) :
    frame < m.frames.size := by
  refine Nat.lt_of_not_le fun beyond => ?_
  rw [Machine.slot?, Array.getElem?_eq_none beyond] at there
  cases there

theorem slot?_newFrame (m : Machine) (slots : List Value) (frame : FrameId) (slot : Nat) :
    Machine.slot? { m with frames := m.frames.push slots.toArray } frame slot =
      if frame = m.frames.size then slots[slot]? else m.slot? frame slot := by
  unfold Machine.slot?
  simp only [Array.getElem?_push]
  split <;> simp

theorem repeats_newFrame (slots : List Value) :
    L.Repeats h own (Eval.newFrame slots) (Eval.newFrame slots) := by
  refine follows_of_ok (fun _ => rfl) (fun _ => rfl) fun m m' twins => ?_
  refine ⟨twins.frameCount.symm, { twins with frameCount := ?_, slots := ?_, present := ?_ }⟩
  · simp only [Array.size_push, twins.frameCount]
  · intro frame slot seen
    rw [slot?_newFrame, slot?_newFrame, twins.frameCount, twins.slots frame slot seen]
  · intro frame slot hidden
    have there := twins.present frame slot hidden
    rwa [slot?_newFrame, if_neg (Nat.ne_of_lt (lt_of_isSome_slot? there))]

theorem slot?_setLocal (m : Machine) (frame frame' : FrameId) (slot slot' : Nat) (v : Value) :
    Machine.slot? { m with frames := m.frames.modify frame (·.setIfInBounds slot v) } frame' slot' =
      if frame' = frame ∧ slot' = slot then (m.slot? frame' slot').map fun _ => v
      else m.slot? frame' slot' := by
  unfold Machine.slot?
  simp only [Array.getElem?_modify]
  by_cases sameFrame : frame = frame'
  · subst sameFrame
    cases m.frames[frame]? with
    | none => simp
    | some found =>
      by_cases sameSlot : slot = slot'
      · subst sameSlot
        by_cases within : slot < found.size <;> simp [within]
      · simp [sameSlot, Ne.symm sameSlot]
  · simp [sameFrame, Ne.symm sameFrame]

theorem isSome_slot?_setLocal (m : Machine) (frame frame' : FrameId) (slot slot' : Nat)
    (v : Value) :
    (Machine.slot? { m with frames := m.frames.modify frame (·.setIfInBounds slot v) } frame'
      slot').isSome = (m.slot? frame' slot').isSome := by
  rw [slot?_setLocal]
  split
  · exact Option.isSome_map
  · rfl

theorem repeats_setLocal (frame : FrameId) (slot : Nat) (v : Value) :
    L.Repeats h own (Eval.setLocal frame slot v) (Eval.setLocal frame slot v) := by
  refine follows_of_ok (fun _ => rfl) (fun _ => rfl) fun m m' twins => ?_
  refine ⟨rfl, { twins with frameCount := ?_, slots := ?_, present := ?_ }⟩
  · simp only [Array.size_modify, twins.frameCount]
  · intro frame' slot' seen
    rw [slot?_setLocal, slot?_setLocal, twins.slots frame' slot' seen]
  · intro frame' slot' hidden
    rw [isSome_slot?_setLocal]
    exact twins.present frame' slot' hidden

/-! ## Streams -/

theorem follows_newStream {s s' : Stream} (hs : L.Streams s s') :
    L.Repeats h own (Eval.newStream s) (Eval.newStream s') := by
  refine follows_of_ok (fun _ => rfl) (fun _ => rfl) fun m m' twins => ?_
  refine ⟨twins.streamCount.symm, { twins with streamCount := ?_, streams := ?_ }⟩
  · simp only [Array.size_push, twins.streamCount]
  · intro id
    simp only [Array.getElem?_push, twins.streamCount]
    split
    · exact .some hs
    · exact twins.streams id

theorem follows_stream? (id : StreamId) :
    L.Follows h own (Option.Rel L.Streams) (Eval.stream? id) (Eval.stream? id) :=
  follows_of_ok (fun _ => rfl) (fun _ => rfl) fun _ _ twins => ⟨twins.streams id, twins⟩

theorem repeats_modifyStream (id : StreamId) {φ : Stream → Stream}
    (hφ : ∀ s s', L.Streams s s' → L.Streams (φ s) (φ s')) :
    L.Repeats h own (Eval.modifyStream id φ) (Eval.modifyStream id φ) := by
  refine follows_of_ok (fun _ => rfl) (fun _ => rfl) fun m m' twins => ?_
  refine ⟨rfl, { twins with streamCount := ?_, streams := ?_ }⟩
  · simp only [Array.size_modify, twins.streamCount]
  · intro other
    have found := twins.streams other
    simp only [Array.getElem?_modify]
    generalize m.streams[other]? = s, m'.streams[other]? = s' at found ⊢
    split
    · cases found with
      | none => exact .none
      | some hs => exact .some (hφ _ _ hs)
    · exact found

theorem repeats_streamOf (v : Value) :
    L.Repeats h own (Eval.streamOf h v) (Eval.streamOf h v) := by
  unfold Eval.streamOf
  split
  · exact follows_pure rfl
  · exact follows_newStream ⟨.source _, rfl, rfl⟩

theorem bind_peeked {s s' : Option Stream} (hs : Option.Rel L.Streams s s') :
    s'.bind (·.peeked) = s.bind (·.peeked) := by
  cases hs with
  | none => rfl
  | some hs => exact hs.peeked

theorem repeats_takePeeked (id : StreamId) :
    L.Repeats h own (Eval.takePeeked id) (Eval.takePeeked id) := by
  refine (follows_stream? id).bind fun s s' hs => ?_
  simp only [bind_peeked hs]
  split
  · refine (repeats_modifyStream id ?_).bind_eq fun _ => follows_pure rfl
    exact fun _ _ hs => ⟨hs.kind, rfl, hs.pulled⟩
  · exact follows_pure rfl

theorem repeats_countPulled (id : StreamId) :
    L.Repeats h own (Eval.countPulled id) (Eval.countPulled id) := by
  refine (follows_stream? id).bind fun s s' hs => ?_
  have same : s'.map (·.pulled) = s.map (·.pulled) := by
    cases hs with
    | none => rfl
    | some hs => exact congrArg some hs.pulled
  rw [same]
  refine (repeats_modifyStream id ?_).bind_eq fun _ => follows_pure rfl
  exact fun _ _ hs => ⟨hs.kind, hs.peeked, congrArg (· + 1) hs.pulled⟩

theorem repeats_innerStream? (id : StreamId) :
    L.Repeats h own (Eval.innerStream? id) (Eval.innerStream? id) := by
  refine (follows_stream? id).bind fun s s' hs => ?_
  cases hs with
  | none => exact follows_pure rfl
  | @some s s' hs =>
    obtain ⟨kind, peeked, pulled⟩ := s
    obtain ⟨kind', peeked', pulled'⟩ := s'
    cases hs.kind with
    | source | remap | filter | flatRemap => exact follows_pure rfl

theorem repeats_setInner (id : StreamId) (inner : Option StreamId) :
    L.Repeats h own (Eval.setInner id inner) (Eval.setInner id inner) := by
  refine repeats_modifyStream id ?_
  rintro ⟨kind, peeked, pulled⟩ ⟨kind', peeked', pulled'⟩ ⟨kinds, peeks, pulls⟩
  cases kinds with
  | source s => exact ⟨.source s, peeks, pulls⟩
  | remap stages => exact ⟨.remap stages, peeks, pulls⟩
  | filter stages => exact ⟨.filter stages, peeks, pulls⟩
  | flatRemap _ stages => exact ⟨.flatRemap inner stages, peeks, pulls⟩

end Lapse

end TagExpr
