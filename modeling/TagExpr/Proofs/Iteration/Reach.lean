import TagExpr.Proofs.Draining.Lapse
import TagExpr.Proofs.Iteration.Holdings
import TagExpr.Proofs.Stream.Remains

/-!
# What a body gets at

A stage has the stream before it to itself. While its body runs, the streams and local slots that
the body gets at (`Reach`) are apart from those that the stream before the stage is made of; the
body sees that stream only through the sections of the iteration, which can be asked whether another
element follows. `Lease.Holds` says so of a machine. A step that minds the lease keeps it so, and
gets at nothing else but what it makes itself (`Lease.Minds`).
-/

namespace TagExpr

/-! ## Reach -/

/-- The streams and the frames of local slots that can be got at. -/
structure Reach where
  streams : Set StreamId
  frames : Set FrameId

instance : Preorder Reach where
  le r r' := r.streams ⊆ r'.streams ∧ r.frames ⊆ r'.frames
  le_refl _ := ⟨subset_rfl, subset_rfl⟩
  le_trans _ _ _ h h' := ⟨h.1.trans h'.1, h.2.trans h'.2⟩

variable {r r' : Reach}

/-- Reading the stage gets at no more than this. -/
def Stage.Within (r : Reach) (s : Stage) : Prop := s.input ∈ r.streams ∧ s.frame ∈ r.frames

def Source.Within (A : Set StreamId) (s : Source) : Prop := ∀ v ∈ s.rest, v.Within A

def StreamKind.Within (r : Reach) : StreamKind → Prop
  | .source s => s.Within r.streams
  | .remap stage | .filter stage => stage.Within r
  | .flatRemap stage inner => stage.Within r ∧ ∀ i ∈ inner, i ∈ r.streams

/-- Reading the stream gets at no more than this. -/
structure Stream.Within (r : Reach) (s : Stream) : Prop where
  kind : s.kind.Within r
  peeked : ∀ v ∈ s.peeked, v.Within r.streams

/-- Nothing has been read ahead of a new stream. -/
theorem Stream.within_of_kind {kind : StreamKind} (h : kind.Within r) : Stream.Within r { kind } :=
  ⟨h, nofun⟩

theorem Stage.Within.mono {s : Stage} (h : s.Within r) (le : r ≤ r') : s.Within r' :=
  ⟨le.1 h.1, le.2 h.2⟩

theorem Stream.Within.mono {s : Stream} (h : s.Within r) (le : r ≤ r') : s.Within r' := by
  refine ⟨?_, fun v hv => (h.peeked v hv).mono le.1⟩
  have kind := h.kind
  cases hk : s.kind <;> rw [hk] at kind
  case source => exact fun v hv => (kind v hv).mono le.1
  case remap | filter => exact Stage.Within.mono kind le
  case flatRemap => exact ⟨kind.1.mono le, fun i hi => le.1 (kind.2 i hi)⟩

/-! ## Leases -/

/-- What a stage is granted of the stream before it. -/
structure Lease where
  env : Environment
  /-- The stream before the stage. -/
  input : StreamId
  /-- The levels that reading it takes. -/
  need : Nat
  /-- Where it may be read. -/
  places : Machine → Bool
  /-- The local slots that are assigned by reading it. -/
  hidden : FrameId → Nat → Bool
  /-- The streams that wait for the stage. -/
  waiting : StreamId → Bool

namespace Lease

/-- A machine that reading the stream before the stage leaves as this one: the context is the same,
and so is what the local slots hold that are not hidden. -/
def seen (L : Lease) (k : Machine) : Setting where
  calm m := m.context = k.context ∧ k.frames.size ≤ m.frames.size ∧
    (∀ frame < k.frames.size, ∀ slot, L.hidden frame slot = false →
      m.slot? frame slot = k.slot? frame slot) ∧ m.Honest
  streams _ h := h

/-- The places where the stream before the stage may be read. -/
def settings (L : Lease) : Set Setting := {S | ∃ k, L.places k = true ∧ S = L.seen k}

/-- The stream before the stage has these elements left. -/
def Supplies (L : Lease) (F : Set StreamId) (xs : List Value) (m : Machine) : Prop :=
  Supply L.env L.settings L.need m L.input F xs

/-- All that the sections and the frames of the templates hold can be got at. Of a stream that
cannot, only the iteration's own section knows whether another element follows. -/
structure Sees (L : Lease) (r : Reach) (own : Option Section) (c : Context) : Prop where
  values : ∀ s ∈ c.sections.toList, s.value.Within r.streams
  following : ∀ s ∈ c.sections.toList, ∀ id, s.following = .stream id →
    id ∈ r.streams ∨ L.waiting id = true ∨ id = L.input ∧ own = some s
  templates : ∀ f ∈ c.templates.toList, ∀ v ∈ f.slots, v.Within r.streams

/-- The lease holds: the stream before the stage has the elements `xs` left, and it cannot be got at
but through the iteration's own section. -/
structure Holds (L : Lease) (own : Option Section) (xs : List Value) (r : Reach) (m : Machine) :
    Prop where
  supply : ∃ F, L.Supplies F xs m ∧ ∀ i ∈ F, i ∉ r.streams ∧ L.waiting i = false
  made : ∀ i ∈ r.streams, i < m.streams.size ∧ L.waiting i = false
  waits : ∀ i, L.waiting i = true → i < m.streams.size
  sees : L.Sees r own m.context
  frames : ∀ frame ∈ r.frames, frame < m.frames.size
  slots : ∀ frame ∈ r.frames, ∀ slot v, m.slot? frame slot = some v →
    L.hidden frame slot = false → v.Within r.streams
  streams : ∀ id ∈ r.streams, ∀ s, m.streams[id]? = some s → s.Within r
  bounded : ∀ frame slot, L.hidden frame slot = true → frame < m.frames.size
  honest : m.Honest

/-- What a step leaves that minds the lease. -/
structure Keeps (L : Lease) (m m' : Machine) : Prop where
  sections : m'.context.sections = m.context.sections
  waiting : ∀ i, L.waiting i = true → m'.streams[i]? = m.streams[i]?

variable {L : Lease} {own : Option Section} {xs : List Value} {m m' m'' : Machine}

theorem Keeps.refl (m : Machine) : L.Keeps m m := ⟨rfl, fun _ _ => rfl⟩

theorem Keeps.trans (h : L.Keeps m m') (h' : L.Keeps m' m'') : L.Keeps m m'' :=
  ⟨h'.sections.trans h.sections, fun i hi => (h'.waiting i hi).trans (h.waiting i hi)⟩

theorem Sees.mono {c : Context} (h : L.Sees r own c) (le : r ≤ r') : L.Sees r' own c where
  values s hs := (h.values s hs).mono le.1
  following s hs id hid := (h.following s hs id hid).imp_left (le.1 ·)
  templates f hf v hv := (h.templates f hf v hv).mono le.1

/-! ## Steps that mind the lease -/

variable {α β : Type} {R : Reach → α → Prop} {R' : Reach → β → Prop} {x y : Eval α}
  {f g : α → Eval β}

/-- Where the lease holds and the first step has a value, the second has the same, the lease holds
afterwards, and `R` says how far the value is within reach. -/
def Minds (L : Lease) (own : Option Section) (xs : List Value) (r : Reach)
    (R : Reach → α → Prop) (x y : Eval α) : Prop :=
  ∀ m, L.Holds own xs r m → ∀ a m', x m = .ok a m' →
    y m = .ok a m' ∧ L.Keeps m m' ∧ ∃ r', r ≤ r' ∧ L.Holds own xs r' m' ∧ R r' a

/-- Nothing is said of the value. -/
abbrev anything (_ : Reach) (_ : α) : Prop := True

theorem minds_pure {a : α} (ha : R r a) : L.Minds own xs r R (pure a) (pure a) := by
  rintro m holds a m' ⟨⟩
  exact ⟨rfl, .refl m, r, le_refl r, holds, ha⟩

theorem minds_throw (stop : Stop) : L.Minds own xs r R (throw stop) y := nofun

theorem Minds.bind (hx : L.Minds own xs r R x y)
    (hf : ∀ r' a, r ≤ r' → R r' a → L.Minds own xs r' R' (f a) (g a)) :
    L.Minds own xs r R' (x >>= f) (y >>= g) := by
  intro m holds b m₂ ran
  obtain ⟨a, m₁, first, second⟩ := exists_of_bind ran
  obtain ⟨same, keeps, r₁, le, holds₁, ha⟩ := hx m holds a m₁ first
  obtain ⟨same', keeps', r₂, le', holds₂, hb⟩ := hf r₁ a le ha m₁ holds₁ b m₂ second
  refine ⟨?_, keeps.trans keeps', r₂, le.trans le', holds₂, hb⟩
  simp only [Bind.bind, EStateM.bind, same, same']

/-- One step that always succeeds. -/
theorem minds_of_ok {value : Machine → α} {next : Machine → Machine}
    (hx : ∀ m, x m = .ok (value m) (next m))
    (hm : ∀ m, L.Holds own xs r m →
      L.Keeps m (next m) ∧ ∃ r', r ≤ r' ∧ L.Holds own xs r' (next m) ∧ R r' (value m)) :
    L.Minds own xs r R x x := by
  intro m holds a m' ran
  refine ⟨ran, ?_⟩
  rw [hx] at ran
  cases ran
  exact hm m holds

theorem minds_ofExcept {e : Except EvalFault α} (he : ∀ a, e = .ok a → R r a) :
    L.Minds own xs r R (Eval.ofExcept e) (Eval.ofExcept e) := by
  cases e with
  | ok a => exact minds_pure (he a rfl)
  | error fault => exact minds_throw _

/-! ### The context -/

/-- Only context, local slots and streams count. -/
theorem Holds.spared (h : L.Holds own xs r m) (hm : m.Spared m') (honest : m'.Honest) :
    L.Holds own xs r m' := by
  obtain ⟨c, streams, frames, identifiers, object, journal⟩ := m
  obtain ⟨c', streams', frames', identifiers', object', journal'⟩ := m'
  obtain ⟨rfl, rfl, rfl⟩ := hm
  obtain ⟨F, supply, apart⟩ := h.supply
  exact { h with
    supply := ⟨F, supply.stable fun _ _ => rfl, apart⟩
    honest := honest }

theorem Holds.context (h : L.Holds own xs r m) {own' : Option Section} {c : Context}
    (sees : L.Sees r own' c) : L.Holds own' xs r { m with context := c } := by
  obtain ⟨F, supply, apart⟩ := h.supply
  exact { h with
    supply := ⟨F, supply.stable fun _ _ => rfl, apart⟩
    sees := sees }

theorem minds_context : L.Minds own xs r (fun r c => L.Sees r own c) Eval.context Eval.context :=
  minds_of_ok (fun _ => rfl) fun m holds => ⟨.refl m, r, le_refl r, holds, holds.sees⟩

/-- A change of the context for the time of a step, which is undone afterwards. -/
theorem Minds.during {enter leave : Context → Context} (hx : L.Minds own xs r R x y)
    (entered : ∀ c, L.Sees r own c → L.Sees r own (enter c))
    (left : ∀ r' c c', L.Sees r own c → c'.sections = (enter c).sections → L.Sees r' own c' →
      (leave c').sections = c.sections ∧ L.Sees r' own (leave c')) :
    L.Minds own xs r R (Eval.during enter leave x) (Eval.during enter leave y) := by
  intro m holds a m' ran
  unfold Eval.during at ran ⊢
  cases hxm : x { m with context := enter m.context } with
  | error stop m₁ =>
    rw [hxm] at ran
    cases ran
  | ok b m₁ =>
    rw [hxm] at ran
    cases ran
    obtain ⟨same, keeps, r₁, le, holds₁, ha⟩ := hx _ (holds.context (entered _ holds.sees)) a m₁ hxm
    obtain ⟨sections, sees⟩ := left r₁ _ _ holds.sees keeps.sections holds₁.sees
    rw [same]
    exact ⟨rfl, ⟨sections, keeps.waiting⟩, r₁, le, holds₁.context sees, ha⟩

theorem Minds.located (span : Span) (hx : L.Minds own xs r R x y) :
    L.Minds own xs r R (Eval.located span x) (Eval.located span y) := by
  intro m holds a m' ran
  have inner : x m = .ok a m' := by
    unfold Eval.located at ran
    cases hxm : x m with
    | ok b m₁ => simpa only [hxm] using ran
    | error stop m₁ => cases stop <;> simp only [hxm] at ran <;> cases ran
  obtain ⟨same, minded⟩ := hx m holds a m' inner
  refine ⟨?_, minded⟩
  unfold Eval.located
  rw [same]

/-- One more section, of which all can be got at. -/
theorem Sees.push {c : Context} (h : L.Sees r own c) {s : Section} (hv : s.value.Within r.streams)
    (hs : ∀ id, s.following = .stream id →
      id ∈ r.streams ∨ L.waiting id = true ∨ id = L.input ∧ own = some s) :
    L.Sees r own (c.pushSection s) where
  values := List.forall_mem_cons.2 ⟨hv, h.values⟩
  following := List.forall_mem_cons.2 ⟨hs, h.following⟩
  templates := h.templates

/-- Leaving the section gives the sections of before. -/
theorem Sees.drop {c c' : Context} {s : Section} (h : L.Sees r own c')
    (same : c'.sections = (c.pushSection s).sections) :
    c'.dropSection.sections = c.sections ∧ L.Sees r own c'.dropSection := by
  have listed : c'.sections.toList = s :: c.sections.toList := congrArg Stack.toList same
  rw [Lapse.dropSection_of_toList listed]
  refine ⟨rfl, fun t ht => h.values t ?_, fun t ht => h.following t ?_, h.templates⟩
  · rw [listed]
    exact List.mem_cons_of_mem s ht
  · rw [listed]
    exact List.mem_cons_of_mem s ht

theorem Minds.section_ (hx : L.Minds own xs r R x y) {s : Section}
    (hv : s.value.Within r.streams)
    (hs : ∀ id, s.following = .stream id →
      id ∈ r.streams ∨ L.waiting id = true ∨ id = L.input ∧ own = some s) :
    L.Minds own xs r R (Eval.during (·.pushSection s) (·.dropSection) x)
      (Eval.during (·.pushSection s) (·.dropSection) y) :=
  hx.during (fun _ sees => sees.push hv hs) fun _ _ _ _ same sees => sees.drop same

theorem Minds.call (hx : L.Minds own xs r R x y) {first : Option Value}
    (hv : ∀ v ∈ first, v.Within r.streams) :
    L.Minds own xs r R (Eval.during (·.enterCall first) (·.leaveCall first) x)
      (Eval.during (·.enterCall first) (·.leaveCall first) y) := by
  cases first with
  | none =>
    refine hx.during (fun c sees => ⟨sees.values, sees.following, sees.templates⟩) ?_
    exact fun r' c c' _ same sees => ⟨same, sees.values, sees.following, sees.templates⟩
  | some v =>
    refine hx.during ?_ ?_
    · intro c sees
      exact Sees.push (c := { c with callDepth := c.callDepth + 1 })
        ⟨sees.values, sees.following, sees.templates⟩ (s := { value := v }) (hv v rfl) nofun
    · intro r' c c' _ same sees
      obtain ⟨sections, sees'⟩ :=
        sees.drop (c := { c with callDepth := c.callDepth + 1 }) (s := { value := v }) same
      exact ⟨sections, sees'.values, sees'.following, sees'.templates⟩

theorem mem_slots_set {f : TemplateFrame} {slot : Nat} {v w : Value}
    (hw : w ∈ (f.set slot v).slots) : w ∈ f.slots ∨ w = .null ∨ w = v := by
  rcases List.mem_or_eq_of_mem_set hw with padded | rfl
  · rcases List.mem_append.1 padded with old | added
    · exact .inl old
    · exact .inr (.inl (List.eq_of_mem_replicate added))
  · exact .inr (.inr rfl)

theorem Sees.setBinding {c c' : Context} (h : L.Sees r own c) {template : TemplateId} {slot : Nat}
    {v : Value} (hv : v.Within r.streams) (hc : c.setBinding template slot v = .ok c') :
    c'.sections = c.sections ∧ L.Sees r own c' := by
  unfold Context.setBinding at hc
  split at hc
  case h_2 => cases hc
  case h_1 depth found =>
    cases hc
    refine ⟨rfl, h.values, h.following, fun f hf => ?_⟩
    obtain ⟨i, hi⟩ := List.mem_iff_getElem?.1 hf
    rw [Stack.toList_modifyAt, List.getElem?_modify] at hi
    obtain ⟨f₀, listed, rfl⟩ := Option.map_eq_some_iff.1 hi
    have before := h.templates f₀ (List.mem_of_getElem? listed)
    split
    · intro w hw
      rcases mem_slots_set hw with old | rfl | rfl
      · exact before w old
      · exact Value.within_null
      · exact hv
    · exact before

/-- The last step of an assignment to a binding. -/
theorem minds_assign (template : TemplateId) (slot : Nat) {v : Value} (hv : v.Within r.streams) :
    L.Minds own xs r (fun r v => v.Within r.streams)
      (do
        let c ← Eval.ofExcept ((← Eval.context).setBinding template slot v)
        Eval.modifyContext fun _ => c
        return v)
      (do
        let c ← Eval.ofExcept ((← Eval.context).setBinding template slot v)
        Eval.modifyContext fun _ => c
        return v) := by
  intro m holds a m' ran
  refine ⟨ran, ?_⟩
  replace ran : (Eval.ofExcept (m.context.setBinding template slot v) >>= _) m = _ := ran
  cases assigned : m.context.setBinding template slot v with
  | error fault =>
    rw [assigned] at ran
    cases ran
  | ok c =>
    rw [assigned] at ran
    cases ran
    obtain ⟨sections, sees⟩ := holds.sees.setBinding hv assigned
    exact ⟨⟨sections, fun _ _ => rfl⟩, r, le_refl r, holds.context sees, hv⟩

/-! ### Local slots -/

theorem minds_localValue? {frame : FrameId} {slot : Nat} (hf : frame ∈ r.frames)
    (seen : L.hidden frame slot = false) :
    L.Minds own xs r (fun r found => ∀ v ∈ found, v.Within r.streams)
      (Eval.localValue? frame slot) (Eval.localValue? frame slot) :=
  minds_of_ok (fun _ => rfl) fun m holds =>
    ⟨.refl m, r, le_refl r, holds, fun v hv => holds.slots frame hf slot v hv seen⟩

theorem minds_setLocal (frame : FrameId) (slot : Nat) {v : Value} (hv : v.Within r.streams) :
    L.Minds own xs r anything (Eval.setLocal frame slot v) (Eval.setLocal frame slot v) := by
  refine minds_of_ok (fun _ => rfl) fun m holds =>
    ⟨⟨rfl, fun _ _ => rfl⟩, r, le_refl r, ?_, trivial⟩
  obtain ⟨F, supply, apart⟩ := holds.supply
  have size : (m.frames.modify frame (·.setIfInBounds slot v)).size = m.frames.size :=
    Array.size_modify
  exact { holds with
    supply := ⟨F, supply.stable fun _ _ => rfl, apart⟩
    frames := fun f hf => (holds.frames f hf).trans_eq size.symm
    slots := by
      intro f hf s w hw seen
      rw [Lapse.slot?_setLocal] at hw
      split at hw
      · obtain ⟨-, -, rfl⟩ := Option.map_eq_some_iff.1 hw
        exact hv
      · exact holds.slots f hf s w hw seen
    bounded := fun f s hidden => (holds.bounded f s hidden).trans_eq size.symm }

/-- The frame of a call comes within reach. -/
theorem minds_newFrame {slots : List Value} (hs : ∀ v ∈ slots, v.Within r.streams) :
    L.Minds own xs r (fun r frame => frame ∈ r.frames) (Eval.newFrame slots)
      (Eval.newFrame slots) := by
  refine minds_of_ok (fun _ => rfl) fun m holds => ⟨⟨rfl, fun _ _ => rfl⟩,
    ⟨r.streams, insert m.frames.size r.frames⟩, ⟨subset_rfl, Set.subset_insert _ _⟩, ?_,
    Set.mem_insert _ _⟩
  obtain ⟨F, supply, apart⟩ := holds.supply
  have size : (m.frames.push slots.toArray).size = m.frames.size + 1 := Array.size_push _
  have le : r ≤ ⟨r.streams, insert m.frames.size r.frames⟩ :=
    ⟨subset_rfl, Set.subset_insert _ _⟩
  exact {
    supply := ⟨F, supply.stable fun _ _ => rfl, apart⟩
    made := holds.made
    waits := holds.waits
    sees := holds.sees.mono le
    frames := by
      rintro f (rfl | hf)
      · exact size.symm ▸ Nat.lt_succ_self _
      · exact size.symm ▸ Nat.lt_succ_of_lt (holds.frames f hf)
    slots := by
      intro f hf s v hv seen
      rw [Lapse.slot?_newFrame] at hv
      split at hv
      · exact hs v (List.mem_of_getElem? hv)
      case isFalse old =>
        exact holds.slots f (hf.resolve_left old) s v hv seen
    streams := fun id hid s found => (holds.streams id hid s found).mono le
    bounded := fun f s hidden => size.symm ▸ Nat.lt_succ_of_lt (holds.bounded f s hidden)
    honest := holds.honest }

/-! ### Streams -/

theorem Holds.push (h : L.Holds own xs r m) {s : Stream} (hs : s.Within r) :
    L.Keeps m { m with streams := m.streams.push s } ∧
      L.Holds own xs ⟨insert m.streams.size r.streams, r.frames⟩
        { m with streams := m.streams.push s } := by
  have size : (m.streams.push s).size = m.streams.size + 1 := Array.size_push _
  have old {i : StreamId} (hi : i < m.streams.size) :
      (m.streams.push s)[i]? = m.streams[i]? :=
    (Array.getElem?_push_lt hi).trans (Array.getElem?_eq_getElem hi).symm
  have le : r ≤ ⟨insert m.streams.size r.streams, r.frames⟩ :=
    ⟨Set.subset_insert _ _, subset_rfl⟩
  obtain ⟨F, supply, apart⟩ := h.supply
  have new {i : StreamId} (hi : i < m.streams.size) : i ≠ m.streams.size := hi.ne
  refine ⟨⟨rfl, fun i hi => old (h.waits i hi)⟩, ?_⟩
  exact {
    supply := by
      refine ⟨F, supply.stable fun i hi => old (supply.made i hi), fun i hi => ?_⟩
      exact ⟨fun inside => (apart i hi).1 (inside.resolve_left (new (supply.made i hi))),
        (apart i hi).2⟩
    made := by
      rintro i (rfl | hi)
      · refine ⟨size.symm ▸ Nat.lt_succ_self _, Bool.eq_false_iff.2 fun waits => ?_⟩
        exact Nat.lt_irrefl _ (h.waits _ waits)
      · exact ⟨size.symm ▸ Nat.lt_succ_of_lt (h.made i hi).1, (h.made i hi).2⟩
    waits := fun i hi => size.symm ▸ Nat.lt_succ_of_lt (h.waits i hi)
    sees := h.sees.mono le
    frames := h.frames
    slots := fun f hf slot v hv seen => (h.slots f hf slot v hv seen).mono le.1
    streams := by
      rintro i (rfl | hi) t found
      · replace found : (m.streams.push s)[m.streams.size]? = some t := found
        rw [Array.getElem?_push_size] at found
        cases found
        exact hs.mono le
      · exact (h.streams i hi t ((old (h.made i hi).1).symm.trans found)).mono le
    bounded := h.bounded
    honest := h.honest }

theorem minds_newStream {s : Stream} (hs : s.Within r) :
    L.Minds own xs r (fun r id => id ∈ r.streams) (Eval.newStream s) (Eval.newStream s) := by
  refine minds_of_ok (fun _ => rfl) fun m holds => ?_
  obtain ⟨keeps, holds'⟩ := holds.push hs
  exact ⟨keeps, ⟨insert m.streams.size r.streams, r.frames⟩,
    ⟨Set.subset_insert _ _, subset_rfl⟩, holds', Set.mem_insert _ _⟩

theorem minds_stream? {id : StreamId} (hid : id ∈ r.streams) :
    L.Minds own xs r (fun r found => ∀ s ∈ found, s.Within r) (Eval.stream? id)
      (Eval.stream? id) :=
  minds_of_ok (fun _ => rfl) fun m holds =>
    ⟨.refl m, r, le_refl r, holds, fun s hs => holds.streams id hid s hs⟩

theorem Holds.update (h : L.Holds own xs r m) {id : StreamId} (hid : id ∈ r.streams)
    {φ : Stream → Stream} (hφ : ∀ s, s.Within r → (φ s).Within r) :
    L.Keeps m (m.update id φ) ∧ L.Holds own xs r (m.update id φ) := by
  have other {i : StreamId} (hi : i ≠ id) : (m.update id φ).streams[i]? = m.streams[i]? :=
    Machine.getElem?_update_ne hi
  have size : (m.update id φ).streams.size = m.streams.size := Machine.size_update
  obtain ⟨F, supply, apart⟩ := h.supply
  refine ⟨⟨rfl, fun i hi => other ?_⟩, ?_⟩
  · rintro rfl
    exact Bool.false_ne_true ((h.made i hid).2.symm.trans hi)
  exact { h with
    supply := by
      refine ⟨F, supply.stable fun i hi => other ?_, apart⟩
      rintro rfl
      exact (apart i hi).1 hid
    made := fun i hi => ⟨(h.made i hi).1.trans_eq size.symm, (h.made i hi).2⟩
    waits := fun i hi => (h.waits i hi).trans_eq size.symm
    streams := by
      intro i hi s found
      by_cases same : i = id
      · subst same
        rw [Machine.getElem?_update_self] at found
        obtain ⟨s₀, stored, rfl⟩ := Option.map_eq_some_iff.1 found
        exact hφ s₀ (h.streams i hi s₀ stored)
      · exact h.streams i hi s ((other same).symm.trans found) }

theorem minds_modifyStream {id : StreamId} (hid : id ∈ r.streams) {φ : Stream → Stream}
    (hφ : ∀ s, s.Within r → (φ s).Within r) :
    L.Minds own xs r anything (Eval.modifyStream id φ) (Eval.modifyStream id φ) := by
  refine minds_of_ok (fun _ => rfl) fun m holds => ?_
  obtain ⟨keeps, holds'⟩ := holds.update hid hφ
  exact ⟨keeps, r, le_refl r, holds', trivial⟩

end Lease

end TagExpr
