import TagExpr.Eval.Step
import TagExpr.Proofs.Compile
import TagExpr.Proofs.Eval.Spares

/-!
# Steps of a sound machine

A machine is sound if every stage that it keeps may run: its body lies within the tables of its
expression, and the frame that the body runs in has all local slots of the expression. Running keeps
it so, since frames only come and keep their number of slots. Two steps agree if they do the same on
every sound machine and leave it sound.
-/

namespace TagExpr

/-! ## Machines -/

namespace Machine

variable {m m' m'' : Machine}

/-- The number of local slots in a frame. -/
def slotCount? (m : Machine) (frame : FrameId) : Option Nat := m.frames[frame]?.map (·.size)

/-- Frames have come, and those there were have as many slots as before. -/
def Extends (m m' : Machine) : Prop :=
  ∀ frame count, m.slotCount? frame = some count → m'.slotCount? frame = some count

theorem Extends.refl (m : Machine) : m.Extends m := fun _ _ h => h

theorem Extends.trans (h : m.Extends m') (h' : m'.Extends m'') : m.Extends m'' :=
  fun frame count hcount => h' frame count (h frame count hcount)

theorem extends_of_frames (h : m'.frames = m.frames) : m.Extends m' := by
  intro frame count hcount
  rwa [slotCount?, h]

/-- The tree may run in the frame as a part of the expression. -/
structure Fits (m : Machine) (e : Expression) (frame : FrameId) (n : Node) : Prop where
  covered : e.Covered
  within : ∃ scope, n.Within (e.limits scope)
  slots : m.slotCount? frame = some e.localCount

theorem Fits.mono {e : Expression} {frame : FrameId} {n : Node} (h : m.Fits e frame n)
    (hm : m.Extends m') : m'.Fits e frame n :=
  ⟨h.covered, h.within, hm _ _ h.slots⟩

end Machine

/-- The stage of a stream that reads from another one. -/
def StreamKind.stage? : StreamKind → Option Stage
  | .source _ => none
  | .remap stage | .filter stage | .flatRemap stage _ => some stage

namespace Machine

variable {m m' : Machine}

/-- The body of the stage may run. -/
def FitsStage (m : Machine) (stage : Stage) : Prop := m.Fits stage.unit stage.frame stage.body

/-- Every stage that the machine keeps may run. -/
def Sound (m : Machine) : Prop :=
  ∀ (id : StreamId) (s : Stream), m.streams[id]? = some s →
    ∀ stage ∈ s.kind.stage?, m.FitsStage stage

theorem sound_of_isEmpty (h : m.streams = #[]) : m.Sound := by
  intro id s hs
  simp [h] at hs

theorem Sound.of_streams (h : m.Sound) (hm : m.Extends m') (hs : m'.streams = m.streams) :
    m'.Sound := by
  intro id s hid stage hstage
  rw [hs] at hid
  exact (h id s hid stage hstage).mono hm

end Machine

/-! ## Agreement -/

/-- A condition on the machine that lasts while frames come. -/
structure Standing where
  holds : Machine → Prop
  lasts : ∀ {m m' : Machine}, m.Extends m' → holds m → holds m'

namespace Standing

/-- What holds whatever the machine is. -/
def fact (p : Prop) : Standing := ⟨fun _ => p, fun _ h => h⟩

def any : Standing := fact True

/-- The frame has so many slots. -/
def slots (frame : FrameId) (count : Nat) : Standing :=
  ⟨fun m => m.slotCount? frame = some count, fun hm h => hm _ _ h⟩

def fits (e : Expression) (frame : FrameId) (n : Node) : Standing :=
  ⟨fun m => m.Fits e frame n, fun hm h => h.mono hm⟩

def fitsStage (stage : Stage) : Standing := fits stage.unit stage.frame stage.body

/-- The stage of the stream may run, if there is a stream and it has a stage. -/
def fitsStream (s : Option Stream) : Standing :=
  ⟨fun m => ∀ found ∈ s, ∀ stage ∈ found.kind.stage?, m.FitsStage stage,
    fun hm h found hf stage hs => (h found hf stage hs).mono hm⟩

end Standing

variable {α β : Type} {P Q : Standing} {x y : Eval α} {f g : α → Eval β}

/-- On every sound machine on which the condition holds both steps do the same, and whether they
stop or not, they leave a sound machine in which all frames have kept their number of slots. -/
def Agree (P : Standing) (x y : Eval α) : Prop :=
  ∀ m : Machine, m.Sound → P.holds m → y m = x m ∧
    Ends x m (fun _ m' => m.Extends m' ∧ m'.Sound) fun _ m' => m.Extends m' ∧ m'.Sound

theorem Agree.weaken (h : Agree P x y) (hQ : ∀ m, Q.holds m → P.holds m) : Agree Q x y :=
  fun m hm hq => h m hm (hQ m hq)

/-- Of the answer of the first step `R` holds, which the rest may use instead of the condition. -/
theorem Agree.bind_of {R : α → Standing} (h : Agree P x y)
    (hR : ∀ m a m', m.Sound → P.holds m → x m = .ok a m' → m'.Sound → (R a).holds m')
    (hn : ∀ a, Agree (R a) (f a) (g a)) : Agree P (x >>= f) (y >>= g) := by
  intro m hm hp
  obtain ⟨heq, hends⟩ := h m hm hp
  rw [ends_bind]
  simp only [bind, EStateM.bind, heq]
  cases hx : x m with
  | error stop m' => exact ⟨rfl, by simpa only [Ends, hx] using hends⟩
  | ok a m' =>
    obtain ⟨hext, hm'⟩ := hends.ok hx
    obtain ⟨heq', hends'⟩ := hn a m' hm' (hR m a m' hm hp hx hm')
    refine ⟨heq', ?_⟩
    simp only [Ends, hx]
    exact hends'.mono (fun _ _ hl => ⟨hext.trans hl.1, hl.2⟩) fun _ _ hl => ⟨hext.trans hl.1, hl.2⟩

theorem Agree.bind (h : Agree P x y) (hn : ∀ a, Agree P (f a) (g a)) :
    Agree P (x >>= f) (y >>= g) := by
  refine h.bind_of (R := fun _ => P) ?_ hn
  intro m a m' hm hp hx _
  exact P.lasts ((h m hm hp).2.ok hx).1 hp

theorem agree_pure (a : α) : Agree P (pure a) (pure a) :=
  fun m hm _ => ⟨rfl, .refl m, hm⟩

theorem agree_throw (stop : Stop) : Agree P (throw stop : Eval α) (throw stop) :=
  fun m hm _ => ⟨rfl, .refl m, hm⟩

/-! ## Steps that leave frames and streams alone -/

theorem agree_of_frames {step : Eval α}
    (h : ∀ m, Ends step m (fun _ m' => m'.frames = m.frames ∧ m'.streams = m.streams)
      fun _ m' => m'.frames = m.frames ∧ m'.streams = m.streams) : Agree P step step := by
  intro m hm _
  have hleads (m' : Machine) (h' : m'.frames = m.frames ∧ m'.streams = m.streams) :
      m.Extends m' ∧ m'.Sound := by
    have hext := Machine.extends_of_frames h'.1
    exact ⟨hext, hm.of_streams hext h'.2⟩
  exact ⟨rfl, (h m).mono (fun _ => hleads) fun _ => hleads⟩

theorem Eval.Spares.agree (h : x.Spares) : Agree P x x :=
  agree_of_frames fun m =>
    (h m).mono (fun _ _ hl => ⟨hl.frames, hl.streams⟩) fun _ _ hl => ⟨hl.frames, hl.streams⟩

theorem agree_modifyContext (change : Context → Context) :
    Agree P (Eval.modifyContext change) (Eval.modifyContext change) :=
  agree_of_frames fun _ => ⟨rfl, rfl⟩

/-! ## Frames -/

theorem Machine.slotCount?_lt {m : Machine} {frame : FrameId} {count : Nat}
    (h : m.slotCount? frame = some count) : frame < m.frames.size := by
  obtain ⟨slots, hslots, -⟩ := Option.map_eq_some_iff.mp h
  exact (Array.getElem?_eq_some_iff.mp hslots).1

theorem agree_newFrame (values : List Value) :
    Agree P (Eval.newFrame values) (Eval.newFrame values) := by
  intro m hm _
  -- A new frame comes after all others, so it takes the place of none.
  have hext : m.Extends { m with frames := m.frames.push values.toArray } := by
    intro frame count hcount
    have hlt := Machine.slotCount?_lt hcount
    rw [Machine.slotCount?, Array.getElem?_push_lt hlt]
    rw [Machine.slotCount?, Array.getElem?_eq_getElem hlt] at hcount
    exact hcount
  exact ⟨rfl, hext, hm.of_streams hext rfl⟩

theorem slotCount?_newFrame {values : List Value} {m m' : Machine} {frame : FrameId}
    (h : Eval.newFrame values m = .ok frame m') : m'.slotCount? frame = some values.length := by
  cases h
  simp [Machine.slotCount?]

theorem agree_setLocal (frame : FrameId) (slot : Nat) (v : Value) :
    Agree P (Eval.setLocal frame slot v) (Eval.setLocal frame slot v) := by
  intro m hm _
  have hext : m.Extends { m with frames := m.frames.modify frame (·.setIfInBounds slot v) } := by
    intro other count hcount
    rw [Machine.slotCount?, Array.getElem?_modify]
    by_cases ho : frame = other
    · simpa [ho, Machine.slotCount?] using hcount
    · simpa [ho, Machine.slotCount?] using hcount
  exact ⟨rfl, hext, hm.of_streams hext rfl⟩

/-! ## Streams -/

theorem agree_newStream {s : Stream}
    (h : ∀ m, P.holds m → ∀ stage ∈ s.kind.stage?, m.FitsStage stage) :
    Agree P (Eval.newStream s) (Eval.newStream s) := by
  intro m hm hp
  have hext : m.Extends { m with streams := m.streams.push s } := Machine.extends_of_frames rfl
  refine ⟨rfl, hext, ?_⟩
  intro id found hfound stage hstage
  simp only [Array.getElem?_push] at hfound
  split at hfound
  · cases hfound
    exact (h m hp stage hstage).mono hext
  · exact (hm id found hfound stage hstage).mono hext

/-- A stream may be changed as long as it does not get another stage. -/
theorem agree_modifyStream (id : StreamId) {φ : Stream → Stream}
    (h : ∀ s, ∀ stage ∈ (φ s).kind.stage?, stage ∈ s.kind.stage?) :
    Agree P (Eval.modifyStream id φ) (Eval.modifyStream id φ) := by
  intro m hm _
  have hext : m.Extends { m with streams := m.streams.modify id φ } := Machine.extends_of_frames rfl
  refine ⟨rfl, hext, ?_⟩
  intro other found hfound stage hstage
  simp only [Array.getElem?_modify] at hfound
  split at hfound
  · obtain ⟨s, hs, rfl⟩ := Option.map_eq_some_iff.mp hfound
    exact (hm other s hs stage (h s stage hstage)).mono hext
  · exact (hm other found hfound stage hstage).mono hext

/-- The stages of a sound machine may run. -/
theorem fitsStream_of_stream? {m m' : Machine} {id : StreamId} {s : Option Stream} (hm : m.Sound)
    (h : Eval.stream? id m = .ok s m') : (Standing.fitsStream s).holds m' := by
  cases h
  intro found hfound stage hstage
  exact hm id found hfound stage hstage

theorem agree_streamOf (h : Host) (v : Value) :
    Agree P (Eval.streamOf h v) (Eval.streamOf h v) := by
  unfold Eval.streamOf
  split
  · exact agree_pure _
  · refine agree_newStream ?_
    intro m _ stage hstage
    cases hstage

theorem agree_takePeeked (id : StreamId) :
    Agree P (Eval.takePeeked id) (Eval.takePeeked id) := by
  unfold Eval.takePeeked
  refine (Eval.spares_stream? id).agree.bind fun s => ?_
  simp only
  split
  · refine (agree_modifyStream id ?_).bind fun _ => agree_pure _
    exact fun _ _ h => h
  · exact agree_pure _

theorem agree_countPulled (id : StreamId) :
    Agree P (Eval.countPulled id) (Eval.countPulled id) := by
  refine (Eval.spares_stream? id).agree.bind fun s => ?_
  refine (agree_modifyStream id ?_).bind fun _ => agree_pure _
  exact fun _ _ h => h

theorem agree_innerStream? (id : StreamId) :
    Agree P (Eval.innerStream? id) (Eval.innerStream? id) := by
  refine (Eval.spares_stream? id).agree.bind fun s => ?_
  split
  · exact agree_pure _
  · exact agree_pure _

theorem agree_setInner (id : StreamId) (inner : Option StreamId) :
    Agree P (Eval.setInner id inner) (Eval.setInner id inner) := by
  refine agree_modifyStream id ?_
  intro s stage hstage
  split at hstage
  case h_1 heq => simpa [heq, StreamKind.stage?] using hstage
  case h_2 => exact hstage

/-! ## Steps around others -/

theorem Agree.during (enter leave : Context → Context) (h : Agree P x y) :
    Agree P (Eval.during enter leave x) (Eval.during enter leave y) := by
  intro m hm hp
  -- The context takes no part in soundness, so it may be changed before and after.
  have henter : m.Extends { m with context := enter m.context } := Machine.extends_of_frames rfl
  obtain ⟨heq, hends⟩ := h _ (hm.of_streams henter rfl) (P.lasts henter hp)
  have hleave (m' : Machine)
      (hm' : Machine.Extends { m with context := enter m.context } m' ∧ m'.Sound) :
      m.Extends { m' with context := leave m'.context } ∧
        Machine.Sound { m' with context := leave m'.context } := by
    have hext : m'.Extends { m' with context := leave m'.context } :=
      Machine.extends_of_frames rfl
    exact ⟨(henter.trans hm'.1).trans hext, hm'.2.of_streams hext rfl⟩
  unfold Eval.during Ends
  simp only [heq]
  cases hx : x { m with context := enter m.context } with
  | ok a m' => exact ⟨trivial, hleave m' (hends.ok hx)⟩
  | error stop m' => exact ⟨trivial, hleave m' (hends.error hx)⟩

theorem Agree.located (span : Span) (h : Agree P x y) :
    Agree P (Eval.located span x) (Eval.located span y) := by
  intro m hm hp
  obtain ⟨heq, hends⟩ := h m hm hp
  unfold Eval.located Ends
  simp only [heq]
  cases hx : x m with
  | ok a m' => exact ⟨trivial, hends.ok hx⟩
  | error stop m' =>
    have hm' := hends.error hx
    cases stop with
    | error e => exact ⟨trivial, hm'⟩
    | exhausted => exact ⟨trivial, hm'⟩

end TagExpr
