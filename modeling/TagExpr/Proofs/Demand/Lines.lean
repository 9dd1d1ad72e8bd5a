import TagExpr.Proofs.Demand.Keeping

/-!
# Lines of stages

A chain of streaming operators becomes a line of streams, each of which reads from the one before
it. Making the line evaluates the source and then only adds streams to the machine.
-/

namespace TagExpr

/-- The stream that the value of a tree gives. -/
def Calls.inputOf (calls : Calls) (h : Host) (e : Expression) (frame : FrameId)
    (n : Node) : Eval StreamId := do
  Eval.streamOf h (← calls.run e frame n)

namespace Demand

/-- A stage of a chain of streaming operators. -/
structure Part where
  passage : Passage
  /-- The slot of a `name ->` clause. -/
  binding : Option Nat
  body : Node

/-- The chain of the stages over a source. -/
def Part.chain (source : Node) (parts : List Part) : Node :=
  parts.foldl (fun n p => .stream p.passage.op n p.binding p.body) source

/-- A stage in the machine, with the number of its stream. -/
structure Station where
  id : StreamId
  passage : Passage
  stage : Stage

namespace Station

/-- The stream of the station before it is read. -/
def fresh (s : Station) : Stream := { kind := s.passage.kind s.stage }

/-- The stream numbers from the source on, by position: the source is at position zero, and behind
the station `k` is the position `k + 1`. -/
def streamAt (base : StreamId) (stations : List Station) : Nat → StreamId
  | 0 => base
  | k + 1 => (stations[k]?.map (·.id)).getD base

theorem streamAt_cons {s : Station} {stations : List Station} {base : StreamId} {k : Nat}
    (le : k ≤ stations.length) :
    streamAt base (s :: stations) (k + 1) = streamAt s.id stations k := by
  cases k with
  | zero => rfl
  | succ k =>
    have there : k < stations.length := le
    rw [streamAt, streamAt, List.getElem?_cons_succ, List.getElem?_eq_getElem there]
    rfl

end Station

/-- Stations, each of which reads from the one before it, the first one from the source. -/
structure Line where
  base : StreamId
  stations : List Station
  linked : ∀ k s, stations[k]? = some s → s.stage.input = Station.streamAt base stations k

namespace Line

/-- The stream at a position of the line. -/
def stream (L : Line) (position : Nat) : StreamId := Station.streamAt L.base L.stations position

/-- The stream behind the last station. -/
def top (L : Line) : StreamId := L.stream L.stations.length

/-- The streams of the stations are in the machine. -/
def MountedIn (L : Line) (m : Machine) : Prop :=
  ∀ s ∈ L.stations, m.station? s.id = some (s.passage, s.stage)

/-- No element of a station has been read ahead. -/
def UnreadIn (L : Line) (m : Machine) : Prop := ∀ s ∈ L.stations, m.peeked? s.id = none

variable {L : Line} {quiet : Prop} {m m' : Machine} {k : Nat} {s : Station}

theorem stream_succ (known : L.stations[k]? = some s) : L.stream (k + 1) = s.id := by
  rw [stream, Station.streamAt, known]
  rfl

theorem MountedIn.mono (h : L.MountedIn m) (kept : m.Keeps quiet m') : L.MountedIn m' :=
  fun s mem => kept.stations (h s mem)

theorem UnreadIn.mono (h : L.UnreadIn m) (kept : m.Keeps quiet m') (hq : quiet) : L.UnreadIn m' :=
  fun s mem => kept.unread hq (h s mem)

theorem MountedIn.station (h : L.MountedIn m) (known : L.stations[k]? = some s) :
    m.station? s.id = some (s.passage, s.stage) := h s (List.mem_of_getElem? known)

end Line

/-! ## Making a line -/

variable {env : Environment} {fuel : Nat} {e : Expression} {frame : FrameId} {source : Node}
  {m : Machine} {base : StreamId} {parts : List Part}

/-- The stations of the stages over a stream, if `next` is the number of the next stream. -/
def stationsOver (e : Expression) (frame : FrameId) : StreamId → Nat → List Part → List Station
  | _, _, [] => []
  | input, next, p :: ps =>
    ⟨next, p.passage, { input, body := p.body, unit := e, frame, binding := p.binding }⟩ ::
      stationsOver e frame next (next + 1) ps

theorem linked_stationsOver (next k : Nat) (s : Station)
    (known : (stationsOver e frame base next parts)[k]? = some s) :
    s.stage.input = Station.streamAt base (stationsOver e frame base next parts) k := by
  induction parts generalizing base next k with
  | nil => simp [stationsOver] at known
  | cons p ps ih =>
    rw [stationsOver] at known ⊢
    cases k with
    | zero =>
      cases known
      rfl
    | succ k =>
      rw [List.getElem?_cons_succ] at known
      have there := (List.getElem?_eq_some_iff.1 known).1
      rw [ih (next + 1) k known, Station.streamAt_cons (Nat.le_of_lt there)]

/-- The line that the stages of a chain become over a stream of the machine. -/
def lineOver (e : Expression) (frame : FrameId) (base : StreamId) (parts : List Part)
    (m : Machine) : Line where
  base := base
  stations := stationsOver e frame base m.streams.size parts
  linked := linked_stationsOver m.streams.size

/-- The machine with the streams of the stations added. -/
def Line.mount (L : Line) (m : Machine) : Machine :=
  { m with streams := m.streams ++ (L.stations.map Station.fresh).toArray }

/-- Makes the streams of the stages, one after the other. -/
def raise (e : Expression) (frame : FrameId) : List Part → StreamId → Eval StreamId
  | [], base => pure base
  | p :: ps, base => do
    let stage : Stage := { input := base, body := p.body, unit := e, frame, binding := p.binding }
    raise e frame ps (← Eval.newStream { kind := p.passage.kind stage })

theorem raise_eq (e : Expression) (frame : FrameId) (parts : List Part) (base : StreamId)
    (m : Machine) :
    raise e frame parts base m =
      .ok (lineOver e frame base parts m).top ((lineOver e frame base parts m).mount m) := by
  suffices h : raise e frame parts base m =
      let stations := stationsOver e frame base m.streams.size parts
      .ok (Station.streamAt base stations stations.length)
        { m with streams := m.streams ++ (stations.map Station.fresh).toArray } from h
  induction parts generalizing base m with
  | nil =>
    show EStateM.Result.ok base m = .ok base { m with streams := m.streams ++ #[] }
    rw [Array.append_empty]
  | cons p ps ih =>
    let stage : Stage := { input := base, body := p.body, unit := e, frame, binding := p.binding }
    let pushed : Machine := { m with streams := m.streams.push { kind := p.passage.kind stage } }
    show raise e frame ps m.streams.size pushed = _
    rw [ih, Array.size_push]
    simp only [stationsOver, List.length_cons, Station.streamAt_cons (Nat.le_refl _)]
    simp [pushed, Station.fresh, stage]

theorem id_stationsOver {next k : Nat} {s : Station}
    (known : (stationsOver e frame base next parts)[k]? = some s) : s.id = next + k := by
  induction parts generalizing base next k with
  | nil => simp [stationsOver] at known
  | cons p ps ih =>
    cases k with
    | zero =>
      cases known
      rfl
    | succ k => exact (ih known).trans (Nat.succ_add_eq_add_succ next k)

theorem getElem?_mount {s : Station} (mem : s ∈ (lineOver e frame base parts m).stations) :
    ((lineOver e frame base parts m).mount m).streams[s.id]? = some s.fresh := by
  obtain ⟨k, known⟩ := List.mem_iff_getElem?.1 mem
  show (m.streams ++ (List.map Station.fresh _).toArray)[s.id]? = _
  rw [id_stationsOver known, Array.getElem?_append_right (Nat.le_add_right ..),
    Nat.add_sub_cancel_left, List.getElem?_toArray, List.getElem?_map, known]
  rfl

/-- The streams of a line that has just been made have their stages. -/
theorem mountedIn_mount (e : Expression) (frame : FrameId) (base : StreamId) (parts : List Part)
    (m : Machine) :
    (lineOver e frame base parts m).MountedIn ((lineOver e frame base parts m).mount m) := by
  intro s mem
  rw [Machine.station?, Machine.kind?, getElem?_mount mem]
  cases passage : s.passage <;> simp [Station.fresh, Passage.kind, StreamKind.station?, passage]

/-- Nothing has been read ahead from a line that has just been made. -/
theorem unreadIn_mount (e : Expression) (frame : FrameId) (base : StreamId) (parts : List Part)
    (m : Machine) :
    (lineOver e frame base parts m).UnreadIn ((lineOver e frame base parts m).mount m) := by
  intro s mem
  rw [Machine.peeked?, getElem?_mount mem]
  rfl

/-- Making a line keeps the streams there are; if the bodies of its stages are quiet, all are. -/
theorem follows_raise {quiet : Prop} (tame : quiet → ∀ p ∈ parts, p.body.Quiet e)
    (base : StreamId) :
    Follows quiet (raise e frame parts base) (raise e frame parts base) := by
  induction parts generalizing base with
  | nil => exact follows_pure base
  | cons p ps ih =>
    refine (follows_newStream fun hq passage stage known => ?_).bind fun id => ?_
    · have quietly : p.body.Quiet e := tame hq p List.mem_cons_self
      cases passage' : p.passage <;> rw [passage'] at known <;> cases known <;> exact quietly
    · exact ih (fun hq q mem => tame hq q (List.mem_cons_of_mem p mem)) id

/-- What a chain gives is the stream on top of the line over what its source gives. -/
theorem inputOf_chain (source : Node) (parts : List Part) :
    (Calls.levels env (fuel + 1)).inputOf env.host e frame (Part.chain source parts) =
      (Calls.levels env (fuel + 1)).inputOf env.host e frame source >>= raise e frame parts := by
  induction parts generalizing source with
  | nil => exact (bind_pure _).symm
  | cons p ps ih =>
    rw [Part.chain, List.foldl_cons, ← Part.chain, ih]
    unfold Calls.inputOf
    simp only [run_stream, raise, bind_assoc]
    refine bind_congr fun v => bind_congr fun base => ?_
    cases p.passage <;> rfl

/-- **Evaluating a chain evaluates its source and then adds the streams of the stages.** -/
theorem run_chain (source : Node) (ne : parts ≠ []) :
    (Calls.levels env (fuel + 1)).run e frame (Part.chain source parts) = (do
      let base ← (Calls.levels env (fuel + 1)).inputOf env.host e frame source
      return .stream (← raise e frame parts base)) := by
  obtain ⟨init, p, rfl⟩ := List.eq_nil_or_concat parts |>.resolve_left ne
  rw [← bind_assoc, ← inputOf_chain, List.concat_eq_append, Part.chain, List.foldl_append]
  unfold Calls.inputOf
  simp only [List.foldl_cons, List.foldl_nil, run_stream, bind_assoc]
  refine bind_congr fun v => bind_congr fun base => ?_
  cases p.passage <;> rfl

end Demand

end TagExpr
