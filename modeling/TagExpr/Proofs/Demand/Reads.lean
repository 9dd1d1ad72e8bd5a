import TagExpr.Proofs.Demand.Lines

/-!
# Reads of a line

What a read of a line does, step by step: which elements it takes from the source, which bodies it
runs for which elements, and where it stops. What happens inside of a body, of the source and of the
inner stream of a flat-remap is not looked into. A read of the stream on top comes to a result if
and only if these steps lead to it (`comes_next_iff`).
-/

namespace TagExpr

/-- The inner stream of a flat-remap. -/
def Machine.inner? (m : Machine) (id : StreamId) : Option StreamId :=
  match m.kind? id with
  | some (.flatRemap _ inner) => inner
  | _ => none

/-- What a stage passes on of an element for which its body has that value. A flat-remap passes on
what it makes of the value. -/
def Passage.yield (item result : Value) : Passage → Option Value
  | .remap => some result
  | .filter => if result.isTruthy then some item else none
  | .flatRemap => none

namespace Demand

variable {α : Type} {env : Environment} {quiet : Prop} {m m' : Machine}

/-! ## Runs and what they come to -/

/-- What a run comes to: a value or a reason to stop, and the machine that is left. -/
abbrev Outcome (α : Type) := EStateM.Result Stop Machine α

namespace Outcome

/-- The machine that is left. -/
def machine : Outcome α → Machine
  | .ok _ m | .error _ m => m

/-- The run has not used up its levels. -/
def Ended (r : Outcome α) : Prop := ∀ m, r ≠ .error .exhausted m

/-- The element that a read delivers. -/
def delivered : Outcome (Option Value) → Option Value
  | .ok found _ => found
  | .error _ _ => none

theorem ended_ok (a : α) (m : Machine) : Ended (.ok a m) := fun _ h => nomatch h

theorem Ended.ne {stop : Stop} (h : Ended (.error stop m : Outcome α)) : stop ≠ .exhausted :=
  fun same => h m (by rw [same])

end Outcome

/-- With some number of levels at hand the step comes to this. -/
def Comes (env : Environment) (step : Calls → Eval α) (m : Machine) (r : Outcome α) : Prop :=
  (∃ fuel, step (Calls.levels env fuel) m = r) ∧ r.Ended

/-- With more calls at hand the step does the same, if it does not fail for want of them. -/
def Steady (quiet : Prop) (env : Environment) (step : Calls → Eval α) (m : Machine) : Prop :=
  ∀ fuel fuel', fuel ≤ fuel' →
    FollowsAt quiet m (step (Calls.levels env fuel)) (step (Calls.levels env fuel'))

theorem FollowsAt.eq {x y : Eval α} (h : FollowsAt quiet m x y) {r : Outcome α} (ran : x m = r)
    (ended : r.Ended) : y m = r := by
  cases r with
  | ok a m' => exact (h.ok ran).1
  | error stop m' => exact (h.error ran).1 ended.ne

theorem FollowsAt.keeps {x y : Eval α} (h : FollowsAt quiet m x y) {r : Outcome α} (ran : x m = r) :
    m.Keeps quiet r.machine := by
  cases r with
  | ok a m' => exact (h.ok ran).2
  | error stop m' => exact (h.error ran).2

namespace Comes

variable {step : Calls → Eval α} {r r' : Outcome α}

theorem lasts (h : Comes env step m r) (steady : Steady quiet env step m) :
    ∃ enough, ∀ fuel, enough ≤ fuel → step (Calls.levels env fuel) m = r := by
  obtain ⟨⟨enough, ran⟩, ended⟩ := h
  exact ⟨enough, fun fuel le => (steady enough fuel le).eq ran ended⟩

theorem keeps (h : Comes env step m r) (steady : Steady quiet env step m) :
    m.Keeps quiet r.machine := by
  obtain ⟨⟨fuel, ran⟩, -⟩ := h
  exact (steady fuel fuel (Nat.le_refl fuel)).keeps ran

/-- A step comes to one thing only. -/
theorem unique (h : Comes env step m r) (h' : Comes env step m r')
    (steady : Steady quiet env step m) :
    r = r' := by
  obtain ⟨enough, ran⟩ := h.lasts steady
  obtain ⟨enough', ran'⟩ := h'.lasts steady
  rw [← ran _ (Nat.le_max_left enough enough'), ran' _ (Nat.le_max_right enough enough')]

end Comes

/-! ## Steps of a station -/

namespace Station

variable (calls : Calls) (h : Host) (s : Station)

/-- Runs the body for an element that has reached the station. A flat-remap begins with the elements
of its value. -/
def work (item : Value) : Eval Value := do
  let index ← Eval.countPulled s.id
  let result ← calls.runStage s.stage item index
  if s.passage = .flatRemap then
    let inner ← Eval.streamOf h result
    Eval.setInner s.id (some inner)
  return result

/-- Takes the next element from the stream before the station and, where nothing of it is passed
on, goes on as told. -/
def feed (again : Eval (Option Value)) : Eval (Option Value) := do
  match ← calls.next s.stage.input with
  | none => return none
  | some item =>
    let result ← s.work calls h item
    match s.passage.yield item result with
    | some v => return some v
    | none => again

/-- Makes the next element behind the station. -/
def pull (fuel : Nat) : Eval (Option Value) :=
  calls.pullKind h fuel s.id (s.passage.kind s.stage)

end Station

variable {c c' : Calls} {s : Station} {fuel fuel' : Nat}

namespace FollowsCalls

variable (hc : FollowsCalls quiet env c c')

include hc

theorem work (tame : quiet → s.stage.Quiet) (item : Value) :
    Follows quiet (s.work c env.host item) (s.work c' env.host item) := by
  refine (follows_countPulled s.id).bind fun index =>
    (hc.runStage tame item index).bind fun result => ?_
  split
  · exact (follows_streamOf env.host result).bind fun inner =>
      (follows_setInner s.id (some inner)).bind fun _ => follows_pure _
  · exact follows_pure _

end FollowsCalls

theorem steady_next (upholds : Upholds quiet env) (id : StreamId) (hm : quiet → m.Quiet) :
    Steady quiet env (fun calls => calls.next id) m :=
  fun _ _ le => (followsCalls_levels upholds le).next id m hm

theorem steady_work (upholds : Upholds quiet env) (tame : quiet → s.stage.Quiet) (item : Value)
    (hm : quiet → m.Quiet) : Steady quiet env (fun calls => s.work calls env.host item) m :=
  fun _ _ le => (followsCalls_levels upholds le).work tame item m hm

/-! ### One round of a station -/

theorem bind_of_ok {α β : Type} {x : Eval α} {f : α → Eval β} {a : α} (ran : x m = .ok a m') :
    (x >>= f) m = f a m' := by
  simp only [Bind.bind, EStateM.bind, ran]

theorem bind_of_error {α β : Type} {x : Eval α} {f : α → Eval β} {stop : Stop}
    (ran : x m = .error stop m') : (x >>= f) m = .error stop m' := by
  simp only [Bind.bind, EStateM.bind, ran]

theorem next_of_ahead {id : StreamId} {v : Value} (ahead : m.peeked? id = some v) :
    c.next id m = .ok (some v) (m.update id fun s => { s with peeked := none }) :=
  bind_of_ok (takePeeked_eq_some ahead)

theorem next_of_unread {id : StreamId} (unread : m.peeked? id = none) : c.next id m = c.pull id m :=
  bind_of_ok (takePeeked_eq_none unread)

/-- With a level more at hand the stream of a station makes its next element. -/
theorem pull_of_station (known : m.station? s.id = some (s.passage, s.stage)) :
    (Calls.levels env (fuel + 1)).pull s.id m = s.pull (Calls.levels env fuel) env.host fuel m := by
  obtain ⟨kind, found, known⟩ := Option.bind_eq_some_iff.1 known
  rw [pull_eq found, Station.pull]
  cases kind with
  | source _ => cases known
  | remap _ | filter _ | flatRemap _ _ =>
    obtain ⟨passage, stage⟩ := Prod.mk.inj (Option.some.inj known)
    rw [← passage, ← stage]
    rfl

theorem update_eq_self {id : StreamId} {φ : Stream → Stream}
    (h : ∀ s, m.streams[id]? = some s → φ s = s) : m.update id φ = m := by
  have same : (m.update id φ).streams = m.streams := by
    refine Array.ext_getElem? fun i => ?_
    by_cases hi : i = id
    · subst hi
      rw [Machine.getElem?_update_self]
      cases found : m.streams[i]? with
      | none => rfl
      | some s => exact congrArg some (h s found)
    · exact Machine.getElem?_update_ne hi
  show ({ m with streams := (m.update id φ).streams } : Machine) = m
  rw [same]

theorem pull_remap {id : StreamId} {stage : Stage} (again : Eval (Option Value)) :
    Station.pull c env.host ⟨id, .remap, stage⟩ fuel =
      Station.feed c env.host ⟨id, .remap, stage⟩ again := by
  show (do return (← c.stageNext id stage).map (·.2) : Eval (Option Value)) = _
  unfold Calls.stageNext Station.feed Station.work
  rw [bind_assoc]
  refine bind_congr fun found => ?_
  cases found with
  | none => rfl
  | some item => simp [Passage.yield]

theorem pull_filter {id : StreamId} {stage : Stage} :
    Station.pull c env.host ⟨id, .filter, stage⟩ (fuel + 1) =
      Station.feed c env.host ⟨id, .filter, stage⟩
        (Station.pull c env.host ⟨id, .filter, stage⟩ fuel) := by
  show c.pullFiltered id stage (fuel + 1) = _
  unfold Calls.pullFiltered Calls.stageNext Station.feed Station.work
  rw [bind_assoc]
  refine bind_congr fun found => ?_
  cases found with
  | none => rfl
  | some item =>
    simp only [bind_assoc, pure_bind]
    refine bind_congr fun index => bind_congr fun verdict => ?_
    by_cases truthy : verdict.isTruthy = true
    · simp [Passage.yield, truthy]
    · simp [Passage.yield, truthy]
      rfl

theorem feed_flatRemap {id : StreamId} {stage : Stage} (again : Eval (Option Value)) :
    Station.feed c env.host ⟨id, .flatRemap, stage⟩ again = c.refill env.host id stage again := by
  unfold Calls.refill Calls.stageNext Station.feed Station.work
  rw [bind_assoc]
  refine bind_congr fun found => ?_
  cases found with
  | none => rfl
  | some item => simp [Passage.yield]

theorem kind?_of_flatRemap {id : StreamId} {stage : Stage}
    (known : m.station? id = some (.flatRemap, stage)) :
    m.kind? id = some (.flatRemap stage (m.inner? id)) := by
  obtain ⟨kind, found, known⟩ := Option.bind_eq_some_iff.1 known
  rw [Machine.inner?, found]
  cases kind with
  | flatRemap _ inner =>
    cases known
    rfl
  | source _ | remap _ | filter _ => cases known

theorem inner?_of_ne {id : StreamId} {passage : Passage} {stage : Stage}
    (known : m.station? id = some (passage, stage)) (ne : passage ≠ .flatRemap) :
    m.inner? id = none := by
  obtain ⟨kind, found, known⟩ := Option.bind_eq_some_iff.1 known
  rw [Machine.inner?, found]
  cases kind with
  | flatRemap _ _ =>
    cases known
    exact absurd rfl ne
  | source _ | remap _ | filter _ => rfl

/-- A station that is no flat-remap, or has no inner stream, takes from the stream before it. -/
theorem pull_of_inner?_none (known : m.station? s.id = some (s.passage, s.stage))
    (empty : m.inner? s.id = none) :
    s.pull c env.host (fuel + 1) m = s.feed c env.host (s.pull c env.host fuel) m := by
  obtain ⟨id, passage, stage⟩ := s
  cases passage with
  | remap => rw [pull_remap]
  | filter => rw [pull_filter]
  | flatRemap =>
    have kind := kind?_of_flatRemap known
    have looked : Eval.innerStream? id m = .ok (m.inner? id) m := innerStream?_eq kind
    rw [empty] at kind looked
    have idle : Eval.setInner id none m = .ok () m := by
      refine congrArg (EStateM.Result.ok ()) (update_eq_self fun s found => ?_)
      obtain ⟨s', found', same⟩ := Option.map_eq_some_iff.1 kind
      obtain rfl : s' = s := Option.some.inj (found'.symm.trans found)
      obtain ⟨kind, peeked, pulled⟩ := s'
      cases same
      rfl
    rw [feed_flatRemap]
    refine (bind_of_ok looked).trans ?_
    simp only [pure_bind]
    exact bind_of_ok idle

/-- A flat-remap reads its inner stream first. -/
theorem pull_of_inner?_some {inner : StreamId} (known : m.station? s.id = some (s.passage, s.stage))
    (filled : m.inner? s.id = some inner) :
    s.pull c env.host (fuel + 1) m = (do
      match ← c.next inner with
      | some v => return some v
      | none =>
        Eval.setInner s.id none
        s.feed c env.host (s.pull c env.host fuel)) m := by
  obtain ⟨id, passage, stage⟩ := s
  cases passage with
  | remap | filter => exact absurd (filled.symm.trans (inner?_of_ne known nofun)) nofun
  | flatRemap =>
    have looked : Eval.innerStream? id m = .ok (m.inner? id) m :=
      innerStream?_eq (kind?_of_flatRemap known)
    rw [filled] at looked
    refine (bind_of_ok looked).trans ?_
    refine congrFun (bind_congr fun found => ?_) m
    cases found with
    | some v => rfl
    | none =>
      rw [feed_flatRemap]
      rfl

/-! ## Reads -/

/-- What happens in a read. Stations are counted from the source on. -/
inductive Event where
  /-- The source has delivered an element. -/
  | taken (v : Value)
  /-- The body of a station has run for an element; it has come to a value or has failed. -/
  | ran (station : Nat) (item : Value) (result : Option Value)
  /-- The inner stream of a flat-remap has delivered an element. -/
  | inner (station : Nat) (v : Value)
  /-- An element is delivered that had been read ahead from a station. -/
  | ahead (station : Nat) (v : Value)

/-- Where a read stands. -/
inductive Phase where
  /-- The stream at a position is asked for an element. -/
  | next (position : Nat)
  /-- A station makes an element, whatever has been read ahead. -/
  | pull (station : Nat)
  /-- A station takes an element from the stream before it. -/
  | feed (station : Nat)

/-- A read that begins in this phase on this machine: what happens in it and what it comes to. -/
inductive Reads (env : Environment) (L : Line) :
    Phase → Machine → List Event → Outcome (Option Value) → Prop
  /-- The source is read once. -/
  | source {m r} : Comes env (fun calls => calls.next L.base) m r →
      Reads env L (.next 0) m (r.delivered.toList.map .taken) r
  /-- What was read ahead is delivered and nothing is run. -/
  | ahead {k s m v} : L.stations[k]? = some s → m.peeked? s.id = some v →
      Reads env L (.next (k + 1)) m [.ahead k v]
        (.ok (some v) (m.update s.id fun s => { s with peeked := none }))
  | pull {k s m t r} : L.stations[k]? = some s → m.peeked? s.id = none →
      Reads env L (.pull k) m t r → Reads env L (.next (k + 1)) m t r
  /-- The inner stream of a flat-remap is read once; if it does not end the read is over. -/
  | inner {k s m i r} : L.stations[k]? = some s → m.inner? s.id = some i →
      Comes env (fun calls => calls.next i) m r → (∀ m', r ≠ .ok none m') →
      Reads env L (.pull k) m (r.delivered.toList.map (.inner k)) r
  /-- An inner stream that has ended is put away. -/
  | innerEnds {k s m i m' t r} : L.stations[k]? = some s → m.inner? s.id = some i →
      Comes env (fun calls => calls.next i) m (.ok none m') →
      Reads env L (.feed k) (m'.update s.id (Stream.withInner none)) t r →
        Reads env L (.pull k) m t r
  | noInner {k s m t r} : L.stations[k]? = some s → m.inner? s.id = none →
      Reads env L (.feed k) m t r → Reads env L (.pull k) m t r
  /-- Where the stream before a station ends or fails, the body does not run. -/
  | ends {k s m t r} : L.stations[k]? = some s → Reads env L (.next k) m t r → r.delivered = none →
      Reads env L (.feed k) m t r
  /-- The body fails for the element that was taken. -/
  | fails {k s m t item m' stop m''} : L.stations[k]? = some s →
      Reads env L (.next k) m t (.ok (some item) m') →
      Comes env (fun calls => s.work calls env.host item) m' (.error stop m'') →
      Reads env L (.feed k) m (t ++ [.ran k item none]) (.error stop m'')
  /-- The body runs for the element that was taken, and something is passed on. -/
  | yields {k s m t item m' result m'' v} : L.stations[k]? = some s →
      Reads env L (.next k) m t (.ok (some item) m') →
      Comes env (fun calls => s.work calls env.host item) m' (.ok result m'') →
      s.passage.yield item result = some v →
      Reads env L (.feed k) m (t ++ [.ran k item (some result)]) (.ok (some v) m'')
  /-- The body runs for the element that was taken, and nothing is passed on yet. -/
  | again {k s m t item m' result m'' t' r} : L.stations[k]? = some s →
      Reads env L (.next k) m t (.ok (some item) m') →
      Comes env (fun calls => s.work calls env.host item) m' (.ok result m'') →
      s.passage.yield item result = none → Reads env L (.pull k) m'' t' r →
      Reads env L (.feed k) m (t ++ .ran k item (some result) :: t') r

variable {L : Line} {k : Nat} {t : List Event} {r : Outcome (Option Value)} {p : Phase}

theorem Reads.ended (h : Reads env L p m t r) : r.Ended := by
  induction h with
  | source comes => exact comes.2
  | ahead => exact Outcome.ended_ok _ _
  | pull _ _ _ ih => exact ih
  | inner _ _ comes _ => exact comes.2
  | innerEnds _ _ _ _ ih => exact ih
  | noInner _ _ _ ih => exact ih
  | ends _ _ _ ih => exact ih
  | fails _ _ comes _ => exact fun m same => comes.2.ne (by cases same; rfl)
  | yields => exact Outcome.ended_ok _ _
  | again _ _ _ _ _ _ ih => exact ih

theorem Line.MountedIn.tame (mounted : L.MountedIn m) (known : L.stations[k]? = some s)
    (hm : quiet → m.Quiet) : quiet → s.stage.Quiet :=
  fun hq => hm hq s.id s.passage s.stage (mounted.station known)

theorem keeps_withInner (id : StreamId) (inner : Option StreamId) (hm : quiet → m.Quiet) :
    m.Keeps quiet (m.update id (Stream.withInner inner)) :=
  (follows_setInner id inner m hm).keeps (r := .ok () _) rfl

/-- A read keeps the streams, however it ends. -/
theorem Reads.keeps (upholds : Upholds quiet env) (h : Reads env L p m t r)
    (mounted : L.MountedIn m)
    (hm : quiet → m.Quiet) : m.Keeps quiet r.machine := by
  induction h with
  | source comes => exact comes.keeps (steady_next upholds _ hm)
  | ahead => exact Machine.keeps_update hm (fun _ _ => rfl) fun _ _ _ => rfl
  | pull _ _ _ ih => exact ih mounted hm
  | inner _ _ comes _ => exact comes.keeps (steady_next upholds _ hm)
  | @innerEnds _ s _ _ _ _ _ _ _ comes _ ih =>
    have kept := comes.keeps (steady_next upholds _ hm)
    have kept' := kept.trans (keeps_withInner s.id none kept.remains)
    exact kept'.trans (ih (mounted.mono kept') kept'.remains)
  | noInner _ _ _ ih => exact ih mounted hm
  | ends _ _ _ ih => exact ih mounted hm
  | fails known _ comes ih | yields known _ comes _ ih =>
    have kept := ih mounted hm
    have tame := (mounted.mono kept).tame known kept.remains
    exact kept.trans (comes.keeps (steady_work upholds tame _ kept.remains))
  | again known _ comes _ _ ih ih' =>
    have kept := ih mounted hm
    have tame := (mounted.mono kept).tame known kept.remains
    have kept' := kept.trans (comes.keeps (steady_work upholds tame _ kept.remains))
    exact kept'.trans (ih' (mounted.mono kept') kept'.remains)

/-! ## Evaluation reads like this -/

section Evaluation

variable (upholds : Upholds False env)

include upholds

/-- If a read at the position before the station does so, a station reads as it should, as long as
the rest does. -/
theorem reads_of_feed
    (below : ∀ m r, L.MountedIn m → (Calls.levels env fuel).next (L.stream k) m = r →
      Outcome.Ended r → ∃ t, Reads env L (.next k) m t r)
    (known : L.stations[k]? = some s) {again : Eval (Option Value)}
    (more : ∀ item result, s.passage.yield item result = none → ∀ m r, L.MountedIn m →
      again m = r → Outcome.Ended r → ∃ t, Reads env L (.pull k) m t r)
    (mounted : L.MountedIn m) (ran : s.feed (Calls.levels env fuel) env.host again m = r)
    (ended : r.Ended) : ∃ t, Reads env L (.feed k) m t r := by
  have input : s.stage.input = L.stream k := L.linked k s known
  have loud {m : Machine} : False → m.Quiet := False.elim
  unfold Station.feed at ran
  rw [input] at ran
  cases hnext : (Calls.levels env fuel).next (L.stream k) m with
  | error stop m₁ =>
    rw [bind_of_error hnext] at ran
    obtain ⟨t, reads⟩ := below m _ mounted (hnext.trans ran) ended
    exact ⟨t, .ends known reads (ran ▸ rfl)⟩
  | ok found m₁ =>
    rw [bind_of_ok hnext] at ran
    obtain ⟨t, reads⟩ := below m _ mounted hnext (Outcome.ended_ok _ _)
    cases found with
    | none =>
      subst ran
      exact ⟨t, .ends known reads rfl⟩
    | some item =>
      have mounted₁ := mounted.mono (reads.keeps upholds mounted loud)
      cases hwork : s.work (Calls.levels env fuel) env.host item m₁ with
      | error stop m₂ =>
        have same : r = .error stop m₂ := ran.symm.trans (bind_of_error hwork)
        subst same
        have fails : Outcome.Ended (.error stop m₂ : Outcome Value) :=
          fun m same => ended.ne (by cases same; rfl)
        exact ⟨_, .fails known reads ⟨⟨fuel, hwork⟩, fails⟩⟩
      | ok result m₂ =>
        have comes : Comes env (fun calls => s.work calls env.host item) m₁ (.ok result m₂) :=
          ⟨⟨fuel, hwork⟩, Outcome.ended_ok _ _⟩
        have mounted₂ := mounted₁.mono (comes.keeps
          (steady_work upholds (mounted₁.tame known loud) item loud))
        replace ran := (bind_of_ok hwork).symm.trans ran
        cases passes : s.passage.yield item result with
        | some v =>
          rw [passes] at ran
          subst ran
          exact ⟨_, .yields known reads comes passes⟩
        | none =>
          rw [passes] at ran
          obtain ⟨t', reads'⟩ := more item result passes m₂ r mounted₂ ran ended
          exact ⟨_, .again known reads comes passes reads'⟩

/-- What a station delivers with so many levels at hand and some rounds, it reads. -/
theorem reads_of_pull
    (below : ∀ m r, L.MountedIn m → (Calls.levels env fuel).next (L.stream k) m = r →
      Outcome.Ended r → ∃ t, Reads env L (.next k) m t r)
    (known : L.stations[k]? = some s) (rounds : Nat) (mounted : L.MountedIn m)
    (ran : s.pull (Calls.levels env fuel) env.host rounds m = r) (ended : r.Ended) :
    ∃ t, Reads env L (.pull k) m t r := by
  induction rounds generalizing m r with
  | zero =>
    obtain ⟨id, passage, stage⟩ := s
    cases passage with
    | remap =>
      rw [pull_remap (throw .exhausted)] at ran
      have never : ∀ item result, Passage.yield item result .remap = none → ∀ m r, L.MountedIn m →
          (throw .exhausted : Eval (Option Value)) m = r → Outcome.Ended r →
          ∃ t, Reads env L (.pull k) m t r := fun _ _ passes => nomatch passes
      obtain ⟨t, reads⟩ := reads_of_feed upholds below known never mounted ran ended
      exact ⟨t, .noInner known (inner?_of_ne (mounted.station known) nofun) reads⟩
    | filter | flatRemap => exact absurd ran.symm (ended m)
  | succ rounds ih =>
    have loud {m : Machine} : False → m.Quiet := False.elim
    have more : ∀ item result, s.passage.yield item result = none → ∀ m r, L.MountedIn m →
        s.pull (Calls.levels env fuel) env.host rounds m = r → Outcome.Ended r →
        ∃ t, Reads env L (.pull k) m t r :=
      fun _ _ _ m r mounted ran ended => ih mounted ran ended
    cases filled : m.inner? s.id with
    | none =>
      rw [pull_of_inner?_none (mounted.station known) filled] at ran
      obtain ⟨t, reads⟩ := reads_of_feed upholds below known more mounted ran ended
      exact ⟨t, .noInner known filled reads⟩
    | some inner =>
      rw [pull_of_inner?_some (mounted.station known) filled] at ran
      cases hinner : (Calls.levels env fuel).next inner m with
      | error stop m₁ =>
        rw [bind_of_error hinner] at ran
        exact ⟨_, .inner known filled ⟨⟨fuel, hinner.trans ran⟩, ended⟩ fun _ same => by
          rw [← ran] at same
          cases same⟩
      | ok found m₁ =>
        rw [bind_of_ok hinner] at ran
        have comes : Comes env (fun calls => calls.next inner) m (.ok found m₁) :=
          ⟨⟨fuel, hinner⟩, Outcome.ended_ok _ _⟩
        cases found with
        | some v =>
          subst ran
          exact ⟨_, .inner known filled comes fun _ same => nomatch same⟩
        | none =>
          have kept := comes.keeps (steady_next upholds inner loud)
          have kept' := kept.trans (keeps_withInner s.id none kept.remains)
          obtain ⟨t, reads⟩ := reads_of_feed upholds below known more (mounted.mono kept') ran ended
          exact ⟨t, .innerEnds known filled comes reads⟩

/-- What a read comes to with so many levels at hand, it comes to like this. -/
theorem reads_of_next (position : k ≤ L.stations.length) (mounted : L.MountedIn m)
    (ran : (Calls.levels env fuel).next (L.stream k) m = r) (ended : r.Ended) :
    ∃ t, Reads env L (.next k) m t r := by
  induction fuel using Nat.strongRecOn generalizing k m r with
  | _ fuel ih =>
  cases k with
  | zero => exact ⟨_, .source ⟨⟨fuel, ran⟩, ended⟩⟩
  | succ k =>
    have known : L.stations[k]? = some L.stations[k] := List.getElem?_eq_getElem position
    rw [Line.stream_succ known] at ran
    cases ahead : m.peeked? L.stations[k].id with
    | some v =>
      rw [next_of_ahead ahead] at ran
      subst ran
      exact ⟨_, .ahead known ahead⟩
    | none =>
      rw [next_of_unread ahead] at ran
      cases fuel with
      | zero => exact absurd ran.symm (ended m)
      | succ fuel =>
        rw [pull_of_station (mounted.station known)] at ran
        have below : ∀ m r, L.MountedIn m → (Calls.levels env fuel).next (L.stream k) m = r →
            Outcome.Ended r → ∃ t, Reads env L (.next k) m t r :=
          fun m r mounted ran ended =>
            ih fuel (Nat.lt_succ_self fuel) (Nat.le_of_lt position) mounted ran ended
        obtain ⟨t, reads⟩ := reads_of_pull upholds below known fuel mounted ran ended
        exact ⟨t, .pull known ahead reads⟩

/-- What a phase comes to, if `rounds` are left for the station. -/
def Phase.run (L : Line) (calls : Calls) (h : Host) (rounds : Nat) : Phase → Eval (Option Value)
  | .next k => calls.next (L.stream k)
  | .pull k => (L.stations[k]?.map fun s => s.pull calls h rounds).getD (pure none)
  | .feed k => (L.stations[k]?.map fun s => s.feed calls h (s.pull calls h rounds)).getD (pure none)

omit upholds in
theorem Phase.run_pull (known : L.stations[k]? = some s) (rounds : Nat) :
    Phase.run L c env.host rounds (.pull k) = s.pull c env.host rounds := by
  rw [Phase.run, known]
  rfl

omit upholds in
theorem Phase.run_feed (known : L.stations[k]? = some s) (rounds : Nat) :
    Phase.run L c env.host rounds (.feed k) = s.feed c env.host (s.pull c env.host rounds) := by
  rw [Phase.run, known]
  rfl

omit upholds in
/-- A station that takes an element goes on with it. -/
theorem feed_of_next (known : L.stations[k]? = some s) {item : Value} {again : Eval (Option Value)}
    (ran : c.next (L.stream k) m = .ok (some item) m') :
    s.feed c env.host again m = (do
      match s.passage.yield item (← s.work c env.host item) with
      | some v => return some v
      | none => again) m' := by
  unfold Station.feed
  rw [L.linked k s known]
  exact bind_of_ok ran

/-- A read is what evaluation does as soon as there are levels and rounds enough. -/
theorem Reads.lasts (h : Reads env L p m t r) (mounted : L.MountedIn m) :
    ∃ enough, ∀ fuel rounds, enough ≤ fuel → enough ≤ rounds →
      p.run L (Calls.levels env fuel) env.host rounds m = r := by
  have loud {m : Machine} : False → m.Quiet := False.elim
  induction h with
  | source comes =>
    obtain ⟨enough, ran⟩ := comes.lasts (steady_next upholds _ loud)
    exact ⟨enough, fun fuel _ le _ => ran fuel le⟩
  | ahead known found =>
    refine ⟨0, fun fuel _ _ _ => ?_⟩
    rw [Phase.run, Line.stream_succ known, next_of_ahead found]
  | pull known unread _ ih =>
    obtain ⟨enough, ran⟩ := ih mounted
    refine ⟨enough + 1, fun fuel _ le _ => ?_⟩
    obtain ⟨fuel, rfl⟩ : ∃ less, fuel = less + 1 := ⟨fuel - 1, by omega⟩
    have ran := ran fuel fuel (by omega) (by omega)
    rw [Phase.run_pull known] at ran
    rw [Phase.run, Line.stream_succ known, next_of_unread unread,
      pull_of_station (mounted.station known)]
    exact ran
  | @inner k s m i r known filled comes goes =>
    obtain ⟨enough, ran⟩ := comes.lasts (steady_next upholds i loud)
    refine ⟨enough + 1, fun fuel rounds le le' => ?_⟩
    obtain ⟨rounds, rfl⟩ : ∃ less, rounds = less + 1 := ⟨rounds - 1, by omega⟩
    rw [Phase.run_pull known]
    refine (pull_of_inner?_some (mounted.station known) filled).trans ?_
    have ran := ran fuel (by omega)
    cases r with
    | error stop m' => exact bind_of_error ran
    | ok found m' =>
      cases found with
      | none => exact absurd rfl (goes m')
      | some v => exact bind_of_ok ran
  | @innerEnds k s m i m' t r known filled comes _ ih =>
    obtain ⟨enough, ran⟩ := comes.lasts (steady_next upholds i loud)
    have kept := comes.keeps (steady_next upholds i loud)
    have kept' := kept.trans (keeps_withInner s.id none kept.remains)
    obtain ⟨enough', ran'⟩ := ih (mounted.mono kept')
    refine ⟨max enough enough' + 1, fun fuel rounds le le' => ?_⟩
    obtain ⟨rounds, rfl⟩ : ∃ less, rounds = less + 1 := ⟨rounds - 1, by omega⟩
    have ran' := ran' fuel rounds (by omega) (by omega)
    rw [Phase.run_feed known] at ran'
    rw [Phase.run_pull known]
    refine (pull_of_inner?_some (mounted.station known) filled).trans ?_
    exact (bind_of_ok (ran fuel (by omega))).trans ran'
  | noInner known empty _ ih =>
    obtain ⟨enough, ran⟩ := ih mounted
    refine ⟨enough + 1, fun fuel rounds le le' => ?_⟩
    obtain ⟨rounds, rfl⟩ : ∃ less, rounds = less + 1 := ⟨rounds - 1, by omega⟩
    have ran := ran fuel rounds (by omega) (by omega)
    rw [Phase.run_feed known] at ran
    rw [Phase.run_pull known]
    exact (pull_of_inner?_none (mounted.station known) empty).trans ran
  | @ends k s m t r known _ empty ih =>
    obtain ⟨enough, ran⟩ := ih mounted
    refine ⟨enough, fun fuel rounds le le' => ?_⟩
    have ran := ran fuel rounds le le'
    rw [Phase.run] at ran
    rw [Phase.run_feed known, Station.feed, L.linked k s known]
    cases r with
    | error stop m' => exact bind_of_error ran
    | ok found m' =>
      cases empty
      exact bind_of_ok ran
  | @fails k s m t item m' stop m'' known reads comes ih =>
    obtain ⟨enough, ran⟩ := ih mounted
    have tame := (mounted.mono (reads.keeps upholds mounted loud)).tame known loud
    obtain ⟨enough', ran'⟩ := comes.lasts (steady_work upholds tame item loud)
    refine ⟨max enough enough', fun fuel rounds le le' => ?_⟩
    rw [Phase.run_feed known, feed_of_next known (ran fuel rounds (by omega) (by omega))]
    exact bind_of_error (ran' fuel (by omega))
  | @yields k s m t item m' result m'' v known reads comes passes ih =>
    obtain ⟨enough, ran⟩ := ih mounted
    have tame := (mounted.mono (reads.keeps upholds mounted loud)).tame known loud
    obtain ⟨enough', ran'⟩ := comes.lasts (steady_work upholds tame item loud)
    refine ⟨max enough enough', fun fuel rounds le le' => ?_⟩
    rw [Phase.run_feed known, feed_of_next known (ran fuel rounds (by omega) (by omega)),
      bind_of_ok (ran' fuel (by omega)), passes]
    rfl
  | @again k s m t item m' result m'' t' r known reads comes passes _ ih ih' =>
    obtain ⟨enough, ran⟩ := ih mounted
    have mounted' := mounted.mono (reads.keeps upholds mounted loud)
    have steady := steady_work (m := m') upholds (mounted'.tame known loud) item loud
    obtain ⟨enough', ran'⟩ := comes.lasts steady
    obtain ⟨enough'', ran''⟩ := ih' (mounted'.mono (comes.keeps steady))
    refine ⟨max enough (max enough' enough''), fun fuel rounds le le' => ?_⟩
    rw [Phase.run_feed known, feed_of_next known (ran fuel rounds (by omega) (by omega)),
      bind_of_ok (ran' fuel (by omega)), passes]
    rw [← Phase.run_pull known]
    exact ran'' fuel rounds (by omega) (by omega)

/-- **Reading a line.** A read at a position of a mounted line comes to a result if and only if the
steps of a read lead to it. -/
theorem comes_next_iff (position : k ≤ L.stations.length) (mounted : L.MountedIn m) :
    Comes env (fun calls => calls.next (L.stream k)) m r ↔ ∃ t, Reads env L (.next k) m t r := by
  constructor
  · rintro ⟨⟨fuel, ran⟩, ended⟩
    exact reads_of_next upholds position mounted ran ended
  · rintro ⟨t, reads⟩
    obtain ⟨enough, ran⟩ := reads.lasts upholds mounted
    exact ⟨⟨enough, ran enough enough (Nat.le_refl _) (Nat.le_refl _)⟩, reads.ended⟩

/-- For the element that has reached a station its body comes to one thing only. -/
theorem work_unique {s s' : Station} {t t' : List Event} {item item' : Value} {m' : Machine}
    {r r' : Outcome Value} (known : L.stations[k]? = some s) (known' : L.stations[k]? = some s')
    (reached : t = t' ∧ (.ok (some item) m : Outcome (Option Value)) = .ok (some item') m')
    (comes : Comes env (fun calls => s.work calls env.host item) m r)
    (comes' : Comes env (fun calls => s'.work calls env.host item') m' r') :
    t = t' ∧ s = s' ∧ item = item' ∧ r = r' := by
  obtain ⟨rfl, same⟩ := reached
  cases known.symm.trans known'
  cases same
  exact ⟨rfl, rfl, rfl, comes.unique comes' (steady_work upholds False.elim _ False.elim)⟩

/-- There is one read only, which comes to one result. -/
theorem Reads.unique {t' : List Event} {r' : Outcome (Option Value)} (h : Reads env L p m t r)
    (h' : Reads env L p m t' r') : t = t' ∧ r = r' := by
  have loud {m : Machine} : False → m.Quiet := False.elim
  -- Which step comes next is settled by what has been read ahead, by the inner stream and by what
  -- the step before it has come to.
  induction h generalizing t' r' with
  | source comes =>
    cases h' with
    | source comes' =>
      cases comes.unique comes' (steady_next upholds _ loud)
      exact ⟨rfl, rfl⟩
  | ahead known found =>
    cases h' with
    | ahead known' found' =>
      cases known.symm.trans known'
      cases found.symm.trans found'
      exact ⟨rfl, rfl⟩
    | pull known' unread _ =>
      cases known.symm.trans known'
      cases found.symm.trans unread
  | pull known unread _ ih =>
    cases h' with
    | ahead known' found =>
      cases known.symm.trans known'
      cases found.symm.trans unread
    | pull _ _ reads => exact ih reads
  | inner known filled comes goes =>
    cases h' with
    | inner known' filled' comes' _ =>
      cases known.symm.trans known'
      cases filled.symm.trans filled'
      cases comes.unique comes' (steady_next upholds _ loud)
      exact ⟨rfl, rfl⟩
    | innerEnds known' filled' comes' _ =>
      cases known.symm.trans known'
      cases filled.symm.trans filled'
      exact absurd (comes.unique comes' (steady_next upholds _ loud)) (goes _)
    | noInner known' empty _ =>
      cases known.symm.trans known'
      cases filled.symm.trans empty
  | innerEnds known filled comes _ ih =>
    cases h' with
    | inner known' filled' comes' goes =>
      cases known.symm.trans known'
      cases filled.symm.trans filled'
      exact absurd (comes'.unique comes (steady_next upholds _ loud)) (goes _)
    | innerEnds known' filled' comes' reads =>
      cases known.symm.trans known'
      cases filled.symm.trans filled'
      cases comes.unique comes' (steady_next upholds _ loud)
      exact ih reads
    | noInner known' empty _ =>
      cases known.symm.trans known'
      cases filled.symm.trans empty
  | noInner known empty _ ih =>
    cases h' with
    | inner known' filled _ _ | innerEnds known' filled _ _ =>
      cases known.symm.trans known'
      cases filled.symm.trans empty
    | noInner _ _ reads => exact ih reads
  | ends known _ empty ih =>
    cases h' with
    | ends _ reads _ => exact ih reads
    | fails _ reads _ | yields _ reads _ _ | again _ reads _ _ _ =>
      obtain ⟨-, rfl⟩ := ih reads
      cases empty
  | fails known _ comes ih =>
    cases h' with
    | ends _ reads empty =>
      obtain ⟨-, rfl⟩ := ih reads
      cases empty
    | fails known' reads comes' =>
      obtain ⟨rfl, rfl, rfl, same⟩ := work_unique upholds known known' (ih reads) comes comes'
      cases same
      exact ⟨rfl, rfl⟩
    | yields known' reads comes' _ | again known' reads comes' _ _ =>
      cases (work_unique upholds known known' (ih reads) comes comes').2.2.2
  | yields known _ comes passes ih =>
    cases h' with
    | ends _ reads empty =>
      obtain ⟨-, rfl⟩ := ih reads
      cases empty
    | fails known' reads comes' =>
      cases (work_unique upholds known known' (ih reads) comes comes').2.2.2
    | yields known' reads comes' passes' =>
      obtain ⟨rfl, rfl, rfl, same⟩ := work_unique upholds known known' (ih reads) comes comes'
      cases same
      cases passes.symm.trans passes'
      exact ⟨rfl, rfl⟩
    | again known' reads comes' passes' _ =>
      obtain ⟨-, rfl, rfl, same⟩ := work_unique upholds known known' (ih reads) comes comes'
      cases same
      cases passes.symm.trans passes'
  | again known _ comes passes _ ih ih' =>
    cases h' with
    | ends _ reads empty =>
      obtain ⟨-, rfl⟩ := ih reads
      cases empty
    | fails known' reads comes' =>
      cases (work_unique upholds known known' (ih reads) comes comes').2.2.2
    | yields known' reads comes' passes' =>
      obtain ⟨-, rfl, rfl, same⟩ := work_unique upholds known known' (ih reads) comes comes'
      cases same
      cases passes.symm.trans passes'
    | again known' reads comes' _ reads' =>
      obtain ⟨rfl, rfl, rfl, same⟩ := work_unique upholds known known' (ih reads) comes comes'
      cases same
      obtain ⟨rfl, rfl⟩ := ih' reads'
      exact ⟨rfl, rfl⟩

end Evaluation

end Demand

end TagExpr
