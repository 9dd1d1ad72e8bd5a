import TagExpr.Proofs.Eval.Agree
import TagExpr.Proofs.Iteration.Confined
import TagExpr.Proofs.Stream.Stages

/-!
# Rounds of a stage

In each round a stage takes an element of the stream before it and runs its body for it. The eager
operators do all rounds in a row; a stage that makes a stream does some whenever that stream is
read. Either way the lease holds before and after each round (`Lease.Serves`) and while the body
runs (`Lease.During`), and the elements are taken one after the other (`Lease.Rounds`).
-/

namespace TagExpr

/-! ## The same as a confined step -/

/-- If the first step has a value, the second has the same, and `Q` holds of it. -/
def Matches {α : Type} (m : Machine) (x y : Eval α) (Q : α → Machine → Prop) : Prop :=
  ∀ a m', x m = .ok a m' → y m = .ok a m' ∧ Q a m'

section Matches

variable {α β : Type} {m : Machine} {x y : Eval α} {f g : α → Eval β} {Q Q' : α → Machine → Prop}
  {R : β → Machine → Prop}

theorem Matches.mono (h : Matches m x y Q) (hQ : ∀ a m', Q a m' → Q' a m') : Matches m x y Q' :=
  fun a m' ran => (h a m' ran).imp_right (hQ a m')

/-- The first step also does what it does. -/
theorem Matches.and_self (h : Matches m x y Q) :
    Matches m x y fun a m' => x m = .ok a m' ∧ Q a m' :=
  fun a m' ran => (h a m' ran).imp_right fun holds => ⟨ran, holds⟩

theorem Matches.bind (h : Matches m x y Q)
    (hf : ∀ a m', y m = .ok a m' → Q a m' → Matches m' (f a) (g a) R) :
    Matches m (x >>= f) (y >>= g) R := by
  intro b m₂ ran
  obtain ⟨a, m₁, first, second⟩ := exists_of_bind ran
  obtain ⟨same, holds⟩ := h a m₁ first
  obtain ⟨same', holds'⟩ := hf a m₁ same holds b m₂ second
  refine ⟨?_, holds'⟩
  simp only [Bind.bind, EStateM.bind, same, same']

theorem matches_pure {a : α} (h : Q a m) : Matches m (pure a) (pure a) Q := by
  rintro _ _ ⟨⟩
  exact ⟨rfl, h⟩

theorem matches_throw (stop : Stop) : Matches m (throw stop) y Q := nofun

theorem matches_of_ok {a : α} {m' : Machine} (hx : x m = .ok a m') :
    Matches m x x fun b m₁ => b = a ∧ m₁ = m' := by
  intro b m₁ ran
  refine ⟨ran, ?_⟩
  rw [hx] at ran
  cases ran
  exact ⟨rfl, rfl⟩

/-- A change of the context for the time of a step. -/
theorem Matches.during {enter leave : Context → Context}
    (h : Matches { m with context := enter m.context } x y Q)
    (hQ : ∀ a m', Q a m' → Q' a { m' with context := leave m'.context }) :
    Matches m (Eval.during enter leave x) (Eval.during enter leave y) Q' := by
  intro a m' ran
  unfold Eval.during at ran ⊢
  cases inside : x { m with context := enter m.context } with
  | error stop m₁ =>
    rw [inside] at ran
    cases ran
  | ok b m₁ =>
    rw [inside] at ran
    cases ran
    obtain ⟨same, holds⟩ := h a m₁ inside
    rw [same]
    exact ⟨rfl, hQ a m₁ holds⟩

end Matches

/-- The section in which the body of a stage runs for an element. -/
def Stage.sectionFor (stage : Stage) (x : Value) (i : Nat) : Section :=
  { value := x, index := some i, following := .stream stage.input }

namespace Lease

variable {L : Lease} {stage : Stage} {xs vs ws : List Value} {x : Value} {i fuel : Nat}
  {r r' : Reach} {m m' m₁ : Machine} {own : Option Section} {id : StreamId} {s : Stream}

theorem Minds.matches {α : Type} {x y : Eval α} {R : Reach → α → Prop}
    (h : L.Minds own xs r R x y) (holds : L.Holds own xs r m) :
    Matches m x y fun a m' => L.Keeps m m' ∧ ∃ r', r ≤ r' ∧ L.Holds own xs r' m' ∧ R r' a :=
  h m holds

/-! ## Between the rounds and during one -/

/-- The stage has no `name ->` clause and has taken so many of the elements `xs` of the stream
before it. Whatever its body gets at is apart from that stream. -/
structure Serves (L : Lease) (stage : Stage) (xs : List Value) (i : Nat) (r : Reach) (m : Machine) :
    Prop where
  input : stage.input = L.input
  unnamed : stage.binding = none
  frame : stage.frame ∈ r.frames
  elements : ∀ x ∈ xs, x.Within r.streams
  holds : L.Holds none (xs.drop i) r m

/-- The body is running for the element number `i`. -/
structure During (L : Lease) (stage : Stage) (xs : List Value) (i : Nat) (x : Value) (r : Reach)
    (m : Machine) : Prop where
  input : stage.input = L.input
  frame : stage.frame ∈ r.frames
  element : xs[i]? = some x
  holds : L.Holds (some (stage.sectionFor x i)) (xs.drop (i + 1)) r m

theorem Serves.after (h : L.Serves stage xs i r m) {j : Nat} (le : r ≤ r')
    (holds : L.Holds none (xs.drop j) r' m') : L.Serves stage xs j r' m' :=
  ⟨h.input, h.unnamed, le.2 h.frame, fun x hx => (h.elements x hx).mono le.1, holds⟩

/-- A stream that waits for the stage may change. -/
theorem Holds.update_waiting (h : L.Holds own xs r m) (waits : L.waiting id = true)
    (φ : Stream → Stream) : L.Holds own xs r (m.update id φ) := by
  have other {j : StreamId} (free : L.waiting j = false) :
      (m.update id φ).streams[j]? = m.streams[j]? := by
    refine Machine.getElem?_update_ne ?_
    rintro rfl
    exact Bool.false_ne_true (free.symm.trans waits)
  have size : (m.update id φ).streams.size = m.streams.size := Machine.size_update
  obtain ⟨F, supply, apart⟩ := h.supply
  exact { h with
    supply := ⟨F, supply.stable fun j hj => other (apart j hj).2, apart⟩
    made := fun j hj => ⟨(h.made j hj).1.trans_eq size.symm, (h.made j hj).2⟩
    waits := fun j hj => (h.waits j hj).trans_eq size.symm
    streams := fun j hj s found => h.streams j hj s ((other (h.made j hj).2).symm.trans found) }

/-- The stage takes the next element. -/
theorem Holds.next (h : L.Holds own xs r m) :
    Matches m ((Calls.confined L fuel).next L.input) ((Calls.levels L.env fuel).next L.input)
      fun found m' => found = xs.head? ∧ L.Keeps m m' ∧ L.Holds own xs.tail r m' := by
  intro found m' ran
  obtain ⟨F, supply, apart⟩ := h.supply
  cases ahead : m.peeked? L.input with
  | some v =>
    have taken (c : Calls) : c.next L.input m =
        .ok (some v) (m.update L.input fun s => { s with peeked := none }) := by
      unfold Calls.next
      simp only [Bind.bind, EStateM.bind, takePeeked_eq_some ahead]
      rfl
    rw [taken] at ran ⊢
    cases ran
    obtain ⟨head, supply'⟩ := supply.takePeeked ahead
    have moves := (L.seen m).moves_update h.calm supply.mem fun s => { s with peeked := none }
    exact ⟨rfl, head, h.moves apart moves (.refl m F) supply'⟩
  | none =>
    have pulled (c : Calls) : c.next L.input m = c.pull L.input m := by
      unfold Calls.next
      simp only [Bind.bind, EStateM.bind, takePeeked_eq_none ahead]
    rw [pulled] at ran
    cases fuel with
    | zero => cases ran
    | succ fuel =>
      rw [Calls.confined_pull_input] at ran
      obtain ⟨place, ran⟩ := Eval.guarded_eq_ok ran
      obtain ⟨enough, place⟩ := Bool.and_eq_true_iff.1 place
      have plain : (Calls.levels L.env (fuel + 1)).next L.input m = .ok found m' :=
        (pulled _).trans ran
      obtain ⟨head, moves, F', renews, supply'⟩ :=
        (supply.next (mem_settings place) h.calm (of_decide_eq_true enough)).ok plain
      exact ⟨plain, head, h.moves apart moves renews supply'⟩

theorem Serves.next (h : L.Serves stage xs i r m) :
    Matches m ((Calls.confined L fuel).next stage.input)
      ((Calls.levels L.env fuel).next stage.input)
      fun found m' => found = xs[i]? ∧ L.Keeps m m' ∧ L.Serves stage xs (i + 1) r m' := by
  rw [h.input]
  refine h.holds.next.mono ?_
  rintro found m' ⟨rfl, keeps, holds⟩
  rw [List.head?_drop]
  rw [List.tail_drop] at holds
  exact ⟨rfl, keeps, h.after le_rfl holds⟩

/-- The body begins in the section of its element. -/
theorem Serves.begins (h : L.Serves stage xs (i + 1) r m) (element : xs[i]? = some x) :
    L.During stage xs i x r
      { m with context := m.context.pushSection (stage.sectionFor x i) } where
  input := h.input
  frame := h.frame
  element := element
  holds := by
    have sees := h.holds.sees
    refine h.holds.context (Sees.push ⟨sees.values, fun s hs id hid => ?_, sees.templates⟩ ?_ ?_)
    · rcases sees.following s hs id hid with inside | waits | ⟨-, none⟩
      · exact .inl inside
      · exact .inr (.inl waits)
      · cases none
    · exact h.elements x (List.mem_of_getElem? element)
    · rintro id ⟨⟩
      exact .inr (.inr ⟨h.input, rfl⟩)

/-- **Whatever tree runs during the body, it is still for the same element afterwards.** -/
theorem During.run (honest : L.env.host.Honest) (h : L.During stage xs i x r m) (e : Expression)
    {frame : FrameId} (hf : frame ∈ r.frames) (n : Node) :
    Matches m ((Calls.confined L fuel).run e frame n) ((Calls.levels L.env fuel).run e frame n)
      fun v m' => L.Keeps m m' ∧ ∃ r', r ≤ r' ∧ L.During stage xs i x r' m' ∧
        v.Within r'.streams := by
  intro v m' ran
  obtain ⟨same, keeps, r', le, holds, within⟩ :=
    (mindsCalls_confined honest fuel).run e n hf m h.holds v m' ran
  exact ⟨same, keeps, r', le, ⟨h.input, le.2 h.frame, h.element, holds⟩, within⟩

theorem Serves.runStage (honest : L.env.host.Honest) (h : L.Serves stage xs (i + 1) r m)
    (element : xs[i]? = some x) :
    Matches m ((Calls.confined L fuel).runStage stage x i)
      ((Calls.levels L.env fuel).runStage stage x i)
      fun v m' => (Calls.confined L fuel).runStage stage x i m = .ok v m' ∧ L.Keeps m m' ∧
        ∃ r', r ≤ r' ∧ L.Serves stage xs (i + 1) r' m' ∧ v.Within r'.streams := by
  refine Matches.and_self ?_
  have pushed (c : Calls) : c.runStage stage x i = Eval.during
      (·.pushSection (stage.sectionFor x i)) (·.dropSection)
      (c.run stage.unit stage.frame stage.body) := by
    unfold Calls.runStage
    rw [h.unnamed]
    rfl
  rw [pushed, pushed]
  have begins := h.begins element
  refine (begins.run honest stage.unit begins.frame stage.body).during ?_
  rintro v m₁ ⟨keeps, r', le, during, within⟩
  have sections : m₁.context.sections.toList =
      stage.sectionFor x i :: m.context.sections.toList := congrArg Stack.toList keeps.sections
  show L.Keeps m { m₁ with context := m₁.context.dropSection } ∧ ∃ r', r ≤ r' ∧
    L.Serves stage xs (i + 1) r' { m₁ with context := m₁.context.dropSection } ∧ _
  rw [Lapse.dropSection_of_toList sections]
  -- The sections are those of before, so none of them is the iteration's own.
  have before := h.holds.sees.mono le
  exact ⟨⟨rfl, keeps.waiting⟩, r', le, h.after le
    (during.holds.context ⟨before.values, before.following, during.holds.sees.templates⟩), within⟩

/-! ## Rounds -/

/-- What a stage does between two rounds: it looks for another element and there is none, or as a
flat-remap it reads its inner stream, makes the next one and puts it in its place. -/
inductive Between (L : Lease) (fuel : Nat) (m m' : Machine) : Prop
  | read {id : StreamId} {found : Option Value} :
    (Calls.levels L.env fuel).next id m = .ok found m' → Between L fuel m m'
  | made {v : Value} {id : StreamId} :
    Eval.streamOf L.env.host v m = .ok id m' → Between L fuel m m'
  | put {id : StreamId} {inner : Option StreamId} :
    Eval.setInner id inner m = .ok ⟨⟩ m' → Between L fuel m m'

/-- Rounds of a stage from one machine to another: its body runs for the element number `i` of `xs`
and those after it, one after the other, and has the values `vs`. All that a body does keeps to the
lease, and between the rounds no element is taken. -/
inductive Rounds (L : Lease) (stage : Stage) (fuel : Nat) (xs : List Value) :
    Nat → Machine → List Value → Machine → Prop
  | none (i : Nat) (m : Machine) : Rounds L stage fuel xs i m [] m
  | pause {i : Nat} {m m₁ m' : Machine} {vs : List Value} {r r₁ : Reach} :
    L.Serves stage xs i r m → L.Between fuel m m₁ → L.Serves stage xs i r₁ m₁ →
    Rounds L stage fuel xs i m₁ vs m' → Rounds L stage fuel xs i m vs m'
  | round {i : Nat} {m m₁ m₂ m₃ m' : Machine} {x v : Value} {vs : List Value} {r : Reach}
    (taken : (Calls.levels L.env fuel).next stage.input m = .ok (some x) m₁)
    (counted : m₂ = m₁ ∨ ∃ id, L.waiting id = true ∧
      m₂ = m₁.update id fun s => { s with pulled := s.pulled + 1 })
    (begins : L.During stage xs i x r
      { m₂ with context := m₂.context.pushSection (stage.sectionFor x i) })
    (confined : (Calls.confined L fuel).runStage stage x i m₂ = .ok v m₃)
    (ran : (Calls.levels L.env fuel).runStage stage x i m₂ = .ok v m₃)
    (later : Rounds L stage fuel xs (i + 1) m₃ vs m') :
    Rounds L stage fuel xs i m (v :: vs) m'

/-- Nothing is taken. -/
theorem Serves.idle (h : L.Serves stage xs i r m) (between : L.Between fuel m m')
    (h' : L.Serves stage xs i r' m') : L.Rounds stage fuel xs i m [] m' :=
  .pause h between h' (.none i m')

theorem Rounds.append (h : L.Rounds stage fuel xs i m vs m₁)
    (later : L.Rounds stage fuel xs (i + vs.length) m₁ ws m') :
    L.Rounds stage fuel xs i m (vs ++ ws) m' := by
  induction h with
  | none => exact later
  | pause serves between serves' _ ih => exact .pause serves between serves' (ih later)
  | @round i _ _ _ _ _ _ _ vs _ taken counted begins confined ran _ ih =>
    refine .round taken counted begins confined ran (ih ?_)
    rw [List.length_cons, ← Nat.add_assoc] at later
    rwa [Nat.add_right_comm]

/-- Where there is no element any more, none is taken. -/
theorem Serves.ended (h : L.Serves stage xs (i + 1) r m) (none : xs[i]? = none) :
    L.Serves stage xs i r m := by
  have beyond := List.getElem?_eq_none_iff.1 none
  refine h.after le_rfl ?_
  rw [List.drop_eq_nil_of_le beyond, ← List.drop_eq_nil_of_le (beyond.trans (Nat.le_succ i))]
  exact h.holds

/-- The value of the body for the last element. -/
theorem Serves.reduce (honest : L.env.host.Honest) (h : L.Serves stage xs i r m)
    (within : i ≤ xs.length) (rounds : Nat) (last : Value) :
    Matches m ((Calls.confined L fuel).reduceStage stage rounds i last)
      ((Calls.levels L.env fuel).reduceStage stage rounds i last)
      fun v m' => ∃ vs, L.Rounds stage fuel xs i m vs m' ∧ i + vs.length = xs.length ∧
        v = vs.getLastD last := by
  induction rounds generalizing i r m last with
  | zero => exact matches_throw _
  | succ rounds ih =>
    unfold Calls.reduceStage
    refine h.next.bind fun found m₁ taken => ?_
    rintro ⟨rfl, keeps, serves⟩
    cases element : xs[i]? with
    | none =>
      exact matches_pure ⟨[], h.idle (.read taken) (serves.ended element), Nat.le_antisymm within
        (List.getElem?_eq_none_iff.1 element), rfl⟩
    | some x =>
      rw [element] at taken
      refine (serves.runStage honest element).bind fun v m₂ ran => ?_
      rintro ⟨confined, -, r', le, serves', -⟩
      have more : i + 1 ≤ xs.length := (List.getElem?_eq_some_iff.1 element).1
      refine (ih serves' more v).mono ?_
      rintro w m' ⟨vs, later, all, rfl⟩
      refine ⟨v :: vs, .round taken (.inl rfl) (serves.begins element) confined ran later, ?_, ?_⟩
      · rw [List.length_cons]
        omega
      · rw [List.getLastD_cons]

theorem forall_mem_dropLast_cons {α : Type} {p : α → Prop} {a : α} {as : List α} (ha : p a)
    (has : ∀ b ∈ as.dropLast, p b) : ∀ b ∈ (a :: as).dropLast, p b := by
  cases as with
  | nil => exact List.forall_mem_nil _
  | cons a' as => exact List.forall_mem_cons.2 ⟨ha, has⟩

/-- The first value of the body that is not null. No element is taken after it. -/
theorem Serves.first (honest : L.env.host.Honest) (h : L.Serves stage xs i r m) (rounds : Nat) :
    Matches m ((Calls.confined L fuel).firstOfStage stage rounds i)
      ((Calls.levels L.env fuel).firstOfStage stage rounds i)
      fun v m' => ∃ vs, L.Rounds stage fuel xs i m vs m' ∧ v = vs.getLastD .null ∧
        (∀ w ∈ vs.dropLast, w.isNull = true) ∧ (v.isNull = true → xs.length ≤ i + vs.length) := by
  induction rounds generalizing i r m with
  | zero => exact matches_throw _
  | succ rounds ih =>
    unfold Calls.firstOfStage
    refine h.next.bind fun found m₁ taken => ?_
    rintro ⟨rfl, keeps, serves⟩
    cases element : xs[i]? with
    | none =>
      exact matches_pure ⟨[], h.idle (.read taken) (serves.ended element), rfl,
        List.forall_mem_nil _, fun _ => List.getElem?_eq_none_iff.1 element⟩
    | some x =>
      rw [element] at taken
      refine (serves.runStage honest element).bind fun v m₂ ran => ?_
      rintro ⟨confined, -, r', le, serves', -⟩
      have round {vs : List Value} {m' : Machine}
          (later : L.Rounds stage fuel xs (i + 1) m₂ vs m') :
          L.Rounds stage fuel xs i m (v :: vs) m' :=
        .round taken (.inl rfl) (serves.begins element) confined ran later
      by_cases null : v.isNull = true
      · obtain rfl : v = .null := by cases v <;> first | rfl | cases null
        rw [if_pos null, if_pos null]
        refine (ih serves').mono ?_
        rintro w m' ⟨vs, later, rfl, nulls, all⟩
        refine ⟨.null :: vs, round later, List.getLastD_cons.symm,
          forall_mem_dropLast_cons rfl nulls, fun isNull => ?_⟩
        have := all isNull
        rw [List.length_cons]
        omega
      · rw [if_neg null, if_neg null]
        exact matches_pure ⟨[v], round (.none (i + 1) m₂), rfl, List.forall_mem_nil _,
          fun isNull => absurd isNull null⟩

/-! ## Streams behind a stage -/

/-- The stream behind the stage, between two reads: its stage has taken so many elements. -/
structure Behind (L : Lease) (stage : Stage) (id : StreamId) (i : Nat) (r : Reach) (s : Stream)
    (m : Machine) : Prop where
  waits : L.waiting id = true
  stored : m.streams[id]? = some s
  reads : s.kind.stage? = some stage
  inner : ∀ j, s.kind = .flatRemap stage (some j) → j ∈ r.streams
  pulled : s.pulled = i

/-- What reading the stream behind the stage comes to: some rounds, of which the stream keeps
count. -/
def Pulled (L : Lease) (stage : Stage) (fuel : Nat) (id : StreamId) (xs : List Value) (i : Nat)
    (m : Machine) (vs : List Value) (r' : Reach) (m' : Machine) : Prop :=
  L.Rounds stage fuel xs i m vs m' ∧ L.Serves stage xs (i + vs.length) r' m' ∧
    ∃ s', L.Behind stage id (i + vs.length) r' s' m'

/-- What a read of the stream behind the stage delivers, the body having these values for the first
of the elements that were left. -/
def Delivers (left vs : List Value) (found : Option Value) : StreamKind → Prop
  | .source _ => True
  | .remap _ => found = vs.head? ∧ vs.length = min 1 left.length
  | .filter _ =>
    found = ((left.zip vs).find? fun p => p.2.isTruthy).map (·.1) ∧
      (∀ v ∈ vs.dropLast, v.isTruthy = false) ∧ (found = none → left.length ≤ vs.length)
  | .flatRemap _ _ => found = none → left.length ≤ vs.length

/-- The next element with the value of the body for it. -/
theorem Serves.stageNext (honest : L.env.host.Honest) (h : L.Serves stage xs i r m)
    (behind : L.Behind stage id i r s m) :
    Matches m ((Calls.confined L fuel).stageNext id stage)
      ((Calls.levels L.env fuel).stageNext id stage)
      fun found m' => ∃ vs r', r ≤ r' ∧ L.Rounds stage fuel xs i m vs m' ∧
        L.Serves stage xs (i + vs.length) r' m' ∧
        m'.streams[id]? = some { s with pulled := i + vs.length } ∧
        (found = none ∧ vs = [] ∧ xs.length ≤ i ∨
          ∃ x v, xs[i]? = some x ∧ vs = [v] ∧ found = some (x, v) ∧ v.Within r'.streams) := by
  unfold Calls.stageNext
  refine h.next.bind fun found m₁ taken => ?_
  rintro ⟨rfl, keeps, serves⟩
  have stored : m₁.streams[id]? = some s := (keeps.waiting id behind.waits).trans behind.stored
  cases element : xs[i]? with
  | none =>
    have same : { s with pulled := i } = s := by rw [← behind.pulled]
    exact matches_pure ⟨[], r, le_rfl, h.idle (.read taken) (serves.ended element),
      serves.ended element, same ▸ stored, .inl ⟨rfl, rfl, List.getElem?_eq_none_iff.1 element⟩⟩
  | some x =>
    rw [element] at taken
    let counted := m₁.update id fun s => { s with pulled := s.pulled + 1 }
    have count : Eval.countPulled id m₁ = .ok i counted := behind.pulled ▸ countPulled_eq stored
    have serves₂ : L.Serves stage xs (i + 1) r counted :=
      serves.after le_rfl (serves.holds.update_waiting behind.waits _)
    have stored₂ : counted.streams[id]? = some { s with pulled := i + 1 } := by
      rw [Machine.getElem?_update_self, stored, ← behind.pulled]
      rfl
    refine (matches_of_ok count).bind fun index m₂ _ => ?_
    rintro ⟨rfl, rfl⟩
    refine (serves₂.runStage honest element).bind fun v m₃ ran => ?_
    rintro ⟨confined, keeps₃, r', le, serves₃, within⟩
    refine matches_pure ⟨[v], r', le, ?_, serves₃, ?_, .inr ⟨x, v, rfl, rfl, rfl, within⟩⟩
    · exact .round taken (.inr ⟨id, behind.waits, rfl⟩) (serves₂.begins element) confined ran
        (.none (index + 1) m₃)
    · exact (keeps₃.waiting id behind.waits).trans stored₂

/-- An element is given if the body is truthy for it, and none is taken after it. -/
theorem Serves.pullFiltered (honest : L.env.host.Honest) (h : L.Serves stage xs i r m)
    (behind : L.Behind stage id i r s m) (rounds : Nat) :
    Matches m ((Calls.confined L fuel).pullFiltered id stage rounds)
      ((Calls.levels L.env fuel).pullFiltered id stage rounds)
      fun found m' => ∃ vs r', r ≤ r' ∧ L.Pulled stage fuel id xs i m vs r' m' ∧
        Delivers (xs.drop i) vs found (.filter stage) := by
  unfold Delivers
  induction rounds generalizing i r m s with
  | zero => exact matches_throw _
  | succ rounds ih =>
    unfold Calls.pullFiltered
    refine (h.stageNext honest behind).bind fun found m₁ _ => ?_
    rintro ⟨vs, r₁, le, taken, serves, stored, ⟨rfl, rfl, ended⟩ | ⟨x, v, element, rfl, rfl, -⟩⟩
    · have behind₁ : L.Behind stage id i r₁ _ m₁ :=
        ⟨behind.waits, stored, behind.reads, fun j hj => le.1 (behind.inner j hj), rfl⟩
      exact matches_pure ⟨[], r₁, le, ⟨taken, serves, _, behind₁⟩, by rw [List.zip_nil_right]; rfl,
        List.forall_mem_nil _, fun _ => by rw [List.drop_eq_nil_of_le ended]⟩
    · have behind₁ : L.Behind stage id (i + 1) r₁ { s with pulled := i + 1 } m₁ :=
        ⟨behind.waits, stored, behind.reads, fun j hj => le.1 (behind.inner j hj), rfl⟩
      have first : xs.drop i = x :: xs.drop (i + 1) := drop_of_getElem? element
      by_cases truthy : v.isTruthy = true
      · simp only [truthy, if_true]
        refine matches_pure ⟨[v], r₁, le, ⟨taken, serves, _, behind₁⟩, ?_, List.forall_mem_nil _,
          fun none => absurd none (Option.some_ne_none x)⟩
        simp [first, truthy]
      · simp only [truthy, Bool.false_eq_true, if_false]
        refine (ih serves behind₁).mono ?_
        rintro found m' ⟨ws, r', le', ⟨later, serves', s', behind'⟩, rfl, falsy, all⟩
        have count : i + (v :: ws).length = i + 1 + ws.length := by
          rw [List.length_cons]
          omega
        refine ⟨v :: ws, r', le.trans le', ⟨taken.append later, ?_⟩, ?_, ?_, ?_⟩
        · rw [count]
          exact ⟨serves', s', behind'⟩
        · simp [first, truthy]
        · exact forall_mem_dropLast_cons (Bool.eq_false_iff.2 truthy) falsy
        · intro none
          rw [first]
          exact Nat.succ_le_succ (all none)

/-- The value of the body for the next element. -/
theorem Serves.pullRemapped (honest : L.env.host.Honest) (h : L.Serves stage xs i r m)
    (behind : L.Behind stage id i r s m) :
    Matches m (do return (← (Calls.confined L fuel).stageNext id stage).map (·.2))
      (do return (← (Calls.levels L.env fuel).stageNext id stage).map (·.2))
      fun found m' => ∃ vs r', r ≤ r' ∧ L.Pulled stage fuel id xs i m vs r' m' ∧
        Delivers (xs.drop i) vs found (.remap stage) := by
  unfold Delivers
  refine (h.stageNext honest behind).bind fun found m₁ _ => ?_
  rintro ⟨vs, r₁, le, taken, serves, stored, ended⟩
  have behind₁ : L.Behind stage id (i + vs.length) r₁ { s with pulled := i + vs.length } m₁ :=
    ⟨behind.waits, stored, behind.reads, fun j hj => le.1 (behind.inner j hj), rfl⟩
  refine matches_pure ⟨vs, r₁, le, ⟨taken, serves, _, behind₁⟩, ?_⟩
  rcases ended with ⟨rfl, rfl, beyond⟩ | ⟨x, v, element, rfl, rfl, -⟩
  · refine ⟨rfl, ?_⟩
    rw [List.drop_eq_nil_of_le beyond]
    rfl
  · have more := (List.getElem?_eq_some_iff.1 element).1
    refine ⟨rfl, ?_⟩
    rw [List.length_singleton, List.length_drop]
    omega

/-- Another inner stream is put in the place of the one that has ended. -/
theorem Serves.setInner (h : L.Serves stage xs i r m) (behind : L.Behind stage id i r s m)
    {inner : Option StreamId} (kind : s.kind = .flatRemap stage inner) {next : Option StreamId}
    (hn : ∀ j ∈ next, j ∈ r.streams) :
    Matches m (Eval.setInner id next) (Eval.setInner id next) fun _ m' =>
      L.Serves stage xs i r m' ∧
        L.Behind stage id i r { s with kind := .flatRemap stage next } m' := by
  have set : Eval.setInner id next m = .ok ⟨⟩ (m.update id (.withInner next)) := rfl
  refine (matches_of_ok set).mono ?_
  rintro - m' ⟨-, rfl⟩
  refine ⟨h.after le_rfl (h.holds.update_waiting behind.waits _), behind.waits, ?_, rfl, ?_,
    behind.pulled⟩
  · rw [Machine.getElem?_update_self, behind.stored]
    obtain ⟨from_, peeked, pulled⟩ := s
    obtain rfl : from_ = .flatRemap stage inner := kind
    rfl
  · rintro j ⟨⟩
    exact hn j rfl

/-- Without an inner stream the body runs for the next element, whose elements are the next ones. -/
theorem Serves.refill (honest : L.env.host.Honest) (h : L.Serves stage xs i r m)
    (behind : L.Behind stage id i r s m) {inner : Option StreamId}
    (kind : s.kind = .flatRemap stage inner) {x y : Eval (Option Value)}
    (later : ∀ {i r s m inner}, L.Serves stage xs i r m → L.Behind stage id i r s m →
      s.kind = .flatRemap stage inner →
      Matches m x y fun found m' => ∃ vs r', r ≤ r' ∧ L.Pulled stage fuel id xs i m vs r' m' ∧
        (found = none → (xs.drop i).length ≤ vs.length)) :
    Matches m
      (do
        Eval.setInner id none
        match ← (Calls.confined L fuel).stageNext id stage with
        | none => return none
        | some (_, produced) =>
          let inner ← Eval.streamOf L.env.host produced
          Eval.setInner id (some inner)
          x)
      (do
        Eval.setInner id none
        match ← (Calls.levels L.env fuel).stageNext id stage with
        | none => return none
        | some (_, produced) =>
          let inner ← Eval.streamOf L.env.host produced
          Eval.setInner id (some inner)
          y)
      fun found m' => ∃ vs r', r ≤ r' ∧ L.Pulled stage fuel id xs i m vs r' m' ∧
        (found = none → (xs.drop i).length ≤ vs.length) := by
  refine (h.setInner behind kind fun j hj => absurd hj (Option.not_mem_none j)).bind ?_
  rintro ⟨⟩ m₁ emptied ⟨h₁, behind₁⟩
  refine (h₁.stageNext honest behind₁).bind fun found m₂ _ => ?_
  rintro ⟨vs, r₂, le₂, taken, h₂, stored,
    ⟨rfl, rfl, beyond⟩ | ⟨x, v, element, rfl, rfl, within⟩⟩
  · have behind₂ : L.Behind stage id i r₂ _ m₂ := ⟨behind.waits, stored, rfl, nofun, rfl⟩
    refine matches_pure ⟨[], r₂, le₂, ⟨.pause h (.put emptied) h₁ taken, h₂, _, behind₂⟩, ?_⟩
    rw [List.drop_eq_nil_of_le beyond]
    exact fun _ => Nat.le_refl _
  · have behind₂ : L.Behind stage id (i + 1) r₂ _ m₂ := ⟨behind.waits, stored, rfl, nofun, rfl⟩
    refine (Minds.matches (minds_streamOf honest within) h₂.holds).bind fun inner m₃ made => ?_
    rintro ⟨keeps, r₃, le₃, holds, hinner⟩
    have h₃ : L.Serves stage xs (i + 1) r₃ m₃ := h₂.after le₃ holds
    have behind₃ : L.Behind stage id (i + 1) r₃ _ m₃ :=
      ⟨behind.waits, (keeps.waiting id behind.waits).trans behind₂.stored, rfl, nofun, rfl⟩
    refine (h₃.setInner behind₃ rfl ?_).bind ?_
    · rintro j ⟨⟩
      exact hinner
    rintro ⟨⟩ m₄ put ⟨h₄, behind₄⟩
    refine (later h₄ behind₄ rfl).mono ?_
    rintro found m' ⟨ws, r', le', ⟨rounds, serves', s', behind'⟩, all⟩
    have count : i + (v :: ws).length = i + 1 + ws.length := by
      rw [List.length_cons]
      omega
    refine ⟨v :: ws, r', le₂.trans (le₃.trans le'), ⟨.pause h (.put emptied) h₁ (taken.append
      (.pause h₂ (.made made) h₃ (.pause h₃ (.put put) h₄ rounds))), ?_⟩, fun none => ?_⟩
    · rw [count]
      exact ⟨serves', s', behind'⟩
    · have rest := all none
      rw [List.length_drop] at rest ⊢
      rw [List.length_cons]
      omega

/-- What is left of the inner stream comes first, then the elements of the next values of the
body. -/
theorem Serves.pullFlat (honest : L.env.host.Honest) (h : L.Serves stage xs i r m)
    (behind : L.Behind stage id i r s m) {inner : Option StreamId}
    (kind : s.kind = .flatRemap stage inner) (rounds : Nat) :
    Matches m ((Calls.confined L fuel).pullFlat L.env.host id stage rounds)
      ((Calls.levels L.env fuel).pullFlat L.env.host id stage rounds)
      fun found m' => ∃ vs r', r ≤ r' ∧ L.Pulled stage fuel id xs i m vs r' m' ∧
        Delivers (xs.drop i) vs found (.flatRemap stage inner) := by
  unfold Delivers
  induction rounds generalizing i r m s inner with
  | zero => exact matches_throw _
  | succ rounds ih =>
    have found : m.kind? id = some (.flatRemap stage inner) := by
      rw [Machine.kind?, behind.stored, Option.map_some, kind]
    unfold Calls.pullFlat
    refine (matches_of_ok (innerStream?_eq found)).bind fun present m₀ _ => ?_
    rintro ⟨rfl, rfl⟩
    cases present with
    | none => exact h.refill honest behind kind fun h behind kind => ih h behind kind
    | some inner =>
      have reads := Minds.matches
        ((mindsCalls_confined honest fuel).next (behind.inner inner kind)) h.holds
      refine reads.bind fun found m₁ read => ?_
      rintro ⟨keeps, r₁, le₁, holds, -⟩
      have h₁ : L.Serves stage xs i r₁ m₁ := h.after le₁ holds
      have behind₁ : L.Behind stage id i r₁ s m₁ :=
        ⟨behind.waits, (keeps.waiting id behind.waits).trans behind.stored, behind.reads,
          fun j hj => le₁.1 (behind.inner j hj), behind.pulled⟩
      cases found with
      | some v =>
        exact matches_pure ⟨[], r₁, le₁, ⟨h.idle (.read read) h₁, h₁, s, behind₁⟩,
          fun none => absurd none (Option.some_ne_none v)⟩
      | none =>
        refine (h₁.refill honest behind₁ kind fun h behind kind => ih h behind kind).mono ?_
        rintro found m' ⟨vs, r', le', ⟨rounds, later⟩, all⟩
        exact ⟨vs, r', le₁.trans le', ⟨.pause h (.read read) h₁ rounds, later⟩, all⟩

/-- **Reading the stream behind the stage does rounds for the next elements**, as many as it
takes. -/
theorem Serves.pullStream (honest : L.env.host.Honest) (h : L.Serves stage xs i r m)
    (behind : L.Behind stage id i r s m) (rounds : Nat) :
    Matches m ((Calls.confined L fuel).pullStream L.env.host rounds id)
      ((Calls.levels L.env fuel).pullStream L.env.host rounds id)
      fun found m' => ∃ vs r', r ≤ r' ∧ L.Pulled stage fuel id xs i m vs r' m' ∧
        Delivers (xs.drop i) vs found s.kind := by
  have looked : Eval.stream? id m = .ok (some s) m :=
    congrArg (EStateM.Result.ok · m) behind.stored
  unfold Calls.pullStream
  refine (matches_of_ok looked).bind fun present m₀ _ => ?_
  rintro ⟨rfl, rfl⟩
  have reads := behind.reads
  cases kind : s.kind with
  | source source =>
    rw [kind] at reads
    cases reads
  | remap stage' =>
    rw [kind] at reads
    cases reads
    simp only [kind]
    exact h.pullRemapped honest behind
  | filter stage' =>
    rw [kind] at reads
    cases reads
    simp only [kind]
    exact h.pullFiltered honest behind rounds
  | flatRemap stage' inner =>
    rw [kind] at reads
    cases reads
    simp only [kind]
    exact h.pullFlat honest behind kind rounds

end Lease

end TagExpr
