import TagExpr.Proofs.Stream.Stages

/-!
# Pipelines compute list functions

A pipeline applies stages to a value, one after the other. Where the bodies of the stages compute
functions of their element, draining it is the same as applying `map`, `filter` and `flatMap` to the
list of the elements of the value, and the two operators that take a whole stream give the last
value of their body and the first that is not null.
-/

namespace TagExpr

/-! ## Pipelines -/

/-- As the body of a streaming operator, with this slot for the elements, the tree computes a
function of each of them, whatever stream they come from. -/
def Node.Computes (env : Environment) (S : Setting) (need : Nat) (e : Expression) (frame : FrameId)
    (binding : Option Nat) (body : Node) (f : Value → Value) (xs : List Value) : Prop :=
  ∀ input, Stage.Computes env S need { input, body, unit := e, frame, binding } f xs

theorem Node.Computes.mono {env : Environment} {S : Setting} {need need' : Nat} {e : Expression}
    {frame : FrameId} {binding : Option Nat} {body : Node} {f : Value → Value} {xs : List Value}
    (h : body.Computes env S need e frame binding f xs) (more : need ≤ need') :
    body.Computes env S need' e frame binding f xs :=
  fun input => (h input).mono more

/-- The streaming operators that make a stream. -/
inductive Passage where
  | remap | filter | flatRemap
  deriving Repr, DecidableEq

namespace Passage

def op : Passage → StreamOp
  | remap => .remap
  | filter => .filter
  | flatRemap => .flatRemap

/-- What becomes of a list under a body that computes `f`. -/
def apply (h : Host) (f : Value → Value) : Passage → List Value → List Value
  | remap, xs => xs.map f
  | filter, xs => xs.filter fun x => (f x).isTruthy
  | flatRemap, xs => xs.flatMap fun x => (f x).elements h

/-- The stream that the operator makes. -/
def kind (stage : Stage) : Passage → StreamKind
  | remap => .remap stage
  | filter => .filter stage
  | flatRemap => .flatRemap stage none

end Passage

/-- A stage of a pipeline, with the function that its body computes. -/
structure Link where
  passage : Passage
  /-- The slot of a `name ->` clause. -/
  binding : Option Nat
  body : Node
  value : Value → Value

namespace Link

/-- The stages applied to the value of a tree. -/
def pipeline (source : Node) (links : List Link) : Node :=
  links.foldl (fun n l => .stream l.passage.op n l.binding l.body) source

/-- The list functions applied to a list. -/
def applyAll (h : Host) (links : List Link) (xs : List Value) : List Value :=
  links.foldl (fun xs l => l.passage.apply h l.value xs) xs

def stage (l : Link) (e : Expression) (frame : FrameId) (input : StreamId) : Stage :=
  { input, body := l.body, unit := e, frame, binding := l.binding }

/-- The body computes its function of these elements, and what a flat-remap takes apart is no
stream. -/
structure Computes (env : Environment) (S : Setting) (need : Nat) (e : Expression) (frame : FrameId)
    (l : Link) (xs : List Value) : Prop where
  body : l.body.Computes env S need e frame l.binding l.value xs
  plain : l.passage = .flatRemap → ∀ x ∈ xs, ∀ id, l.value x ≠ .stream id

/-- The bodies compute their functions of the elements that reach them. -/
def AllCompute (env : Environment) (S : Setting) (need : Nat) (e : Expression) (frame : FrameId) :
    List Link → List Value → Prop
  | [], _ => True
  | l :: links, xs =>
    l.Computes env S need e frame xs ∧
      AllCompute env S need e frame links (l.passage.apply env.host l.value xs)

/-- Levels that are enough to read the pipeline, if `need` is for its source and its bodies: each
stage takes some for itself and for the rounds of its loop. -/
def levels (h : Host) : Nat → List Link → List Value → Nat
  | need, [], _ => need
  | need, l :: links, xs =>
    levels h (need + xs.length + 3) links (l.passage.apply h l.value xs)

end Link

variable {env : Environment} {S : Setting} {need fuel : Nat} {e : Expression} {frame : FrameId}
  {m : Machine} {n source : Node} {xs : List Value} {l : Link} {links : List Link}
  {binding : Option Nat} {body : Node} {g : Value → Value}

/-! ## Values with elements -/

/-- The value has these elements. Those of a stream are the ones that it has left. -/
def Value.Has (env : Environment) (S : Setting) (need : Nat) (m : Machine) (xs : List Value) :
    Value → Prop
  | .stream id => ∃ F, Remains env S need m id F xs
  | v => v.elements env.host = xs

theorem Value.Has.ends_streamOf {v : Value} (h : v.Has env S need m xs) (calm : S.calm m) :
    Ends (Eval.streamOf env.host v) m
      (fun id m' => S.calm m' ∧ ∃ F, Remains env S (need + 1) m' id F xs) fun _ _ => False := by
  by_cases stream : ∃ id, v = .stream id
  · obtain ⟨id, rfl⟩ := stream
    obtain ⟨F, left⟩ := h
    exact ⟨calm, F, left.mono (Nat.le_succ need)⟩
  · have elements : v.elements env.host = xs := by
      cases v with
      | stream id => exact absurd ⟨id, rfl⟩ stream
      | _ => exact h
    refine (TagExpr.ends_streamOf calm fun id same => stream ⟨id, same⟩).mono ?_ fun _ _ h => h
    rintro id m' ⟨moves, -, left⟩
    rw [elements] at left
    exact ⟨moves.calm, {id}, left.mono (Nat.le_add_left 1 need)⟩

/-- With enough levels at hand the tree has a value with these elements. -/
def Gives (env : Environment) (S : Setting) (need : Nat) (e : Expression) (frame : FrameId)
    (n : Node) (m : Machine) (xs : List Value) : Prop :=
  ∀ fuel, need ≤ fuel → Ends ((Calls.levels env fuel).run e frame n) m
    (fun v m' => S.calm m' ∧ v.Has env S need m' xs) fun _ _ => False

/-- A streaming operator evaluates its source to a stream, to which it applies its stage. -/
theorem run_stream (op : StreamOp) (binding : Option Nat) (body : Node) :
    (Calls.levels env (fuel + 1)).run e frame (.stream op n binding body) = (do
      let input ← Eval.streamOf env.host (← (Calls.levels env (fuel + 1)).run e frame n)
      (Calls.levels env fuel).applyStage fuel
        { input, body, unit := e, frame, binding } op) := rfl

theorem Gives.input (h : Gives env S need e frame n m xs) (op : StreamOp) (binding : Option Nat)
    (body : Node) {fuel : Nat} (enough : need ≤ fuel) {Q : Value → Machine → Prop}
    (hn : ∀ m' input F, S.calm m' → Remains env S (need + 1) m' input F xs →
      Ends ((Calls.levels env fuel).applyStage fuel
          { input, body, unit := e, frame, binding } op) m'
        Q fun _ _ => False) :
    Ends ((Calls.levels env (fuel + 1)).run e frame (.stream op n binding body)) m Q
      fun _ _ => False := by
  rw [run_stream, ends_bind]
  refine (h (fuel + 1) (by omega)).mono ?_ fun _ _ h => h
  rintro v m₁ ⟨calm₁, has⟩
  rw [ends_bind]
  refine (has.ends_streamOf calm₁).mono ?_ fun _ _ h => h
  rintro input m₂ ⟨calm₂, F, left⟩
  exact hn m₂ input F calm₂ left

/-- The stream that a stage makes has left what the list function gives. -/
theorem Link.Computes.push {need' : Nat} {F : Set StreamId} {input : StreamId}
    (h : l.Computes env S need e frame xs) (left : Remains env S (need + 1) m input F xs)
    (more : need + xs.length + 2 ≤ need') :
    Remains env S (need' + 1)
      { m with streams := m.streams.push { kind := l.passage.kind (l.stage e frame input) } }
      m.streams.size (insert m.streams.size F) (l.passage.apply env.host l.value xs) := by
  have fed : Fed env S need' (l.stage e frame input) l.value F xs m :=
    ⟨left.mono (by omega), (h.body input).mono (by omega)⟩
  have few : xs.length < need' := by omega
  cases passage : l.passage with
  | remap => exact .push (feeds_remap ..) (settles_passing _ _) ⟨rfl, xs, fed, few, rfl⟩
  | filter => exact .push (feeds_filter ..) (settles_passing _ _) ⟨rfl, xs, fed, few, rfl⟩
  | flatRemap =>
    have flat : Flat env S need' (l.stage e frame input) l.value none F ∅ xs [] m :=
      ⟨fed, ⟨rfl, rfl⟩, Set.disjoint_empty F, by omega, h.plain passage⟩
    exact .push (feeds_flatRemap ..) settles_flattening
      ⟨none, F, ∅, xs, [], rfl, (Set.union_empty F).symm, flat, rfl⟩

theorem Gives.link (h : Gives env S need e frame n m xs) (hl : l.Computes env S need e frame xs) :
    Gives env S (need + xs.length + 3) e frame (.stream l.passage.op n l.binding l.body) m
      (l.passage.apply env.host l.value xs) := by
  intro fuel enough
  obtain ⟨fuel, rfl⟩ : ∃ less, fuel = less + 1 := ⟨fuel - 1, by omega⟩
  refine h.input l.passage.op l.binding l.body (by omega) ?_
  intro m' input F calm left
  have made : (Calls.levels env fuel).applyStage fuel (l.stage e frame input) l.passage.op = (do
      return .stream (← Eval.newStream { kind := l.passage.kind (l.stage e frame input) })) := by
    cases l.passage <;> rfl
  show Ends ((Calls.levels env fuel).applyStage fuel (l.stage e frame input) l.passage.op) m' _ _
  rw [made]
  exact ⟨S.streams _ calm, _, hl.push left (Nat.le_refl _)⟩

theorem Link.Computes.mono {need' : Nat} (h : l.Computes env S need e frame xs)
    (more : need ≤ need') : l.Computes env S need' e frame xs :=
  ⟨h.body.mono more, h.plain⟩

theorem Link.AllCompute.mono {need' : Nat} (h : AllCompute env S need e frame links xs)
    (more : need ≤ need') : AllCompute env S need' e frame links xs := by
  induction links generalizing xs with
  | nil => trivial
  | cons l links ih => exact ⟨h.1.mono more, ih h.2⟩

/-- **A pipeline gives what the list functions give.** -/
theorem Gives.pipeline (h : Gives env S need e frame source m xs)
    (hl : Link.AllCompute env S need e frame links xs) :
    Gives env S (Link.levels env.host need links xs) e frame (Link.pipeline source links) m
      (Link.applyAll env.host links xs) := by
  induction links generalizing source xs need with
  | nil => exact h
  | cons l links ih => exact ih (h.link hl.1) (hl.2.mono (by omega))

theorem Link.le_levels (h : Host) (need : Nat) (links : List Link) (xs : List Value) :
    need ≤ Link.levels h need links xs := by
  induction links generalizing need xs with
  | nil => exact Nat.le_refl need
  | cons l links ih => exact Nat.le_trans (by omega) (ih (need + xs.length + 3) _)

/-! ## Reading a pipeline to its end -/

/-- The elements of the value of a tree, of a stream those it has left. -/
def Calls.drain (calls : Calls) (h : Host) (reads : Nat) (e : Expression) (frame : FrameId)
    (n : Node) : Eval (List Value) := do
  calls.collect (← Eval.streamOf h (← calls.run e frame n)) reads

theorem Gives.drain (h : Gives env S need e frame n m xs) (enough : need + xs.length < fuel) :
    Ends ((Calls.levels env fuel).drain env.host fuel e frame n) m (fun found _ => found = xs)
      fun _ _ => False := by
  unfold Calls.drain
  rw [ends_bind]
  refine (h fuel (by omega)).mono ?_ fun _ _ h => h
  rintro v m₁ ⟨calm₁, has⟩
  rw [ends_bind]
  refine (has.ends_streamOf calm₁).mono ?_ fun _ _ h => h
  rintro id m₂ ⟨calm₂, F, left⟩
  exact (left.collect calm₂ (by omega) (by omega)).mono (fun _ _ h => h.1) fun _ _ h => h

/-- An operator that reads its source to an end does so on a fed stage, one level down. -/
theorem Gives.fed (h : Gives env S need e frame n m xs)
    (hg : body.Computes env S need e frame binding g xs) (enough : need + xs.length + 1 < fuel)
    (op : StreamOp) {P : Value → Prop}
    (ends : ∀ less m' input F, S.calm m' → xs.length < less →
      Fed env S less { input, body, unit := e, frame, binding } g F xs m' →
      Ends ((Calls.levels env less).applyStage less
          { input, body, unit := e, frame, binding } op) m'
        (fun v m' => P v ∧ S.calm m') fun _ _ => False) :
    Ends ((Calls.levels env fuel).run e frame (.stream op n binding body)) m (fun v _ => P v)
      fun _ _ => False := by
  obtain ⟨less, rfl⟩ : ∃ less, fuel = less + 1 := ⟨fuel - 1, by omega⟩
  refine h.input op binding body (by omega) ?_
  intro m' input F calm left
  have fed : Fed env S less { input, body, unit := e, frame, binding } g F xs m' :=
    ⟨left.mono (by omega), (hg input).mono (by omega)⟩
  exact (ends less m' input F calm (by omega) fed).mono (fun _ _ h => h.1) fun _ _ h => h

theorem Gives.reduce (h : Gives env S need e frame n m xs)
    (hg : body.Computes env S need e frame binding g xs) (enough : need + xs.length + 1 < fuel) :
    Ends ((Calls.levels env fuel).run e frame (.stream .reduce n binding body)) m
      (fun v _ => v = (xs.map g).getLastD .null) fun _ _ => False := by
  refine h.fed hg enough .reduce ?_
  intro less m' input F calm many fed
  exact fed.reduce calm (Nat.le_refl less) many 0 .null

theorem Gives.first (h : Gives env S need e frame n m xs)
    (hg : body.Computes env S need e frame binding g xs) (enough : need + xs.length + 1 < fuel) :
    Ends ((Calls.levels env fuel).run e frame (.stream .first n binding body)) m
      (fun v _ => v = ((xs.map g).find? fun v => !v.isNull).getD .null) fun _ _ => False := by
  refine h.fed hg enough .first ?_
  intro less m' input F calm many fed
  exact fed.first calm (Nat.le_refl less) many 0

/-- **A pipeline is a list function.** Let the source have the elements `xs`, and let the bodies
compute functions of their elements. With enough levels at hand, draining the pipeline gives the
list that `map`, `filter` and `flatMap` make of `xs`; of the values of one more body a reduction
gives the last one, and the operator for the first one gives the first that is not null, or null.
Sets, maps and ranges have their elements in ascending order. -/
theorem pipeline_computes (gives : Gives env S need e frame source m xs)
    (computes : Link.AllCompute env S need e frame links xs) :
    let ys := Link.applyAll env.host links xs
    let levels := Link.levels env.host need links xs + ys.length + 1
    (∀ fuel, levels ≤ fuel →
      Ends ((Calls.levels env fuel).drain env.host fuel e frame (Link.pipeline source links)) m
        (fun found _ => found = ys) fun _ _ => False) ∧
    (∀ binding body g, Node.Computes env S need e frame binding body g ys →
      ∀ fuel, levels + 1 ≤ fuel →
        Ends ((Calls.levels env fuel).run e frame
            (.stream .reduce (Link.pipeline source links) binding body)) m
          (fun v _ => v = (ys.map g).getLastD .null) (fun _ _ => False) ∧
        Ends ((Calls.levels env fuel).run e frame
            (.stream .first (Link.pipeline source links) binding body)) m
          (fun v _ => v = ((ys.map g).find? fun v => !v.isNull).getD .null) fun _ _ => False) ∧
    Value.InOrder env.host := by
  intro ys levels
  have given : Gives env S _ e frame _ m ys := gives.pipeline computes
  refine ⟨?_, ?_, Value.inOrder env.host⟩
  · intro fuel enough
    exact given.drain (by omega)
  · intro binding body g hg fuel enough
    have hg' := hg.mono (Link.le_levels env.host need links xs)
    exact ⟨given.reduce hg' (by omega), given.first hg' (by omega)⟩

/-! The stages of `[1, 2, 3] #> x -> x * 2 #? . > 2 #| [., .]`, in a call with one local slot. -/

/-- There is one call, and it has one slot. -/
def Setting.oneSlot : Setting where
  calm m := ∃ v, m.frames = #[#[v]]
  streams _ h := h

def Link.doubled : Link where
  passage := .remap
  binding := some 0
  body := .binary .mul (.localVar 0) (.literal (.int 2))
  value
    | .int n => .int (n * 2)
    | v => v

def Link.aboveTwo : Link where
  passage := .filter
  binding := none
  body := .binary .gt (.current 0) (.literal (.int 2))
  value
    | .int n => .bool (2 < n)
    | v => v

def Link.twice : Link where
  passage := .flatRemap
  binding := none
  body := .list [.current 0, .current 0]
  value v := .list [v, v]

theorem pipeline_computes_three_stages :
    let source : Node := .list [.literal (.int 1), .literal (.int 2), .literal (.int 3)]
    let links := [Link.doubled, Link.aboveTwo, Link.twice]
    Gives {} .oneSlot 1 default 0 source { frames := #[#[.null]] } [.int 1, .int 2, .int 3] ∧
    Link.AllCompute {} .oneSlot 1 default 0 links [.int 1, .int 2, .int 3] ∧
    ∀ fuel, 30 ≤ fuel →
      Ends ((Calls.levels {} fuel).drain {} fuel default 0 (Link.pipeline source links))
        { frames := #[#[.null]] } (fun found _ => found = [.int 4, .int 4, .int 6, .int 6])
        fun _ _ => False := by
  intro source links
  have gives : Gives {} .oneSlot 1 default 0 source { frames := #[#[.null]] }
      [.int 1, .int 2, .int 3] := by
    intro fuel enough
    obtain ⟨fuel, rfl⟩ : ∃ less, fuel = less + 1 := ⟨fuel - 1, by omega⟩
    exact ⟨⟨.null, rfl⟩, rfl⟩
  have doubled : Link.doubled.Computes {} .oneSlot 1 default 0 [.int 1, .int 2, .int 3] := by
    refine ⟨?_, nofun⟩
    rintro input x hx ⟨c, streams, frames, ids, object, journal⟩ ⟨v, rfl⟩ index fuel enough
    obtain ⟨fuel, rfl⟩ : ∃ less, fuel = less + 1 := ⟨fuel - 1, by omega⟩
    simp only [List.mem_cons, List.not_mem_nil, or_false] at hx
    rcases hx with rfl | rfl | rfl <;> exact ⟨rfl, ⟨_, rfl⟩, Nat.le_refl _, fun _ _ _ => rfl⟩
  have aboveTwo : Link.aboveTwo.Computes {} .oneSlot 1 default 0 [.int 2, .int 4, .int 6] := by
    refine ⟨?_, nofun⟩
    rintro input x hx ⟨c, streams, frames, ids, object, journal⟩ ⟨v, rfl⟩ index fuel enough
    obtain ⟨fuel, rfl⟩ : ∃ less, fuel = less + 1 := ⟨fuel - 1, by omega⟩
    simp only [List.mem_cons, List.not_mem_nil, or_false] at hx
    rcases hx with rfl | rfl | rfl <;> exact ⟨rfl, ⟨_, rfl⟩, Nat.le_refl _, fun _ _ _ => rfl⟩
  have twice : Link.twice.Computes {} .oneSlot 1 default 0 [.int 4, .int 6] := by
    refine ⟨?_, fun _ _ _ _ => nofun⟩
    rintro input x - ⟨c, streams, frames, ids, object, journal⟩ ⟨v, rfl⟩ index fuel enough
    obtain ⟨fuel, rfl⟩ : ∃ less, fuel = less + 1 := ⟨fuel - 1, by omega⟩
    exact ⟨rfl, ⟨_, rfl⟩, Nat.le_refl _, fun _ _ _ => rfl⟩
  have computes : Link.AllCompute {} .oneSlot 1 default 0 links [.int 1, .int 2, .int 3] :=
    ⟨doubled, aboveTwo, twice, trivial⟩
  refine ⟨gives, computes, ?_⟩
  intro fuel enough
  exact (pipeline_computes gives computes).1 fuel (Nat.le_trans (by decide) enough)

end TagExpr
