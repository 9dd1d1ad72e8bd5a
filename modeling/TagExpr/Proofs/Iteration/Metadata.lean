import TagExpr.Proofs.Draining.Drained
import TagExpr.Proofs.Iteration.Chains
import TagExpr.Proofs.Iteration.Rounds

/-!
# What a section tells about its iteration

While the body of a stage runs for the element number `i`, the section of the iteration has that
element and that number, and `.hasNext` says whether another element follows, however often it is
asked and from however many sections within (`Lease.During.asked`). Asking takes no element, so the
later rounds are for the elements that come then (`iteration_metadata_truthful`).

The stream before the stage has to have the same elements wherever the lease lets it be read. That
is not so for a stream whose own bodies look at the sections of whoever reads it: read ahead by
`.hasNext` they find the element of the later stage (`read_ahead_sees_the_later_element`).
-/

namespace TagExpr

/-! ## Asking -/

theorem Eval.context_eq (m : Machine) : Eval.context m = .ok m.context m := rfl

namespace Calls

variable {calls : Calls} {lookup : Lookup} {s : Section} {m : Machine} {id : StreamId}

theorem internal_index (found : m.context.section? lookup = some s) :
    calls.internal lookup .index m = .ok ((s.index.map Value.count).getD .null) m := by
  simp only [Calls.internal, Bind.bind, EStateM.bind, Eval.context_eq, found]
  rfl

theorem internal_isFirst (found : m.context.section? lookup = some s) :
    calls.internal lookup .isFirst m = .ok (.bool (s.index == some 0)) m := by
  simp only [Calls.internal, Bind.bind, EStateM.bind, Eval.context_eq, found]
  rfl

theorem internal_hasNext (found : m.context.section? lookup = some s)
    (follows : s.following = .stream id) :
    calls.internal lookup .hasNext m = (do return .bool (← calls.hasNext id) : Eval Value) m := by
  simp only [Calls.internal, Bind.bind, EStateM.bind, Eval.context_eq, found, follows]

/-- Asks one section after the other whether another element follows. -/
def askAll (calls : Calls) : List Lookup → Eval (List Value)
  | [] => return []
  | lookup :: rest => do
    let v ← calls.internal lookup .hasNext
    return v :: (← calls.askAll rest)

end Calls

namespace Lease

variable {L : Lease} {stage : Stage} {xs : List Value} {x : Value} {i fuel : Nat} {r : Reach}
  {m m' : Machine} {lookup : Lookup} {s : Section} {F : Set StreamId}

/-- Of the sections only the iteration's own knows about the stream before the stage. -/
theorem During.section_eq (h : L.During stage xs i x r m)
    (found : m.context.section? lookup = some s) (follows : s.following = .stream stage.input) :
    s = stage.sectionFor x i := by
  rw [h.input] at follows
  obtain ⟨F, supply, apart⟩ := h.holds.supply
  rcases h.holds.sees.following s (mem_of_section? found) L.input follows with
    inside | waits | ⟨-, own⟩
  · exact absurd inside (apart L.input supply.mem).1
  · exact absurd waits (Bool.eq_false_iff.1 (apart L.input supply.mem).2)
  · exact (Option.some.inj own).symm

/-- Where it is asked, the stream is read as far as the element that follows, and not further. -/
theorem askAll_supplied {place : Setting} (listed : place ∈ L.settings) (enough : L.need ≤ fuel)
    (lookups : List Lookup)
    (asks : ∀ lookup ∈ lookups, ∃ s, m.context.section? lookup = some s ∧
      s.following = .stream L.input) (calm : place.calm m) (supply : L.Supplies F xs m)
    (same : ∀ m', place.calm m' → m'.context = m.context) :
    Ends ((Calls.levels L.env fuel).askAll lookups) m
      (fun vs m' => vs = List.replicate lookups.length (.bool !xs.isEmpty) ∧ place.Moves F m m' ∧
        ∃ F', m.Renews F F' ∧ L.Supplies F' xs m') fun _ _ => False := by
  induction lookups generalizing m F with
  | nil => exact ⟨rfl, .refl calm, F, .refl m F, supply⟩
  | cons lookup lookups ih =>
    obtain ⟨⟨s, found, follows⟩, others⟩ := List.forall_mem_cons.1 asks
    unfold Calls.askAll
    rw [ends_bind]
    unfold Ends
    rw [Calls.internal_hasNext found follows]
    show Ends (do return .bool (← (Calls.levels L.env fuel).hasNext L.input) : Eval Value) m _ _
    rw [ends_bind]
    refine (supply.hasNext listed calm enough).mono ?_ fun _ _ h => h
    rintro _ m₁ ⟨rfl, moves, F₁, renews, supply₁⟩
    have context : m₁.context = m.context := same m₁ moves.calm
    refine (ends_bind _ _).2 ((ih ?_ moves.calm supply₁ ?_).mono ?_ fun _ _ h => h)
    · rwa [context]
    · rwa [context]
    · rintro _ m₂ ⟨rfl, moves', F₂, renews', supply₂⟩
      exact ⟨rfl, moves.trans renews moves', F₂, renews.trans moves.grows renews', supply₂⟩

/-- **However often and from however far within it is asked**, the iteration says whether another
element follows, and is still for the same element afterwards. -/
theorem During.asked (h : L.During stage xs i x r m) (place : L.places m = true)
    (enough : L.need ≤ fuel) (lookups : List Lookup)
    (asks : ∀ lookup ∈ lookups, ∃ s, m.context.section? lookup = some s ∧
      s.following = .stream stage.input) :
    Ends ((Calls.levels L.env fuel).askAll lookups) m
      (fun vs m' => vs = List.replicate lookups.length (.bool (i + 1 < xs.length)) ∧
        L.During stage xs i x r m') fun _ _ => False := by
  rw [h.input] at asks
  obtain ⟨F, supply, apart⟩ := h.holds.supply
  refine (askAll_supplied (mem_settings place) enough lookups asks h.holds.calm supply
    fun _ calm => calm.1).mono ?_ fun _ _ h => h
  rintro _ m' ⟨rfl, moves, F', renews, supply'⟩
  have more : (!(xs.drop (i + 1)).isEmpty) = decide (i + 1 < xs.length) := by
    rw [Bool.eq_iff_iff]
    simp
  obtain ⟨-, holds⟩ := h.holds.moves apart moves renews supply'
  exact ⟨by rw [more], h.input, h.frame, h.element, holds⟩

/-- What the sections tell about the iteration, as long as the stage runs for this element. -/
structure Truthful (L : Lease) (stage : Stage) (xs : List Value) (i : Nat) (x : Value) (r : Reach)
    (fuel : Nat) (m : Machine) : Prop where
  value : ∀ lookup s, m.context.section? lookup = some s → s.following = .stream stage.input →
    s.value = x
  index : ∀ lookup s, m.context.section? lookup = some s → s.following = .stream stage.input →
    (Calls.levels L.env fuel).internal lookup .index m = .ok (.count i) m
  isFirst : ∀ lookup s, m.context.section? lookup = some s → s.following = .stream stage.input →
    (Calls.levels L.env fuel).internal lookup .isFirst m = .ok (.bool (i = 0)) m
  hasNext : L.places m = true → L.need ≤ fuel → ∀ lookups : List Lookup,
    (∀ lookup ∈ lookups, ∃ s, m.context.section? lookup = some s ∧
      s.following = .stream stage.input) →
    Ends ((Calls.levels L.env fuel).askAll lookups) m
      (fun vs m' => vs = List.replicate lookups.length (.bool (i + 1 < xs.length)) ∧
        L.During stage xs i x r m') fun _ _ => False

theorem During.truthful (h : L.During stage xs i x r m) (fuel : Nat) :
    L.Truthful stage xs i x r fuel m where
  value lookup s found follows := by rw [h.section_eq found follows]; rfl
  index lookup s found follows := by
    rw [Calls.internal_index found, h.section_eq found follows]
    rfl
  isFirst lookup s found follows := by
    rw [Calls.internal_isFirst found, h.section_eq found follows]
    congr 2
  hasNext place enough lookups asks := h.asked place enough lookups asks

/-- A section within that of the iteration. -/
theorem During.push (h : L.During stage xs i x r m) (hv : s.value.Within r.streams)
    (hs : ∀ id, s.following = .stream id → id ∈ r.streams) :
    L.During stage xs i x r { m with context := m.context.pushSection s } :=
  { h with holds := h.holds.context (h.holds.sees.push hv fun id hid => .inl (hs id hid)) }

end Lease

/-! ## Stages that ask -/

theorem ends_during {α : Type} {enter leave : Context → Context} {x : Eval α} {m : Machine}
    {Q : α → Machine → Prop} {E : Stop → Machine → Prop} :
    Ends (Eval.during enter leave x) m Q E ↔
      Ends x { m with context := enter m.context }
        (fun a m' => Q a { m' with context := leave m'.context })
        (fun stop m' => E stop { m' with context := leave m'.context }) := by
  unfold Ends Eval.during
  cases x { m with context := enter m.context } <;> rfl

namespace Lease

variable {L : Lease} {stage : Stage} {ps : List (Value × Value)} {less need : Nat}

/-- Where the stream before the stage may be read everywhere, a body that asks whether another
element follows says so everywhere. -/
theorem tells_hasNext (everywhere : ∀ m, L.places m = true) (unnamed : stage.binding = none)
    (body : stage.body = .internal .unstated .hasNext)
    (values : ∀ (i : Nat) (p : Value × Value), ps[i]? = some p → p.2 = .bool (i + 1 < ps.length))
    (more : less < need) : stage.Tells L.env L.settings less need ps := by
  rintro i p element _ ⟨k, -, rfl⟩ m G ⟨context, size, slots, honest⟩ supply fuel enough
  obtain ⟨fuel, rfl⟩ : ∃ less, fuel = less + 1 := ⟨fuel - 1, by omega⟩
  let inside : Machine := { m with context := m.context.pushSection (stage.sectionFor p.1 i) }
  have run : (Calls.levels L.env (fuel + 1)).runStage stage p.1 i =
      Eval.during (·.pushSection (stage.sectionFor p.1 i)) (·.dropSection)
        ((Calls.levels L.env fuel).internal .unstated .hasNext) := by
    unfold Calls.runStage
    rw [unnamed, body]
    rfl
  rw [run, ends_during]
  have there : Supply L.env L.settings less inside stage.input G ((ps.drop (i + 1)).map (·.1)) :=
    supply.stable fun _ _ => rfl
  have here : (L.seen inside).calm inside := ⟨rfl, Nat.le_refl _, fun _ _ _ _ => rfl, honest⟩
  have found : inside.context.section? .unstated = some (stage.sectionFor p.1 i) := rfl
  unfold Ends
  rw [Calls.internal_hasNext found rfl]
  show Ends (do return .bool (← (Calls.levels L.env fuel).hasNext stage.input) : Eval Value) inside
    _ _
  rw [ends_bind]
  refine (there.hasNext (mem_settings (everywhere inside)) here
    (Nat.le_of_lt_succ (more.trans_le enough))).mono ?_ fun _ _ h => h
  rintro _ m' ⟨rfl, ⟨⟨context', size', slots', honest'⟩, grows, keeps⟩, G', renews, left⟩
  have back : { m' with context := m'.context.dropSection }.context = m.context := by
    show m'.context.dropSection = m.context
    rw [context']
    rfl
  refine ⟨?_, ⟨⟨back.trans context, size.trans size', fun frame hf slot seen => ?_, honest'⟩,
    grows, keeps⟩, G', renews, left.stable fun _ _ => rfl⟩
  · rw [values i p element]
    congr 1
    rw [Bool.eq_iff_iff]
    simp
  · exact (slots' frame (hf.trans_le size) slot seen).trans (slots frame hf slot seen)

end Lease

/-! ## All rounds -/

/-- **Iteration metadata is truthful.** Let the stream before a stage without a `name ->` clause
have the elements `xs`, and let nothing else get at it.

Whatever trees have run in the body for the element number `i`, and whatever sections have been put
on top, the section of the iteration has this element, `.index` is `i`, `.isFirst` whether `i` is
zero, and `.hasNext` whether another element follows. Neither to ask nor to run a tree changes which
elements come later and which numbers they have: a reduction, the operator for the first value and
each read of a stream behind the stage run the body for the elements in their order, each in a
section with its number. -/
theorem iteration_metadata_truthful (L : Lease) (honest : L.env.host.Honest) (stage : Stage)
    (xs : List Value) (fuel : Nat) :
    (∀ i x r m, L.During stage xs i x r m →
      L.Truthful stage xs i x r fuel m ∧
      (∀ s : Section, s.value.Within r.streams →
        (∀ id, s.following = .stream id → id ∈ r.streams) →
        L.During stage xs i x r { m with context := m.context.pushSection s }) ∧
      ∀ e frame n, frame ∈ r.frames →
        Matches m ((Calls.confined L fuel).run e frame n) ((Calls.levels L.env fuel).run e frame n)
          fun v m' => ∃ r', r ≤ r' ∧ L.During stage xs i x r' m' ∧ v.Within r'.streams) ∧
    (∀ r m, L.Serves stage xs 0 r m →
      Matches m ((Calls.confined L fuel).applyStage fuel stage .reduce)
        ((Calls.levels L.env fuel).applyStage fuel stage .reduce)
        (fun v m' => ∃ vs, L.Rounds stage fuel xs 0 m vs m' ∧ vs.length = xs.length ∧
          v = vs.getLastD .null) ∧
      Matches m ((Calls.confined L fuel).applyStage fuel stage .first)
        ((Calls.levels L.env fuel).applyStage fuel stage .first)
        (fun v m' => ∃ vs, L.Rounds stage fuel xs 0 m vs m' ∧ v = vs.getLastD .null ∧
          (∀ w ∈ vs.dropLast, w.isNull = true) ∧ (v.isNull = true → xs.length ≤ vs.length))) ∧
    ∀ i r m id s, L.Serves stage xs i r m → L.Behind stage id i r s m →
      Matches m ((Calls.confined L fuel).pullStream L.env.host fuel id)
        ((Calls.levels L.env (fuel + 1)).pull id)
        fun found m' => ∃ vs r', r ≤ r' ∧ L.Pulled stage fuel id xs i m vs r' m' ∧
          Lease.Delivers (xs.drop i) vs found s.kind := by
  refine ⟨fun i x r m h => ⟨h.truthful fuel, fun s => h.push, fun e frame n hf => ?_⟩,
    fun r m h => ⟨?_, ?_⟩, fun i r m id s h behind => h.pullStream honest behind fuel⟩
  · exact (h.run honest e hf n).mono fun _ _ kept => kept.2
  · refine (h.reduce honest (Nat.zero_le _) fuel .null).mono ?_
    rintro v m' ⟨vs, rounds, all, rfl⟩
    exact ⟨vs, rounds, (Nat.zero_add _).symm.trans all, rfl⟩
  · refine (h.first honest fuel).mono ?_
    rintro v m' ⟨vs, rounds, rfl, nulls, all⟩
    exact ⟨vs, rounds, rfl, nulls, fun null => (all null).trans_eq (Nat.zero_add _)⟩

/-! The stages of `[1, 2, 3] #? .hasNext #> [., .index, .isFirst, .hasNext]`, before any of the
streams has been read. -/

def Stage.asking : Stage where
  input := 0
  body := .internal .unstated .hasNext
  unit := default
  frame := 0
  binding := none

def Stage.listing : Stage where
  input := 1
  body := .list [.current 0, .internal .unstated .index, .internal .unstated .isFirst,
    .internal .unstated .hasNext]
  unit := default
  frame := 0
  binding := none

def Machine.listing : Machine where
  streams := #[{ kind := .source (.items [.int 1, .int 2, .int 3]) }, { kind := .filter .asking },
    { kind := .remap .listing }]
  frames := #[#[]]

def Lease.listing : Lease where
  env := {}
  input := 1
  need := 5
  places _ := true
  hidden _ _ := false
  waiting id := id == 2

theorem Machine.honest_listing : Machine.listing.Honest := by
  intro id i found
  simp [Machine.listing] at found

theorem Lease.supplies_listing :
    Lease.listing.Supplies {1, 0} [.int 1, .int 2] .listing := by
  let none_yet : Machine := { Machine.listing with streams := #[] }
  let ps : List (Value × Value) :=
    [(.int 1, .bool true), (.int 2, .bool true), (.int 3, .bool false)]
  have place : Lease.listing.seen none_yet ∈ Lease.listing.settings := Lease.mem_settings rfl
  have calm : (Lease.listing.seen none_yet).calm none_yet :=
    ⟨rfl, Nat.le_refl _, fun _ _ _ _ => rfl, Machine.honest_listing⟩
  have made : Eval.streamOf {} (.list [.int 1, .int 2, .int 3]) none_yet =
      .ok 0 { none_yet with streams := Machine.listing.streams.take 1 } := rfl
  have source : Supply {} Lease.listing.settings 1
      { none_yet with streams := Machine.listing.streams.take 1 } Stage.asking.input {0}
      (ps.map (·.1)) := by
    have plain : ∀ j, Value.list [.int 1, .int 2, .int 3] ≠ .stream j := nofun
    exact ((Supply.streamOf plain place calm).ok made).2.2
  have tells : Stage.asking.Tells {} Lease.listing.settings 1 4 ps := by
    refine Lease.tells_hasNext (L := .listing) (fun _ => rfl) rfl rfl ?_ (by decide)
    rintro (_ | _ | _ | i) p ⟨⟩ <;> rfl
  refine (source.behind tells (by decide) (by decide) .filter nofun).stable ?_
  rintro i (rfl | rfl) <;> rfl

theorem serves_listing : Lease.listing.Serves .listing [.int 1, .int 2] 0 ⟨∅, {0}⟩ .listing where
  input := rfl
  unnamed := rfl
  frame := rfl
  elements := by
    have all {v : Value} (plain : v.streams = []) : v.Within ∅ := Value.within_of_streamless plain
    exact List.forall_mem_cons.2 ⟨all rfl, List.forall_mem_cons.2 ⟨all rfl, List.forall_mem_nil _⟩⟩
  holds := {
    supply := ⟨{1, 0}, Lease.supplies_listing, by
      rintro i (rfl | rfl) <;> exact ⟨Set.notMem_empty _, rfl⟩⟩
    made := nofun
    waits := by
      intro i hi
      rw [eq_of_beq hi]
      decide
    sees := {
      values := List.forall_mem_cons.2 ⟨Value.within_null, List.forall_mem_nil _⟩
      following := List.forall_mem_cons.2 ⟨nofun, List.forall_mem_nil _⟩
      templates := List.forall_mem_cons.2 ⟨List.forall_mem_nil _, List.forall_mem_nil _⟩ }
    frames := by
      rintro f rfl
      decide
    slots := by
      rintro f rfl slot v hv
      cases hv
    streams := nofun
    bounded := nofun
    honest := Machine.honest_listing }

theorem behind_listing :
    Lease.listing.Behind .listing 2 0 ⟨∅, {0}⟩ { kind := .remap .listing } .listing where
  waits := rfl
  stored := rfl
  reads := rfl
  inner := nofun
  pulled := rfl

/-- Where a stage maps elements and delivers one, its body had that value. -/
theorem Lease.Delivers.eq_singleton {stage : Stage} {left vs : List Value} {v : Value}
    (h : Lease.Delivers left vs (some v) (.remap stage)) : vs = [v] := by
  obtain ⟨head, one⟩ := h
  cases vs with
  | nil => cases head
  | cons w ws =>
    cases head
    have none : ws.length = 0 := by
      rw [List.length_cons] at one
      omega
    rw [List.eq_nil_of_length_eq_zero none]

/-- An element with what its section tells about the iteration. -/
def Value.row? : Value → Option (Int64 × Int64 × Bool × Bool)
  | .list [.int x, .int i, .bool isFirst, .bool hasNext] => some (x, i, isFirst, hasNext)
  | _ => none

theorem Value.eq_of_row? {v : Value} {x i : Int64} {isFirst hasNext : Bool}
    (h : v.row? = some (x, i, isFirst, hasNext)) :
    v = .list [.int x, .int i, .bool isFirst, .bool hasNext] := by
  unfold row? at h
  split at h
  · cases h
    rfl
  · cases h

/-- The first read of the stream behind the last stage does the first round; a reduction in its
place does both and has the value of the second. -/
theorem iteration_metadata_truthful_of_chain :
    let xs : List Value := [.int 1, .int 2]
    let first : Value := .list [.int 1, .int 0, .bool true, .bool true]
    let last : Value := .list [.int 2, .int 1, .bool false, .bool false]
    Lease.listing.Serves .listing xs 0 ⟨∅, {0}⟩ .listing ∧
    (∃ m r, (Calls.levels {} 12).pull 2 .listing = .ok (some first) m ∧
      Lease.listing.Pulled .listing 11 2 xs 0 .listing [first] r m) ∧
    ∃ m vs, (Calls.levels {} 11).applyStage 11 .listing .reduce .listing = .ok last m ∧
      Lease.listing.Rounds .listing 11 xs 0 .listing vs m ∧ vs.length = 2 ∧
      vs.getLastD .null = last := by
  intro xs first last
  have honest : Lease.listing.env.host.Honest := List.forall_mem_nil _
  obtain ⟨-, eager, lazy⟩ := iteration_metadata_truthful .listing honest .listing xs 11
  refine ⟨serves_listing, ?_, ?_⟩
  · have check : (((Calls.confined .listing 11).pullStream {} 11 2).run' .listing).any (fun found =>
        found.any fun v => v.row? == some (1, 0, true, true)) = true := by decide +kernel
    obtain ⟨found, ran, row⟩ := (Option.any_eq_true _ _).1 check
    obtain ⟨v, rfl, row⟩ := (Option.any_eq_true _ _).1 row
    obtain rfl := Value.eq_of_row? (eq_of_beq row)
    obtain ⟨m, ran⟩ := run'_eq_some.1 ran
    obtain ⟨plain, vs, r, -, pulled, delivers⟩ :=
      lazy 0 _ _ 2 _ serves_listing behind_listing (some first) m ran
    obtain rfl := delivers.eq_singleton
    exact ⟨m, r, plain, pulled⟩
  · have check : (((Calls.confined .listing 11).applyStage 11 .listing .reduce).run' .listing).any
        (fun v => v.row? == some (2, 1, false, false)) = true := by decide +kernel
    obtain ⟨v, ran, row⟩ := (Option.any_eq_true _ _).1 check
    obtain rfl := Value.eq_of_row? (eq_of_beq row)
    obtain ⟨m, ran⟩ := run'_eq_some.1 ran
    obtain ⟨plain, vs, rounds, both, value⟩ := (eager _ _ serves_listing).1 last m ran
    exact ⟨m, vs, plain, rounds, both, value.symm⟩

/-- Each element of `[1, 2] #> . + ..` is added to what surrounds the stage, here ten. If the later
stage asks whether another element follows, the second one is made in the middle of its body, where
the first one surrounds the stage: it becomes thirteen in place of twelve. -/
theorem read_ahead_sees_the_later_element :
    ∃ plain asking s, (Session.fresh {} .all).run [.compile "[1, 2] #> . + .. #> ." 0,
        .compile "[1, 2] #> . + .. #> .hasNext ? . : ." 0] =
          ([.compiled (.ok plain), .compiled (.ok asking)], s) ∧
      let elements (e : Expression) := (e.tryEvaluate {} [] >>=
        (Calls.full {}).takeAll {} Calls.maxLevels).run' { context := .fresh (.int 10) }
      elements plain = some [.int 11, .int 12] ∧ elements asking = some [.int 11, .int 13] := by
  let elements (e : Expression) := (e.tryEvaluate {} [] >>=
    (Calls.full {}).takeAll {} Calls.maxLevels).run' { context := .fresh (.int 10) }
  have check : Reply.headPasses (fun plain replies => Reply.headPasses (fun asking replies =>
        replies.isEmpty && (elements plain).any (areInts · [11, 12]) &&
          (elements asking).any (areInts · [11, 13])) replies)
      ((Session.fresh {} .all).run [.compile "[1, 2] #> . + .. #> ." 0,
        .compile "[1, 2] #> . + .. #> .hasNext ? . : ." 0]).1 = true := by decide +kernel
  generalize (Session.fresh {} .all).run [.compile "[1, 2] #> . + .. #> ." 0,
    .compile "[1, 2] #> . + .. #> .hasNext ? . : ." 0] = ran at check ⊢
  obtain ⟨replies, s⟩ := ran
  obtain ⟨plain, others, rfl, second⟩ := Reply.exists_of_headPasses check
  obtain ⟨asking, others, rfl, passed⟩ := Reply.exists_of_headPasses second
  simp only [Bool.and_eq_true, List.isEmpty_iff] at passed
  obtain ⟨⟨rfl, twelve⟩, thirteen⟩ := passed
  exact ⟨plain, asking, s, rfl, eq_some_of_areInts twelve, eq_some_of_areInts thirteen⟩

end TagExpr
