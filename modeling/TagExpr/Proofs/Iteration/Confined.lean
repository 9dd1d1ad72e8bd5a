import TagExpr.Proofs.Iteration.Minding

/-!
# Confined evaluation

Confined evaluation is evaluation that keeps to a lease: it stops where the stream before the stage
would be read at a wrong place or with too few levels, where a tree would look at a local slot that
reading that stream assigns or call an annotation, and where a stream would be read that waits for
the stage. As long as it does not stop it does what evaluation does, and whatever the trees are, it
minds the lease (`Lease.mindsCalls_confined`).
-/

namespace TagExpr

/-! ## Trees -/

namespace Node

mutual

/-- The tree looks at no hidden slot of the frame and calls no annotation that has a handler. The
bodies of stages are not looked at. -/
def modest (L : Lease) (frame : FrameId) : Node → Bool
  | .literal _ | .regex _ | .current _ | .internal _ _ | .binding _ _ | .identifier _ _ => true
  | .localVar slot => !L.hidden frame slot
  | .call _ _ args | .named _ args | .recurse args => modestList L frame args
  | .annotated name args => (L.env.annotations.lookup name).isNone && modestList L frame args
  | .member receiver _ _ => modest L frame receiver
  | .method receiver _ args _ => modest L frame receiver && modestList L frame args
  | .index receiver key _ => modest L frame receiver && modest L frame key
  | .unary _ operand => modest L frame operand
  | .binary _ left right => modest L frame left && modest L frame right
  | .ternary condition yes no =>
    modest L frame condition && (modest L frame yes && modest L frame no)
  | .concat items | .list items | .set items | .sequence items => modestList L frame items
  | .map entries => modestEntries L frame entries
  | .assignLocal _ value | .assignBinding _ _ value => modest L frame value
  | .stream _ source _ _ => modest L frame source
termination_by structural n => n

def modestList (L : Lease) (frame : FrameId) : List Node → Bool
  | [] => true
  | n :: rest => modest L frame n && modestList L frame rest

def modestEntries (L : Lease) (frame : FrameId) : List (Node × Node) → Bool
  | [] => true
  | entry :: rest => modestEntry L frame entry && modestEntries L frame rest

def modestEntry (L : Lease) (frame : FrameId) : Node × Node → Bool
  | (key, value) => modest L frame key && modest L frame value

end

variable {L : Lease} {own : Option Section} {xs : List Value} {r : Reach} {c c' : Calls}
  {fuel : Nat} {e : Expression} {frame : FrameId}

open Lease

/-- Trees that are evaluated with the same tables. -/
structure Minding (L : Lease) (own : Option Section) (xs : List Value) (c c' : Calls) : Prop where
  calls : L.MindsCalls own xs c c'
  honest : L.env.host.Honest

mutual

/-- **Modest trees mind the lease.** -/
theorem minds (h : Minding L own xs c c') : ∀ {n : Node} {r : Reach}, n.modest L frame →
    frame ∈ r.frames →
    L.Minds own xs r (fun r v => v.Within r.streams) (n.eval L.env c fuel e frame)
      (n.eval L.env c' fuel e frame)
  | .literal l, _, _, _ => by
    refine minds_pure (Value.within_of_streamless ?_)
    cases l <;> rfl
  | .regex source, _, _, _ => by
    unfold eval
    split
    · exact minds_pure (Value.within_of_streamless rfl)
    · exact minds_throw _
  | .current levels, _, _, _ => by
    refine minds_context.bind fun r' context _ sees => minds_pure ?_
    unfold Context.sectionValue
    split
    case h_1 s found => exact sees.values s (List.mem_of_getElem? found)
    case h_2 => exact Value.within_null
  | .internal lookup name, _, _, _ => h.calls.internal lookup name
  | .localVar slot, _, hn, hf => by
    have seen : L.hidden frame slot = false := by simpa [modest] using hn
    refine (minds_localValue? hf seen).bind fun r' found _ within => ?_
    cases found with
    | some v => exact minds_pure (within v rfl)
    | none => exact h.calls.null
  | .binding template slot, _, _, _ => by
    refine minds_context.bind fun r' context _ sees => minds_pure ?_
    unfold Context.binding
    split
    case h_1 f found =>
      unfold TemplateFrame.get
      rw [List.getD_eq_getElem?_getD]
      exact Value.within_getD fun v hv =>
        sees.templates f (List.mem_of_find?_eq_some found) v (List.mem_of_getElem? hv)
    case h_2 => exact Value.within_null
  | .identifier ident lookup, _, _, _ => by
    unfold eval
    split
    · exact minds_resolve h.honest _ lookup (List.forall_mem_nil _)
    · exact h.calls.null
  | .call ident lookup args, _, hn, hf => by
    refine (mindsList h hn hf).bind fun r' values _ within => ?_
    split
    · exact minds_resolve h.honest _ lookup within
    · exact h.calls.null
  | .member receiver ident safe, _, hn, hf => by
    refine (minds h (n := receiver) hn hf).bind fun r' target _ within => ?_
    split
    · exact minds_access h.honest _ within (List.forall_mem_nil _) safe
    · exact h.calls.null
  | .method receiver ident args safe, _, hn, hf => by
    obtain ⟨hreceiver, hargs⟩ := Bool.and_eq_true_iff.mp hn
    refine (minds h hreceiver hf).bind fun r₁ target le₁ within => ?_
    split
    · exact minds_pure Value.within_null
    · refine (mindsList h hargs (le₁.2 hf)).bind fun r₂ values le₂ withinArgs => ?_
      split
      · exact minds_access h.honest _ (within.mono le₂.1) withinArgs safe
      · exact h.calls.null
  | .index receiver key safe, _, hn, hf => by
    obtain ⟨hreceiver, hkey⟩ := Bool.and_eq_true_iff.mp hn
    refine (minds h hreceiver hf).bind fun r₁ target le₁ within => ?_
    split
    · exact minds_pure Value.within_null
    · exact (minds h hkey (le₁.2 hf)).bind fun r₂ k le₂ _ =>
        minds_ofExcept fun v hv => Value.within_index h.honest (within.mono le₂.1) hv
  | .named target args, _, hn, hf => by
    refine (mindsList h hn hf).bind fun r' values _ within => ?_
    split
    · exact h.calls.invoke _ within
    · exact h.calls.null
  | .recurse args, _, hn, hf =>
    (mindsList h hn hf).bind fun _ _ _ within => h.calls.invoke e within
  | .annotated name args, _, hn, hf => by
    obtain ⟨unhandled, hargs⟩ := Bool.and_eq_true_iff.mp hn
    refine (mindsList h hargs hf).bind fun r' values _ _ => ?_
    unfold Eval.annotate
    rw [Option.isNone_iff_eq_none.mp unhandled]
    exact minds_pure Value.within_null
  | .unary _ operand, _, hn, hf =>
    (minds h (n := operand) hn hf).bind fun _ _ _ _ =>
      minds_ofExcept fun _ hv => Value.within_unary hv
  | .binary op left right, r, hn, hf => by
    obtain ⟨hleft, hright⟩ := Bool.and_eq_true_iff.mp hn
    refine (minds h hleft hf).bind fun r₁ l le₁ hl => ?_
    have taken := minds h hright (le₁.2 hf)
    have truth : L.Minds own xs r₁ (fun r v => v.Within r.streams)
        (do return Value.bool (← eval L.env c fuel e frame right).isTruthy)
        (do return Value.bool (← eval L.env c' fuel e frame right).isTruthy) :=
      taken.bind fun _ _ _ _ => minds_pure (Value.within_bool _)
    have chosen (op : BinaryOp) : L.Minds own xs r₁ (fun r v => v.Within r.streams)
        (if Value.selectsRight op l then eval L.env c fuel e frame right else pure l)
        (if Value.selectsRight op l then eval L.env c' fuel e frame right else pure l) := by
      split
      · exact taken
      · exact minds_pure hl
    split
    · split
      · exact truth
      · exact minds_pure (Value.within_bool _)
    · split
      · exact minds_pure (Value.within_bool _)
      · exact truth
    · exact chosen .coalesce
    · exact chosen .elvis
    · exact chosen .ifPresent
    · exact chosen .ifTruthy
    · exact taken.bind fun r₂ v le₂ hr =>
        minds_ofExcept fun w hw => Value.within_binary (hl.mono le₂.1) hr hw
  | .ternary condition yes no, _, hn, hf => by
    obtain ⟨hcondition, hn⟩ := Bool.and_eq_true_iff.mp hn
    obtain ⟨hyes, hno⟩ := Bool.and_eq_true_iff.mp hn
    refine (minds h hcondition hf).bind fun r' verdict le _ => ?_
    split
    · exact minds h hyes (le.2 hf)
    · exact minds h hno (le.2 hf)
  | .concat parts, _, hn, hf =>
    (mindsList h hn hf).bind fun _ _ _ _ => minds_pure (Value.within_of_streamless rfl)
  | .list items, _, hn, hf =>
    (mindsList h hn hf).bind fun _ _ _ within => minds_pure (Value.within_list.2 within)
  | .set items, _, hn, hf =>
    (mindsList h hn hf).bind fun _ _ _ within => minds_pure (Value.within_ofItems within)
  | .map entries, _, hn, hf =>
    (mindsEntries h hn hf).bind fun _ _ _ within => minds_pure (Value.within_ofEntries within)
  | .assignLocal slot value, _, hn, hf =>
    (minds h (n := value) hn hf).bind fun _ _ _ within =>
      (minds_setLocal frame slot within).bind fun _ _ le _ => minds_pure (within.mono le.1)
  | .assignBinding template slot value, _, hn, hf =>
    (minds h (n := value) hn hf).bind fun _ _ _ within => minds_assign template slot within
  | .sequence items, _, hn, hf =>
    (mindsList h hn hf).bind fun _ vs _ within => minds_pure <| by
      rw [List.getLastD_eq_getLast?]
      exact Value.within_getD fun v hv => within v (List.mem_of_getLast? hv)
  | .stream op source slot body, _, hn, hf =>
    (minds h (n := source) hn hf).bind fun _ _ le within =>
      (minds_streamOf h.honest within).bind fun _ _ le' hid =>
        h.calls.applyStage ⟨hid, le'.2 (le.2 hf)⟩ fuel op

theorem mindsList (h : Minding L own xs c c') : ∀ {ns : List Node} {r : Reach},
    modestList L frame ns → frame ∈ r.frames →
    L.Minds own xs r (fun r vs => ∀ v ∈ vs, v.Within r.streams)
      (evalList L.env c fuel e frame ns) (evalList L.env c' fuel e frame ns)
  | [], _, _, _ => minds_pure (List.forall_mem_nil _)
  | n :: ns, _, hns, hf => by
    obtain ⟨hn, hns⟩ := Bool.and_eq_true_iff.mp hns
    refine (minds h hn hf).bind fun r₁ v le₁ hv => ?_
    refine (mindsList h hns (le₁.2 hf)).bind fun r₂ vs le₂ hvs => minds_pure ?_
    exact List.forall_mem_cons.2 ⟨hv.mono le₂.1, hvs⟩

theorem mindsEntries (h : Minding L own xs c c') : ∀ {entries : List (Node × Node)} {r : Reach},
    modestEntries L frame entries → frame ∈ r.frames →
    L.Minds own xs r (fun r vs => ∀ p ∈ vs, p.1.Within r.streams ∧ p.2.Within r.streams)
      (evalEntries L.env c fuel e frame entries) (evalEntries L.env c' fuel e frame entries)
  | [], _, _, _ => minds_pure (List.forall_mem_nil _)
  | entry :: entries, _, hns, hf => by
    obtain ⟨hn, hns⟩ := Bool.and_eq_true_iff.mp hns
    refine (mindsEntry h hn hf).bind fun r₁ p le₁ hp => ?_
    refine (mindsEntries h hns (le₁.2 hf)).bind fun r₂ vs le₂ hvs => minds_pure ?_
    exact List.forall_mem_cons.2 ⟨⟨hp.1.mono le₂.1, hp.2.mono le₂.1⟩, hvs⟩

theorem mindsEntry (h : Minding L own xs c c') : ∀ {entry : Node × Node} {r : Reach},
    modestEntry L frame entry → frame ∈ r.frames →
    L.Minds own xs r (fun r p => p.1.Within r.streams ∧ p.2.Within r.streams)
      (evalEntry L.env c fuel e frame entry) (evalEntry L.env c' fuel e frame entry)
  | (key, value), _, hn, hf => by
    obtain ⟨hkey, hvalue⟩ := Bool.and_eq_true_iff.mp hn
    refine (minds h hkey hf).bind fun r₁ k le₁ hk => ?_
    exact (minds h hvalue (le₁.2 hf)).bind fun r₂ v le₂ hv => minds_pure ⟨hk.mono le₂.1, hv⟩

end

end Node

/-! ## Levels -/

/-- Takes a step if the machine passes, and stops otherwise. -/
def Eval.guarded {α : Type} (passes : Machine → Bool) (step : Eval α) : Eval α := fun m =>
  if passes m then step m else .error .exhausted m

theorem Eval.guarded_eq_ok {α : Type} {passes : Machine → Bool} {step : Eval α} {m m' : Machine}
    {a : α} (h : Eval.guarded passes step m = .ok a m') : passes m = true ∧ step m = .ok a m' := by
  unfold Eval.guarded at h
  split at h
  case isTrue passed => exact ⟨passed, h⟩
  case isFalse => cases h

namespace Calls

/-- Evaluation with that many levels at hand that keeps to the lease. -/
def confined (L : Lease) : Nat → Calls
  | 0 => levels L.env 0
  | fuel + 1 =>
    let calls := confined L fuel
    { run e frame n :=
        if n.modest L frame then n.eval L.env calls fuel e frame else throw .exhausted
      pull id :=
        if id = L.input then
          Eval.guarded (fun m => L.need ≤ fuel + 1 && L.places m)
            ((levels L.env (fuel + 1)).pull id)
        else if L.waiting id then throw .exhausted
        else calls.pullStream L.env.host fuel id
      missing := pure .null }

theorem confined_pull_input (L : Lease) (fuel : Nat) : (confined L (fuel + 1)).pull L.input =
    Eval.guarded (fun m => L.need ≤ fuel + 1 && L.places m)
      ((levels L.env (fuel + 1)).pull L.input) := if_pos rfl

theorem confined_pull_waiting {L : Lease} {id : StreamId} (other : id ≠ L.input)
    (waits : L.waiting id = true) (fuel : Nat) :
    (confined L (fuel + 1)).pull id = throw .exhausted := (if_neg other).trans (if_pos waits)

theorem confined_pull {L : Lease} {id : StreamId} (other : id ≠ L.input)
    (free : L.waiting id = false) (fuel : Nat) : (confined L (fuel + 1)).pull id =
      (confined L fuel).pullStream L.env.host fuel id :=
  (if_neg other).trans (if_neg (Bool.eq_false_iff.1 free))

theorem hasNext_of_peeked (c : Calls) {m : Machine} {id : StreamId}
    (ahead : (m.peeked? id).isSome) : c.hasNext id m = .ok true m := by
  show (if (m.peeked? id).isSome then _ else _ : Eval Bool) m = _
  rw [if_pos ahead]
  rfl

theorem hasNext_of_not_peeked (c : Calls) {m : Machine} {id : StreamId}
    (ahead : m.peeked? id = none) : c.hasNext id m = (do
      let v ← c.pull id
      Eval.modifyStream id fun s => { s with peeked := v }
      return v.isSome : Eval Bool) m := by
  show (if (m.peeked? id).isSome then _ else _ : Eval Bool) m = _
  rw [ahead]
  rfl

end Calls

namespace Lease

variable {L : Lease} {own : Option Section} {xs : List Value} {r : Reach} {m m' : Machine}
  {fuel : Nat} {F : Set StreamId}

/-- The stream before the stage is read in a way that leaves the machine as it was. -/
theorem Holds.moves {ys : List Value} {F' : Set StreamId} (h : L.Holds own xs r m)
    (apart : ∀ i ∈ F, i ∉ r.streams ∧ L.waiting i = false) (moves : (L.seen m).Moves F m m')
    (renews : m.Renews F F') (supply : L.Supplies F' ys m') :
    L.Keeps m m' ∧ L.Holds own ys r m' := by
  obtain ⟨context, size, slots, honest⟩ := moves.calm
  have kept {i : StreamId} (hi : i < m.streams.size) (outside : i ∉ F) :
      m'.streams[i]? = m.streams[i]? := moves.keeps i hi outside
  have waits {i : StreamId} (hi : L.waiting i = true) : i ∉ F := fun inside =>
    Bool.false_ne_true ((apart i inside).2.symm.trans hi)
  refine ⟨⟨congrArg Context.sections context, fun i hi => kept (h.waits i hi) (waits hi)⟩, ?_⟩
  exact {
    supply := by
      refine ⟨F', supply, fun i hi => ?_⟩
      rcases renews i hi with old | new
      · exact apart i old
      · refine ⟨fun inside => Nat.not_lt.2 new (h.made i inside).1, Bool.eq_false_iff.2 ?_⟩
        exact fun waits => Nat.not_lt.2 new (h.waits i waits)
    made := fun i hi => ⟨(h.made i hi).1.trans_le moves.grows, (h.made i hi).2⟩
    waits := fun i hi => (h.waits i hi).trans_le moves.grows
    sees := context ▸ h.sees
    frames := fun f hf => (h.frames f hf).trans_le size
    slots := by
      intro f hf slot v hv seen
      rw [slots f (h.frames f hf) slot seen] at hv
      exact h.slots f hf slot v hv seen
    streams := by
      intro i hi s found
      rw [kept (h.made i hi).1 fun inside => (apart i inside).1 hi] at found
      exact h.streams i hi s found
    bounded := fun f slot hidden => (h.bounded f slot hidden).trans_le size
    honest := honest }

theorem Holds.calm (h : L.Holds own xs r m) : (L.seen m).calm m :=
  ⟨rfl, Nat.le_refl _, fun _ _ _ _ => rfl, h.honest⟩

theorem mem_settings (place : L.places m = true) : L.seen m ∈ L.settings := ⟨m, place, rfl⟩

/-- What can be got at is not the stream before the stage. -/
theorem Holds.ne_input (h : L.Holds own xs r m) {id : StreamId} (hid : id ∈ r.streams) :
    id ≠ L.input := by
  obtain ⟨F, supply, apart⟩ := h.supply
  rintro rfl
  exact (apart L.input supply.mem).1 hid

/-- **To ask whether another element follows minds the lease.** -/
theorem minds_ask : L.Minds own xs r anything ((Calls.confined L fuel).hasNext L.input)
    ((Calls.levels L.env fuel).hasNext L.input) := by
  intro m holds more m' ran
  cases ahead : m.peeked? L.input with
  | some v =>
    have there : (m.peeked? L.input).isSome := by rw [ahead]; rfl
    rw [Calls.hasNext_of_peeked _ there] at ran ⊢
    cases ran
    exact ⟨rfl, .refl m, r, le_refl r, holds, trivial⟩
  | none =>
    rw [Calls.hasNext_of_not_peeked _ ahead] at ran
    obtain ⟨v, m₁, pulled, put⟩ := exists_of_bind ran
    cases fuel with
    | zero => cases pulled
    | succ fuel =>
      -- The stream is read, so this is one of the places.
      rw [Calls.confined_pull_input] at pulled
      obtain ⟨place, pulled⟩ := Eval.guarded_eq_ok pulled
      obtain ⟨enough, place⟩ := Bool.and_eq_true_iff.1 place
      have plain : (Calls.levels L.env (fuel + 1)).hasNext L.input m = .ok more m' := by
        rw [Calls.hasNext_of_not_peeked _ ahead]
        simp only [Bind.bind, EStateM.bind, pulled] at put ⊢
        exact put
      obtain ⟨F, supply, apart⟩ := holds.supply
      obtain ⟨-, moves, F', renews, supply'⟩ :=
        (supply.hasNext (mem_settings place) holds.calm (of_decide_eq_true enough)).ok plain
      obtain ⟨keeps, holds'⟩ := holds.moves apart moves renews supply'
      exact ⟨plain, keeps, r, le_refl r, holds', trivial⟩

/-- A stream that waits for the stage is not read; what was read ahead of it before is there. -/
theorem minds_wait {id : StreamId} (waits : L.waiting id = true) :
    L.Minds own xs r anything ((Calls.confined L fuel).hasNext id)
      ((Calls.levels L.env fuel).hasNext id) := by
  intro m holds more m' ran
  cases ahead : m.peeked? id with
  | some v =>
    have there : (m.peeked? id).isSome := by rw [ahead]; rfl
    rw [Calls.hasNext_of_peeked _ there] at ran ⊢
    cases ran
    exact ⟨rfl, .refl m, r, le_refl r, holds, trivial⟩
  | none =>
    rw [Calls.hasNext_of_not_peeked _ ahead] at ran
    obtain ⟨F, supply, apart⟩ := holds.supply
    have other : id ≠ L.input := by
      rintro rfl
      exact Bool.false_ne_true ((apart L.input supply.mem).2.symm.trans waits)
    obtain ⟨v, m₁, pulled, -⟩ := exists_of_bind ran
    cases fuel with
    | zero => cases pulled
    | succ fuel =>
      rw [Calls.confined_pull_waiting other waits] at pulled
      cases pulled

/-- **Confined evaluation minds the lease**, and evaluation does the same. -/
theorem mindsCalls_confined (honest : L.env.host.Honest) (fuel : Nat) :
    L.MindsCalls own xs (Calls.confined L fuel) (Calls.levels L.env fuel) := by
  induction fuel with
  | zero =>
    exact ⟨fun _ _ _ _ => minds_throw _, fun _ => minds_throw _, minds_ask, minds_wait, rfl, rfl⟩
  | succ fuel ih =>
    refine ⟨fun {r} e frame n hf => ?_, fun {r id} hid => ?_, minds_ask, minds_wait, rfl, rfl⟩
    · show L.Minds own xs r _ (if n.modest L frame then _ else _) _
      split
      case isTrue modest => exact n.minds ⟨ih, honest⟩ modest hf
      case isFalse => exact minds_throw _
    · intro m holds
      rw [Calls.confined_pull (holds.ne_input hid) (holds.made id hid).2]
      exact ih.pullStream honest fuel hid m holds

end Lease

end TagExpr
