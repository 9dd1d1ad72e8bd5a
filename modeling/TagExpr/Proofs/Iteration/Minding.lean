import TagExpr.Proofs.Iteration.Reach

/-!
# Reads that mind a lease

Reading streams, resolving names and asking sections mind a lease if running trees and making
elements do (`Lease.MindsCalls`). Every step gets at what its arguments get at, and at what it makes
itself; a section may also be asked about the stream before the stage, which cannot be got at.
-/

namespace TagExpr

namespace Lease

variable {L : Lease} {own : Option Section} {xs : List Value} {r r' : Reach} {m m' : Machine}
  {α β : Type} {x y : Eval α}

/-! ## Streams within reach -/

theorem minds_streamOf (honest : L.env.host.Honest) {v : Value} (hv : v.Within r.streams) :
    L.Minds own xs r (fun r id => id ∈ r.streams) (Eval.streamOf L.env.host v)
      (Eval.streamOf L.env.host v) := by
  unfold Eval.streamOf
  split
  case h_1 id => exact minds_pure (Value.within_stream.1 hv)
  case h_2 =>
    refine minds_newStream (Stream.within_of_kind fun w hw => ?_)
    rw [Source.rest_ofValue] at hw
    exact Value.within_elements honest hv w hw

theorem minds_takePeeked {id : StreamId} (hid : id ∈ r.streams) :
    L.Minds own xs r (fun r found => ∀ v ∈ found, v.Within r.streams) (Eval.takePeeked id)
      (Eval.takePeeked id) := by
  refine (minds_stream? hid).bind fun r' s le hs => ?_
  have ahead : ∀ v ∈ s.bind (·.peeked), v.Within r'.streams := by
    intro v hv
    obtain ⟨s, rfl, peeked⟩ := Option.bind_eq_some_iff.1 hv
    exact (hs s rfl).peeked v peeked
  by_cases peeked : (s.bind (·.peeked)).isSome = true
  · simp only [peeked, if_true]
    refine Minds.bind (minds_modifyStream (le.1 hid) ?_) fun r'' _ le' _ => ?_
    · exact fun s hs => ⟨hs.kind, nofun⟩
    · exact minds_pure fun v hv => (ahead v hv).mono le'.1
  · simp only [peeked, Bool.false_eq_true, if_false]
    exact minds_pure ahead

theorem minds_countPulled {id : StreamId} (hid : id ∈ r.streams) :
    L.Minds own xs r anything (Eval.countPulled id) (Eval.countPulled id) := by
  refine (minds_stream? hid).bind fun r' s le _ => ?_
  refine Minds.bind (minds_modifyStream (le.1 hid) ?_) fun _ _ _ _ => minds_pure trivial
  exact fun s hs => ⟨hs.kind, hs.peeked⟩

theorem minds_innerStream? {id : StreamId} (hid : id ∈ r.streams) :
    L.Minds own xs r (fun r inner => ∀ i ∈ inner, i ∈ r.streams) (Eval.innerStream? id)
      (Eval.innerStream? id) := by
  refine (minds_stream? hid).bind fun r' s _ hs => ?_
  split
  case h_1 stage inner peeked pulled => exact minds_pure (hs _ rfl).kind.2
  case h_2 => exact minds_pure nofun

theorem minds_setInner {id : StreamId} (hid : id ∈ r.streams) {inner : Option StreamId}
    (hi : ∀ i ∈ inner, i ∈ r.streams) :
    L.Minds own xs r anything (Eval.setInner id inner) (Eval.setInner id inner) := by
  refine minds_modifyStream hid fun s hs => ?_
  obtain ⟨kind, peeked⟩ := hs
  split
  case h_1 stage before known =>
    rw [known] at kind
    exact ⟨⟨kind.1, hi⟩, peeked⟩
  case h_2 => exact ⟨kind, peeked⟩

/-! ## Members -/

theorem minds_member (honest : L.env.host.Honest) (ref : IdentifierRef) {receiver : Value}
    {args : List Value} (hr : receiver.Within r.streams) (ha : ∀ a ∈ args, a.Within r.streams) :
    L.Minds own xs r (fun r found => ∀ v ∈ found, v.Within r.streams)
      (Eval.member L.env.host ref receiver args) (Eval.member L.env.host ref receiver args) := by
  intro m holds found m' ran
  obtain ⟨spared, honest', within⟩ := (ends_member honest holds.honest ref hr ha).ok ran
  refine ⟨ran, ⟨congrArg Context.sections spared.context, fun i _ => ?_⟩, r, le_refl r,
    holds.spared spared honest', within⟩
  rw [spared.streams]

theorem minds_searchMember (honest : L.env.host.Honest) (ref : IdentifierRef) {args : List Value}
    (ha : ∀ a ∈ args, a.Within r.streams) {sections : List Section}
    (hs : ∀ s ∈ sections, s.value.Within r.streams) :
    L.Minds own xs r (fun r v => v.Within r.streams)
      (Eval.searchMember L.env.host ref args sections)
      (Eval.searchMember L.env.host ref args sections) := by
  induction sections generalizing r with
  | nil => exact minds_pure Value.within_null
  | cons s rest ih =>
    obtain ⟨here, others⟩ := List.forall_mem_cons.1 hs
    refine (minds_member honest ref here ha).bind fun r' found le within => ?_
    cases found with
    | some v => exact minds_pure (within v rfl)
    | none => exact ih (fun a h => (ha a h).mono le.1) fun t ht => (others t ht).mono le.1

theorem mem_of_section? {c : Context} {lookup : Lookup} {s : Section}
    (hs : c.section? lookup = some s) : s ∈ c.sections.toList := by
  cases lookup with
  | unstated => exact List.mem_of_mem_head? hs
  | backreach levels => exact List.mem_of_getElem? hs
  | root => exact List.mem_reverse.1 (List.mem_of_getElem? hs)

theorem mem_of_mem_searched {c : Context} {lookup : Lookup} {s : Section}
    (hs : s ∈ c.searched lookup) : s ∈ c.sections.toList := by
  cases lookup with
  | unstated => exact hs
  | backreach levels => exact mem_of_section? (Option.mem_toList.1 hs)
  | root => exact mem_of_section? (Option.mem_toList.1 hs)

theorem minds_resolve (honest : L.env.host.Honest) (ref : IdentifierRef) (lookup : Lookup)
    {args : List Value} (ha : ∀ a ∈ args, a.Within r.streams) :
    L.Minds own xs r (fun r v => v.Within r.streams) (Eval.resolve L.env.host ref lookup args)
      (Eval.resolve L.env.host ref lookup args) :=
  minds_context.bind fun _ _ le sees =>
    minds_searchMember honest ref (fun a h => (ha a h).mono le.1) fun s hs =>
      sees.values s (mem_of_mem_searched hs)

theorem minds_access (honest : L.env.host.Honest) (ref : IdentifierRef) {receiver : Value}
    {args : List Value} (hr : receiver.Within r.streams) (ha : ∀ a ∈ args, a.Within r.streams)
    (safe : Bool) :
    L.Minds own xs r (fun r v => v.Within r.streams)
      (Eval.access L.env.host ref receiver args safe)
      (Eval.access L.env.host ref receiver args safe) := by
  unfold Eval.access
  split
  · split
    · exact minds_pure Value.within_null
    · exact minds_throw _
  · exact (minds_member honest ref hr ha).bind fun _ _ _ within =>
      minds_pure (Value.within_getD within)

/-! ## Calls -/

/-- What goes on outside the tree at hand minds the lease, and the iteration can be asked whether
another element follows. -/
structure MindsCalls (L : Lease) (own : Option Section) (xs : List Value) (c c' : Calls) :
    Prop where
  run : ∀ {r : Reach} (e : Expression) {frame : FrameId} (n : Node), frame ∈ r.frames →
    L.Minds own xs r (fun r v => v.Within r.streams) (c.run e frame n) (c'.run e frame n)
  pull : ∀ {r : Reach} {id : StreamId}, id ∈ r.streams →
    L.Minds own xs r (fun r found => ∀ v ∈ found, v.Within r.streams) (c.pull id) (c'.pull id)
  ask : ∀ {r : Reach}, L.Minds own xs r anything (c.hasNext L.input) (c'.hasNext L.input)
  wait : ∀ {r : Reach} {id : StreamId}, L.waiting id = true →
    L.Minds own xs r anything (c.hasNext id) (c'.hasNext id)
  missing : c.missing = pure .null ∧ c'.missing = pure .null

namespace MindsCalls

variable {c c' : Calls}

theorem null (hc : L.MindsCalls own xs c c') :
    L.Minds own xs r (fun r v => v.Within r.streams) c.missing c'.missing := by
  rw [hc.missing.1, hc.missing.2]
  exact minds_pure Value.within_null

theorem invoke (hc : L.MindsCalls own xs c c') (e : Expression) {args : List Value}
    (ha : ∀ a ∈ args, a.Within r.streams) :
    L.Minds own xs r (fun r v => v.Within r.streams) (c.invoke e args) (c'.invoke e args) := by
  refine minds_context.bind fun r₁ context le _ => ?_
  have slots : ∀ v ∈ e.initialSlots .null args, v.Within r₁.streams := by
    intro v hv
    rcases List.mem_append.1 hv with given | rest
    · exact (ha v (List.mem_of_mem_take (List.mem_of_mem_take given))).mono le.1
    · rw [List.eq_of_mem_replicate rest]
      exact Value.within_null
  split
  · exact minds_throw _
  · refine (minds_newFrame slots).bind fun r₂ frame le' hf => ?_
    refine ((hc.run e e.body hf).call fun v hv => ?_).located e.span
    exact ((ha v (List.mem_of_mem_head? hv)).mono le.1).mono le'.1

/-! ### Streams -/

theorem next (hc : L.MindsCalls own xs c c') {id : StreamId} (hid : id ∈ r.streams) :
    L.Minds own xs r (fun r found => ∀ v ∈ found, v.Within r.streams) (c.next id) (c'.next id) := by
  refine (minds_takePeeked hid).bind fun r' peeked le within => ?_
  cases peeked with
  | some v => exact minds_pure within
  | none => exact hc.pull (le.1 hid)

theorem hasNext (hc : L.MindsCalls own xs c c') {id : StreamId} (hid : id ∈ r.streams) :
    L.Minds own xs r anything (c.hasNext id) (c'.hasNext id) := by
  refine (minds_stream? hid).bind fun r' s le _ => ?_
  split
  · exact minds_pure trivial
  · refine (hc.pull (le.1 hid)).bind fun r'' v le' hv => ?_
    refine Minds.bind (minds_modifyStream (le'.1 (le.1 hid)) ?_) fun _ _ _ _ => minds_pure trivial
    exact fun s hs => ⟨hs.kind, hv⟩

variable {stage : Stage}

theorem runStage (hc : L.MindsCalls own xs c c') (hs : stage.Within r) {item : Value}
    (hi : item.Within r.streams) (index : Nat) :
    L.Minds own xs r (fun r v => v.Within r.streams) (c.runStage stage item index)
      (c'.runStage stage item index) := by
  unfold Calls.runStage
  split
  case h_1 slot _ =>
    refine (minds_setLocal stage.frame slot hi).bind fun r' _ le _ => ?_
    exact hc.run stage.unit stage.body (le.2 hs.2)
  case h_2 =>
    refine (hc.run stage.unit stage.body hs.2).section_ hi fun id same => .inl ?_
    cases same
    exact hs.1

theorem stageNext (hc : L.MindsCalls own xs c c') {id : StreamId} (hid : id ∈ r.streams)
    (hs : stage.Within r) :
    L.Minds own xs r
      (fun r found => ∀ p ∈ found, p.1.Within r.streams ∧ p.2.Within r.streams)
      (c.stageNext id stage) (c'.stageNext id stage) := by
  refine (hc.next hs.1).bind fun r₁ found le₁ within => ?_
  cases found with
  | none => exact minds_pure nofun
  | some item =>
    refine (minds_countPulled (le₁.1 hid)).bind fun r₂ index le₂ _ => ?_
    have hi : item.Within r₂.streams := (within item rfl).mono le₂.1
    refine (hc.runStage ((hs.mono le₁).mono le₂) hi index).bind fun r₃ v le₃ hv => ?_
    refine minds_pure ?_
    rintro p ⟨⟩
    exact ⟨hi.mono le₃.1, hv⟩

theorem pullFiltered (hc : L.MindsCalls own xs c c') {id : StreamId} (hid : id ∈ r.streams)
    (hs : stage.Within r) (fuel : Nat) :
    L.Minds own xs r (fun r found => ∀ v ∈ found, v.Within r.streams)
      (c.pullFiltered id stage fuel) (c'.pullFiltered id stage fuel) := by
  induction fuel generalizing r with
  | zero => exact minds_throw _
  | succ fuel ih =>
    refine (hc.stageNext hid hs).bind ?_
    rintro r' (_ | ⟨item, verdict⟩) le within
    · exact minds_pure nofun
    · simp only
      split
      · refine minds_pure ?_
        rintro v ⟨⟩
        exact (within _ rfl).1
      · exact ih (le.1 hid) (hs.mono le)

/-- A flat-remap without an inner stream takes the next value of its body apart. -/
theorem refillFlat (hc : L.MindsCalls own xs c c') (honest : L.env.host.Honest) {id : StreamId}
    (hid : id ∈ r.streams) (hs : stage.Within r) {fuel : Nat}
    (h' : ∀ {r}, id ∈ r.streams → stage.Within r →
      L.Minds own xs r (fun r found => ∀ v ∈ found, v.Within r.streams)
        (c.pullFlat L.env.host id stage fuel) (c'.pullFlat L.env.host id stage fuel)) :
    L.Minds own xs r (fun r found => ∀ v ∈ found, v.Within r.streams)
      (do
        Eval.setInner id none
        match ← c.stageNext id stage with
        | none => return none
        | some (_, produced) =>
          let inner ← Eval.streamOf L.env.host produced
          Eval.setInner id (some inner)
          c.pullFlat L.env.host id stage fuel)
      (do
        Eval.setInner id none
        match ← c'.stageNext id stage with
        | none => return none
        | some (_, produced) =>
          let inner ← Eval.streamOf L.env.host produced
          Eval.setInner id (some inner)
          c'.pullFlat L.env.host id stage fuel) := by
  refine (minds_setInner hid fun i h => absurd h (Option.not_mem_none i)).bind fun r₁ _ le₁ _ => ?_
  refine (hc.stageNext (le₁.1 hid) (hs.mono le₁)).bind ?_
  rintro r₂ (_ | ⟨item, produced⟩) le₂ within
  · exact minds_pure nofun
  · refine (minds_streamOf honest (within _ rfl).2).bind fun r₃ inner le₃ hi => ?_
    have le : r ≤ r₃ := le₁.trans (le₂.trans le₃)
    refine (minds_setInner (le.1 hid) ?_).bind fun r₄ _ le₄ _ => ?_
    · rintro i ⟨⟩
      exact hi
    · exact h' (le₄.1 (le.1 hid)) ((hs.mono le).mono le₄)

theorem pullFlat (hc : L.MindsCalls own xs c c') (honest : L.env.host.Honest) {id : StreamId}
    (hid : id ∈ r.streams) (hs : stage.Within r) (fuel : Nat) :
    L.Minds own xs r (fun r found => ∀ v ∈ found, v.Within r.streams)
      (c.pullFlat L.env.host id stage fuel) (c'.pullFlat L.env.host id stage fuel) := by
  induction fuel generalizing r with
  | zero => exact minds_throw _
  | succ fuel ih =>
    have fromStage {r' : Reach} (le : r ≤ r') :=
      hc.refillFlat (r := r') honest (le.1 hid) (hs.mono le) fun hid hs => ih hid hs
    refine (minds_innerStream? hid).bind fun r₁ inner le₁ hi => ?_
    cases inner with
    | none => exact fromStage le₁
    | some inner =>
      refine (hc.next (hi inner rfl)).bind fun r₂ found le₂ within => ?_
      cases found with
      | none => exact fromStage (le₁.trans le₂)
      | some v => exact minds_pure within

theorem pullStream (hc : L.MindsCalls own xs c c') (honest : L.env.host.Honest) (fuel : Nat)
    {id : StreamId} (hid : id ∈ r.streams) :
    L.Minds own xs r (fun r found => ∀ v ∈ found, v.Within r.streams)
      (c.pullStream L.env.host fuel id) (c'.pullStream L.env.host fuel id) := by
  refine (minds_stream? hid).bind fun r₁ s le₁ hs => ?_
  cases s with
  | none => exact minds_pure nofun
  | some s =>
    have kind := (hs s rfl).kind
    obtain ⟨from_, peeked, pulled⟩ := s
    cases from_ with
    | source source =>
      simp only
      split
      case h_1 => exact minds_pure nofun
      case h_2 v rest taken =>
        have left := Source.rest_of_next?_some taken
        refine Minds.bind (minds_modifyStream (le₁.1 hid) ?_) fun r₂ _ le₂ _ => minds_pure ?_
        · exact fun s hs => ⟨fun w hw => kind w (left ▸ List.mem_cons_of_mem v hw), hs.peeked⟩
        · rintro w ⟨⟩
          exact (kind v (left ▸ List.mem_cons_self)).mono le₂.1
    | remap stage =>
      refine (hc.stageNext (le₁.1 hid) kind).bind fun r₂ found _ within => minds_pure ?_
      intro v hv
      obtain ⟨p, hp, rfl⟩ := Option.map_eq_some_iff.1 hv
      exact (within p hp).2
    | filter stage => exact hc.pullFiltered (le₁.1 hid) kind fuel
    | flatRemap stage inner => exact hc.pullFlat honest (le₁.1 hid) kind.1 fuel

theorem reduceStage (hc : L.MindsCalls own xs c c') (hs : stage.Within r) (fuel index : Nat)
    {last : Value} (hl : last.Within r.streams) :
    L.Minds own xs r (fun r v => v.Within r.streams) (c.reduceStage stage fuel index last)
      (c'.reduceStage stage fuel index last) := by
  induction fuel generalizing r index last with
  | zero => exact minds_throw _
  | succ fuel ih =>
    refine (hc.next hs.1).bind fun r₁ found le₁ within => ?_
    cases found with
    | none => exact minds_pure (hl.mono le₁.1)
    | some item =>
      refine (hc.runStage (hs.mono le₁) (within item rfl) index).bind fun r₂ v le₂ hv => ?_
      exact ih ((hs.mono le₁).mono le₂) _ hv

theorem firstOfStage (hc : L.MindsCalls own xs c c') (hs : stage.Within r) (fuel index : Nat) :
    L.Minds own xs r (fun r v => v.Within r.streams) (c.firstOfStage stage fuel index)
      (c'.firstOfStage stage fuel index) := by
  induction fuel generalizing r index with
  | zero => exact minds_throw _
  | succ fuel ih =>
    refine (hc.next hs.1).bind fun r₁ found le₁ within => ?_
    cases found with
    | none => exact minds_pure Value.within_null
    | some item =>
      refine (hc.runStage (hs.mono le₁) (within item rfl) index).bind fun r₂ v le₂ hv => ?_
      by_cases null : v.isNull = true
      · simp only [null, if_true]
        exact ih ((hs.mono le₁).mono le₂) _
      · simp only [null, Bool.false_eq_true, if_false]
        exact minds_pure hv

theorem applyStage (hc : L.MindsCalls own xs c c') (hs : stage.Within r) (fuel : Nat)
    (op : StreamOp) :
    L.Minds own xs r (fun r v => v.Within r.streams) (c.applyStage fuel stage op)
      (c'.applyStage fuel stage op) := by
  have made {kind : StreamKind} (hk : kind.Within r) :
      L.Minds own xs r (fun r v => v.Within r.streams)
        (do return Value.stream (← Eval.newStream { kind }))
        (do return Value.stream (← Eval.newStream { kind })) :=
    (minds_newStream (Stream.within_of_kind hk)).bind fun _ _ _ hid =>
      minds_pure (Value.within_stream.2 hid)
  cases op with
  | remap | filter => exact made hs
  | flatRemap => exact made ⟨hs, fun _ h => nomatch h⟩
  | reduce => exact hc.reduceStage hs fuel 0 Value.within_null
  | first => exact hc.firstOfStage hs fuel 0

/-! ### Sections -/

theorem internal (hc : L.MindsCalls own xs c c') (lookup : Lookup) (name : InternalName) :
    L.Minds own xs r (fun r v => v.Within r.streams) (c.internal lookup name)
      (c'.internal lookup name) := by
  refine minds_context.bind fun r' context _ sees => ?_
  cases found : context.section? lookup with
  | none => exact minds_pure Value.within_null
  | some s =>
    cases name with
    | index =>
      refine minds_pure ?_
      cases s.index with
      | none => exact Value.within_null
      | some i => exact Value.within_of_streamless rfl
    | isFirst => exact minds_pure (Value.within_bool _)
    | hasNext =>
      simp only
      split
      case h_1 b _ => exact minds_pure (Value.within_bool b)
      case h_2 id following =>
        have asked : L.Minds own xs r' anything (c.hasNext id) (c'.hasNext id) := by
          rcases sees.following s (mem_of_section? found) id following with
            inside | waits | ⟨rfl, -⟩
          · exact hc.hasNext inside
          · exact hc.wait waits
          · exact hc.ask
        exact asked.bind fun _ b _ _ => minds_pure (Value.within_bool b)

end MindsCalls

end Lease

end TagExpr
