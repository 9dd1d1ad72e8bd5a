import TagExpr.Proofs.Stream.Remains
import Mathlib.Order.CompletePartialOrder

/-!
# Stages as list functions

A stage reads a stream and runs a body for each of its elements. If the body computes a function of
the element and changes nothing that matters (`Stage.Computes`), the stage does to what the stream
before it has left what `map`, `filter` and `flatMap` do to a list.
-/

namespace TagExpr

variable {env : Environment} {S : Setting} {need fuel : Nat} {stage : Stage} {f : Value → Value}
  {F G H : Set StreamId} {m m' : Machine} {id : StreamId} {xs ys zs : List Value}

/-- Run for any of these elements on a calm machine, with enough levels at hand, the body has the
value of the function and leaves the machine calm and the streams as they are. -/
def Stage.Computes (env : Environment) (S : Setting) (need : Nat) (stage : Stage)
    (f : Value → Value) (xs : List Value) : Prop :=
  ∀ x ∈ xs, ∀ m, S.calm m → ∀ index fuel, need ≤ fuel →
    Ends ((Calls.levels env fuel).runStage stage x index) m (fun v m' => v = f x ∧ S.Moves ∅ m m')
      fun _ _ => False

theorem Stage.Computes.tail (h : stage.Computes env S need f xs) :
    stage.Computes env S need f xs.tail :=
  fun x hx => h x (List.mem_of_mem_tail hx)

theorem Stage.Computes.mono {need' : Nat} (h : stage.Computes env S need f xs)
    (more : need ≤ need') : stage.Computes env S need' f xs :=
  fun x hx m calm index fuel enough => h x hx m calm index fuel (more.trans enough)

/-! ## The stream before a stage -/

/-- These elements are left to the stage, and on each of them its body computes the function. -/
structure Fed (env : Environment) (S : Setting) (need : Nat) (stage : Stage) (f : Value → Value)
    (G : Set StreamId) (ys : List Value) (m : Machine) : Prop where
  input : Remains env S need m stage.input G ys
  computes : stage.Computes env S need f ys

theorem Fed.stable (h : Fed env S need stage f G ys m)
    (same : ∀ i ∈ G, m'.streams[i]? = m.streams[i]?) : Fed env S need stage f G ys m' :=
  ⟨h.input.stable same, h.computes⟩

theorem Fed.moves (h : Fed env S need stage f G ys m) (hm : S.Moves H m m')
    (apart : ∀ i ∈ G, i ∉ H) : Fed env S need stage f G ys m' :=
  ⟨h.input.moves apart hm, h.computes⟩

/-- What a stage comes to for the next element: the element with the value of its body. Of the
stream `id` behind the stage only the count has changed. -/
structure Staged (env : Environment) (S : Setting) (need : Nat) (stage : Stage) (f : Value → Value)
    (id : StreamId) (G : Set StreamId) (ys : List Value) (m : Machine)
    (found : Option (Value × Value)) (m' : Machine) : Prop where
  head : found = ys.head?.map fun y => (y, f y)
  moves : S.Moves (insert id G) m m'
  kind : m'.kind? id = m.kind? id
  peeked : m'.peeked? id = m.peeked? id
  left : ∃ G', m.Renews G G' ∧ Fed env S need stage f G' ys.tail m'

theorem Fed.stageNext (h : Fed env S need stage f G ys m) (made : id < m.streams.size)
    (apart : id ∉ G) (calm : S.calm m) (enough : need ≤ fuel) :
    Ends ((Calls.levels env fuel).stageNext id stage) m (Staged env S need stage f id G ys m)
      fun _ _ => False := by
  unfold Calls.stageNext
  rw [ends_bind]
  refine (h.input.next calm enough).mono ?_ fun _ _ h => h
  rintro found m₁ ⟨rfl, moves, G', renews, left⟩
  have within : S.Moves (insert id G) m m₁ := moves.mono (Set.subset_insert id G)
  have kind : m₁.kind? id = m.kind? id := moves.kind? made apart
  have peeked : m₁.peeked? id = m.peeked? id := moves.peeked? made apart
  cases ys with
  | nil =>
    exact
      { head := rfl
        moves := within
        kind := kind
        peeked := peeked
        left := ⟨G', renews, left, h.computes⟩ }
  | cons y ys =>
    -- The element is counted, which changes the stream itself and no other.
    let counted := m₁.update id fun s => { s with pulled := s.pulled + 1 }
    have movesCounted : S.Moves {id} m₁ counted :=
      S.moves_update moves.calm (Set.mem_singleton id) _
    have kindCounted : counted.kind? id = m₁.kind? id := by
      refine Machine.kind?_update ?_ id
      exact fun _ => rfl
    have peekedCounted : counted.peeked? id = m₁.peeked? id := by
      refine Machine.peeked?_update ?_ id
      exact fun _ => rfl
    have madeCounted : id < counted.streams.size :=
      made.trans_le (moves.grows.trans movesCounted.grows)
    obtain ⟨position, count⟩ : ∃ position, Eval.countPulled id m₁ = .ok position counted := ⟨_, rfl⟩
    show Ends (Eval.countPulled id >>= _) m₁ _ _
    rw [ends_bind, ends_of_ok count, ends_bind]
    refine (h.computes y List.mem_cons_self counted movesCounted.calm position fuel enough).mono ?_
      fun _ _ h => h
    rintro v m₂ ⟨rfl, movesRun⟩
    have tally : S.Moves (insert id G) m counted :=
      within.trans (.refl m _)
        (movesCounted.mono (Set.singleton_subset_iff.2 (Set.mem_insert id G)))
    have fed : Fed env S need stage f G' ys m₁ := ⟨left, h.computes.tail⟩
    have apart' : id ∉ G' := renews.not_mem made apart
    exact
      { head := rfl
        moves := tally.trans (.refl m _) (movesRun.mono (Set.empty_subset _))
        kind := by rw [movesRun.kind? madeCounted (Set.notMem_empty id), kindCounted, kind]
        peeked := by
          rw [movesRun.peeked? madeCounted (Set.notMem_empty id), peekedCounted, peeked]
        left := by
          refine ⟨G', renews, (fed.moves movesCounted ?_).moves movesRun ?_⟩
          · rintro i hi rfl
            exact apart' hi
          · exact fun i _ => Set.notMem_empty i }

theorem Machine.Renews.insert (h : m.Renews G F) (id : StreamId) :
    m.Renews (insert id G) (insert id F) := by
  rintro i (rfl | hi)
  · exact .inl (Set.mem_insert i G)
  · exact (h i hi).imp_left (Set.mem_insert_of_mem id)

/-! ## Values of bodies, and elements that pass -/

/-- A stage of this kind makes of what is left to it what `given` says. -/
def Passing (env : Environment) (S : Setting) (need : Nat) (stage : Stage) (f : Value → Value)
    (passing : StreamKind) (given : List Value → List Value) (kind : StreamKind)
    (G : Set StreamId) (xs : List Value) (m : Machine) : Prop :=
  kind = passing ∧ ∃ ys, Fed env S need stage f G ys m ∧ ys.length < need ∧ xs = given ys

theorem settles_passing (passing : StreamKind) (given : List Value → List Value) :
    Settles (Passing env S need stage f passing given) where
  made := by
    rintro kind G xs m ⟨rfl, ys, fed, -⟩
    exact fed.input.made
  stable := by
    rintro kind G xs m m' ⟨rfl, ys, fed, few, rfl⟩ same
    exact ⟨rfl, ys, fed.stable same, few, rfl⟩

theorem feeds_remap (env : Environment) (S : Setting) (need : Nat) (stage : Stage)
    (f : Value → Value) (id : StreamId) :
    Feeds env S (need + 1) id
      (Reading id (Passing env S need stage f (.remap stage) (·.map f))) := by
  refine feeds_reading (settles_passing _ _) ?_
  rintro kind G xs m apart found ⟨rfl, ys, fed, few, rfl⟩ calm fuel enough
  rw [Calls.pullKind, ends_bind]
  refine (fed.stageNext (Machine.lt_of_kind? found) apart calm enough).mono ?_ fun _ _ h => h
  rintro _ m' ⟨rfl, moves, kind, peeked, G', renews, left⟩
  have apart' : id ∉ G' := renews.not_mem (Machine.lt_of_kind? found) apart
  refine ⟨?_, moves, peeked, insert id G', renews.insert id, G', _, rfl, apart', kind.trans found,
    rfl, ys.tail, left, ?_, ?_⟩
  · cases ys <;> rfl
  · rw [List.length_tail]
    omega
  · exact List.map_tail.symm

theorem feeds_filter (env : Environment) (S : Setting) (need : Nat) (stage : Stage)
    (f : Value → Value) (id : StreamId) :
    Feeds env S (need + 1) id
      (Reading id
        (Passing env S need stage f (.filter stage) (·.filter fun y => (f y).isTruthy))) := by
  refine feeds_reading (settles_passing _ _) ?_
  rintro kind G xs m apart found ⟨rfl, ys, fed, few, rfl⟩ calm fuel enough
  rw [Calls.pullKind]
  -- The loop takes elements until one passes, so it is followed along the list.
  suffices passes : ∀ loops, ys.length < loops →
      Ends ((Calls.levels env fuel).pullFiltered id stage loops) m
        (Delivered S id
          (Reading id
            (Passing env S need stage f (.filter stage) (·.filter fun y => (f y).isTruthy)))
          (insert id G) (ys.filter fun y => (f y).isTruthy) m) fun _ _ => False from
    passes fuel (few.trans_le enough)
  intro loops many
  induction loops generalizing m G ys with
  | zero => contradiction
  | succ loops ih =>
    have made : id < m.streams.size := Machine.lt_of_kind? found
    unfold Calls.pullFiltered
    rw [ends_bind]
    refine (fed.stageNext made apart calm enough).mono ?_ fun _ _ h => h
    rintro _ m' ⟨rfl, moves, kind, peeked, G', renews, left⟩
    have apart' : id ∉ G' := renews.not_mem made apart
    cases ys with
    | nil =>
      exact ⟨rfl, moves, peeked, insert id G', renews.insert id, G', _, rfl, apart',
        kind.trans found, rfl, [], left, few, rfl⟩
    | cons y ys =>
      have fewer : ys.length < need := (Nat.lt_succ_self _).trans few
      by_cases truthy : (f y).isTruthy = true
      · have kept : (y :: ys).filter (fun y => (f y).isTruthy) =
            y :: ys.filter fun y => (f y).isTruthy := List.filter_cons_of_pos truthy
        rw [kept]
        show Ends (if (f y).isTruthy = true then _ else _ : Eval (Option Value)) m' _ _
        rw [if_pos truthy]
        exact ⟨rfl, moves, peeked, insert id G', renews.insert id, G', _, rfl, apart',
          kind.trans found, rfl, ys, left, fewer, rfl⟩
      · have skipped : (y :: ys).filter (fun y => (f y).isTruthy) =
            ys.filter fun y => (f y).isTruthy := List.filter_cons_of_neg truthy
        rw [skipped]
        show Ends (if (f y).isTruthy = true then _ else _ : Eval (Option Value)) m' _ _
        rw [if_neg truthy]
        refine (ih apart' (kind.trans found) ys left fewer moves.calm
          (Nat.lt_of_succ_lt_succ many)).mono ?_ fun _ _ h => h
        exact fun _ _ delivered => delivered.after moves (renews.insert id) peeked

/-! ## Elements of the values of bodies -/

/-- What the inner stream of a flat-remap has left; without one there is nothing. -/
def InnerRemains (env : Environment) (S : Setting) (need : Nat) (inner : Option StreamId)
    (H : Set StreamId) (zs : List Value) (m : Machine) : Prop :=
  match inner with
  | none => H = ∅ ∧ zs = []
  | some inner => Remains env S need m inner H zs

theorem InnerRemains.made {inner : Option StreamId} (h : InnerRemains env S need inner H zs m) :
    ∀ i ∈ H, i < m.streams.size := by
  cases inner with
  | none =>
    obtain ⟨rfl, -⟩ := h
    exact fun i hi => absurd hi (Set.notMem_empty i)
  | some inner => exact Remains.made h

theorem InnerRemains.stable {inner : Option StreamId} (h : InnerRemains env S need inner H zs m)
    (same : ∀ i ∈ H, m'.streams[i]? = m.streams[i]?) : InnerRemains env S need inner H zs m' := by
  cases inner with
  | none => exact h
  | some inner => exact Remains.stable h same

/-- A flat-remap between two reads. The inner stream and the stream before the stage have footprints
apart from each other. -/
structure Flat (env : Environment) (S : Setting) (need : Nat) (stage : Stage) (f : Value → Value)
    (inner : Option StreamId) (G H : Set StreamId) (ys zs : List Value) (m : Machine) : Prop where
  fed : Fed env S need stage f G ys m
  inner : InnerRemains env S need inner H zs m
  disjoint : Disjoint G H
  few : ys.length + 1 < need
  plain : ∀ y ∈ ys, ∀ id, f y ≠ .stream id

/-- The elements of the values of the body, one value after the other. -/
def flattened (env : Environment) (f : Value → Value) (ys : List Value) : List Value :=
  ys.flatMap fun y => (f y).elements env.host

/-- A flat-remap gives what the inner stream has left, and then the elements of the values of the
body. -/
def Flattening (env : Environment) (S : Setting) (need : Nat) (stage : Stage) (f : Value → Value)
    (kind : StreamKind) (J : Set StreamId) (xs : List Value) (m : Machine) : Prop :=
  ∃ inner G H ys zs, kind = .flatRemap stage inner ∧ J = G ∪ H ∧
    Flat env S need stage f inner G H ys zs m ∧ xs = zs ++ flattened env f ys

theorem settles_flattening : Settles (Flattening env S need stage f) where
  made := by
    rintro kind J xs m ⟨inner, G, H, ys, zs, rfl, rfl, flat, rfl⟩ i (hi | hi)
    · exact flat.fed.input.made i hi
    · exact flat.inner.made i hi
  stable := by
    rintro kind J xs m m' ⟨inner, G, H, ys, zs, rfl, rfl, flat, rfl⟩ same
    exact ⟨inner, G, H, ys, zs, rfl, rfl,
      { flat with
        fed := flat.fed.stable fun i hi => same i (.inl hi)
        inner := flat.inner.stable fun i hi => same i (.inr hi) }, rfl⟩

/-- The stream with another inner stream, if it is a flat-remap. -/
def Stream.withInner (next : Option StreamId) (s : Stream) : Stream :=
  match s.kind with
  | .flatRemap stage _ => { s with kind := .flatRemap stage next }
  | _ => s

/-- Another inner stream is put in its place. -/
theorem ends_setInner {inner : Option StreamId} (found : m.kind? id = some (.flatRemap stage inner))
    (calm : S.calm m) (next : Option StreamId) :
    Ends (Eval.setInner id next) m
      (fun _ m' => S.Moves {id} m m' ∧ m'.kind? id = some (.flatRemap stage next) ∧
        m'.peeked? id = m.peeked? id)
      fun _ _ => False := by
  show S.Moves {id} m (m.update id (.withInner next)) ∧
    (m.update id (.withInner next)).kind? id = _ ∧
    (m.update id (.withInner next)).peeked? id = _
  refine ⟨S.moves_update calm (Set.mem_singleton id) _, ?_, ?_⟩
  · obtain ⟨⟨kind, peeked, pulled⟩, stored, rfl⟩ := Option.map_eq_some_iff.1 found
    rw [Machine.kind?, Machine.getElem?_update_self, stored]
    rfl
  · refine Machine.peeked?_update ?_ id
    intro s
    unfold Stream.withInner
    split <;> rfl

theorem innerStream?_eq {inner : Option StreamId}
    (found : m.kind? id = some (.flatRemap stage inner)) :
    Eval.innerStream? id m = .ok inner m := by
  obtain ⟨⟨kind, peeked, pulled⟩, stored, rfl⟩ := Option.map_eq_some_iff.1 found
  have looked : Eval.stream? id m = .ok (some ⟨.flatRemap stage inner, peeked, pulled⟩) m :=
    congrArg (EStateM.Result.ok · m) stored
  unfold Eval.innerStream?
  simp only [Bind.bind, EStateM.bind, looked]
  rfl

/-- With so many rounds at hand a flat-remap delivers what it should. -/
def FlattensIn (env : Environment) (S : Setting) (need fuel : Nat) (stage : Stage)
    (f : Value → Value) (id : StreamId) (rounds : Nat) : Prop :=
  ∀ {m inner G H ys zs}, id ∉ G ∪ H → m.kind? id = some (.flatRemap stage inner) →
    Flat env S need stage f inner G H ys zs m → S.calm m → ys.length + 1 < rounds →
    Ends ((Calls.levels env fuel).pullFlat env.host id stage rounds) m
      (Delivered S id (Reading id (Flattening env S need stage f)) (insert id (G ∪ H))
        (zs ++ flattened env f ys) m)
      fun _ _ => False

/-- Where the inner stream has nothing left, the stage makes the next one. -/
theorem FlattensIn.refill {rounds : Nat} (h : FlattensIn env S need fuel stage f id rounds)
    (enough : need ≤ fuel) {inner : Option StreamId} (apart : id ∉ G)
    (found : m.kind? id = some (.flatRemap stage inner)) (fed : Fed env S need stage f G ys m)
    (few : ys.length + 1 < need) (plain : ∀ y ∈ ys, ∀ id, f y ≠ .stream id) (calm : S.calm m)
    (many : ys.length + 1 < rounds + 1) :
    Ends (do
        Eval.setInner id none
        match ← (Calls.levels env fuel).stageNext id stage with
        | none => return none
        | some (_, produced) =>
          let inner ← Eval.streamOf env.host produced
          Eval.setInner id (some inner)
          (Calls.levels env fuel).pullFlat env.host id stage rounds) m
      (Delivered S id (Reading id (Flattening env S need stage f)) (insert id G)
        (flattened env f ys) m)
      fun _ _ => False := by
  have own {i : StreamId} (hi : i ∈ ({id} : Set StreamId)) : i ∈ insert id G := by
    rw [Set.mem_singleton_iff.1 hi]
    exact Set.mem_insert id G
  rw [ends_bind]
  refine (ends_setInner found calm none).mono ?_ fun _ _ h => h
  rintro - m₁ ⟨moves₁, kind₁, peeked₁⟩
  have fed₁ : Fed env S need stage f G ys m₁ := fed.moves moves₁ fun i hi same =>
    apart (Set.mem_singleton_iff.1 same ▸ hi)
  rw [ends_bind]
  refine (fed₁.stageNext (Machine.lt_of_kind? kind₁) apart moves₁.calm enough).mono ?_
    fun _ _ h => h
  rintro _ m₂ ⟨rfl, moves₂, kind₂, peeked₂, G', renews, left⟩
  have made₂ : id < m₂.streams.size := (Machine.lt_of_kind? kind₁).trans_le moves₂.grows
  have apart' : id ∉ G' := renews.not_mem (Machine.lt_of_kind? kind₁) apart
  have moves : S.Moves (insert id G) m m₂ :=
    (moves₁.mono fun _ => own).trans (.refl m _) moves₂
  have peeked : m₂.peeked? id = m.peeked? id := peeked₂.trans peeked₁
  have renews' : m.Renews G G' := fun i hi => (renews i hi).imp_right moves₁.grows.trans
  cases ys with
  | nil =>
    refine ⟨rfl, moves, peeked, insert id (G' ∪ ∅), ?_, G' ∪ ∅, _, rfl, ?_, kind₂.trans kind₁, none,
      G', ∅, [], [], rfl, rfl, ⟨left, ⟨rfl, rfl⟩, Set.disjoint_empty G', few, plain⟩, rfl⟩
    · rw [Set.union_empty]
      exact renews'.insert id
    · rw [Set.union_empty]
      exact apart'
  | cons y ys =>
    show Ends (Eval.streamOf env.host (f y) >>= _) m₂ _ _
    rw [ends_bind]
    refine (ends_streamOf moves₂.calm (plain y List.mem_cons_self)).mono ?_ fun _ _ h => h
    rintro j m₃ ⟨moves₃, fresh, left₃⟩
    have kind₃ : m₃.kind? id = some (.flatRemap stage none) := by
      rw [moves₃.kind? made₂ (Set.notMem_empty id), kind₂, kind₁]
    have newer : id ≠ j := by
      rw [fresh]
      exact made₂.ne
    rw [ends_bind]
    refine (ends_setInner kind₃ moves₃.calm (some j)).mono ?_ fun _ _ h => h
    rintro - m₄ ⟨moves₄, kind₄, peeked₄⟩
    have flat : Flat env S need stage f (some j) G' {j} ys ((f y).elements env.host) m₄ :=
      { fed := by
          refine (left.moves moves₃ fun i _ => Set.notMem_empty i).moves moves₄ ?_
          rintro i hi rfl
          exact apart' hi
        inner := by
          refine (left₃.mono (by omega)).moves ?_ moves₄
          rintro i rfl same
          exact newer (Set.mem_singleton_iff.1 same).symm
        disjoint := by
          refine Set.disjoint_singleton_right.2 fun hj => ?_
          exact Nat.lt_irrefl j ((left.input.made j hj).trans_eq fresh.symm)
        few := (Nat.lt_succ_self _).trans few
        plain := fun x hx => plain x (List.mem_cons_of_mem y hx) }
    have outside : id ∉ G' ∪ {j} := by
      rintro (hi | hi)
      · exact apart' hi
      · exact newer hi
    have total : S.Moves (insert id G) m m₄ :=
      (moves.trans (.refl m _) (moves₃.mono (Set.empty_subset _))).trans (.refl m _)
        (moves₄.mono fun _ => own)
    have renewed : m.Renews (insert id G) (insert id (G' ∪ {j})) := by
      rintro i (rfl | hi | rfl)
      · exact .inl (Set.mem_insert i G)
      · exact (renews' i hi).imp_left (Set.mem_insert_of_mem id)
      · exact .inr (moves.grows.trans_eq fresh.symm)
    refine (h outside kind₄ flat moves₄.calm (Nat.lt_of_succ_lt_succ many)).mono ?_ fun _ _ h => h
    intro found m' delivered
    refine delivered.after total renewed ?_
    rw [peeked₄, moves₃.peeked? made₂ (Set.notMem_empty id), peeked]

theorem flattensIn (enough : need ≤ fuel) (rounds : Nat) :
    FlattensIn env S need fuel stage f id rounds := by
  induction rounds with
  | zero =>
    intro m inner G H ys zs _ _ _ _ many
    contradiction
  | succ rounds ih =>
    intro m inner G H ys zs apart found flat calm many
    have apartG : id ∉ G := fun hi => apart (.inl hi)
    have apartH : id ∉ H := fun hi => apart (.inr hi)
    have made : id < m.streams.size := Machine.lt_of_kind? found
    unfold Calls.pullFlat
    rw [ends_bind, ends_of_ok (innerStream?_eq found)]
    cases inner with
    | none =>
      obtain ⟨rfl, rfl⟩ := flat.inner
      rw [Set.union_empty]
      exact ih.refill enough apartG found flat.fed flat.few flat.plain calm many
    | some inner =>
      have left : Remains env S need m inner H zs := flat.inner
      show Ends ((Calls.levels env fuel).next inner >>= _) m _ _
      rw [ends_bind]
      refine (left.next calm enough).mono ?_ fun _ _ h => h
      rintro _ m₁ ⟨rfl, moves, H', renews, left'⟩
      have within : S.Moves (insert id (G ∪ H)) m m₁ :=
        moves.mono fun i hi => Set.mem_insert_of_mem id (.inr hi)
      have kind : m₁.kind? id = some _ := (moves.kind? made apartH).trans found
      have peeked : m₁.peeked? id = m.peeked? id := moves.peeked? made apartH
      have fed : Fed env S need stage f G ys m₁ :=
        flat.fed.moves moves fun i hi => Set.disjoint_left.1 flat.disjoint hi
      cases zs with
      | nil =>
        -- The inner stream has ended.
        refine (ih.refill enough apartG kind fed flat.few flat.plain moves.calm many).mono ?_
          fun _ _ h => h
        intro found m' delivered
        refine delivered.after within ?_ peeked
        rintro i (rfl | hi)
        · exact .inl (Set.mem_insert i _)
        · exact .inl (Set.mem_insert_of_mem id (.inl hi))
      | cons z zs =>
        have apartH' : id ∉ H' := renews.not_mem made apartH
        have disjoint : Disjoint G H' := by
          refine Set.disjoint_left.2 fun i hi hi' => ?_
          exact renews.not_mem (flat.fed.input.made i hi) (Set.disjoint_left.1 flat.disjoint hi) hi'
        have outside : id ∉ G ∪ H' := by
          rintro (hi | hi)
          · exact apartG hi
          · exact apartH' hi
        refine ⟨rfl, within, peeked, insert id (G ∪ H'), ?_, G ∪ H', _, rfl, outside, kind,
          some inner, G, H', ys, zs, rfl, rfl, { flat with fed, inner := left', disjoint }, rfl⟩
        refine Machine.Renews.insert ?_ id
        rintro i (hi | hi)
        · exact .inl (.inl hi)
        · exact (renews i hi).imp_left .inr

theorem feeds_flatRemap (env : Environment) (S : Setting) (need : Nat) (stage : Stage)
    (f : Value → Value) (id : StreamId) :
    Feeds env S (need + 1) id (Reading id (Flattening env S need stage f)) := by
  refine feeds_reading settles_flattening ?_
  rintro kind J xs m apart found ⟨inner, G, H, ys, zs, rfl, rfl, flat, rfl⟩ calm fuel enough
  exact flattensIn enough fuel apart found flat calm (flat.few.trans_le enough)

/-! ## One value for the whole stream -/

/-- Of the values of the body the last one stays. -/
theorem Fed.reduce (h : Fed env S need stage f G ys m) (calm : S.calm m) (enough : need ≤ fuel)
    {rounds : Nat} (many : ys.length < rounds) (index : Nat) (last : Value) :
    Ends ((Calls.levels env fuel).reduceStage stage rounds index last) m
      (fun v m' => v = (ys.map f).getLastD last ∧ S.calm m') fun _ _ => False := by
  induction rounds generalizing m G ys index last with
  | zero => contradiction
  | succ rounds ih =>
    unfold Calls.reduceStage
    rw [ends_bind]
    refine (h.input.next calm enough).mono ?_ fun _ _ h => h
    rintro found m₁ ⟨rfl, moves, G', -, left⟩
    cases ys with
    | nil => exact ⟨rfl, moves.calm⟩
    | cons y ys =>
      show Ends ((Calls.levels env fuel).runStage stage y index >>= _) m₁ _ _
      rw [ends_bind]
      refine (h.computes y List.mem_cons_self m₁ moves.calm index fuel enough).mono ?_
        fun _ _ h => h
      rintro v m₂ ⟨rfl, movesRun⟩
      have fed : Fed env S need stage f G' ys m₂ :=
        ⟨left.moves (fun i _ => Set.notMem_empty i) movesRun, h.computes.tail⟩
      rw [List.map_cons, List.getLastD_cons]
      exact ih fed movesRun.calm (Nat.lt_of_succ_lt_succ many) (index + 1) (f y)

/-- The first value of the body that is not null. -/
theorem Fed.first (h : Fed env S need stage f G ys m) (calm : S.calm m) (enough : need ≤ fuel)
    {rounds : Nat} (many : ys.length < rounds) (index : Nat) :
    Ends ((Calls.levels env fuel).firstOfStage stage rounds index) m
      (fun v m' => v = ((ys.map f).find? fun v => !v.isNull).getD .null ∧ S.calm m')
      fun _ _ => False := by
  induction rounds generalizing m G ys index with
  | zero => contradiction
  | succ rounds ih =>
    unfold Calls.firstOfStage
    rw [ends_bind]
    refine (h.input.next calm enough).mono ?_ fun _ _ h => h
    rintro found m₁ ⟨rfl, moves, G', -, left⟩
    cases ys with
    | nil => exact ⟨rfl, moves.calm⟩
    | cons y ys =>
      show Ends ((Calls.levels env fuel).runStage stage y index >>= _) m₁ _ _
      rw [ends_bind]
      refine (h.computes y List.mem_cons_self m₁ moves.calm index fuel enough).mono ?_
        fun _ _ h => h
      rintro v m₂ ⟨rfl, movesRun⟩
      have fed : Fed env S need stage f G' ys m₂ :=
        ⟨left.moves (fun i _ => Set.notMem_empty i) movesRun, h.computes.tail⟩
      by_cases null : (f y).isNull = true
      · rw [if_pos null, List.map_cons, List.find?_cons_of_neg (by simp [null])]
        exact ih fed movesRun.calm (Nat.lt_of_succ_lt_succ many) (index + 1)
      · rw [if_neg null, List.map_cons, List.find?_cons_of_pos (by simp [null])]
        exact ⟨rfl, movesRun.calm⟩

end TagExpr
