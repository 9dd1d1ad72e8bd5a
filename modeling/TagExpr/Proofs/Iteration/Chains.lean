import TagExpr.Proofs.Eval.Agree
import TagExpr.Proofs.Stream.Pipeline
import TagExpr.Proofs.Stream.Remains

/-!
# Chains of stages that may be read ahead

A stage behind a stream that may be read ahead makes a stream that may be read ahead, if its body
has the same values wherever it runs (`Supply.behind`). The body may look at the number of the
element, and it may ask whether another one follows; what it must not do is look at the sections of
whoever reads the stream.
-/

namespace TagExpr

variable {env : Environment} {𝒮 : Set Setting} {S : Setting} {less need fuel i : Nat}
  {stage : Stage} {ps : List (Value × Value)} {kind : StreamKind} {F G H : Set StreamId}
  {m m' : Machine} {id : StreamId} {zs : List Value}

/-! ## Bodies that have the same values at all places -/

/-- At all of the places the body has these values for these elements. It may read ahead in the
stream before the stage. -/
def Stage.Tells (env : Environment) (𝒮 : Set Setting) (less need : Nat) (stage : Stage)
    (ps : List (Value × Value)) : Prop :=
  ∀ i p, ps[i]? = some p → ∀ S ∈ 𝒮, ∀ m G, S.calm m →
    Supply env 𝒮 less m stage.input G ((ps.drop (i + 1)).map (·.1)) → ∀ fuel, need ≤ fuel →
    Ends ((Calls.levels env fuel).runStage stage p.1 i) m
      (fun v m' => v = p.2 ∧ S.Moves G m m' ∧ ∃ G', m.Renews G G' ∧
        Supply env 𝒮 less m' stage.input G' ((ps.drop (i + 1)).map (·.1)))
      fun _ _ => False

/-- What a stream of this kind has of the elements with the values of the body for them. -/
def StreamKind.given (h : Host) (ps : List (Value × Value)) : StreamKind → List Value
  | .source _ => []
  | .remap _ => ps.map (·.2)
  | .filter _ => (ps.filter (·.2.isTruthy)).map (·.1)
  | .flatRemap _ _ => ps.flatMap fun p => p.2.elements h

/-- What the inner stream of a flat-remap has left. There is nothing without one. -/
def InnerSupply (env : Environment) (𝒮 : Set Setting) (need : Nat) (H : Set StreamId)
    (zs : List Value) (m : Machine) : StreamKind → Prop
  | .flatRemap _ (some inner) => Supply env 𝒮 need m inner H zs
  | _ => H = ∅ ∧ zs = []

theorem InnerSupply.made (h : InnerSupply env 𝒮 need H zs m kind) :
    ∀ i ∈ H, i < m.streams.size := by
  unfold InnerSupply at h
  split at h
  case h_1 => exact h.made
  case h_2 =>
    obtain ⟨rfl, -⟩ := h
    exact fun i hi => absurd hi (Set.notMem_empty i)

theorem InnerSupply.stable (h : InnerSupply env 𝒮 need H zs m kind)
    (same : ∀ i ∈ H, m'.streams[i]? = m.streams[i]?) : InnerSupply env 𝒮 need H zs m' kind := by
  unfold InnerSupply at h ⊢
  split at h
  case h_1 => exact h.stable same
  case h_2 => exact h

/-- The stream behind the stage, between two reads: the stage has taken so many of the elements, of
the inner stream the elements `zs` are left. -/
structure Linked (env : Environment) (𝒮 : Set Setting) (less need : Nat) (stage : Stage)
    (ps : List (Value × Value)) (id : StreamId) (i : Nat) (kind : StreamKind) (G H : Set StreamId)
    (zs : List Value) (m : Machine) : Prop where
  stored : ∃ ahead, m.streams[id]? = some ⟨kind, ahead, i⟩
  reads : kind.stage? = some stage
  input : Supply env 𝒮 less m stage.input G ((ps.drop i).map (·.1))
  inner : InnerSupply env 𝒮 need H zs m kind
  disjoint : Disjoint G H
  apart : id ∉ G ∪ H
  /-- A flat-remap does not have to read streams that its body has. -/
  plain : ∀ inner, kind = .flatRemap stage inner → ∀ p ∈ ps, ∀ j, p.2 ≠ .stream j

/-- The stream behind the stage makes these elements. -/
def Chained (env : Environment) (𝒮 : Set Setting) (less need : Nat) (stage : Stage)
    (ps : List (Value × Value)) (id : StreamId) (F : Set StreamId) (xs : List Value)
    (m : Machine) : Prop :=
  ∃ i kind G H zs, F = insert id (G ∪ H) ∧ Linked env 𝒮 less need stage ps id i kind G H zs m ∧
    xs = zs ++ kind.given env.host (ps.drop i)

namespace Linked

theorem kind? (h : Linked env 𝒮 less need stage ps id i kind G H zs m) :
    m.kind? id = some kind := by
  obtain ⟨ahead, stored⟩ := h.stored
  rw [Machine.kind?, stored]
  rfl

theorem made (h : Linked env 𝒮 less need stage ps id i kind G H zs m) : id < m.streams.size :=
  Machine.lt_of_kind? h.kind?

/-- The stage has taken some elements, and possibly others have been read ahead. -/
theorem taken {n : Nat} {ahead : Option Value}
    (h : Linked env 𝒮 less need stage ps id i kind G H zs m) (moves : S.Moves (insert id G) m m')
    (renews : m.Renews G F) (stored : m'.streams[id]? = some ⟨kind, ahead, n⟩)
    (input : Supply env 𝒮 less m' stage.input F ((ps.drop n).map (·.1))) :
    Linked env 𝒮 less need stage ps id n kind F H zs m' where
  stored := ⟨ahead, stored⟩
  reads := h.reads
  input := input
  inner := by
    refine h.inner.stable fun j hj => moves.keeps j (h.inner.made j hj) ?_
    rintro (rfl | inside)
    · exact h.apart (.inr hj)
    · exact Set.disjoint_left.1 h.disjoint inside hj
  disjoint := by
    refine Set.disjoint_right.2 fun j hj => renews.not_mem (h.inner.made j hj) ?_
    exact Set.disjoint_right.1 h.disjoint hj
  apart := by
    rintro (inside | inside)
    · exact renews.not_mem h.made (fun hi => h.apart (.inl hi)) inside
    · exact h.apart (.inr inside)
  plain := h.plain

/-- The next element with the value of the body for it. -/
theorem stageNext (h : Linked env 𝒮 less need stage ps id i kind G H zs m)
    (tells : stage.Tells env 𝒮 less need ps) (le : less ≤ need) (place : S ∈ 𝒮) (calm : S.calm m)
    (enough : need ≤ fuel) :
    Ends ((Calls.levels env fuel).stageNext id stage) m
      (fun found m' => found = ps[i]? ∧ S.Moves (insert id G) m m' ∧
        m'.peeked? id = m.peeked? id ∧ ∃ G', m.Renews G G' ∧
          Linked env 𝒮 less need stage ps id (i + found.toList.length) kind G' H zs m')
      fun _ _ => False := by
  obtain ⟨ahead, stored⟩ := h.stored
  have apart : id ∉ G := fun hi => h.apart (.inl hi)
  unfold Calls.stageNext
  rw [ends_bind]
  refine (h.input.next place calm (le.trans enough)).mono ?_ fun _ _ h => h
  rintro _ m₁ ⟨rfl, moves, G₁, renews, left⟩
  have within : S.Moves (insert id G) m m₁ := moves.mono (Set.subset_insert id G)
  have stored₁ : m₁.streams[id]? = some ⟨kind, ahead, i⟩ :=
    (moves.keeps id h.made apart).trans stored
  rw [List.head?_map, List.head?_drop]
  rw [← List.map_tail, List.tail_drop] at left
  cases element : ps[i]? with
  | none =>
    have beyond := List.getElem?_eq_none_iff.1 element
    have left : Supply env 𝒮 less m₁ stage.input G₁ ((ps.drop i).map (·.1)) := by
      rw [List.drop_eq_nil_of_le beyond]
      rwa [List.drop_eq_nil_of_le (beyond.trans (Nat.le_succ i))] at left
    exact ⟨rfl, within, moves.peeked? h.made apart, G₁, renews, h.taken within renews stored₁ left⟩
  | some p =>
    -- The element is counted, which changes the stream itself and no other.
    let counted := m₁.update id fun s => { s with pulled := s.pulled + 1 }
    have count : Eval.countPulled id m₁ = .ok i counted := countPulled_eq stored₁
    have apart₁ : id ∉ G₁ := renews.not_mem h.made apart
    have movesCounted : S.Moves {id} m₁ counted :=
      S.moves_update moves.calm (Set.mem_singleton id) _
    have left₁ : Supply env 𝒮 less counted stage.input G₁ ((ps.drop (i + 1)).map (·.1)) := by
      refine left.moves ?_ movesCounted
      rintro j hj rfl
      exact apart₁ hj
    show Ends (Eval.countPulled id >>= _) m₁ _ _
    rw [ends_bind, ends_of_ok count, ends_bind]
    refine (tells i p element S place counted G₁ movesCounted.calm left₁ fuel enough).mono ?_
      fun _ _ h => h
    rintro _ m₂ ⟨rfl, movesRun, G₂, renews₂, left₂⟩
    have grows := moves.grows.trans movesCounted.grows
    have stored₂ : m₂.streams[id]? = some ⟨kind, ahead, i + 1⟩ := by
      rw [movesRun.keeps id (h.made.trans_le grows) apart₁, Machine.getElem?_update_self, stored₁]
      rfl
    have tally : S.Moves (insert id G) m counted :=
      within.trans (.refl m _)
        (movesCounted.mono (Set.singleton_subset_iff.2 (Set.mem_insert id G)))
    have renewsRun : m.Renews G G₂ := renews.trans grows renews₂
    have total : S.Moves (insert id G) m m₂ :=
      tally.trans (renews.insert id) (movesRun.mono (Set.subset_insert id G₁))
    refine ⟨rfl, total, ?_, G₂, renewsRun, h.taken total renewsRun stored₂ left₂⟩
    rw [Machine.peeked?, stored₂, Machine.peeked?, stored]
    rfl

theorem chained (h : Linked env 𝒮 less need stage ps id i kind G H zs m) :
    Chained env 𝒮 less need stage ps id (insert id (G ∪ H))
      (zs ++ kind.given env.host (ps.drop i)) m :=
  ⟨i, kind, G, H, zs, rfl, h, rfl⟩

end Linked

/-! ## Reads by kind -/

/-- The read of the stream behind the stage delivers what the kind of the stream says. -/
def Links (env : Environment) (𝒮 : Set Setting) (S : Setting) (less need fuel : Nat) (stage : Stage)
    (ps : List (Value × Value)) (id : StreamId) (kind : StreamKind)
    (read : Eval (Option Value)) : Prop :=
  ∀ {i G H zs m}, Linked env 𝒮 less need stage ps id i kind G H zs m → S.calm m → need ≤ fuel →
    Ends read m
      (Delivered S id (Chained env 𝒮 less need stage ps id) (insert id (G ∪ H))
        (zs ++ kind.given env.host (ps.drop i)) m)
      fun _ _ => False

/-- What is left after a read that finds the next element, if there is one. -/
theorem drop_taken {α : Type} (as : List α) (i : Nat) :
    as.drop (i + as[i]?.toList.length) = as.drop (i + 1) := by
  cases element : as[i]? with
  | none =>
    have beyond := List.getElem?_eq_none_iff.1 element
    rw [List.drop_eq_nil_of_le (beyond.trans (Nat.le_succ i)), List.drop_eq_nil_of_le]
    exact beyond.trans (Nat.le_add_right i _)
  | some a => rfl

theorem links_remap (tells : stage.Tells env 𝒮 less need ps) (le : less ≤ need) (place : S ∈ 𝒮) :
    Links env 𝒮 S less need fuel stage ps id (.remap stage)
      (do return (← (Calls.levels env fuel).stageNext id stage).map (·.2)) := by
  intro i G H zs m h calm enough
  obtain ⟨rfl, rfl⟩ := h.inner
  rw [Set.union_empty, ends_bind]
  refine (h.stageNext tells le place calm enough).mono ?_ fun _ _ h => h
  rintro _ m' ⟨rfl, moves, peeked, G', renews, linked⟩
  have chained := linked.chained
  rw [Set.union_empty, drop_taken] at chained
  refine ⟨?_, moves, peeked, insert id G', renews.insert id, ?_⟩
  · show _ = ((ps.drop i).map (·.2)).head?
    rw [List.head?_map, List.head?_drop]
  · show Chained env 𝒮 less need stage ps id _ ((ps.drop i).map (·.2)).tail m'
    rw [← List.map_tail, List.tail_drop]
    exact chained

/-- The loop takes elements until one passes, so it is followed along the list. -/
theorem links_filter (tells : stage.Tells env 𝒮 less need ps) (le : less ≤ need) (place : S ∈ 𝒮)
    {rounds : Nat} (many : ps.length < rounds) :
    Links env 𝒮 S less need fuel stage ps id (.filter stage)
      ((Calls.levels env fuel).pullFiltered id stage rounds) := by
  suffices passes : ∀ i G m, ps.length - i < rounds →
      Linked env 𝒮 less need stage ps id i (.filter stage) G ∅ [] m → S.calm m → need ≤ fuel →
      Ends ((Calls.levels env fuel).pullFiltered id stage rounds) m
        (Delivered S id (Chained env 𝒮 less need stage ps id) (insert id G)
          (((ps.drop i).filter (·.2.isTruthy)).map (·.1)) m) fun _ _ => False by
    intro i G H zs m h calm enough
    obtain ⟨rfl, rfl⟩ := h.inner
    rw [Set.union_empty]
    exact passes i G m ((Nat.sub_le _ _).trans_lt many) h calm enough
  clear many
  intro i G m many h calm enough
  induction rounds generalizing i G m with
  | zero => contradiction
  | succ rounds ih =>
    unfold Calls.pullFiltered
    rw [ends_bind]
    refine (h.stageNext tells le place calm enough).mono ?_ fun _ _ h => h
    rintro _ m' ⟨rfl, moves, peeked, G', renews, linked⟩
    cases element : ps[i]? with
    | none =>
      rw [element] at linked
      have beyond := List.getElem?_eq_none_iff.1 element
      have chained := linked.chained
      rw [Set.union_empty] at chained
      rw [List.drop_eq_nil_of_le beyond]
      refine ⟨rfl, moves, peeked, insert id G', renews.insert id, ?_⟩
      rwa [List.drop_eq_nil_of_le (beyond.trans (Nat.le_add_right i _))] at chained
    | some p =>
      rw [element] at linked
      have linked : Linked env 𝒮 less need stage ps id (i + 1) (.filter stage) G' ∅ [] m' := linked
      have more := (List.getElem?_eq_some_iff.1 element).1
      have fewer : ps.length - (i + 1) < rounds := by omega
      rw [drop_of_getElem? element]
      show Ends (if p.2.isTruthy = true then _ else _ : Eval (Option Value)) m' _ _
      by_cases truthy : p.2.isTruthy = true
      · rw [if_pos truthy, List.filter_cons, if_pos truthy]
        have chained := linked.chained
        rw [Set.union_empty] at chained
        exact ⟨rfl, moves, peeked, insert id G', renews.insert id, chained⟩
      · rw [if_neg truthy, List.filter_cons, if_neg truthy]
        refine (ih (i + 1) G' m' fewer linked moves.calm).mono ?_ fun _ _ h => h
        exact fun _ _ delivered => delivered.after moves (renews.insert id) peeked

/-- A value that is no stream is taken apart by a new stream of its own. -/
theorem Supply.streamOf {v : Value} (plain : ∀ j, v ≠ .stream j) (place : S ∈ 𝒮) (calm : S.calm m) :
    Ends (Eval.streamOf env.host v) m
      (fun j m' => S.Moves ∅ m m' ∧ j = m.streams.size ∧
        Supply env 𝒮 1 m' j {j} (v.elements env.host))
      fun _ _ => False := by
  have made : Ends (Eval.newStream { kind := .source (Source.ofValue env.host v) }) m
      (fun j m' => S.Moves ∅ m m' ∧ j = m.streams.size ∧
        Supply env 𝒮 1 m' j {j} (v.elements env.host)) fun _ _ => False := by
    refine ⟨S.moves_push calm _, rfl, ⟨S, place⟩, Reading m.streams.size FromSource,
      fun S _ => feeds_fromSource env S _, v.elements env.host, ⟨∅, _, ?_, Set.notMem_empty _, ?_,
      rfl, Source.ofValue env.host v, rfl, Source.rest_ofValue env.host v⟩, ?_⟩
    · rw [insert_empty_eq]
    · simp [Machine.kind?]
    · simp [Machine.peeked?]
  unfold Eval.streamOf
  cases v with
  | stream j => exact absurd rfl (plain j)
  | _ => exact made

/-- Another inner stream is put in its place. -/
theorem Linked.setInner {inner : Option StreamId} {H' : Set StreamId} {zs' : List Value}
    (h : Linked env 𝒮 less need stage ps id i (.flatRemap stage inner) G H zs m) (calm : S.calm m)
    {next : Option StreamId} (supply : InnerSupply env 𝒮 need H' zs' m (.flatRemap stage next))
    (disjoint : Disjoint G H') (apart : id ∉ H') :
    Ends (Eval.setInner id next) m
      (fun _ m' => S.Moves {id} m m' ∧ m'.peeked? id = m.peeked? id ∧
        Linked env 𝒮 less need stage ps id i (.flatRemap stage next) G H' zs' m')
      fun _ _ => False := by
  obtain ⟨ahead, stored⟩ := h.stored
  let changed := m.update id (.withInner next)
  have other {j : StreamId} (ne : j ≠ id) : changed.streams[j]? = m.streams[j]? :=
    Machine.getElem?_update_ne ne
  have stored' : changed.streams[id]? = some ⟨.flatRemap stage next, ahead, i⟩ := by
    rw [Machine.getElem?_update_self, stored]
    rfl
  show S.Moves {id} m changed ∧ changed.peeked? id = _ ∧ Linked _ _ _ _ _ _ _ _ _ _ _ _ changed
  refine ⟨S.moves_update calm (Set.mem_singleton id) _, ?_, ⟨ahead, stored'⟩, rfl, ?_, ?_, disjoint,
    ?_, fun _ _ => h.plain inner rfl⟩
  · rw [Machine.peeked?, stored', Machine.peeked?, stored]
    rfl
  · refine h.input.stable fun j hj => other ?_
    rintro rfl
    exact h.apart (.inl hj)
  · refine supply.stable fun j hj => other ?_
    rintro rfl
    exact apart hj
  · rintro (hi | hi)
    · exact h.apart (.inl hi)
    · exact apart hi

/-- A value of the body is taken apart by a new inner stream. -/
theorem Linked.opened (h : Linked env 𝒮 less need stage ps id i (.flatRemap stage none) G ∅ [] m)
    (place : S ∈ 𝒮) (calm : S.calm m) (some_levels : 1 ≤ need) {v : Value}
    (plain : ∀ j, v ≠ .stream j) :
    Ends (Eval.streamOf env.host v) m
      (fun j m₁ => m.streams.size ≤ j ∧ Ends (Eval.setInner id (some j)) m₁
        (fun _ m' => S.Moves {id} m m' ∧ m'.peeked? id = m.peeked? id ∧
          Linked env 𝒮 less need stage ps id i (.flatRemap stage (some j)) G {j}
            (v.elements env.host) m')
        fun _ _ => False)
      fun _ _ => False := by
  refine (Supply.streamOf plain place calm).mono ?_ fun _ _ h => h
  rintro _ m₁ ⟨moves₁, rfl, left₁⟩
  have stored₁ := moves₁.keeps id h.made (Set.notMem_empty id)
  have linked₁ : Linked env 𝒮 less need stage ps id i (.flatRemap stage none) G ∅ [] m₁ :=
    { h with
      stored := stored₁ ▸ h.stored
      input := h.input.moves (fun _ _ => Set.notMem_empty _) moves₁
      inner := ⟨rfl, rfl⟩ }
  have outside : m.streams.size ∉ G := fun inside => Nat.lt_irrefl _ (h.input.made _ inside)
  have supply : InnerSupply env 𝒮 need {m.streams.size} (v.elements env.host) m₁
      (.flatRemap stage (some m.streams.size)) := left₁.mono some_levels
  refine ⟨Nat.le_refl _, (linked₁.setInner moves₁.calm supply
    (Set.disjoint_singleton_right.2 outside) h.made.ne).mono ?_ fun _ _ h => h⟩
  rintro _ m' ⟨moves, peeked, linked⟩
  refine ⟨(moves₁.mono (Set.empty_subset _)).trans (.refl m _) moves, ?_, linked⟩
  rw [peeked, moves₁.peeked? h.made (Set.notMem_empty id)]

/-- With so many rounds at hand a flat-remap delivers what it should. -/
def FlatLinks (env : Environment) (𝒮 : Set Setting) (S : Setting) (less need fuel : Nat)
    (stage : Stage) (ps : List (Value × Value)) (id : StreamId) (rounds : Nat) : Prop :=
  ∀ {i inner G H zs m}, ps.length - i < rounds →
    Linked env 𝒮 less need stage ps id i (.flatRemap stage inner) G H zs m → S.calm m →
    Ends ((Calls.levels env fuel).pullFlat env.host id stage rounds) m
      (Delivered S id (Chained env 𝒮 less need stage ps id) (insert id (G ∪ H))
        (zs ++ (ps.drop i).flatMap fun p => p.2.elements env.host) m)
      fun _ _ => False

/-- Where the inner stream has nothing left, the stage makes the next one. -/
theorem FlatLinks.refill {rounds : Nat} (h : FlatLinks env 𝒮 S less need fuel stage ps id rounds)
    (tells : stage.Tells env 𝒮 less need ps) (le : less ≤ need) (place : S ∈ 𝒮)
    (enough : need ≤ fuel) (some_levels : 1 ≤ need) {inner : Option StreamId}
    (linked : Linked env 𝒮 less need stage ps id i (.flatRemap stage inner) G H zs m)
    (calm : S.calm m) (many : ps.length - i < rounds + 1) :
    Ends (do
        Eval.setInner id none
        match ← (Calls.levels env fuel).stageNext id stage with
        | none => return none
        | some (_, produced) =>
          let inner ← Eval.streamOf env.host produced
          Eval.setInner id (some inner)
          (Calls.levels env fuel).pullFlat env.host id stage rounds) m
      (Delivered S id (Chained env 𝒮 less need stage ps id) (insert id G)
        ((ps.drop i).flatMap fun p => p.2.elements env.host) m)
      fun _ _ => False := by
  have own : ({id} : Set StreamId) ⊆ insert id G :=
    Set.singleton_subset_iff.2 (Set.mem_insert id G)
  have nothing : InnerSupply env 𝒮 need ∅ [] m (.flatRemap stage none) := ⟨rfl, rfl⟩
  rw [ends_bind]
  refine (linked.setInner calm nothing (Set.disjoint_empty G) (Set.notMem_empty id)).mono ?_
    fun _ _ h => h
  rintro - m₁ ⟨moves₁, peeked₁, linked₁⟩
  rw [ends_bind]
  refine (linked₁.stageNext tells le place moves₁.calm enough).mono ?_ fun _ _ h => h
  rintro _ m₂ ⟨rfl, moves₂, peeked₂, G₂, renews₂, linked₂⟩
  have moves : S.Moves (insert id G) m m₂ := (moves₁.mono own).trans (.refl m _) moves₂
  have peeked : m₂.peeked? id = m.peeked? id := peeked₂.trans peeked₁
  have renews : m.Renews G G₂ := fun j hj => (renews₂ j hj).imp_right moves₁.grows.trans
  cases element : ps[i]? with
  | none =>
    have chained := linked₂.chained
    have beyond := List.getElem?_eq_none_iff.1 element
    rw [element, List.drop_eq_nil_of_le (beyond.trans (Nat.le_add_right i _)), Set.union_empty]
      at chained
    rw [List.drop_eq_nil_of_le beyond]
    exact ⟨rfl, moves, peeked, insert id G₂, renews.insert id, chained⟩
  | some p =>
    rw [element] at linked₂
    have linked₂ : Linked env 𝒮 less need stage ps id (i + 1) (.flatRemap stage none) G₂ ∅ [] m₂ :=
      linked₂
    rw [drop_of_getElem? element]
    show Ends (Eval.streamOf env.host p.2 >>= _) m₂ _ _
    rw [ends_bind]
    refine (linked₂.opened place moves₂.calm some_levels
      (linked.plain inner rfl p (List.mem_of_getElem? element))).mono ?_ fun _ _ h => h
    rintro j m₃ ⟨fresh, put⟩
    rw [ends_bind]
    refine put.mono ?_ fun _ _ h => h
    rintro - m₄ ⟨moves₄, peeked₄, linked₄⟩
    have total : S.Moves (insert id G) m m₄ := moves.trans (.refl m _) (moves₄.mono own)
    have renewed : m.Renews (insert id G) (insert id (G₂ ∪ {j})) := by
      rintro k (rfl | hk | rfl)
      · exact .inl (Set.mem_insert k G)
      · exact (renews k hk).imp_left (Set.mem_insert_of_mem id)
      · exact .inr (moves.grows.trans fresh)
    have more := (List.getElem?_eq_some_iff.1 element).1
    refine (h (by omega) linked₄ moves₄.calm).mono ?_ fun _ _ h => h
    exact fun found m' delivered => delivered.after total renewed (peeked₄.trans peeked)

theorem flatLinks (tells : stage.Tells env 𝒮 less need ps) (le : less ≤ need) (place : S ∈ 𝒮)
    (enough : need ≤ fuel) (some_levels : 1 ≤ need) (rounds : Nat) :
    FlatLinks env 𝒮 S less need fuel stage ps id rounds := by
  induction rounds with
  | zero =>
    intro i inner G H zs m many
    contradiction
  | succ rounds ih =>
    intro i inner G H zs m many linked calm
    have apartH : id ∉ H := fun hi => linked.apart (.inr hi)
    unfold Calls.pullFlat
    rw [ends_bind, ends_of_ok (innerStream?_eq linked.kind?)]
    cases inner with
    | none =>
      obtain ⟨rfl, rfl⟩ := linked.inner
      rw [Set.union_empty]
      exact ih.refill tells le place enough some_levels linked calm many
    | some inner =>
      have left : Supply env 𝒮 need m inner H zs := linked.inner
      show Ends ((Calls.levels env fuel).next inner >>= _) m _ _
      rw [ends_bind]
      refine (left.next place calm enough).mono ?_ fun _ _ h => h
      rintro _ m₁ ⟨rfl, moves, H₁, renews, left₁⟩
      have within : S.Moves (insert id (G ∪ H)) m m₁ :=
        moves.mono fun j hj => Set.mem_insert_of_mem id (.inr hj)
      have peeked : m₁.peeked? id = m.peeked? id := moves.peeked? linked.made apartH
      have disjoint : Disjoint G H₁ := by
        refine Set.disjoint_left.2 fun j hj => renews.not_mem (linked.input.made j hj) ?_
        exact Set.disjoint_left.1 linked.disjoint hj
      have linked₁ : Linked env 𝒮 less need stage ps id i (.flatRemap stage (some inner)) G H₁
          zs.tail m₁ := {
        stored := (moves.keeps id linked.made apartH).symm ▸ linked.stored
        reads := linked.reads
        input := linked.input.moves (fun j hj => Set.disjoint_left.1 linked.disjoint hj) moves
        inner := left₁
        disjoint := disjoint
        apart := by
          rintro (hi | hi)
          · exact linked.apart (.inl hi)
          · exact renews.not_mem linked.made apartH hi
        plain := linked.plain }
      cases zs with
      | nil =>
        -- The inner stream has ended.
        refine (ih.refill tells le place enough some_levels linked₁ moves.calm many).mono ?_
          fun _ _ h => h
        intro found m' delivered
        refine delivered.after within ?_ peeked
        rintro j (rfl | hj)
        · exact .inl (Set.mem_insert j _)
        · exact .inl (Set.mem_insert_of_mem id (.inl hj))
      | cons z zs =>
        refine ⟨rfl, within, peeked, insert id (G ∪ H₁), ?_, linked₁.chained⟩
        refine Machine.Renews.insert ?_ id
        rintro j (hj | hj)
        · exact .inl (.inl hj)
        · exact (renews j hj).imp_left .inr

/-! ## Chains -/

/-- **The stream behind the stage makes what its kind says, at all of the places.** -/
theorem feeds_chained (tells : stage.Tells env 𝒮 less need ps) (le : less ≤ need)
    (few : ps.length < need) (place : S ∈ 𝒮) :
    Feeds env S (need + 1) id (Chained env 𝒮 less need stage ps id) where
  mem := by
    rintro F xs m ⟨i, kind, G, H, zs, rfl, linked, rfl⟩
    exact Set.mem_insert id _
  made := by
    rintro F xs m ⟨i, kind, G, H, zs, rfl, linked, rfl⟩ j (rfl | hj | hj)
    · exact linked.made
    · exact linked.input.made j hj
    · exact linked.inner.made j hj
  stable := by
    rintro F xs m m' ⟨i, kind, G, H, zs, rfl, linked, rfl⟩ same
    have linked' : Linked env 𝒮 less need stage ps id i kind G H zs m' :=
      { linked with
        stored := (same id (Set.mem_insert id _)).symm ▸ linked.stored
        input := linked.input.stable fun j hj => same j (.inr (.inl hj))
        inner := linked.inner.stable fun j hj => same j (.inr (.inr hj)) }
    exact linked'.chained
  peeks := by
    rintro F xs m ⟨i, kind, G, H, zs, rfl, linked, rfl⟩ ahead
    have other {j : StreamId} (hj : j ∈ G ∪ H) :
        (m.update id fun s => { s with peeked := ahead }).streams[j]? = m.streams[j]? :=
      Machine.getElem?_update_ne fun same => linked.apart (same ▸ hj)
    have linked' : Linked env 𝒮 less need stage ps id i kind G H zs
        (m.update id fun s => { s with peeked := ahead }) :=
      { linked with
        stored := by
          obtain ⟨before, stored⟩ := linked.stored
          refine ⟨ahead, ?_⟩
          rw [Machine.getElem?_update_self, stored]
          rfl
        input := linked.input.stable fun j hj => other (.inl hj)
        inner := linked.inner.stable fun j hj => other (.inr hj) }
    exact linked'.chained
  pull := by
    rintro F xs m ⟨i, kind, G, H, zs, rfl, linked, rfl⟩ calm fuel enough
    obtain ⟨fuel, rfl⟩ : ∃ less, fuel = less + 1 := ⟨fuel - 1, by omega⟩
    have enough : need ≤ fuel := Nat.le_of_succ_le_succ enough
    have reads := linked.reads
    unfold Ends
    rw [pull_eq linked.kind?]
    cases kind with
    | source source => cases reads
    | remap stage' =>
      cases reads
      exact links_remap tells le place linked calm enough
    | filter stage' =>
      cases reads
      exact links_filter tells le place (few.trans_le enough) linked calm enough
    | flatRemap stage' inner =>
      cases reads
      have many : ps.length - i < fuel := (Nat.sub_le _ _).trans_lt (few.trans_le enough)
      exact flatLinks tells le place enough (Nat.one_le_of_lt few) fuel many linked calm

/-- **The stream that a stage makes may be read ahead** like the stream before the stage. -/
theorem Supply.behind (supply : Supply env 𝒮 less m stage.input G (ps.map (·.1)))
    (tells : stage.Tells env 𝒮 less need ps) (le : less ≤ need) (few : ps.length < need)
    (passage : Passage)
    (plain : passage = .flatRemap → ∀ p ∈ ps, ∀ j, p.2 ≠ .stream j) :
    Supply env 𝒮 (need + 1) { m with streams := m.streams.push { kind := passage.kind stage } }
      m.streams.size (insert m.streams.size G) ((passage.kind stage).given env.host ps) := by
  have kept : Supply env 𝒮 less
      { m with streams := m.streams.push { kind := passage.kind stage } } stage.input G
      (ps.map (·.1)) := by
    refine supply.stable fun i hi => ?_
    have made := supply.made i hi
    exact (Array.getElem?_push_lt made).trans (Array.getElem?_eq_getElem made).symm
  have linked : Linked env 𝒮 less need stage ps m.streams.size 0 (passage.kind stage) G ∅ []
      { m with streams := m.streams.push { kind := passage.kind stage } } :=
    { stored := ⟨none, Array.getElem?_push_size⟩
      reads := by cases passage <;> rfl
      input := kept
      inner := by cases passage <;> exact ⟨rfl, rfl⟩
      disjoint := Set.disjoint_empty G
      apart := by
        rw [Set.union_empty]
        exact fun inside => Nat.lt_irrefl _ (supply.made _ inside)
      plain := fun inner same => plain (by cases passage <;> first | rfl | cases same) }
  have chained := linked.chained
  rw [Set.union_empty] at chained
  refine ⟨supply.1, Chained env 𝒮 less need stage ps m.streams.size,
    fun S place => feeds_chained tells le few place, _, chained, ?_⟩
  simp [Machine.peeked?]

end TagExpr
