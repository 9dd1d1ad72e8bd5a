import TagExpr.Eval
import TagExpr.Proofs.Ends
import TagExpr.Proofs.Stream.Elements
import Mathlib.Data.Set.Insert

/-!
# What a stream has left

A stream is read in the middle of other things: between two reads other streams are read and bodies
run. `Remains` says what a stream has left in such surroundings. The reads of a stream may change
the streams of its footprint and make new ones; as long as nothing else changes the footprint, the
reads give one element after the other.

Bodies rely on a calm machine (`Setting`), of which only is asked that it does not depend on the
streams.
-/

namespace TagExpr

/-! ## Machines between two reads -/

/-- What bodies rely on beside their element. It does not look at the streams. -/
structure Setting where
  calm : Machine → Prop
  streams : ∀ {m : Machine} (streams : Array Stream), calm m → calm { m with streams }

variable {S : Setting} {F F' G : Set StreamId} {m m' m'' : Machine} {id : StreamId}

/-- The machine is calm, and beside new streams only those of the footprint have changed. -/
structure Setting.Moves (S : Setting) (F : Set StreamId) (m m' : Machine) : Prop where
  calm : S.calm m'
  grows : m.streams.size ≤ m'.streams.size
  keeps : ∀ i < m.streams.size, i ∉ F → m'.streams[i]? = m.streams[i]?

namespace Machine

/-- The second footprint has of the streams that there were only those of the first. -/
def Renews (m : Machine) (F F' : Set StreamId) : Prop := ∀ i ∈ F', i ∈ F ∨ m.streams.size ≤ i

theorem Renews.refl (m : Machine) (F : Set StreamId) : m.Renews F F := fun _ h => .inl h

theorem Renews.trans {F'' : Set StreamId} (h : m.Renews F F')
    (grows : m.streams.size ≤ m'.streams.size) (h' : m'.Renews F' F'') : m.Renews F F'' := by
  intro i hi
  rcases h' i hi with old | new
  · exact h i old
  · exact .inr (grows.trans new)

theorem Renews.not_mem {i : StreamId} (h : m.Renews F F') (made : i < m.streams.size)
    (outside : i ∉ F) : i ∉ F' := by
  intro inside
  rcases h i inside with old | new
  · exact outside old
  · exact Nat.not_lt.2 new made

/-- The element that was read ahead. -/
def peeked? (m : Machine) (id : StreamId) : Option Value := m.streams[id]?.bind (·.peeked)

/-- Where the stream has its elements from. -/
def kind? (m : Machine) (id : StreamId) : Option StreamKind := m.streams[id]?.map (·.kind)

theorem lt_of_kind? {kind : StreamKind} (h : m.kind? id = some kind) : id < m.streams.size := by
  obtain ⟨s, found, -⟩ := Option.map_eq_some_iff.1 h
  exact (Array.getElem?_eq_some_iff.1 found).1

end Machine

namespace Setting.Moves

theorem refl (h : S.calm m) : S.Moves F m m := ⟨h, Nat.le_refl _, fun _ _ _ => rfl⟩

theorem trans (h : S.Moves F m m') (renews : m.Renews F F') (h' : S.Moves F' m' m'') :
    S.Moves F m m'' where
  calm := h'.calm
  grows := h.grows.trans h'.grows
  keeps i made outside := by
    rw [h'.keeps i (Nat.lt_of_lt_of_le made h.grows) (renews.not_mem made outside)]
    exact h.keeps i made outside

theorem mono (h : S.Moves F m m') (within : F ⊆ F') : S.Moves F' m m' where
  calm := h.calm
  grows := h.grows
  keeps i made outside := h.keeps i made fun inside => outside (within inside)

theorem kind? (h : S.Moves F m m') (made : id < m.streams.size) (outside : id ∉ F) :
    m'.kind? id = m.kind? id := by
  rw [Machine.kind?, Machine.kind?, h.keeps id made outside]

theorem peeked? (h : S.Moves F m m') (made : id < m.streams.size) (outside : id ∉ F) :
    m'.peeked? id = m.peeked? id := by
  rw [Machine.peeked?, Machine.peeked?, h.keeps id made outside]

end Setting.Moves

/-! ## Changing one stream -/

/-- The machine with another state of one stream. -/
def Machine.update (m : Machine) (id : StreamId) (φ : Stream → Stream) : Machine :=
  { m with streams := m.streams.modify id φ }

namespace Machine

variable {φ : Stream → Stream}

theorem getElem?_update_ne {i : StreamId} (h : i ≠ id) :
    (m.update id φ).streams[i]? = m.streams[i]? := by
  rw [update, Array.getElem?_modify, if_neg (Ne.symm h)]

theorem getElem?_update_self : (m.update id φ).streams[id]? = m.streams[id]?.map φ := by
  rw [update, Array.getElem?_modify, if_pos rfl]

theorem size_update : (m.update id φ).streams.size = m.streams.size := by
  rw [update, Array.size_modify]

theorem kind?_update (h : ∀ s, (φ s).kind = s.kind) (i : StreamId) :
    (m.update id φ).kind? i = m.kind? i := by
  by_cases same : i = id
  · subst same
    rw [kind?, getElem?_update_self, Option.map_map, kind?]
    congr 1
    funext s
    exact h s
  · rw [kind?, getElem?_update_ne same, kind?]

theorem peeked?_update (h : ∀ s, (φ s).peeked = s.peeked) (i : StreamId) :
    (m.update id φ).peeked? i = m.peeked? i := by
  by_cases same : i = id
  · subst same
    rw [peeked?, getElem?_update_self, Option.bind_map, peeked?]
    congr 1
    funext s
    exact h s
  · rw [peeked?, getElem?_update_ne same, peeked?]

end Machine

theorem Setting.moves_update (calm : S.calm m) (inside : id ∈ F) (φ : Stream → Stream) :
    S.Moves F m (m.update id φ) where
  calm := S.streams _ calm
  grows := Machine.size_update.ge
  keeps _ _ outside := Machine.getElem?_update_ne fun same => outside (same ▸ inside)

/-! ## Reads that give the elements of a list -/

/-- Evaluation with that many levels at hand. -/
abbrev Calls.levels (env : Environment) (fuel : Nat) : Calls := Calls.ofLevels env (pure .null) fuel

/-- What a read has to come to: the first element if there is one, in a machine of which `P` holds
with the others. -/
structure Delivered (S : Setting) (id : StreamId) (P : Set StreamId → List Value → Machine → Prop)
    (F : Set StreamId) (xs : List Value) (m : Machine) (found : Option Value) (m' : Machine) :
    Prop where
  head : found = xs.head?
  moves : S.Moves F m m'
  peeked : m'.peeked? id = m.peeked? id
  left : ∃ F', m.Renews F F' ∧ P F' xs.tail m'

/-- Something may happen before a read, within the footprint. -/
theorem Delivered.after {P : Set StreamId → List Value → Machine → Prop} {xs : List Value}
    {found : Option Value} (h : Delivered S id P F' xs m' found m'') (moves : S.Moves F m m')
    (renews : m.Renews F F') (peeked : m'.peeked? id = m.peeked? id) :
    Delivered S id P F xs m found m'' := by
  obtain ⟨F'', renews', holds⟩ := h.left
  exact
    { head := h.head
      moves := moves.trans renews h.moves
      peeked := h.peeked.trans peeked
      left := ⟨F'', renews.trans moves.grows renews', holds⟩ }

/-- While `P` holds with a list, the stream makes the elements of the list. `P` only looks at the
streams of the footprint, and not at what has been read ahead of this one. -/
structure Feeds (env : Environment) (S : Setting) (need : Nat) (id : StreamId)
    (P : Set StreamId → List Value → Machine → Prop) : Prop where
  mem : ∀ {F xs m}, P F xs m → id ∈ F
  made : ∀ {F xs m}, P F xs m → ∀ i ∈ F, i < m.streams.size
  stable : ∀ {F xs m m'}, P F xs m → (∀ i ∈ F, m'.streams[i]? = m.streams[i]?) → P F xs m'
  peeks : ∀ {F xs m}, P F xs m → ∀ ahead,
    P F xs (m.update id fun s => { s with peeked := ahead })
  pull : ∀ {F xs m}, P F xs m → S.calm m → ∀ fuel, need ≤ fuel →
    Ends ((Calls.levels env fuel).pull id) m (Delivered S id P F xs m) fun _ _ => False

/-- The stream has these elements left, and reading them touches no streams but those of the
footprint and new ones. -/
def Remains (env : Environment) (S : Setting) (need : Nat) (m : Machine) (id : StreamId)
    (F : Set StreamId) (xs : List Value) : Prop :=
  ∃ P, Feeds env S need id P ∧ ∃ ys, P F ys m ∧ xs = (m.peeked? id).toList ++ ys

namespace Remains

variable {env : Environment} {need : Nat} {xs : List Value}

theorem mem (h : Remains env S need m id F xs) : id ∈ F := by
  obtain ⟨P, feeds, ys, holds, -⟩ := h
  exact feeds.mem holds

theorem made (h : Remains env S need m id F xs) : ∀ i ∈ F, i < m.streams.size := by
  obtain ⟨P, feeds, ys, holds, -⟩ := h
  exact feeds.made holds

theorem stable (h : Remains env S need m id F xs)
    (same : ∀ i ∈ F, m'.streams[i]? = m.streams[i]?) : Remains env S need m' id F xs := by
  obtain ⟨P, feeds, ys, holds, rfl⟩ := h
  refine ⟨P, feeds, ys, feeds.stable holds same, ?_⟩
  rw [Machine.peeked?, Machine.peeked?, same id (feeds.mem holds)]

/-- What happens apart from the footprint does not matter. -/
theorem moves (h : Remains env S need m id F xs) (apart : ∀ i ∈ F, i ∉ G)
    (hm : S.Moves G m m') : Remains env S need m' id F xs :=
  h.stable fun i hi => hm.keeps i (h.made i hi) (apart i hi)

theorem mono {need' : Nat} (h : Remains env S need m id F xs) (more : need ≤ need') :
    Remains env S need' m id F xs := by
  obtain ⟨P, feeds, ys, holds, rfl⟩ := h
  have feeds' : Feeds env S need' id P := ⟨feeds.mem, feeds.made, feeds.stable, feeds.peeks,
    fun hp calm fuel enough => feeds.pull hp calm fuel (more.trans enough)⟩
  exact ⟨P, feeds', ys, holds, rfl⟩

end Remains

theorem takePeeked_eq (m : Machine) (id : StreamId) : Eval.takePeeked id m =
    (do
      if (m.peeked? id).isSome then
        Eval.modifyStream id fun s => { s with peeked := none }
      return m.peeked? id : Eval (Option Value)) m := rfl

theorem takePeeked_eq_none (h : m.peeked? id = none) : Eval.takePeeked id m = .ok none m := by
  rw [takePeeked_eq, h]
  rfl

theorem takePeeked_eq_some {v : Value} (h : m.peeked? id = some v) :
    Eval.takePeeked id m = .ok (some v) (m.update id fun s => { s with peeked := none }) := by
  rw [takePeeked_eq, h]
  rfl

/-- The stage of a stream counts its elements from zero. -/
theorem countPulled_eq {s : Stream} (stored : m.streams[id]? = some s) : Eval.countPulled id m =
    .ok s.pulled (m.update id fun s => { s with pulled := s.pulled + 1 }) := by
  show EStateM.Result.ok (((m.streams[id]?).map (·.pulled)).getD 0) _ = _
  rw [stored]
  rfl

variable {env : Environment} {need fuel : Nat} {xs : List Value}

/-- What a stream that is fed by `P` has left: what was read ahead and what it makes. -/
def Left (P : Set StreamId → List Value → Machine → Prop) (id : StreamId) (F : Set StreamId)
    (xs : List Value) (m : Machine) : Prop :=
  ∃ ys, P F ys m ∧ xs = (m.peeked? id).toList ++ ys

namespace Feeds

variable {P : Set StreamId → List Value → Machine → Prop}

theorem next (feeds : Feeds env S need id P) (left : Left P id F xs m) (calm : S.calm m)
    (enough : need ≤ fuel) :
    Ends ((Calls.levels env fuel).next id) m
      (fun found m' => found = xs.head? ∧ S.Moves F m m' ∧
        ∃ F', m.Renews F F' ∧ Left P id F' xs.tail m')
      fun _ _ => False := by
  obtain ⟨ys, holds, rfl⟩ := left
  unfold Calls.next
  rw [ends_bind]
  cases ahead : m.peeked? id with
  | some v =>
    rw [ends_of_ok (takePeeked_eq_some ahead)]
    refine ⟨rfl, S.moves_update calm (feeds.mem holds) _, F, .refl m F, ys,
      feeds.peeks holds none, ?_⟩
    have taken : (m.update id fun s => { s with peeked := none }).peeked? id = none := by
      rw [Machine.peeked?, Machine.getElem?_update_self]
      cases m.streams[id]? <;> rfl
    rw [taken]
    rfl
  | none =>
    rw [ends_of_ok (takePeeked_eq_none ahead)]
    refine (feeds.pull holds calm fuel enough).mono ?_ fun _ _ h => h
    rintro found m' ⟨rfl, moves, peeked, F', renews, left⟩
    refine ⟨rfl, moves, F', renews, ys.tail, left, ?_⟩
    rw [peeked, ahead]
    rfl

/-- To look for another element takes none. -/
theorem hasNext (feeds : Feeds env S need id P) (left : Left P id F xs m) (calm : S.calm m)
    (enough : need ≤ fuel) :
    Ends ((Calls.levels env fuel).hasNext id) m
      (fun more m' => more = xs.head?.isSome ∧ S.Moves F m m' ∧
        ∃ F', m.Renews F F' ∧ Left P id F' xs m')
      fun _ _ => False := by
  obtain ⟨ys, holds, rfl⟩ := left
  unfold Calls.hasNext
  rw [ends_bind]
  show Ends (if (m.peeked? id).isSome then _ else _ : Eval Bool) m _ _
  cases ahead : m.peeked? id with
  | some v => exact ⟨rfl, .refl calm, F, .refl m F, ys, holds, by rw [ahead]⟩
  | none =>
    show Ends ((Calls.levels env fuel).pull id >>= _) m _ _
    rw [ends_bind]
    refine (feeds.pull holds calm fuel enough).mono ?_ fun _ _ h => h
    rintro _ m' ⟨rfl, moves, -, F', renews, left⟩
    -- The element that was found is put in the place of the one that was read ahead.
    have put : (m'.update id fun s => { s with peeked := ys.head? }).peeked? id = ys.head? := by
      have made : id < m'.streams.size := feeds.made left id (feeds.mem left)
      rw [Machine.peeked?, Machine.getElem?_update_self, Array.getElem?_eq_getElem made]
      rfl
    refine ⟨rfl, moves.trans renews (S.moves_update moves.calm (feeds.mem left) _), F', renews,
      ys.tail, feeds.peeks left ys.head?, ?_⟩
    show ys = Option.toList (Machine.peeked? (m'.update id _) id) ++ ys.tail
    rw [put]
    cases ys <;> rfl

end Feeds

theorem Remains.next (h : Remains env S need m id F xs) (calm : S.calm m) (enough : need ≤ fuel) :
    Ends ((Calls.levels env fuel).next id) m
      (fun found m' => found = xs.head? ∧ S.Moves F m m' ∧
        ∃ F', m.Renews F F' ∧ Remains env S need m' id F' xs.tail)
      fun _ _ => False := by
  obtain ⟨P, feeds, left⟩ := h
  refine (feeds.next left calm enough).mono ?_ fun _ _ h => h
  rintro found m' ⟨rfl, moves, F', renews, left'⟩
  exact ⟨rfl, moves, F', renews, P, feeds, left'⟩

theorem Remains.hasNext (h : Remains env S need m id F xs) (calm : S.calm m)
    (enough : need ≤ fuel) :
    Ends ((Calls.levels env fuel).hasNext id) m
      (fun more m' => more = xs.head?.isSome ∧ S.Moves F m m' ∧
        ∃ F', m.Renews F F' ∧ Remains env S need m' id F' xs)
      fun _ _ => False := by
  obtain ⟨P, feeds, left⟩ := h
  refine (feeds.hasNext left calm enough).mono ?_ fun _ _ h => h
  rintro more m' ⟨rfl, moves, F', renews, left'⟩
  exact ⟨rfl, moves, F', renews, P, feeds, left'⟩

/-! ## Draining -/

/-- **Draining a stream gives what it has left.** Nothing is left then. -/
theorem Remains.collect (h : Remains env S need m id F xs) (calm : S.calm m) (enough : need ≤ fuel)
    {reads : Nat} (many : xs.length < reads) :
    Ends ((Calls.levels env fuel).collect id reads) m
      (fun found m' => found = xs ∧ S.calm m' ∧ ∃ F', Remains env S need m' id F' [])
      fun _ _ => False := by
  induction reads generalizing m F xs with
  | zero => contradiction
  | succ reads ih =>
    unfold Calls.collect
    rw [ends_bind]
    refine (h.next calm enough).mono ?_ fun _ _ h => h
    rintro found m' ⟨rfl, moves, F', -, left⟩
    cases xs with
    | nil => exact ⟨rfl, moves.calm, F', left⟩
    | cons x xs =>
      show Ends ((Calls.levels env fuel).collect id reads >>= _) m' _ _
      rw [ends_bind]
      refine (ih left moves.calm (Nat.lt_of_succ_lt_succ many)).mono ?_ fun _ _ h => h
      rintro _ m'' ⟨rfl, calm'', left''⟩
      exact ⟨rfl, calm'', left''⟩

/-! ## Reads by kind -/

/-- Makes the next element of a stream of that kind. -/
def Calls.pullKind (calls : Calls) (h : Host) (fuel : Nat) (id : StreamId) :
    StreamKind → Eval (Option Value)
  | .source source =>
    match source.next? with
    | none => return none
    | some (v, rest) => do
      Eval.modifyStream id fun s => { s with kind := .source rest }
      return some v
  | .remap stage => do return (← calls.stageNext id stage).map (·.2)
  | .filter stage => calls.pullFiltered id stage fuel
  | .flatRemap stage _ => calls.pullFlat h id stage fuel

theorem pull_eq {kind : StreamKind} (h : m.kind? id = some kind) (fuel : Nat) :
    (Calls.levels env (fuel + 1)).pull id m =
      (Calls.levels env fuel).pullKind env.host fuel id kind m := by
  obtain ⟨s, found, rfl⟩ := Option.map_eq_some_iff.1 h
  have looked : Eval.stream? id m = .ok (some s) m := congrArg (EStateM.Result.ok · m) found
  show Calls.pullStream (Calls.levels env fuel) env.host fuel id m = _
  unfold Calls.pullStream
  simp only [Bind.bind, EStateM.bind, looked]
  cases s.kind <;> rfl

/-- The stream is of a kind with which `Q` holds, apart from the stream itself. -/
def Reading (id : StreamId) (Q : StreamKind → Set StreamId → List Value → Machine → Prop)
    (F : Set StreamId) (xs : List Value) (m : Machine) : Prop :=
  ∃ G kind, F = insert id G ∧ id ∉ G ∧ m.kind? id = some kind ∧ Q kind G xs m

/-- `Q` only looks at the streams of its footprint, which have been made. -/
structure Settles (Q : StreamKind → Set StreamId → List Value → Machine → Prop) : Prop where
  made : ∀ {kind G xs m}, Q kind G xs m → ∀ i ∈ G, i < m.streams.size
  stable : ∀ {kind G xs m m'}, Q kind G xs m → (∀ i ∈ G, m'.streams[i]? = m.streams[i]?) →
    Q kind G xs m'

/-- What a read of each kind delivers, the stream makes, whatever was read ahead of it. -/
theorem feeds_reading {Q : StreamKind → Set StreamId → List Value → Machine → Prop}
    (settles : Settles Q)
    (pull : ∀ {kind G xs m}, id ∉ G → m.kind? id = some kind → Q kind G xs m → S.calm m →
      ∀ fuel, need ≤ fuel → Ends ((Calls.levels env fuel).pullKind env.host fuel id kind) m
        (Delivered S id (Reading id Q) (insert id G) xs m) fun _ _ => False) :
    Feeds env S (need + 1) id (Reading id Q) where
  mem := by
    rintro F xs m ⟨G, kind, rfl, -⟩
    exact Set.mem_insert id G
  made := by
    rintro F xs m ⟨G, kind, rfl, -, found, holds⟩ i (rfl | hi)
    · exact Machine.lt_of_kind? found
    · exact settles.made holds i hi
  stable := by
    rintro F xs m m' ⟨G, kind, rfl, apart, found, holds⟩ same
    refine ⟨G, kind, rfl, apart, ?_, settles.stable holds fun i hi => ?_⟩
    · rw [Machine.kind?, same id (Set.mem_insert id G)]
      exact found
    · exact same i (Set.mem_insert_of_mem id hi)
  peeks := by
    rintro F xs m ⟨G, kind, rfl, apart, found, holds⟩ ahead
    refine ⟨G, kind, rfl, apart, ?_, settles.stable holds fun i hi => ?_⟩
    · refine (Machine.kind?_update ?_ id).trans found
      exact fun _ => rfl
    · exact Machine.getElem?_update_ne fun same => apart (same ▸ hi)
  pull := by
    rintro F xs m ⟨G, kind, rfl, apart, found, holds⟩ calm fuel enough
    obtain ⟨fuel, rfl⟩ : ∃ less, fuel = less + 1 := ⟨fuel - 1, by omega⟩
    unfold Ends
    rw [pull_eq found]
    exact pull apart found holds calm fuel (by omega)

/-! ## New streams -/

theorem Setting.moves_push (calm : S.calm m) (s : Stream) :
    S.Moves ∅ m { m with streams := m.streams.push s } where
  calm := S.streams _ calm
  grows := by simp
  keeps i made _ := (Array.getElem?_push_lt made).trans (Array.getElem?_eq_getElem made).symm

/-- A stream that is made has the next number, and has left what its kind says. -/
theorem Remains.push {Q : StreamKind → Set StreamId → List Value → Machine → Prop}
    (feeds : Feeds env S need m.streams.size (Reading m.streams.size Q)) (settles : Settles Q)
    {kind : StreamKind} (holds : Q kind G xs m) :
    Remains env S need { m with streams := m.streams.push { kind } } m.streams.size
      (insert m.streams.size G) xs := by
  have apart : m.streams.size ∉ G := fun inside => Nat.lt_irrefl _ (settles.made holds _ inside)
  refine ⟨_, feeds, xs, ⟨G, kind, rfl, apart, ?_, settles.stable holds fun i hi => ?_⟩, ?_⟩
  · simp [Machine.kind?]
  · have made := settles.made holds i hi
    exact (Array.getElem?_push_lt made).trans (Array.getElem?_eq_getElem made).symm
  · simp [Machine.peeked?]

/-! ## Sources -/

/-- The stream has its elements from a source that has these left. -/
def FromSource (kind : StreamKind) (G : Set StreamId) (xs : List Value) (_ : Machine) : Prop :=
  G = ∅ ∧ ∃ source, kind = .source source ∧ source.rest = xs

theorem settles_fromSource : Settles FromSource where
  made := by
    rintro kind G xs m ⟨rfl, -⟩ i hi
    exact absurd hi (Set.notMem_empty i)
  stable holds _ := holds

theorem feeds_fromSource (env : Environment) (S : Setting) (id : StreamId) :
    Feeds env S 1 id (Reading id FromSource) := by
  show Feeds env S (0 + 1) id _
  refine feeds_reading settles_fromSource ?_
  rintro kind G xs m - found ⟨rfl, source, rfl, rfl⟩ calm fuel -
  rw [Calls.pullKind]
  cases next : source.next? with
  | none =>
    have none_left := Source.rest_of_next?_none next
    exact
      { head := by rw [none_left]; rfl
        moves := .refl calm
        peeked := rfl
        left := ⟨_, .refl m _, ∅, _, rfl, Set.notMem_empty id, found, rfl, source, rfl,
          by rw [none_left]; rfl⟩ }
  | some pair =>
    obtain ⟨v, rest⟩ := pair
    have some_left := Source.rest_of_next?_some next
    have kind' : (m.update id fun s => { s with kind := .source rest }).kind? id =
        some (.source rest) := by
      obtain ⟨s, stored, -⟩ := Option.map_eq_some_iff.1 found
      rw [Machine.kind?, Machine.getElem?_update_self, stored]
      rfl
    exact
      { head := by rw [some_left]; rfl
        moves := S.moves_update calm (Set.mem_insert id ∅) _
        peeked := by
          refine Machine.peeked?_update ?_ id
          exact fun _ => rfl
        left := ⟨_, .refl m _, ∅, _, rfl, Set.notMem_empty id, kind', rfl, rest, rfl,
          by rw [some_left]; rfl⟩ }

/-- A stream that is made of a value has the elements of the value left. -/
theorem ends_streamOf {v : Value} (calm : S.calm m) (plain : ∀ id, v ≠ .stream id) :
    Ends (Eval.streamOf env.host v) m
      (fun id m' => S.Moves ∅ m m' ∧ id = m.streams.size ∧
        Remains env S 1 m' id {id} (v.elements env.host))
      fun _ _ => False := by
  have made : Ends (Eval.newStream { kind := .source (Source.ofValue env.host v) }) m
      (fun id m' => S.Moves ∅ m m' ∧ id = m.streams.size ∧
        Remains env S 1 m' id {id} (v.elements env.host)) fun _ _ => False := by
    refine ⟨S.moves_push calm _, rfl, ?_⟩
    rw [← insert_empty_eq]
    exact Remains.push (feeds_fromSource env S _) settles_fromSource
      ⟨rfl, _, rfl, Source.rest_ofValue env.host v⟩
  unfold Eval.streamOf
  cases v with
  | stream id => exact absurd rfl (plain id)
  | _ => exact made

/-! ## Reading ahead

`.hasNext` reads the stream before a stage in the middle of a body, where other sections are on top
than where the stage takes its elements. `Supply` says what a stream has left for all the places at
which it may be read: whichever of them it is read at, it gives the same elements, and what it has
left afterwards does not depend on the place. -/

/-- The next element comes before what is left after it. -/
theorem drop_of_getElem? {α : Type} {as : List α} {i : Nat} {a : α} (h : as[i]? = some a) :
    as.drop i = a :: as.drop (i + 1) := by
  obtain ⟨lt, rfl⟩ := List.getElem?_eq_some_iff.1 h
  exact List.drop_eq_getElem_cons lt

variable {𝒮 : Set Setting}

/-- Read at any of these places, the stream has these elements left. -/
def Supply (env : Environment) (𝒮 : Set Setting) (need : Nat) (m : Machine) (id : StreamId)
    (F : Set StreamId) (xs : List Value) : Prop :=
  𝒮.Nonempty ∧ ∃ P, (∀ S ∈ 𝒮, Feeds env S need id P) ∧ Left P id F xs m

namespace Supply

/-- At one of the places it has them left there. -/
theorem remains (h : Supply env 𝒮 need m id F xs) (place : S ∈ 𝒮) :
    Remains env S need m id F xs := by
  obtain ⟨-, P, feeds, left⟩ := h
  exact ⟨P, feeds S place, left⟩

theorem mem (h : Supply env 𝒮 need m id F xs) : id ∈ F := by
  obtain ⟨S, place⟩ := h.1
  exact (h.remains place).mem

theorem made (h : Supply env 𝒮 need m id F xs) : ∀ i ∈ F, i < m.streams.size := by
  obtain ⟨S, place⟩ := h.1
  exact (h.remains place).made

theorem stable (h : Supply env 𝒮 need m id F xs)
    (same : ∀ i ∈ F, m'.streams[i]? = m.streams[i]?) : Supply env 𝒮 need m' id F xs := by
  obtain ⟨⟨S, place⟩, P, feeds, ys, holds, rfl⟩ := h
  refine ⟨⟨S, place⟩, P, feeds, ys, (feeds S place).stable holds same, ?_⟩
  rw [Machine.peeked?, Machine.peeked?, same id ((feeds S place).mem holds)]

/-- What happens apart from the footprint does not matter. -/
theorem moves (h : Supply env 𝒮 need m id F xs) (apart : ∀ i ∈ F, i ∉ G)
    (hm : S.Moves G m m') : Supply env 𝒮 need m' id F xs :=
  h.stable fun i hi => hm.keeps i (h.made i hi) (apart i hi)

theorem mono {need' : Nat} (h : Supply env 𝒮 need m id F xs) (more : need ≤ need') :
    Supply env 𝒮 need' m id F xs := by
  obtain ⟨places, P, feeds, left⟩ := h
  refine ⟨places, P, fun S place => ?_, left⟩
  have feeds := feeds S place
  exact ⟨feeds.mem, feeds.made, feeds.stable, feeds.peeks,
    fun hp calm fuel enough => feeds.pull hp calm fuel (more.trans enough)⟩

theorem next (h : Supply env 𝒮 need m id F xs) (place : S ∈ 𝒮) (calm : S.calm m)
    (enough : need ≤ fuel) :
    Ends ((Calls.levels env fuel).next id) m
      (fun found m' => found = xs.head? ∧ S.Moves F m m' ∧
        ∃ F', m.Renews F F' ∧ Supply env 𝒮 need m' id F' xs.tail)
      fun _ _ => False := by
  obtain ⟨places, P, feeds, left⟩ := h
  refine ((feeds S place).next left calm enough).mono ?_ fun _ _ h => h
  rintro found m' ⟨rfl, moves, F', renews, left'⟩
  exact ⟨rfl, moves, F', renews, places, P, feeds, left'⟩

/-- What was read ahead is the first element. Taking it is reading nothing, so any place will do. -/
theorem takePeeked (h : Supply env 𝒮 need m id F xs) {v : Value} (ahead : m.peeked? id = some v) :
    some v = xs.head? ∧
      Supply env 𝒮 need (m.update id fun s => { s with peeked := none }) id F xs.tail := by
  obtain ⟨⟨S, place⟩, P, feeds, ys, holds, rfl⟩ := h
  have taken : (m.update id fun s => { s with peeked := none }).peeked? id = none := by
    rw [Machine.peeked?, Machine.getElem?_update_self]
    cases m.streams[id]? <;> rfl
  rw [ahead]
  refine ⟨rfl, ⟨S, place⟩, P, feeds, ys, (feeds S place).peeks holds none, ?_⟩
  rw [taken]
  rfl

/-- **To look for another element takes none**, at whatever place. -/
theorem hasNext (h : Supply env 𝒮 need m id F xs) (place : S ∈ 𝒮) (calm : S.calm m)
    (enough : need ≤ fuel) :
    Ends ((Calls.levels env fuel).hasNext id) m
      (fun more m' => more = !xs.isEmpty ∧ S.Moves F m m' ∧
        ∃ F', m.Renews F F' ∧ Supply env 𝒮 need m' id F' xs)
      fun _ _ => False := by
  obtain ⟨places, P, feeds, left⟩ := h
  refine ((feeds S place).hasNext left calm enough).mono ?_ fun _ _ h => h
  rintro more m' ⟨rfl, moves, F', renews, left'⟩
  refine ⟨?_, moves, F', renews, places, P, feeds, left'⟩
  cases xs <;> rfl

end Supply

end TagExpr
