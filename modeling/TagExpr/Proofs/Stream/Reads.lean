import TagExpr.Proofs.Stream.Pipeline

/-!
# Reads of one stream in any order

A stream is one cursor, however it was come by. Elements may be taken one at a time or all at once,
and between two reads one may look whether there is another element, which reads it ahead. A chain
of stages reads ahead at every level, so here a chain is taken in any state that it can be in
between two reads (`Chain`), with an element read ahead at any of its levels.

What some reads come to is said by the same reads of a list (`Read.answer`, `Read.left`). From this
it follows by induction on the list of reads that nothing is lost or given twice.
-/

namespace TagExpr

variable {env : Environment} {S : Setting} {need fuel : Nat} {m : Machine} {id : StreamId}
  {F : Set StreamId} {xs : List Value}

/-! ## Chains of stages -/

/-- The stream stands at the end of a chain of stages over a source and has these elements left. At
every level the element that was read ahead comes first. The bodies of the stages compute functions
of the elements that are left to them, and what a flat-remap takes apart is no stream.

The number is that of the levels which are enough to read the stream, and the set has the streams
that it is made of. -/
inductive Chain (env : Environment) (S : Setting) (m : Machine) :
    Nat → StreamId → Set StreamId → List Value → Prop
  | source {need : Nat} {id : StreamId} {source : Source} (some_levels : 0 < need)
      (kind : m.kind? id = some (.source source)) :
      Chain env S m need id {id} ((m.peeked? id).toList ++ source.rest)
  | stage {need : Nat} {id : StreamId} {G : Set StreamId} {ys : List Value} {stage : Stage}
      {f : Value → Value} (passage : Passage) (input : Chain env S m need stage.input G ys)
      (kind : m.kind? id = some (passage.kind stage)) (apart : id ∉ G)
      (computes : stage.Computes env S need f ys)
      (plain : passage = .flatRemap → ∀ y ∈ ys, ∀ i, f y ≠ .stream i) :
      Chain env S m (need + ys.length + 3) id (insert id G)
        ((m.peeked? id).toList ++ passage.apply env.host f ys)
  /-- A flat-remap in the middle of the elements of one value of its body. -/
  | inside {need : Nat} {id inner : StreamId} {G H : Set StreamId} {ys zs : List Value}
      {stage : Stage} {f : Value → Value} (input : Chain env S m need stage.input G ys)
      (opened : Chain env S m need inner H zs) (disjoint : Disjoint G H)
      (kind : m.kind? id = some (.flatRemap stage (some inner))) (apart : id ∉ G ∪ H)
      (computes : stage.Computes env S need f ys) (plain : ∀ y ∈ ys, ∀ i, f y ≠ .stream i) :
      Chain env S m (need + ys.length + 3) id (insert id (G ∪ H))
        ((m.peeked? id).toList ++ (zs ++ Passage.flatRemap.apply env.host f ys))

/-- A stream of a kind with which `Q` holds has left what was read ahead and what `Q` says. -/
theorem Remains.of_kind? {Q : StreamKind → Set StreamId → List Value → Machine → Prop}
    {kind : StreamKind} {G : Set StreamId} (feeds : Feeds env S need id (Reading id Q))
    (found : m.kind? id = some kind) (apart : id ∉ G) (holds : Q kind G xs m) :
    Remains env S need m id (insert id G) ((m.peeked? id).toList ++ xs) :=
  ⟨_, feeds, xs, ⟨G, kind, rfl, apart, found, holds⟩, rfl⟩

theorem Chain.remains (h : Chain env S m need id F xs) : Remains env S need m id F xs := by
  induction h with
  | @source need id source some_levels kind =>
    rw [← insert_empty_eq]
    exact (Remains.of_kind? (feeds_fromSource env S id) kind (Set.notMem_empty id)
      ⟨rfl, source, rfl, rfl⟩).mono some_levels
  | @stage need id G ys stage f passage input kind apart computes plain left =>
    have fed : Fed env S (need + ys.length + 2) stage f G ys m :=
      ⟨left.mono (by omega), computes.mono (by omega)⟩
    have few : ys.length < need + ys.length + 2 := by omega
    cases passage with
    | remap => exact .of_kind? (feeds_remap ..) kind apart ⟨rfl, ys, fed, few, rfl⟩
    | filter => exact .of_kind? (feeds_filter ..) kind apart ⟨rfl, ys, fed, few, rfl⟩
    | flatRemap =>
      have flat : Flat env S (need + ys.length + 2) stage f none G ∅ ys [] m :=
        ⟨fed, ⟨rfl, rfl⟩, Set.disjoint_empty G, by omega, plain rfl⟩
      exact .of_kind? (feeds_flatRemap ..) kind apart
        ⟨none, G, ∅, ys, [], rfl, (Set.union_empty G).symm, flat, rfl⟩
  | @inside need id inner G H ys zs stage f input opened disjoint kind apart computes plain left
      leftInner =>
    have fed : Fed env S (need + ys.length + 2) stage f G ys m :=
      ⟨left.mono (by omega), computes.mono (by omega)⟩
    have flat : Flat env S (need + ys.length + 2) stage f (some inner) G H ys zs m :=
      ⟨fed, Remains.mono leftInner (by omega), disjoint, by omega, plain⟩
    exact .of_kind? (feeds_flatRemap ..) kind apart ⟨some inner, G, H, ys, zs, rfl, rfl, flat, rfl⟩

/-! ## Reads and answers -/

/-- A way to come by a stream that there is. -/
inductive Alias where
  /-- The cursor itself, or a clone of it. -/
  | cursor
  /-- What the value of an alias is adapted to. -/
  | adapted (of : Alias)
  deriving Repr, DecidableEq

/-- The stream behind an alias. -/
def Alias.resolve (h : Host) (id : StreamId) : Alias → Eval StreamId
  | cursor => pure id
  | adapted a => do Eval.streamOf h (.stream (← a.resolve h id))

theorem Alias.resolve_eq (h : Host) (id : StreamId) (a : Alias) : a.resolve h id = pure id := by
  induction a with
  | cursor => rfl
  | adapted a ih =>
    rw [resolve, ih]
    rfl

/-- The reads of a stream. -/
inductive Read where
  | next | hasNext | collect
  deriving Repr, DecidableEq

/-- What a read comes to. -/
inductive Answer where
  | element (found : Option Value)
  | more (there : Bool)
  | elements (items : List Value)

namespace Answer

/-- The elements that are delivered. -/
def delivered : Answer → List Value
  | element found => found.toList
  | more _ => []
  | elements items => items

/-- The answer of a stream that has ended. -/
def IsEnd : Answer → Prop
  | element found => found = none
  | more there => there = false
  | elements items => items = []

end Answer

/-- Reads the stream behind an alias. -/
def Calls.read (calls : Calls) (h : Host) (reads : Nat) (id : StreamId) (a : Alias) :
    Read → Eval Answer
  | .next => do return .element (← calls.next (← a.resolve h id))
  | .hasNext => do return .more (← calls.hasNext (← a.resolve h id))
  | .collect => do return .elements (← calls.collect (← a.resolve h id) reads)

/-- Some reads, one after the other, each through an alias of its own. -/
def Calls.readAll (calls : Calls) (h : Host) (reads : Nat) (id : StreamId) :
    List (Alias × Read) → Eval (List Answer)
  | [] => return []
  | (a, r) :: rest => do
    let answer ← calls.read h reads id a r
    return answer :: (← calls.readAll h reads id rest)

/-! ## The same reads of a list -/

namespace Read

/-- The answer of a list. -/
def answer (xs : List Value) : Read → Answer
  | next => .element xs.head?
  | hasNext => .more xs.head?.isSome
  | collect => .elements xs

/-- What a list has left after the read. -/
def left (xs : List Value) : Read → List Value
  | next => xs.tail
  | hasNext => xs
  | collect => []

/-- The answers of a list, which gets shorter from read to read. -/
def answers : List Value → List Read → List Answer
  | _, [] => []
  | xs, r :: rs => r.answer xs :: answers (r.left xs) rs

/-- What a list has left after some reads. -/
def leftAfter (xs : List Value) (rs : List Read) : List Value := rs.foldl left xs

theorem delivered_append_left (xs : List Value) (r : Read) :
    (r.answer xs).delivered ++ r.left xs = xs := by
  cases r with
  | next => cases xs <;> rfl
  | hasNext => rfl
  | collect => exact List.append_nil xs

theorem delivered_append_leftAfter (xs : List Value) (rs : List Read) :
    (answers xs rs).flatMap Answer.delivered ++ leftAfter xs rs = xs := by
  induction rs generalizing xs with
  | nil => rfl
  | cons r rs ih =>
    calc
      _ = (r.answer xs).delivered ++
          ((answers (r.left xs) rs).flatMap Answer.delivered ++ leftAfter (r.left xs) rs) := by
        rw [answers, List.flatMap_cons, List.append_assoc]
        rfl
      _ = xs := by rw [ih, delivered_append_left]

/-- A list without elements stays so. -/
theorem isEnd_of_mem_answers_nil {rs : List Read} : ∀ a ∈ answers [] rs, a.IsEnd := by
  induction rs with
  | nil => exact fun _ h => absurd h List.not_mem_nil
  | cons r rs ih =>
    have ended : r.left [] = [] := by cases r <;> rfl
    rw [answers, ended]
    rintro a (_ | ⟨_, ha⟩)
    · cases r <;> rfl
    · exact ih a ha

theorem pairwise_answers (xs : List Value) (rs : List Read) :
    (answers xs rs).Pairwise fun a b => a = .element none → b.IsEnd := by
  induction rs generalizing xs with
  | nil => exact .nil
  | cons r rs ih =>
    refine .cons ?_ (ih _)
    intro b hb last
    cases r with
    | next =>
      have empty : xs = [] := List.head?_eq_none_iff.1 (Answer.element.inj last)
      subst empty
      exact isEnd_of_mem_answers_nil b hb
    | hasNext => cases last
    | collect => cases last

theorem isChain_answers (xs : List Value) (rs : List Read) :
    (answers xs rs).IsChain fun a b =>
      ∀ there found, a = .more there → b = .element found → there = found.isSome := by
  induction rs generalizing xs with
  | nil => exact .nil
  | cons r rs ih =>
    cases rs with
    | nil => exact .singleton _
    | cons r' rs =>
      refine .cons_cons ?_ (ih _)
      intro there found ha hb
      cases r <;> cases ha
      cases r' <;> cases hb
      rfl

end Read

/-! ## Reads of what a stream has left -/

theorem Remains.read (h : Remains env S need m id F xs) (calm : S.calm m) (enough : need ≤ fuel)
    (many : xs.length < fuel) (a : Alias) (r : Read) :
    Ends ((Calls.levels env fuel).read env.host fuel id a r) m
      (fun answer m' => answer = r.answer xs ∧ S.calm m' ∧
        ∃ F', Remains env S need m' id F' (r.left xs))
      fun _ _ => False := by
  cases r with
  | next =>
    rw [Calls.read, a.resolve_eq, pure_bind, ends_bind]
    refine (h.next calm enough).mono ?_ fun _ _ h => h
    rintro _ m' ⟨rfl, moves, F', -, left⟩
    exact ⟨rfl, moves.calm, F', left⟩
  | hasNext =>
    rw [Calls.read, a.resolve_eq, pure_bind, ends_bind]
    refine (h.hasNext calm enough).mono ?_ fun _ _ h => h
    rintro _ m' ⟨rfl, moves, F', -, left⟩
    exact ⟨rfl, moves.calm, F', left⟩
  | collect =>
    rw [Calls.read, a.resolve_eq, pure_bind, ends_bind]
    refine (h.collect calm enough many).mono ?_ fun _ _ h => h
    rintro _ m' ⟨rfl, calm', F', left⟩
    exact ⟨rfl, calm', F', left⟩

theorem Remains.readAll (h : Remains env S need m id F xs) (calm : S.calm m) (enough : need ≤ fuel)
    (many : xs.length < fuel) (reads : List (Alias × Read)) :
    Ends ((Calls.levels env fuel).readAll env.host fuel id reads) m
      (fun answers m' => answers = Read.answers xs (reads.map (·.2)) ∧ S.calm m' ∧
        ∃ F', Remains env S need m' id F' (Read.leftAfter xs (reads.map (·.2))))
      fun _ _ => False := by
  induction reads generalizing m F xs with
  | nil => exact ⟨rfl, calm, F, h⟩
  | cons read reads ih =>
    obtain ⟨a, r⟩ := read
    have fewer : (r.left xs).length ≤ xs.length := by
      rw [← congrArg List.length (r.delivered_append_left xs), List.length_append]
      exact Nat.le_add_left _ _
    rw [Calls.readAll, ends_bind]
    refine (h.read calm enough many a r).mono ?_ fun _ _ h => h
    rintro _ m₁ ⟨rfl, calm₁, F₁, left₁⟩
    rw [ends_bind]
    refine (ih left₁ calm₁ (fewer.trans_lt many)).mono ?_ fun _ _ h => h
    rintro _ m₂ ⟨rfl, calm₂, F₂, left₂⟩
    exact ⟨rfl, calm₂, F₂, left₂⟩

/-- **However a stream is read, it gives each element once.** Let a chain have the elements `xs`
left, which is what a drain gives. Some reads of it, in any order and through any aliases, all
succeed. What they deliver is the beginning of `xs`, of which a drain then gives the rest. An answer
that there is another element is true of the next read; and once there is no next element, there is
none for any later read. -/
theorem reads_deliver_once (chain : Chain env S m need id F xs) (calm : S.calm m)
    (enough : need + xs.length < fuel) :
    let calls := Calls.levels env fuel
    Ends (calls.collect id fuel) m (fun found _ => found = xs) (fun _ _ => False) ∧
    ∀ reads, Ends (calls.readAll env.host fuel id reads) m
      (fun answers m' =>
        (answers.IsChain fun a b =>
          ∀ there found, a = .more there → b = .element found → there = found.isSome) ∧
        (answers.Pairwise fun a b => a = .element none → b.IsEnd) ∧
        ∃ left, answers.flatMap Answer.delivered ++ left = xs ∧
          Ends (calls.collect id fuel) m' (fun found _ => found = left) (fun _ _ => False) ∧
          Ends (calls.next id) m' (fun found _ => found = left.head?) (fun _ _ => False) ∧
          Ends (calls.hasNext id) m' (fun there _ => there = left.head?.isSome)
            fun _ _ => False)
      fun _ _ => False := by
  have levels : need ≤ fuel := by omega
  have many : xs.length < fuel := by omega
  have whole := chain.remains
  refine ⟨(whole.collect calm levels many).mono (fun _ _ h => h.1) fun _ _ h => h, ?_⟩
  intro reads
  refine (whole.readAll calm levels many reads).mono ?_ fun _ _ h => h
  rintro _ m' ⟨rfl, calm', F', left⟩
  have once := Read.delivered_append_leftAfter xs (reads.map (·.2))
  have fewer : (Read.leftAfter xs (reads.map (·.2))).length < fuel := by
    rw [← once, List.length_append] at many
    omega
  exact ⟨Read.isChain_answers .., Read.pairwise_answers .., _, once,
    (left.collect calm' levels fewer).mono (fun _ _ h => h.1) fun _ _ h => h,
    (left.next calm' levels).mono (fun _ _ h => h.1) fun _ _ h => h,
    (left.hasNext calm' levels).mono (fun _ _ h => h.1) fun _ _ h => h⟩

/-! The chain `[1, 2, 3] #> . * 2 #| [., .]`, with the first element read ahead at its source. -/

/-- Bodies that rely on nothing but their element. -/
def Setting.any : Setting where
  calm _ := True
  streams _ h := h

def Link.doubledSection : Link where
  passage := .remap
  binding := none
  body := .binary .mul (.current 0) (.literal (.int 2))
  value
    | .int n => .int (n * 2)
    | v => v

theorem reads_deliver_once_two_stages :
    let m : Machine :=
      { streams := #[{ kind := .source (.items [.int 2, .int 3]), peeked := some (.int 1) },
          { kind := .remap (Link.doubledSection.stage default 0 0) },
          { kind := .flatRemap (Link.twice.stage default 0 1) none }] }
    let xs : List Value := [.int 2, .int 2, .int 4, .int 4, .int 6, .int 6]
    let reads : List (Alias × Read) :=
      [(.cursor, .hasNext), (.adapted .cursor, .next), (.cursor, .collect)]
    Chain {} .any m 13 2 {2, 1, 0} xs ∧
    ∀ fuel, 30 ≤ fuel → Ends ((Calls.levels {} fuel).readAll {} fuel 2 reads) m
      (fun answers _ => ∃ left, answers.flatMap Answer.delivered ++ left = xs)
      fun _ _ => False := by
  intro m xs reads
  have doubled : (Link.doubledSection.stage default 0 0).Computes {} .any 1
      Link.doubledSection.value [.int 1, .int 2, .int 3] := by
    rintro x hx ⟨c, streams, frames, ids, object, journal⟩ - index fuel enough
    obtain ⟨fuel, rfl⟩ : ∃ less, fuel = less + 1 := ⟨fuel - 1, by omega⟩
    simp only [List.mem_cons, List.not_mem_nil, or_false] at hx
    rcases hx with rfl | rfl | rfl <;> exact ⟨rfl, trivial, Nat.le_refl _, fun _ _ _ => rfl⟩
  have twice : (Link.twice.stage default 0 1).Computes {} .any 7 Link.twice.value
      [.int 2, .int 4, .int 6] := by
    rintro x - ⟨c, streams, frames, ids, object, journal⟩ - index fuel enough
    obtain ⟨fuel, rfl⟩ : ∃ less, fuel = less + 1 := ⟨fuel - 1, by omega⟩
    exact ⟨rfl, trivial, Nat.le_refl _, fun _ _ _ => rfl⟩
  have source : Chain {} .any m 1 0 {0} [.int 1, .int 2, .int 3] :=
    @Chain.source {} .any m 1 0 (.items [.int 2, .int 3]) Nat.one_pos rfl
  have remapped : Chain {} .any m 7 1 {1, 0} [.int 2, .int 4, .int 6] :=
    .stage .remap source rfl (by simp) doubled nofun
  have chain : Chain {} .any m 13 2 {2, 1, 0} xs :=
    .stage .flatRemap remapped rfl (by simp) twice fun _ _ _ _ => nofun
  refine ⟨chain, fun fuel enough => ?_⟩
  have levels : 13 + xs.length < fuel := Nat.lt_of_lt_of_le (by decide) enough
  refine ((reads_deliver_once chain trivial levels).2 reads).mono ?_ fun _ _ h => h
  rintro answers m' ⟨-, -, left, once, -⟩
  exact ⟨left, once⟩

end TagExpr
