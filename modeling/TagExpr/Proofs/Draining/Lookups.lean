import TagExpr.Proofs.Draining.Lapse

/-!
# Look-ups at two moments

A look-up that starts at a stated section follows if that section is the same one at both moments.
A look-up without one searches from the innermost section outward. It follows if a section answers
that is there at both moments and lies above what differs, and also if nothing that differs answers.
Whether a section answers can be told before the look-up, for ways do not change.
-/

namespace TagExpr

namespace Lapse

variable {L : Lapse} {h : Host} {own : List Section} {m m' : Machine} {c c' : Context}
  {ref : IdentifierRef} {lookup : Lookup}

/-! ## Sections -/

/-- The same sections are there at both moments. -/
def still (L : Lapse) : Bool := L.gone.isEmpty && L.come.isEmpty

/-- The section that a look-up starts from is the same one at both moments. -/
def sees (L : Lapse) (own : List Section) : Lookup → Bool
  | .unstated => !own.isEmpty || L.still
  | .backreach levels => levels < own.length || L.still
  | .root => !L.around.isEmpty || L.still

theorem Contexts.sections_of_still (hc : L.Contexts own c c') (still : L.still) :
    c'.sections = c.sections := by
  obtain ⟨gone, come⟩ := Bool.and_eq_true_iff.mp still
  have same : c'.sections.toList = c.sections.toList := by
    rw [hc.sections, hc.sections', List.isEmpty_iff.mp gone, List.isEmpty_iff.mp come]
  exact congrArg Stack.mk same

theorem Contexts.peekAt? (hc : L.Contexts own c c') {levels : Nat}
    (seen : L.sees own (.backreach levels)) :
    c'.sections.peekAt? levels = c.sections.peekAt? levels := by
  rcases Bool.or_eq_true_iff.mp seen with above | still
  · have above : levels < own.length := of_decide_eq_true above
    simp only [Stack.peekAt?, hc.sections, hc.sections', List.getElem?_append_left above]
  · rw [hc.sections_of_still still]

theorem Contexts.section? (hc : L.Contexts own c c') (seen : L.sees own lookup) :
    c'.section? lookup = c.section? lookup := by
  cases lookup with
  | backreach levels => exact hc.peekAt? seen
  | unstated =>
    rcases Bool.or_eq_true_iff.mp seen with above | still
    · simp only [Context.section?, Stack.peek?, hc.sections, hc.sections']
      cases own with
      | nil => cases above
      | cons s own => rfl
    · simp only [Context.section?, hc.sections_of_still still]
  | root =>
    rcases Bool.or_eq_true_iff.mp seen with beneath | still
    · have base : L.around.reverse ≠ [] := by simpa using beneath
      simp only [Context.section?, Stack.peekBase?, Stack.bottomUp, hc.sections, hc.sections',
        List.reverse_append, List.append_assoc]
      cases around : L.around.reverse with
      | nil => exact absurd around base
      | cons s beneath => rfl
    · simp only [Context.section?, hc.sections_of_still still]

theorem Contexts.sectionValue (hc : L.Contexts own c c') {levels : Nat}
    (seen : L.sees own (.backreach levels)) : c'.sectionValue levels = c.sectionValue levels := by
  unfold Context.sectionValue
  rw [hc.peekAt? seen]

/-! ## Members -/

/-- The number of the identifier stands for the same member as in the lapse. -/
def keyed (L : Lapse) (ref : IdentifierRef) : Bool := ref.key == (L.learnt ref.id).key

theorem Knows.sameWays {identifiers : Std.HashMap Nat Identifier} (knows : L.Knows h identifiers)
    (keyed : L.keyed ref) :
    (identifiers.getD ref.id (.fresh ref.key)).SameWays h (L.learnt ref.id) := by
  have key : ref.key = (L.learnt ref.id).key := eq_of_beq keyed
  rw [key]
  exact knows ref.id

theorem Knows.insert {identifiers : Std.HashMap Nat Identifier} (knows : L.Knows h identifiers)
    {number : Nat} {i : Identifier} (same : i.SameWays h (L.learnt number)) :
    L.Knows h (identifiers.insert number i) := by
  intro id
  rw [Std.HashMap.getD_insert]
  split
  case isTrue here =>
    obtain rfl : number = id := eq_of_beq here
    exact same
  case isFalse => exact knows id

/-- Reading a member takes one of the ways of the lapse and learns it. -/
theorem run_member (receiver : Value) (args : List Value) (m : Machine)
    (same : (m.identifiers.getD ref.id (.fresh ref.key)).SameWays h (L.learnt ref.id)) :
    let reached := (((L.learnt ref.id).way h receiver (args.map Value.shape)).follow h
      (L.learnt ref.id).key.name receiver args).run m.nextObject
    ∃ learnt : Identifier, learnt.SameWays h (L.learnt ref.id) ∧
      Eval.member h ref receiver args m = .ok reached.1
        { m with
          identifiers := m.identifiers.insert ref.id learnt
          nextObject := reached.2 } := by
  refine ⟨_, same.learn receiver args, ?_⟩
  have read : Eval.member h ref receiver args m =
      let got := ((m.identifiers.getD ref.id (.fresh ref.key)).get h receiver args).run m.nextObject
      .ok got.1.1 { m with
        identifiers := m.identifiers.insert ref.id got.1.2
        nextObject := got.2 } := rfl
  rw [read, same.run_get]

/-- The member of one receiver is the same at both moments, and it is there if the lapse finds
it. -/
theorem follows_member (keyed : L.keyed ref) (receiver : Value) (args : List Value) :
    L.Follows h own
      (fun found found' => found' = found ∧
        ((L.learnt ref.id).finds h receiver args.length → found.isSome))
      (Eval.member h ref receiver args) (Eval.member h ref receiver args) := by
  intro m m' twins a m₁ ran
  obtain ⟨i, same, read⟩ := run_member receiver args m (twins.knows.sameWays keyed)
  obtain ⟨i', same', read'⟩ := run_member receiver args m' (twins.knows'.sameWays keyed)
  rw [read] at ran
  cases ran
  rw [twins.nextObject] at read'
  refine ⟨_, _, read', ⟨rfl, fun found => ?_⟩, { twins with
    knows := twins.knows.insert same
    knows' := twins.knows'.insert same'
    nextObject := rfl }⟩
  rw [Resolver.isSome_follow]
  exact Identifier.answers_of_finds found

theorem repeats_member (keyed : L.keyed ref) (receiver : Value) (args : List Value) :
    L.Repeats h own (Eval.member h ref receiver args) (Eval.member h ref receiver args) := by
  intro m m' twins a m₁ ran
  obtain ⟨b, m₁', ran', same, twins₁⟩ := follows_member keyed receiver args m m' twins a m₁ ran
  exact ⟨b, m₁', ran', same.1.symm, twins₁⟩

theorem repeats_access (keyed : L.keyed ref) (receiver : Value) (args : List Value) (safe : Bool) :
    L.Repeats h own (Eval.access h ref receiver args safe)
      (Eval.access h ref receiver args safe) := by
  unfold Eval.access
  split
  · split
    · exact follows_pure rfl
    · exact follows_throw _
  · exact (repeats_member keyed receiver args).bind_eq fun _ => follows_pure rfl

/-! ## Sections that are searched -/

variable {args : List Value}

/-- Sections that are there at both moments may be searched first. -/
theorem Follows.searchMember (keyed : L.keyed ref) (sections : List Section)
    {beneath beneath' : List Section}
    (hx : L.Repeats h own (Eval.searchMember h ref args beneath)
      (Eval.searchMember h ref args beneath')) :
    L.Repeats h own (Eval.searchMember h ref args (sections ++ beneath))
      (Eval.searchMember h ref args (sections ++ beneath')) := by
  induction sections with
  | nil => exact hx
  | cons s rest ih =>
    refine (repeats_member keyed s.value args).bind_eq fun found => ?_
    cases found with
    | some v => exact follows_pure rfl
    | none => exact ih

theorem repeats_searchMember (keyed : L.keyed ref) (sections : List Section) :
    L.Repeats h own (Eval.searchMember h ref args sections)
      (Eval.searchMember h ref args sections) := by
  have none : L.Repeats h own (Eval.searchMember h ref args []) (Eval.searchMember h ref args []) :=
    follows_pure rfl
  have all := none.searchMember keyed sections
  rwa [List.append_nil] at all

/-- Where one of the first sections answers, it does not matter what lies beneath them. -/
theorem repeats_searchMember_of_finds (keyed : L.keyed ref) {sections : List Section}
    (answered : sections.any fun s => (L.learnt ref.id).finds h s.value args.length)
    (beneath beneath' : List Section) :
    L.Repeats h own (Eval.searchMember h ref args (sections ++ beneath))
      (Eval.searchMember h ref args (sections ++ beneath')) := by
  induction sections with
  | nil => cases answered
  | cons s rest ih =>
    refine (follows_member keyed s.value args).bind_of fun found here => ?_
    cases found with
    | some v => exact follows_pure rfl
    | none =>
      rcases Bool.or_eq_true_iff.mp answered with now | later
      · cases here now
      · exact ih later

/-- A section that does not answer is passed, and only a way is learnt. -/
theorem searchMember_of_misses {s : Section} (rest : List Section) (m : Machine)
    (same : (m.identifiers.getD ref.id (.fresh ref.key)).SameWays h (L.learnt ref.id))
    (missed : (L.learnt ref.id).misses h s.value args.length) :
    ∃ learnt : Identifier, learnt.SameWays h (L.learnt ref.id) ∧
      Eval.searchMember h ref args (s :: rest) m = Eval.searchMember h ref args rest
        { m with identifiers := m.identifiers.insert ref.id learnt } := by
  obtain ⟨i, learnt, read⟩ := run_member s.value args m same
  rw [Resolver.follow_of_not_answers (Identifier.not_answers_of_misses missed)] at read
  refine ⟨i, learnt, ?_⟩
  simp only [Eval.searchMember, Bind.bind, EStateM.bind, read]

variable {x x' : Eval Value}

theorem Follows.pass_gone {sections beneath : List Section} (keyed : L.keyed ref)
    (missed : sections.all fun s => (L.learnt ref.id).misses h s.value args.length)
    (hx : L.Repeats h own (Eval.searchMember h ref args beneath) x') :
    L.Repeats h own (Eval.searchMember h ref args (sections ++ beneath)) x' := by
  induction sections with
  | nil => exact hx
  | cons s rest ih =>
    obtain ⟨now, later⟩ := Bool.and_eq_true_iff.mp missed
    intro m m' twins a m₁ ran
    obtain ⟨i, same, passed⟩ :=
      searchMember_of_misses (rest ++ beneath) m (twins.knows.sameWays keyed) now
    have learning : L.Twins h own
        { m with identifiers := m.identifiers.insert ref.id i } m' :=
      { twins with knows := twins.knows.insert same }
    exact ih later _ m' learning a m₁ (passed.symm.trans ran)

theorem Follows.pass_come {sections beneath : List Section} (keyed : L.keyed ref)
    (missed : sections.all fun s => (L.learnt ref.id).misses h s.value args.length)
    (hx : L.Repeats h own x (Eval.searchMember h ref args beneath)) :
    L.Repeats h own x (Eval.searchMember h ref args (sections ++ beneath)) := by
  induction sections with
  | nil => exact hx
  | cons s rest ih =>
    obtain ⟨now, later⟩ := Bool.and_eq_true_iff.mp missed
    intro m m' twins a m₁ ran
    obtain ⟨i, same, passed⟩ :=
      searchMember_of_misses (rest ++ beneath) m' (twins.knows'.sameWays keyed) now
    have learning : L.Twins h own m
        { m' with identifiers := m'.identifiers.insert ref.id i } :=
      { twins with knows' := twins.knows'.insert same }
    obtain ⟨b, m₁', ran', holds⟩ := ih later m _ learning a m₁ ran
    exact ⟨b, m₁', passed.trans ran', holds⟩

/-- A look-up with so many arguments comes to the same member at both moments. -/
def resolves (L : Lapse) (h : Host) (own : List Section) (ref : IdentifierRef) (count : Nat) :
    Lookup → Bool
  | .unstated =>
    own.any (fun s => (L.learnt ref.id).finds h s.value count) ||
      (L.gone ++ L.come).all fun s => (L.learnt ref.id).misses h s.value count
  | lookup => L.sees own lookup

theorem repeats_resolve (keyed : L.keyed ref) (args : List Value)
    (resolves : L.resolves h own ref args.length lookup) :
    L.Repeats h own (Eval.resolve h ref lookup args) (Eval.resolve h ref lookup args) := by
  refine follows_context.bind fun c c' hc => ?_
  have stated (lookup : Lookup) (seen : L.sees own lookup) :
      L.Repeats h own (Eval.searchMember h ref args (c.section? lookup).toList)
        (Eval.searchMember h ref args (c'.section? lookup).toList) := by
    rw [hc.section? seen]
    exact repeats_searchMember keyed _
  cases lookup with
  | backreach levels => exact stated (.backreach levels) resolves
  | root => exact stated .root resolves
  | unstated =>
    show L.Repeats h own (Eval.searchMember h ref args c.sections.toList)
      (Eval.searchMember h ref args c'.sections.toList)
    rw [hc.sections, hc.sections']
    rcases Bool.or_eq_true_iff.mp resolves with answered | missed
    · exact repeats_searchMember_of_finds keyed answered _ _
    · rw [List.all_append] at missed
      obtain ⟨gone, come⟩ := Bool.and_eq_true_iff.mp missed
      exact .searchMember keyed own
        (.pass_gone keyed gone (.pass_come keyed come (repeats_searchMember keyed L.around)))

end Lapse

end TagExpr
