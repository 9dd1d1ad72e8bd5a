import TagExpr.Proofs.Demand.Thrift

/-!
# Streams are lazy

The operator for the first value reads the line under it and runs its body for one element after the
other, until the body has a value that is not null. What it comes to is what these reads come to
(`comes_first_iff`), and nothing happens after the first value has been found.

Making a chain of stages runs no body and takes no element; each read of the chain goes on just
until an element is delivered; and the operator for the first value stops at that value.
-/

namespace TagExpr.Demand

/-! ## Searches -/

/-- A search that begins on this machine with an element of this index: what happens in it and what
it comes to. The body counts as a station behind the line. -/
inductive Searches (env : Environment) (L : Line) (stage : Stage) :
    Nat → Machine → List Event → Outcome Value → Prop
  | ends {index m t m'} : Reads env L (.next L.stations.length) m t (.ok none m') →
      Searches env L stage index m t (.ok .null m')
  | breaks {index m t stop m'} : Reads env L (.next L.stations.length) m t (.error stop m') →
      Searches env L stage index m t (.error stop m')
  | fails {index m t item m' stop m''} :
      Reads env L (.next L.stations.length) m t (.ok (some item) m') →
      Comes env (fun calls => calls.runStage stage item index) m' (.error stop m'') →
      Searches env L stage index m (t ++ [.ran L.stations.length item none]) (.error stop m'')
  | finds {index m t item m' v m''} :
      Reads env L (.next L.stations.length) m t (.ok (some item) m') →
      Comes env (fun calls => calls.runStage stage item index) m' (.ok v m'') → v.isNull = false →
      Searches env L stage index m (t ++ [.ran L.stations.length item (some v)]) (.ok v m'')
  | again {index m t item m' v m'' t' r} :
      Reads env L (.next L.stations.length) m t (.ok (some item) m') →
      Comes env (fun calls => calls.runStage stage item index) m' (.ok v m'') → v.isNull = true →
      Searches env L stage (index + 1) m'' t' r →
      Searches env L stage index m (t ++ .ran L.stations.length item (some v) :: t') r

variable {env : Environment} {L : Line} {stage : Stage} {index : Nat} {m m' : Machine}
  {t : List Event} {r : Outcome Value} {fuel : Nat}

theorem Searches.ended (h : Searches env L stage index m t r) : r.Ended := by
  induction h with
  | ends | finds => exact Outcome.ended_ok _ _
  | breaks reads => exact fun m same => reads.ended.ne (by cases same; rfl)
  | fails _ comes => exact comes.2
  | again _ _ _ _ ih => exact ih

theorem steady_runStage {quiet : Prop} (upholds : Upholds quiet env) (tame : quiet → stage.Quiet)
    (item : Value) (index : Nat) (hm : quiet → m.Quiet) :
    Steady quiet env (fun calls => calls.runStage stage item index) m :=
  fun _ _ le => (followsCalls_levels upholds le).runStage tame item index m hm

/-- For the element that the line delivers the body comes to one thing only. -/
theorem body_unique (upholds : Upholds False env) {phase : Phase} {t' : List Event}
    {item item' : Value} {m₁ m₂ : Machine} {r' : Outcome Value}
    (reads : Reads env L phase m t (.ok (some item) m₁))
    (comes : Comes env (fun calls => calls.runStage stage item index) m₁ r)
    (reads' : Reads env L phase m t' (.ok (some item') m₂))
    (comes' : Comes env (fun calls => calls.runStage stage item' index) m₂ r') :
    t = t' ∧ item = item' ∧ r = r' := by
  obtain ⟨rfl, same⟩ := reads.unique upholds reads'
  cases same
  exact ⟨rfl, rfl, comes.unique comes' (steady_runStage upholds False.elim _ _ False.elim)⟩

/-- There is one search only, which comes to one result. -/
theorem Searches.unique (upholds : Upholds False env) {t' : List Event} {r' : Outcome Value}
    (h : Searches env L stage index m t r) (h' : Searches env L stage index m t' r') :
    t = t' ∧ r = r' := by
  -- The reads are the same, and so are the runs of the body, so both searches go on alike.
  induction h generalizing t' r' with
  | ends reads =>
    cases h' with
    | ends reads' =>
      obtain ⟨rfl, same⟩ := reads.unique upholds reads'
      cases same
      exact ⟨rfl, rfl⟩
    | breaks reads' | fails reads' _ | finds reads' _ _ | again reads' _ _ _ =>
      cases (reads.unique upholds reads').2
  | breaks reads =>
    cases h' with
    | breaks reads' =>
      obtain ⟨rfl, same⟩ := reads.unique upholds reads'
      cases same
      exact ⟨rfl, rfl⟩
    | ends reads' | fails reads' _ | finds reads' _ _ | again reads' _ _ _ =>
      cases (reads.unique upholds reads').2
  | fails reads comes =>
    cases h' with
    | ends reads' | breaks reads' => cases (reads.unique upholds reads').2
    | fails reads' comes' =>
      obtain ⟨rfl, rfl, same⟩ := body_unique upholds reads comes reads' comes'
      cases same
      exact ⟨rfl, rfl⟩
    | finds reads' comes' _ | again reads' comes' _ _ =>
      cases (body_unique upholds reads comes reads' comes').2.2
  | finds reads comes found =>
    cases h' with
    | ends reads' | breaks reads' => cases (reads.unique upholds reads').2
    | fails reads' comes' =>
      cases (body_unique upholds reads comes reads' comes').2.2
    | finds reads' comes' _ =>
      obtain ⟨rfl, rfl, same⟩ := body_unique upholds reads comes reads' comes'
      cases same
      exact ⟨rfl, rfl⟩
    | again reads' comes' null _ =>
      obtain ⟨-, -, same⟩ := body_unique upholds reads comes reads' comes'
      cases same
      cases found.symm.trans null
  | again reads comes null _ ih =>
    cases h' with
    | ends reads' | breaks reads' => cases (reads.unique upholds reads').2
    | fails reads' comes' =>
      cases (body_unique upholds reads comes reads' comes').2.2
    | finds reads' comes' found =>
      obtain ⟨-, -, same⟩ := body_unique upholds reads comes reads' comes'
      cases same
      cases null.symm.trans found
    | again reads' comes' _ searches =>
      obtain ⟨rfl, rfl, same⟩ := body_unique upholds reads comes reads' comes'
      cases same
      obtain ⟨rfl, rfl⟩ := ih searches
      exact ⟨rfl, rfl⟩

section Evaluation

variable (upholds : Upholds False env) (input : stage.input = L.top)

include upholds input

theorem searches_of_first (rounds : Nat) (mounted : L.MountedIn m)
    (ran : (Calls.levels env fuel).firstOfStage stage rounds index m = r) (ended : r.Ended) :
    ∃ t, Searches env L stage index m t r := by
  have loud {m : Machine} : False → m.Quiet := False.elim
  induction rounds generalizing index m with
  | zero => exact absurd ran.symm (ended m)
  | succ rounds ih =>
    unfold Calls.firstOfStage at ran
    rw [input] at ran
    have reading {r : Outcome (Option Value)} (ran : (Calls.levels env fuel).next L.top m = r)
        (ended : r.Ended) : ∃ t, Reads env L (.next L.stations.length) m t r :=
      reads_of_next upholds (Nat.le_refl _) mounted ran ended
    cases hnext : (Calls.levels env fuel).next L.top m with
    | error stop m₁ =>
      obtain rfl : .error stop m₁ = r := (bind_of_error hnext).symm.trans ran
      obtain ⟨t, reads⟩ := reading hnext fun m same => ended m (by cases same; rfl)
      exact ⟨t, .breaks reads⟩
    | ok found m₁ =>
      replace ran := (bind_of_ok hnext).symm.trans ran
      obtain ⟨t, reads⟩ := reading hnext (Outcome.ended_ok _ _)
      cases found with
      | none =>
        subst ran
        exact ⟨t, .ends reads⟩
      | some item =>
        have mounted₁ := mounted.mono (reads.keeps upholds mounted loud)
        cases hbody : (Calls.levels env fuel).runStage stage item index m₁ with
        | error stop m₂ =>
          obtain rfl : .error stop m₂ = r := (bind_of_error hbody).symm.trans ran
          exact ⟨_, .fails reads ⟨⟨fuel, hbody⟩, ended⟩⟩
        | ok v m₂ =>
          replace ran := (bind_of_ok hbody).symm.trans ran
          have comes : Comes env (fun calls => calls.runStage stage item index) m₁ (.ok v m₂) :=
            ⟨⟨fuel, hbody⟩, Outcome.ended_ok _ _⟩
          cases null : v.isNull with
          | false =>
            simp only [null] at ran
            subst ran
            exact ⟨_, .finds reads comes null⟩
          | true =>
            simp only [null] at ran
            have kept := comes.keeps (steady_runStage upholds False.elim item index loud)
            obtain ⟨t', searches⟩ := ih (mounted₁.mono kept) ran
            exact ⟨_, .again reads comes null searches⟩

/-- A search is what evaluation does as soon as there are levels and rounds enough. -/
theorem Searches.lasts (h : Searches env L stage index m t r) (mounted : L.MountedIn m) :
    ∃ enough, ∀ fuel rounds, enough ≤ fuel → enough ≤ rounds →
      (Calls.levels env fuel).firstOfStage stage rounds index m = r := by
  have loud {m : Machine} : False → m.Quiet := False.elim
  -- What was read is what evaluation reads, and the body then does what it did.
  have reading {m : Machine} {t : List Event} {r : Outcome (Option Value)} (mounted : L.MountedIn m)
      (reads : Reads env L (.next L.stations.length) m t r) :
      ∃ enough, ∀ fuel, enough ≤ fuel → (Calls.levels env fuel).next stage.input m = r := by
    obtain ⟨enough, ran⟩ := reads.lasts upholds mounted
    rw [input]
    exact ⟨enough, fun fuel le => ran fuel fuel le le⟩
  induction h with
  | ends reads =>
    obtain ⟨enough, ran⟩ := reading mounted reads
    refine ⟨enough + 1, fun fuel rounds le le' => ?_⟩
    obtain ⟨rounds, rfl⟩ : ∃ less, rounds = less + 1 := ⟨rounds - 1, by omega⟩
    exact bind_of_ok (ran fuel (by omega))
  | breaks reads =>
    obtain ⟨enough, ran⟩ := reading mounted reads
    refine ⟨enough + 1, fun fuel rounds le le' => ?_⟩
    obtain ⟨rounds, rfl⟩ : ∃ less, rounds = less + 1 := ⟨rounds - 1, by omega⟩
    exact bind_of_error (ran fuel (by omega))
  | fails reads comes =>
    obtain ⟨enough, ran⟩ := reading mounted reads
    obtain ⟨enough', ran'⟩ := comes.lasts (steady_runStage upholds False.elim _ _ loud)
    refine ⟨max enough enough' + 1, fun fuel rounds le le' => ?_⟩
    obtain ⟨rounds, rfl⟩ : ∃ less, rounds = less + 1 := ⟨rounds - 1, by omega⟩
    exact (bind_of_ok (ran fuel (by omega))).trans (bind_of_error (ran' fuel (by omega)))
  | @finds index m t item m' v m'' reads comes found =>
    obtain ⟨enough, ran⟩ := reading mounted reads
    obtain ⟨enough', ran'⟩ := comes.lasts (steady_runStage upholds False.elim _ _ loud)
    refine ⟨max enough enough' + 1, fun fuel rounds le le' => ?_⟩
    obtain ⟨rounds, rfl⟩ : ∃ less, rounds = less + 1 := ⟨rounds - 1, by omega⟩
    refine (bind_of_ok (ran fuel (by omega))).trans ((bind_of_ok (ran' fuel (by omega))).trans ?_)
    simp only [found]
    rfl
  | @again index m t item m' v m'' t' r reads comes null _ ih =>
    obtain ⟨enough, ran⟩ := reading mounted reads
    have steady : Steady False env (fun calls => calls.runStage stage item index) m' :=
      steady_runStage upholds False.elim item index loud
    obtain ⟨enough', ran'⟩ := comes.lasts steady
    have mounted' := mounted.mono (reads.keeps upholds mounted loud)
    obtain ⟨enough'', ran''⟩ := ih (mounted'.mono (comes.keeps steady))
    refine ⟨max enough (max enough' enough'') + 1, fun fuel rounds le le' => ?_⟩
    obtain ⟨rounds, rfl⟩ : ∃ less, rounds = less + 1 := ⟨rounds - 1, by omega⟩
    refine (bind_of_ok (ran fuel (by omega))).trans ((bind_of_ok (ran' fuel (by omega))).trans ?_)
    simp only [null]
    exact ran'' fuel rounds (by omega) (by omega)

end Evaluation

theorem steady_inputOf (upholds : Upholds False env) (e : Expression) (frame : FrameId)
    (source : Node) : Steady False env (fun calls => calls.inputOf env.host e frame source) m := by
  intro fuel fuel' le
  have run := (followsCalls_levels upholds le).run e frame source fun never => never.elim
  exact (run.bind fun v => follows_streamOf env.host v) m fun never => never.elim

/-- The operator for the first value makes the line of the chain and searches it. -/
theorem run_first {e : Expression} {frame : FrameId} (source : Node) (parts : List Part)
    (binding : Option Nat) (body : Node) :
    (Calls.levels env (fuel + 1)).run e frame
      (.stream .first (Part.chain source parts) binding body) =
      (do
        let base ← (Calls.levels env (fuel + 1)).inputOf env.host e frame source
        let input ← raise e frame parts base
        (Calls.levels env fuel).firstOfStage
          { input, body, unit := e, frame, binding } fuel 0) := by
  rw [run_stream, ← bind_assoc]
  show ((Calls.levels env (fuel + 1)).inputOf env.host e frame (Part.chain source parts) >>= _) = _
  rw [inputOf_chain, bind_assoc]
  rfl

/-- **The operator for the first value.** Over a chain it comes to what its source comes to, if that
fails, and otherwise to what the search on the line of the chain comes to. -/
theorem comes_first_iff (upholds : Upholds False env) {e : Expression} {frame : FrameId}
    {source : Node} {parts : List Part} {binding : Option Nat} {body : Node} :
    Comes env
        (fun calls => calls.run e frame (.stream .first (Part.chain source parts) binding body))
        m r ↔
      (∃ stop m₁,
        Comes env (fun calls => calls.inputOf env.host e frame source) m (.error stop m₁) ∧
        r = .error stop m₁) ∨
      ∃ base m₁, Comes env (fun calls => calls.inputOf env.host e frame source) m (.ok base m₁) ∧
        let L := lineOver e frame base parts m₁
        ∃ t, Searches env L { input := L.top, body, unit := e, frame, binding } 0
          (L.mount m₁) t r := by
  constructor
  · rintro ⟨⟨fuel, ran⟩, ended⟩
    cases fuel with
    | zero => exact absurd ran.symm (ended m)
    | succ fuel =>
      replace ran := (congrFun (run_first source parts binding body) m).symm.trans ran
      cases hinput : (Calls.levels env (fuel + 1)).inputOf env.host e frame source m with
      | error stop m₁ =>
        obtain rfl : .error stop m₁ = r := (bind_of_error hinput).symm.trans ran
        have failed : Outcome.Ended (.error stop m₁ : Outcome StreamId) :=
          fun m same => ended m (by cases same; rfl)
        exact .inl ⟨stop, m₁, ⟨⟨fuel + 1, hinput⟩, failed⟩, rfl⟩
      | ok base m₁ =>
        replace ran := (bind_of_ok (raise_eq e frame parts base m₁)).symm.trans
          ((bind_of_ok hinput).symm.trans ran)
        exact .inr ⟨base, m₁, ⟨⟨fuel + 1, hinput⟩, Outcome.ended_ok _ _⟩,
          searches_of_first upholds rfl fuel (mountedIn_mount e frame base parts m₁) ran ended⟩
  · rintro (⟨stop, m₁, comes, rfl⟩ | ⟨base, m₁, comes, t, searches⟩)
    · obtain ⟨enough, ran⟩ := comes.lasts (steady_inputOf upholds e frame source)
      refine ⟨⟨enough + 1, ?_⟩, fun m same => comes.2 m (by cases same; rfl)⟩
      exact (congrFun (run_first source parts binding body) m).trans
        (bind_of_error (ran (enough + 1) (Nat.le_succ enough)))
    · obtain ⟨enough, ran⟩ := comes.lasts (steady_inputOf upholds e frame source)
      obtain ⟨enough', ran'⟩ := searches.lasts upholds rfl (mountedIn_mount e frame base parts m₁)
      let levels := max enough enough'
      refine ⟨⟨levels + 1, ?_⟩, searches.ended⟩
      refine (congrFun (run_first source parts binding body) m).trans ?_
      refine (bind_of_ok (ran (levels + 1) (by omega))).trans ?_
      refine (bind_of_ok (raise_eq e frame parts base m₁)).trans ?_
      exact ran' levels levels (Nat.le_max_right _ _) (Nat.le_max_right _ _)

/-! ## Laws of searches -/

/-- The value that the event says the body of the search has come to. -/
def Event.result? (L : Line) : Event → Option Value
  | .ran k _ result => if k = L.stations.length then result else none
  | _ => none

/-- The values that the body of the search has come to, in that order. -/
def results (L : Line) (t : List Event) : List Value := t.filterMap (Event.result? L)

theorem results_append (L : Line) (t t' : List Event) :
    results L (t ++ t') = results L t ++ results L t' := List.filterMap_append

theorem results_eq_nil (within : ∀ e ∈ t, e.position ≤ L.stations.length) : results L t = [] := by
  refine List.filterMap_eq_nil_iff.2 fun e mem => ?_
  cases e with
  | ran k item result => exact if_neg (Nat.ne_of_lt (within _ mem))
  | taken | inner | ahead => rfl

/-- What happens in a search that comes to `r`. -/
structure Frugal (L : Line) (t : List Event) (r : Outcome Value) : Prop where
  /-- The body of the search runs once for each element that the line delivers. -/
  thrifty : Thrifty L (L.stations.length + 1) t []
  /-- Nothing happens after the body has come to a value that is not null. -/
  stops : ∀ t₁ e t₂, t = t₁ ++ e :: t₂ → ∀ v ∈ results L t₁, v.isNull = true
  /-- The value is the first one of the body that is not null, or null. -/
  value : ∀ v m, r = .ok v m → v = ((results L t).find? fun v => !v.isNull).getD .null
  /-- If the search fails, no value has been found. -/
  failure : ∀ stop m, r = .error stop m → ∀ v ∈ results L t, v.isNull = true

variable {t' : List Event} {item : Value} {result : Option Value}

theorem Thrifty.searched (h : Thrifty L L.stations.length t [item]) (result : Option Value) :
    Thrifty L (L.stations.length + 1) (t ++ [.ran L.stations.length item result]) [] := by
  have nothing : (Event.ran L.stations.length item result).passed? L = none := by
    rw [Event.passed?, List.getElem?_eq_none (Nat.le_refl _)]
    cases result <;> rfl
  have risen := h.rise result
  rwa [nothing] at risen

/-- If nothing has been found before an event, the events from there on decide. -/
theorem stops_append {e : Event} (none : results L t = [])
    (rest : ∀ t₁ e' t₂, t' = t₁ ++ e' :: t₂ → ∀ v ∈ results L (e :: t₁), v.isNull = true) :
    ∀ t₁ e' t₂, t ++ e :: t' = t₁ ++ e' :: t₂ → ∀ v ∈ results L t₁, v.isNull = true := by
  intro t₁ e' t₂ same v mem
  rcases List.append_eq_append_iff.1 same with ⟨t₃, rfl, same'⟩ | ⟨t₃, rfl, -⟩
  · rw [results_append, none, List.nil_append] at mem
    rcases t₃ with _ | ⟨e₃, t₃⟩
    · cases mem
    · rw [List.cons_append] at same'
      cases same'
      exact rest t₃ e' t₂ rfl v mem
  · rw [results_append, List.append_eq_nil_iff] at none
    rw [none.1] at mem
    cases mem

theorem stops_of_results_nil (none : results L t = []) :
    ∀ t₁ e t₂, t = t₁ ++ e :: t₂ → ∀ v ∈ results L t₁, v.isNull = true := by
  rintro t₁ e t₂ rfl v mem
  rw [results_append, List.append_eq_nil_iff] at none
  rw [none.1] at mem
  cases mem

theorem results_ran (result : Option Value) (t : List Event) :
    results L (.ran L.stations.length item result :: t) = result.toList ++ results L t := by
  have own : (Event.ran L.stations.length item result).result? L = result := if_pos rfl
  rw [results, List.filterMap_cons, own]
  cases result <;> rfl

/-- **A search stops at the first value.** -/
theorem Searches.frugal (h : Searches env L stage index m t r) : Frugal L t r := by
  induction h with
  | ends reads =>
    have none := results_eq_nil reads.thrifty.within
    exact
      { thrifty := reads.thrifty.lift
        stops := stops_of_results_nil none
        value := by
          rintro v m' ⟨⟩
          rw [none]
          rfl
        failure := fun _ _ same => nomatch same }
  | breaks reads =>
    have none := results_eq_nil reads.thrifty.within
    exact
      { thrifty := reads.thrifty.lift
        stops := stops_of_results_nil none
        value := fun _ _ same => nomatch same
        failure := fun _ _ _ v mem => by
          rw [none] at mem
          cases mem }
  | fails reads _ =>
    have none := results_eq_nil reads.thrifty.within
    exact
      { thrifty := reads.thrifty.searched Option.none
        stops := stops_append none fun t₁ e t₂ same => by simp at same
        value := fun _ _ same => nomatch same
        failure := fun _ _ _ v mem => by
          rw [results_append, none, results_ran] at mem
          cases mem }
  | finds reads _ found =>
    have none := results_eq_nil reads.thrifty.within
    exact
      { thrifty := reads.thrifty.searched (some _)
        stops := stops_append none fun t₁ e t₂ same => by simp at same
        value := by
          rintro v m' ⟨⟩
          rw [results_append, none, results_ran]
          simp [results, found]
        failure := fun _ _ same => nomatch same }
  | @again _ _ t item _ v _ t' r reads _ null _ ih =>
    have none := results_eq_nil reads.thrifty.within
    have first :
        results L (t ++ .ran L.stations.length item (some v) :: t') = v :: results L t' := by
      rw [results_append, none, results_ran]
      rfl
    exact
      { thrifty := by
          have whole := (reads.thrifty.searched (some v)).append ih.thrifty
          rwa [List.append_assoc] at whole
        stops := stops_append none fun t₁ e t₂ same w mem => by
          rw [results_ran] at mem
          rcases List.mem_cons.1 mem with rfl | mem
          · exact null
          · exact ih.stops t₁ e t₂ same w mem
        value := fun w m' same => by
          rw [first, List.find?_cons_of_neg (by simp [null])]
          exact ih.value w m' same
        failure := fun stop m' same w mem => by
          rw [first] at mem
          rcases List.mem_cons.1 mem with rfl | mem
          · exact null
          · exact ih.failure stop m' same w mem }

/-- A search on a calm line gets nothing that had been read ahead. -/
theorem Searches.fresh (upholds : Upholds True env) (h : Searches env L stage index m t r)
    (calm : L.Calm m) (quiet : stage.Quiet) : ∀ e ∈ t, e.Fresh := by
  induction h with
  | ends reads => exact reads.fresh upholds calm
  | breaks reads => exact reads.fresh upholds calm
  | fails reads _ | finds reads _ _ =>
    exact List.forall_mem_append.2 ⟨reads.fresh upholds calm, List.forall_mem_singleton.2 trivial⟩
  | again reads comes _ _ ih =>
    have calm' := calm.mono (reads.keeps upholds calm.mounted fun _ => calm.quiet)
    have kept := comes.keeps (steady_runStage upholds (fun _ => quiet) _ _ fun _ => calm'.quiet)
    exact List.forall_mem_append.2
      ⟨reads.fresh upholds calm, List.forall_mem_cons.2 ⟨trivial, ih (calm'.mono kept)⟩⟩

end TagExpr.Demand

namespace TagExpr.Demand

variable {env : Environment} {e : Expression} {frame : FrameId} {parts : List Part} {m : Machine}
  {base : StreamId}

/-- A line that has just been made over quiet streams is calm, if the bodies of its stages are
quiet. -/
theorem calm_mount (hm : m.Quiet) (quiet : ∀ p ∈ parts, p.body.Quiet e) :
    (lineOver e frame base parts m).Calm ((lineOver e frame base parts m).mount m) where
  mounted := mountedIn_mount e frame base parts m
  unread := unreadIn_mount e frame base parts m
  quiet := by
    have follows : Follows True (raise e frame parts base) (raise e frame parts base) :=
      follows_raise (fun _ => quiet) base
    exact ((follows m fun _ => hm).keeps (raise_eq e frame parts base m)).remains trivial

/-- A source that has not been read ahead gives its next element and runs nothing. -/
theorem comes_next_source {source : Source} (kind : m.kind? base = some (.source source))
    (unread : m.peeked? base = none) : Comes env (fun calls => calls.next base) m
      (match source.next? with
        | none => .ok none m
        | some (v, rest) =>
          .ok (some v) (m.update base fun s => { s with kind := .source rest })) := by
  have ran : (Calls.levels env 1).next base m =
      Calls.pullKind (Calls.levels env 0) env.host 0 base (.source source) m :=
    (next_of_unread unread).trans (pull_eq kind 0)
  unfold Calls.pullKind at ran
  cases found : source.next? with
  | none =>
    simp only [found] at ran
    exact ⟨⟨1, ran⟩, Outcome.ended_ok _ _⟩
  | some pair =>
    simp only [found] at ran
    exact ⟨⟨1, ran⟩, Outcome.ended_ok _ _⟩

/-- **Streams pull no more than needed.** Making a chain over a source evaluates the source and adds
the streams of the stages, and nothing else. A read of a chain is a read of its line, of which there
is one only: the body of each stage runs once for each element that reaches it, in that order; an
element is taken from the source only when nothing is under way; and nothing happens after the event
that delivers. The operator for the first value searches the line in the same way, and nothing
happens after its body has come to a value that is not null; so if it fails there was no such value.
All of this holds for any bodies. If they and the streams that there are do not ask whether another
element follows, nothing has ever been read ahead. -/
theorem streams_pull_no_more_than_needed (env : Environment) (upholds : Upholds False env)
    (e : Expression) (frame : FrameId) (source : Node) (parts : List Part) :
    (parts ≠ [] → ∀ fuel, (Calls.levels env (fuel + 1)).run e frame (Part.chain source parts) = (do
      let base ← (Calls.levels env (fuel + 1)).inputOf env.host e frame source
      fun m =>
        let L := lineOver e frame base parts m
        .ok (.stream L.top) (L.mount m))) ∧
    (∀ base m, let L := lineOver e frame base parts m
      L.MountedIn (L.mount m) ∧
      (m.Quiet → (∀ p ∈ parts, p.body.Quiet e) → L.Calm (L.mount m))) ∧
    (∀ (L : Line) (m : Machine), L.MountedIn m → let n := L.stations.length
      (∀ r, Comes env (fun calls => calls.next L.top) m r ↔ ∃ t, Reads env L (.next n) m t r) ∧
      ∀ t r, Reads env L (.next n) m t r →
        (∀ t' r', Reads env L (.next n) m t' r' → t = t' ∧ r = r') ∧
        Thrifty L n t r.delivered.toList ∧
        (∀ v, r.delivered = some v → ∃ t₁ last, t = t₁ ++ [last] ∧ last.delivered? L n = some v) ∧
        L.MountedIn r.machine ∧
        (Upholds True env → L.Calm m → (∀ event ∈ t, event.Fresh) ∧ L.Calm r.machine)) ∧
    (∀ binding body m r,
      (Comes env
        (fun calls =>
          calls.run e frame (.stream .first (Part.chain source parts) binding body)) m r ↔
      (∃ stop m₁,
        Comes env (fun calls => calls.inputOf env.host e frame source) m (.error stop m₁) ∧
        r = .error stop m₁) ∨
      ∃ base m₁, Comes env (fun calls => calls.inputOf env.host e frame source) m (.ok base m₁) ∧
        let L := lineOver e frame base parts m₁
        ∃ t, Searches env L { input := L.top, body, unit := e, frame, binding } 0
          (L.mount m₁) t r)) ∧
    (∀ L stage m t r, Searches env L stage 0 m t r →
      (∀ t' r', Searches env L stage 0 m t' r' → t = t' ∧ r = r') ∧ Frugal L t r ∧
      (Upholds True env → L.Calm m → stage.Quiet → ∀ event ∈ t, event.Fresh)) ∧
    ∀ base m src, m.kind? base = some (.source src) → m.peeked? base = none →
      Comes env (fun calls => calls.next base) m
        (match src.next? with
          | none => .ok none m
          | some (v, rest) =>
            .ok (some v) (m.update base fun s => { s with kind := .source rest })) := by
  refine ⟨fun ne fuel => ?_, fun base m => ⟨mountedIn_mount e frame base parts m, calm_mount⟩,
    fun L m mounted =>
      ⟨fun r => comes_next_iff upholds (Nat.le_refl _) mounted, fun t r reads => ?_⟩,
    fun binding body m r => comes_first_iff upholds, fun L stage m t r searches => ?_,
    fun base m src kind unread => comes_next_source kind unread⟩
  · rw [run_chain source ne]
    refine bind_congr fun base => funext fun m => ?_
    exact bind_of_ok (raise_eq e frame parts base m)
  · have loud {m : Machine} : False → m.Quiet := False.elim
    refine ⟨fun t' r' => reads.unique upholds, reads.thrifty, fun v => reads.last,
      mounted.mono (reads.keeps upholds mounted loud), fun upholds' calm => ⟨?_, ?_⟩⟩
    · exact reads.fresh upholds' calm
    · exact calm.mono (reads.keeps upholds' mounted fun _ => calm.quiet)
  · exact ⟨fun t' r' => searches.unique upholds, searches.frugal,
      fun upholds' calm quiet => searches.fresh upholds' calm quiet⟩

/-! The chain `[true, false] #> x -> x ? @seen(x) : ☠ 'late'`, the first value of which is found
before the halt. -/

/-- An environment in which `@seen` notes its argument and gives it back. -/
def recording : Environment where
  annotations := [("seen", fun args => do
    Eval.note (args.headD .null)
    return args.headD .null)]

/-- The only stage of the chain. -/
def Part.seen : Part where
  passage := .remap
  binding := some 0
  body := .ternary (.localVar 0) (.annotated "seen" [.localVar 0])
    (.unary .die (.literal (.str "late")))

/-- The list that the chain has for its source. -/
def verdicts : Node := .list [.literal (.bool true), .literal (.bool false)]

theorem upholds_recording (quiet : Prop) : Upholds quiet recording := by
  intro name handler found args m hm
  rw [recording, List.lookup_cons] at found
  split at found
  · cases found
    exact Machine.keeps_of_streams hm rfl
  · cases found

/-- The first value is found, and of the two elements the body has seen one. -/
theorem streams_pull_no_more_than_needed_of_recording :
    (∃ (L : Line) (stage : Stage) (m m' : Machine) (t : List Event),
      Searches recording L stage 0 m t (.ok (.bool true) m') ∧ m'.journal = [.bool true] ∧
      fed 0 t = delivered L 0 t ∧ ∀ t₁ e t₂, t = t₁ ++ e :: t₂ →
        ∀ v ∈ results L t₁, v.isNull = true) ∧
    ∃ m : Machine,
      (lineOver default 0 0 [.seen] m).Calm ((lineOver default 0 0 [.seen] m).mount m) := by
  obtain ⟨-, calm, -, first, laws, -⟩ := streams_pull_no_more_than_needed recording
    (upholds_recording False) default 0 verdicts [.seen]
  refine ⟨?_, {}, ?_⟩
  · let start : Machine := { frames := #[#[.null]] }
    let outcome : Outcome Value := (Calls.levels recording 6).run default 0
      (.stream .first (Part.chain verdicts [.seen]) (some 0) (.localVar 0)) start
    have ran : outcome = .ok (.bool true) outcome.machine := rfl
    have comes := (first (some 0) (.localVar 0) start (.ok (.bool true) outcome.machine)).1
      ⟨⟨6, ran⟩, Outcome.ended_ok _ _⟩
    obtain ⟨stop, m₁, -, same⟩ | ⟨base, m₁, -, t, searches⟩ := comes
    · cases same
    · have frugal := (laws _ _ _ t _ searches).2.1
      exact ⟨_, _, _, _, t, searches, rfl, frugal.thrifty.once 0 (Nat.succ_pos _), frugal.stops⟩
  · refine (calm 0 {}).2 (fun id passage stage known => ?_) fun p mem => ?_
    · cases known
    · obtain rfl := List.mem_singleton.1 mem
      exact Node.quiet_iff.2 (List.forall_mem_nil _)

end TagExpr.Demand
