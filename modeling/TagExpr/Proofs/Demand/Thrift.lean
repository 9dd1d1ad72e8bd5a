import TagExpr.Proofs.Demand.Reads

/-!
# Reads take no more than they need

Whatever the bodies do, what happens in a read obeys some laws. The body of each station runs once
for each element that reaches it, in the order in which they do; an element is taken from the source
only when nothing is under way any more; and where an element is delivered, nothing happens after
the event that delivers it. If only quiet bodies run, nothing is ever read ahead.
-/

namespace TagExpr.Demand

/-! ## Elements along a line -/

namespace Event

/-- The position of the line at which the event delivers, if it does. -/
def position : Event → Nat
  | .taken _ => 0
  | .ran k _ _ | .inner k _ | .ahead k _ => k + 1

/-- The element that the event delivers at its position. -/
def passed? (L : Line) : Event → Option Value
  | .taken v | .inner _ v | .ahead _ v => some v
  | .ran k item result =>
    result.bind fun result => L.stations[k]?.bind fun s => s.passage.yield item result

def delivered? (L : Line) (k : Nat) (e : Event) : Option Value :=
  if e.position = k then e.passed? L else none

/-- The element for which the event runs the body of a station. -/
def fed? (k : Nat) : Event → Option Value
  | .ran j item _ => if j = k then some item else none
  | _ => none

/-- The event delivers nothing that had been read ahead. -/
def Fresh : Event → Prop
  | .ahead _ _ => False
  | _ => True

theorem fed?_of_ne {e : Event} {k : Nat} (ne : e.position ≠ k + 1) : e.fed? k = none := by
  cases e with
  | ran j item result => exact if_neg fun same => ne (congrArg (· + 1) same)
  | taken | inner | ahead => rfl

theorem passed?_ran {L : Line} {k : Nat} {s : Station} (known : L.stations[k]? = some s)
    (item : Value) (result : Option Value) : (Event.ran k item result).passed? L =
      result.bind fun result => s.passage.yield item result := by
  rw [passed?, known]
  rfl

end Event

/-- The elements for which the body of a station has run, in that order. -/
def fed (k : Nat) (t : List Event) : List Value := t.filterMap (Event.fed? k)

/-- The elements that have been delivered at a position, in that order. -/
def delivered (L : Line) (k : Nat) (t : List Event) : List Value :=
  t.filterMap (Event.delivered? L k)

/-- All that was delivered below a position has been used, and nothing has been delivered there. -/
structure Settled (L : Line) (n : Nat) (t : List Event) : Prop where
  used : ∀ k < n, fed k t = delivered L k t
  none : delivered L n t = []

/-- What happens until a position has delivered `out`, which takes no more than it needs. -/
structure Thrifty (L : Line) (n : Nat) (t : List Event) (out : List Value) : Prop where
  within : ∀ e ∈ t, e.position ≤ n
  /-- The body of each station has run once for each element that was delivered to it. -/
  once : ∀ k < n, fed k t = delivered L k t
  out : delivered L n t = out
  /-- The source is only asked when nothing is under way. -/
  need : ∀ t₁ v t₂, t = t₁ ++ .taken v :: t₂ → Settled L n t₁

variable {L : Line} {k n : Nat} {t t' : List Event} {s : Station} {item : Value} {out : List Value}

theorem fed_append (k : Nat) (t t' : List Event) : fed k (t ++ t') = fed k t ++ fed k t' :=
  List.filterMap_append

theorem delivered_append (L : Line) (k : Nat) (t t' : List Event) :
    delivered L k (t ++ t') = delivered L k t ++ delivered L k t' := List.filterMap_append

theorem fed_eq_nil (h : ∀ e ∈ t, e.position ≠ k + 1) : fed k t = [] :=
  List.filterMap_eq_nil_iff.2 fun e mem => Event.fed?_of_ne (h e mem)

theorem delivered_eq_nil (h : ∀ e ∈ t, e.position ≠ k) : delivered L k t = [] :=
  List.filterMap_eq_nil_iff.2 fun e mem => if_neg (h e mem)

theorem position_ne_succ (within : ∀ e ∈ t, e.position ≤ n) : ∀ e ∈ t, e.position ≠ n + 1 :=
  fun e mem => Nat.ne_of_lt (Nat.lt_succ_of_le (within e mem))

theorem Settled.append (h : Settled L n t) (h' : Settled L n t') : Settled L n (t ++ t') where
  used k lt := by rw [fed_append, delivered_append, h.used k lt, h'.used k lt]
  none := by rw [delivered_append, h.none, h'.none, List.append_nil]

/-- What is settled at a position is settled behind the next station, which has nothing yet. -/
theorem Settled.lift (h : Settled L k t) (within : ∀ e ∈ t, e.position ≤ k) :
    Settled L (k + 1) t where
  used j lt := by
    rcases Nat.lt_succ_iff_lt_or_eq.1 lt with lt | rfl
    · exact h.used j lt
    · rw [h.none, fed_eq_nil (position_ne_succ within)]
  none := delivered_eq_nil (position_ne_succ within)

namespace Thrifty

theorem nil : Thrifty L n [] [] where
  within := nofun
  once _ _ := rfl
  out := rfl
  need t₁ v t₂ same := by simp at same

theorem settled (h : Thrifty L n t []) : Settled L n t := ⟨h.once, h.out⟩

theorem append (h : Thrifty L n t []) (h' : Thrifty L n t' out) : Thrifty L n (t ++ t') out where
  within e mem := (List.mem_append.1 mem).elim (h.within e) (h'.within e)
  once k lt := by rw [fed_append, delivered_append, h.once k lt, h'.once k lt]
  out := by rw [delivered_append, h.out, h'.out, List.nil_append]
  need t₁ v t₂ same := by
    rcases List.append_eq_append_iff.1 same with ⟨t₃, rfl, same'⟩ | ⟨t₃, same', rest⟩
    · exact h.settled.append (h'.need t₃ v t₂ same')
    · cases t₃ with
      | nil =>
        rw [List.append_nil] at same'
        exact same' ▸ h.settled
      | cons e t₃ =>
        rw [List.cons_append] at rest
        cases rest
        exact h.need t₁ _ t₃ same'

/-- An event may deliver at its position without running a body. -/
theorem single {e : Event} {v : Value} (idle : ∀ k, e.fed? k = none)
    (passed : e.passed? L = some v) :
    Thrifty L e.position [e] [v] where
  within e' mem := by rw [List.mem_singleton.1 mem]
  once k lt := by
    have before : delivered L k [e] = [] :=
      delivered_eq_nil fun e' mem => List.mem_singleton.1 mem ▸ Nat.ne_of_gt lt
    rw [before, fed, List.filterMap_cons_none (idle k)]
    rfl
  out := List.filterMap_cons_some ((if_pos rfl).trans passed)
  need t₁ w t₂ same := by
    obtain rfl : t₁ = [] := by
      rcases t₁ with _ | ⟨_, _ | _⟩
      · rfl
      · cases same
      · cases same
    cases same
    exact ⟨nofun, rfl⟩

/-- A station that gets no element delivers none. -/
theorem lift (h : Thrifty L k t []) : Thrifty L (k + 1) t [] where
  within e mem := Nat.le_succ_of_le (h.within e mem)
  once := (h.settled.lift h.within).used
  out := (h.settled.lift h.within).none
  need t₁ v t₂ same := by
    refine (h.need t₁ v t₂ same).lift fun e mem => h.within e ?_
    rw [same]
    exact List.mem_append_left _ mem

/-- A body runs for the element that it gets, and what its event passes on is delivered. -/
theorem rise (h : Thrifty L k t [item]) (result : Option Value) :
    Thrifty L (k + 1) (t ++ [.ran k item result]) ((Event.ran k item result).passed? L).toList where
  within e mem := by
    rcases List.mem_append.1 mem with mem | mem
    · exact Nat.le_succ_of_le (h.within e mem)
    · exact (congrArg Event.position (List.mem_singleton.1 mem)).le
  once j lt := by
    have nothing : delivered L j [.ran k item result] = [] :=
      delivered_eq_nil fun e mem => List.mem_singleton.1 mem ▸ Nat.ne_of_gt lt
    rw [fed_append, delivered_append, nothing, List.append_nil]
    rcases Nat.lt_succ_iff_lt_or_eq.1 lt with lt | rfl
    · have idle : fed j [.ran k item result] = [] :=
        List.filterMap_cons_none (if_neg (Nat.ne_of_gt lt))
      rw [idle, List.append_nil, h.once j lt]
    · have runs : fed j [.ran j item result] = [item] := List.filterMap_cons_some (if_pos rfl)
      rw [fed_eq_nil (position_ne_succ h.within), runs, h.out]
      rfl
  out := by
    have passed :
        (Event.ran k item result).delivered? L (k + 1) = (Event.ran k item result).passed? L :=
      if_pos rfl
    rw [delivered_append, delivered_eq_nil (position_ne_succ h.within), delivered,
      List.filterMap_cons, passed]
    cases (Event.ran k item result).passed? L <;> rfl
  need t₁ v t₂ same := by
    have before : ∃ t₃, t = t₁ ++ .taken v :: t₃ := by
      rcases List.append_eq_append_iff.1 same with ⟨t₃, rfl, same'⟩ | ⟨t₃, same', rest⟩
      · rcases t₃ with _ | ⟨e, _ | _⟩ <;> cases same'
      · rcases t₃ with _ | ⟨e, t₃⟩
        · cases rest
        · cases rest
          exact ⟨t₃, same'⟩
    obtain ⟨t₃, same'⟩ := before
    refine (h.need t₁ v t₃ same').lift fun e mem => h.within e ?_
    rw [same']
    exact List.mem_append_left _ mem

end Thrifty

/-! ## Laws of reads -/

/-- The position at which a phase delivers. -/
def Phase.position : Phase → Nat
  | .next k => k
  | .pull k | .feed k => k + 1

variable {env : Environment} {m : Machine} {p : Phase} {r : Outcome (Option Value)}

/-- **A read takes no more than it needs.** -/
theorem Reads.thrifty (h : Reads env L p m t r) : Thrifty L p.position t r.delivered.toList := by
  induction h with
  | @source m r _ =>
    cases found : r.delivered with
    | none => exact .nil
    | some v => exact .single (e := .taken v) (fun _ => rfl) rfl
  | @ahead k _ _ v => exact .single (e := .ahead k v) (fun _ => rfl) rfl
  | pull _ _ _ ih => exact ih
  | @inner k s m i r _ _ _ _ =>
    cases found : r.delivered with
    | none => exact .nil
    | some v => exact .single (e := .inner k v) (fun _ => rfl) rfl
  | innerEnds _ _ _ _ ih => exact ih
  | noInner _ _ _ ih => exact ih
  | ends _ _ empty ih =>
    rw [empty] at ih ⊢
    exact ih.lift
  | fails known _ _ ih => exact ih.rise none
  | @yields k _ _ _ _ _ result _ _ known _ _ passes ih =>
    have risen := Thrifty.rise (k := k) ih (some result)
    rwa [Event.passed?_ran known, Option.bind_some, passes] at risen
  | @again k _ _ _ _ _ result _ _ _ known _ _ passes _ ih ih' =>
    have risen := Thrifty.rise (k := k) ih (some result)
    rw [Event.passed?_ran known, Option.bind_some, passes] at risen
    have whole := risen.append ih'
    rwa [List.append_assoc] at whole

/-- Where an element is delivered, the last event delivers it. -/
theorem Reads.last (h : Reads env L p m t r) {v : Value} (found : r.delivered = some v) :
    ∃ t₁ e, t = t₁ ++ [e] ∧ e.delivered? L p.position = some v := by
  induction h with
  | source _ =>
    rw [found]
    exact ⟨[], .taken v, rfl, rfl⟩
  | ahead _ _ =>
    cases found
    exact ⟨[], _, rfl, if_pos rfl⟩
  | pull _ _ _ ih => exact ih found
  | inner _ _ _ _ =>
    rw [found]
    exact ⟨[], .inner _ v, rfl, if_pos rfl⟩
  | innerEnds _ _ _ _ ih => exact ih found
  | noInner _ _ _ ih => exact ih found
  | ends _ _ empty _ => cases empty.symm.trans found
  | fails _ _ _ _ => cases found
  | yields known _ _ passes _ =>
    cases found
    refine ⟨_, _, rfl, (if_pos rfl).trans ?_⟩
    rw [Event.passed?_ran known]
    exact passes
  | @again _ _ _ t _ _ result _ t' _ _ _ _ _ _ _ ih =>
    obtain ⟨t₁, e, rfl, delivers⟩ := ih found
    exact ⟨_, e, (List.append_assoc t (_ :: t₁) [e]).symm, delivers⟩

/-- The line is mounted, nothing has been read ahead from it, and all bodies are quiet. -/
structure Line.Calm (L : Line) (m : Machine) : Prop where
  mounted : L.MountedIn m
  unread : L.UnreadIn m
  quiet : m.Quiet

theorem Line.Calm.mono {m' : Machine} (h : L.Calm m) (kept : m.Keeps True m') : L.Calm m' :=
  ⟨h.mounted.mono kept, h.unread.mono kept trivial, kept.remains trivial⟩

/-- A calm line delivers nothing that had been read ahead. -/
theorem Reads.fresh (upholds : Upholds True env) (h : Reads env L p m t r) (calm : L.Calm m) :
    ∀ e ∈ t, e.Fresh := by
  induction h with
  | @source m r _ =>
    intro e mem
    obtain ⟨v, -, rfl⟩ := List.mem_map.1 mem
    trivial
  | ahead known found => cases found.symm.trans (calm.unread _ (List.mem_of_getElem? known))
  | pull _ _ _ ih => exact ih calm
  | @inner k s m i r _ _ _ _ =>
    intro e mem
    obtain ⟨v, -, rfl⟩ := List.mem_map.1 mem
    trivial
  | @innerEnds _ s _ i _ _ _ _ _ comes _ ih =>
    have kept := comes.keeps (steady_next upholds i fun _ => calm.quiet)
    exact ih (calm.mono (kept.trans (keeps_withInner s.id none kept.remains)))
  | noInner _ _ _ ih => exact ih calm
  | ends _ _ _ ih => exact ih calm
  | fails _ _ _ ih | yields _ _ _ _ ih =>
    exact List.forall_mem_append.2 ⟨ih calm, List.forall_mem_singleton.2 trivial⟩
  | @again _ s _ _ item _ _ _ _ _ known reads comes _ _ ih ih' =>
    have calm' := calm.mono (reads.keeps upholds calm.mounted fun _ => calm.quiet)
    have tame : True → s.stage.Quiet := calm'.mounted.tame known fun _ => calm'.quiet
    have kept := comes.keeps (steady_work upholds tame item fun _ => calm'.quiet)
    exact List.forall_mem_append.2
      ⟨ih calm, List.forall_mem_cons.2 ⟨trivial, ih' (calm'.mono kept)⟩⟩

end TagExpr.Demand
