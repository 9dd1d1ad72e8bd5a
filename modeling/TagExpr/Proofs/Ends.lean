/-!
# How a step ends

`Ends step s Q E` runs a step from one state and says what holds afterwards: `Q` of the answer and
the state if it succeeds, `E` of the error and the state it leaves if it fails. The lemmas follow
the monad, so that a step is taken apart in the order in which it runs.
-/

namespace TagExpr

variable {ε σ α β : Type} {s : σ} {Q Q' : α → σ → Prop} {E E' : ε → σ → Prop}

/-- From the state `s` the step ends as `Q` says or fails as `E` says. -/
def Ends (step : EStateM ε σ α) (s : σ) (Q : α → σ → Prop) (E : ε → σ → Prop) : Prop :=
  match step s with
  | .ok a after => Q a after
  | .error e after => E e after

theorem Ends.mono {step : EStateM ε σ α} (h : Ends step s Q E) (hQ : ∀ a s', Q a s' → Q' a s')
    (hE : ∀ e s', E e s' → E' e s') : Ends step s Q' E' := by
  unfold Ends at *
  cases hs : step s with
  | ok a s' =>
    rw [hs] at h
    exact hQ a s' h
  | error e s' =>
    rw [hs] at h
    exact hE e s' h

theorem ends_of_ok {step : EStateM ε σ α} {a : α} {s' : σ} (h : step s = .ok a s') :
    Ends step s Q E ↔ Q a s' := by
  simp only [Ends, h]

theorem Ends.ok {step : EStateM ε σ α} (h : Ends step s Q E) {a : α} {s' : σ}
    (hs : step s = .ok a s') : Q a s' := by
  simpa only [Ends, hs] using h

theorem Ends.error {step : EStateM ε σ α} (h : Ends step s Q E) {e : ε} {s' : σ}
    (hs : step s = .error e s') : E e s' := by
  simpa only [Ends, hs] using h

theorem Ends.and {step : EStateM ε σ α} (h : Ends step s Q E) (h' : Ends step s Q' E') :
    Ends step s (fun a s' => Q a s' ∧ Q' a s') (fun e s' => E e s' ∧ E' e s') := by
  unfold Ends at *
  cases hs : step s with
  | ok a s' =>
    rw [hs] at h h'
    exact ⟨h, h'⟩
  | error e s' =>
    rw [hs] at h h'
    exact ⟨h, h'⟩

/-- A step that cannot fail has an answer. -/
theorem Ends.exists_ok {step : EStateM ε σ α} (h : Ends step s Q fun _ _ => False) :
    ∃ a s', step s = .ok a s' ∧ Q a s' := by
  unfold Ends at h
  cases hs : step s with
  | ok a s' =>
    rw [hs] at h
    exact ⟨a, s', rfl, h⟩
  | error e s' =>
    rw [hs] at h
    exact h.elim

/-- A step also ends as it does. -/
theorem Ends.and_self {step : EStateM ε σ α} (h : Ends step s Q E) :
    Ends step s (fun a s' => Q a s' ∧ step s = .ok a s')
      (fun e s' => E e s' ∧ step s = .error e s') := by
  unfold Ends at *
  cases hs : step s with
  | ok a s' =>
    rw [hs] at h
    exact ⟨h, rfl⟩
  | error e s' =>
    rw [hs] at h
    exact ⟨h, rfl⟩

/-- A step ends as it has to if nothing else is possible. -/
theorem ends_of_forall {step : EStateM ε σ α} (h : ∀ a s', Q a s') :
    Ends step s Q fun _ _ => True := by
  unfold Ends
  cases step s with
  | ok a s' => exact h a s'
  | error e s' => trivial

/-- What holds of each of many things after a step holds of all of them. -/
theorem Ends.all {ι : Type} {p : ι → Prop} {Q : ι → α → σ → Prop} {step : EStateM ε σ α}
    (h : ∀ i, p i → Ends step s (Q i) fun _ _ => True) :
    Ends step s (fun a s' => ∀ i, p i → Q i a s') fun _ _ => True := by
  unfold Ends
  cases hs : step s with
  | ok a s' => exact fun i hi => (h i hi).ok hs
  | error e s' => trivial

@[simp] theorem ends_pure (a : α) : Ends (pure a : EStateM ε σ α) s Q E ↔ Q a s := Iff.rfl

@[simp] theorem ends_bind (step : EStateM ε σ α) (next : α → EStateM ε σ β) {Q : β → σ → Prop} :
    Ends (step >>= next) s Q E ↔ Ends step s (fun a s' => Ends (next a) s' Q E) E := by
  simp only [Ends, bind, EStateM.bind]
  cases step s with
  | ok a s' => rfl
  | error e s' => rfl

@[simp] theorem ends_map (f : α → β) (step : EStateM ε σ α) {Q : β → σ → Prop} :
    Ends (f <$> step) s Q E ↔ Ends step s (fun a s' => Q (f a) s') E := by
  rw [map_eq_pure_bind, ends_bind]
  rfl

@[simp] theorem ends_get {Q : σ → σ → Prop} :
    Ends (get : EStateM ε σ σ) s Q E ↔ Q s s := Iff.rfl

@[simp] theorem ends_set (s' : σ) {Q : PUnit → σ → Prop} :
    Ends (set s' : EStateM ε σ PUnit) s Q E ↔ Q ⟨⟩ s' := Iff.rfl

@[simp] theorem ends_modify (f : σ → σ) {Q : PUnit → σ → Prop} :
    Ends (modify f : EStateM ε σ PUnit) s Q E ↔ Q ⟨⟩ (f s) := Iff.rfl

@[simp] theorem ends_throw (e : ε) : Ends (throw e : EStateM ε σ α) s Q E ↔ E e s := Iff.rfl

/-- What a step and the next one come to, the step comes to first. -/
theorem exists_of_bind {step : EStateM ε σ α} {next : α → EStateM ε σ β} {s' : σ} {b : β}
    (ran : (step >>= next) s = .ok b s') :
    ∃ a after, step s = .ok a after ∧ next a after = .ok b s' := by
  simp only [Bind.bind, EStateM.bind] at ran
  cases hx : step s with
  | error stop after =>
    rw [hx] at ran
    cases ran
  | ok a after =>
    rw [hx] at ran
    exact ⟨a, after, rfl, ran⟩

/-! ## Results beside a state -/

end TagExpr
