import TagExpr.Proofs.Parse.Names

/-!
# Declared bindings

Declaring bindings is all that a text does to the scope of its file while it is parsed. It gives new
slots of the innermost template to new names and leaves all else as it is.
-/

namespace TagExpr

variable {ε : Type}

namespace TemplateScope

variable {s s' s'' : TemplateScope ε} {may may' : Prop}

/-! ## One binding -/

theorem declareBinding_of_slot {name : String} {slot : Nat}
    (h : s.slot? s.current name = some slot) : s.declareBinding name = ((s.current, slot), s) := by
  simp only [declareBinding, h]

theorem declareBinding_of_new {name : String} (h : s.slot? s.current name = none) :
    (s.declareBinding name).2 = { s with
      bindings := setBindingNames s.bindings s.current (s.bindingNames s.current ++ [name]) } := by
  simp only [declareBinding, h]

theorem bindingNames_setBindingNames (s : TemplateScope ε) (id other : TemplateId)
    (names : List String) :
    ({ s with bindings := setBindingNames s.bindings id names } : TemplateScope ε).bindingNames
      other = if other = id then names else s.bindingNames other := by
  simp only [bindingNames, Parse.Describes.lookup_setBindingNames]
  split <;> rfl

/-! ## Several bindings -/

/-- The scope after these names have been declared one after the other. -/
def declareAll (s : TemplateScope ε) (names : List String) : TemplateScope ε :=
  names.foldl (fun s name => (s.declareBinding name).2) s

@[simp] theorem declareAll_nil (s : TemplateScope ε) : s.declareAll [] = s := rfl

@[simp] theorem declareAll_cons (s : TemplateScope ε) (name : String) (names : List String) :
    s.declareAll (name :: names) = (s.declareBinding name).2.declareAll names := rfl

theorem declareAll_append (s : TemplateScope ε) (names more : List String) :
    s.declareAll (names ++ more) = (s.declareAll names).declareAll more :=
  List.foldl_append

/-- What does not depend on the bindings stays as it is. -/
theorem declareBinding_frame {α : Type} (f : TemplateScope ε → α)
    (h : ∀ (s : TemplateScope ε) bindings, f { s with bindings } = f s) (s : TemplateScope ε)
    (name : String) : f (s.declareBinding name).2 = f s := by
  cases hs : s.slot? s.current name with
  | some slot => rw [declareBinding_of_slot hs]
  | none => rw [declareBinding_of_new hs, h]

theorem declareAll_frame {α : Type} (f : TemplateScope ε → α)
    (h : ∀ (s : TemplateScope ε) bindings, f { s with bindings } = f s) (s : TemplateScope ε)
    (names : List String) : f (s.declareAll names) = f s := by
  induction names generalizing s with
  | nil => rfl
  | cons name names ih => rw [declareAll_cons, ih, declareBinding_frame f h]

@[simp] theorem declareAll_extensions (s : TemplateScope ε) (names : List String) :
    (s.declareAll names).extensions = s.extensions :=
  declareAll_frame _ (fun _ _ => rfl) s names

@[simp] theorem declareAll_named (s : TemplateScope ε) (names : List String) :
    (s.declareAll names).named = s.named :=
  declareAll_frame _ (fun _ _ => rfl) s names

@[simp] theorem declareAll_inner (s : TemplateScope ε) (names : List String) :
    (s.declareAll names).inner = s.inner :=
  declareAll_frame _ (fun _ _ => rfl) s names

@[simp] theorem declareAll_named? (s : TemplateScope ε) (names : List String) (name : String) :
    (s.declareAll names).named? name = s.named? name := by
  rw [named?, declareAll_named, named?]

/-- Bindings do not depend on the named expressions. -/
theorem declareBinding_withNamed (s : TemplateScope ε) (named : List (String × NamedEntry ε))
    (name : String) :
    ({ s with named }.declareBinding name).2 = { (s.declareBinding name).2 with named } := by
  cases hs : s.slot? s.current name with
  | some slot =>
    have hs' : { s with named }.slot? { s with named }.current name = some slot := hs
    rw [declareBinding_of_slot hs, declareBinding_of_slot hs']
  | none =>
    have hs' : { s with named }.slot? { s with named }.current name = none := hs
    rw [declareBinding_of_new hs, declareBinding_of_new hs']
    rfl

theorem declareAll_withNamed (s : TemplateScope ε) (named : List (String × NamedEntry ε))
    (names : List String) :
    { s with named }.declareAll names = { s.declareAll names with named } := by
  induction names generalizing s with
  | nil => rfl
  | cons name names ih => rw [declareAll_cons, declareBinding_withNamed, ih, declareAll_cons]

/-- The bindings of the innermost template keep their slots, and those of the other templates stay
as they are. -/
theorem bindingNames_declareAll (s : TemplateScope ε) (names : List String) (id : TemplateId) :
    s.bindingNames id <+: (s.declareAll names).bindingNames id ∧
      (id ≠ s.current → (s.declareAll names).bindingNames id = s.bindingNames id) := by
  induction names generalizing s with
  | nil => exact ⟨List.prefix_rfl, fun _ => rfl⟩
  | cons name names ih =>
    obtain ⟨hkept, hother⟩ := ih (s.declareBinding name).2
    have hcurrent : (s.declareBinding name).2.current = s.current :=
      declareBinding_frame _ (fun _ _ => rfl) s name
    rw [declareAll_cons]
    cases hs : s.slot? s.current name with
    | some slot =>
      rw [declareBinding_of_slot hs] at hkept hother ⊢
      exact ⟨hkept, hother⟩
    | none =>
      have hnames :=
        bindingNames_setBindingNames s s.current id (s.bindingNames s.current ++ [name])
      rw [← declareBinding_of_new hs] at hnames
      refine ⟨List.IsPrefix.trans ?_ hkept, fun hid => ?_⟩
      · rw [hnames]
        split
        case isTrue hid =>
          rw [hid]
          exact List.prefix_append _ _
        case isFalse => exact List.prefix_rfl
      · rw [hother (hcurrent ▸ hid), hnames, if_neg hid]

/-! ## What a step declares -/

/-- One scope comes from the other by declaring bindings, of which there are none unless bindings
are switched on and the step `may` declare any. -/
def Binds (may : Prop) (s s' : TemplateScope ε) : Prop :=
  ∃ names, s' = s.declareAll names ∧ (names ≠ [] → s.extensions.templateBindings ∧ may)

namespace Binds

theorem refl (s : TemplateScope ε) : s.Binds may s := ⟨[], rfl, fun h => absurd rfl h⟩

theorem trans (h : s.Binds may s') (h' : s'.Binds may s'') : s.Binds may s'' := by
  obtain ⟨names, rfl, hnames⟩ := h
  obtain ⟨more, rfl, hmore⟩ := h'
  refine ⟨names ++ more, (s.declareAll_append names more).symm, fun hne => ?_⟩
  rw [declareAll_extensions] at hmore
  cases names with
  | nil => exact hmore (by simpa using hne)
  | cons => exact hnames (by simp)

theorem mono (h : s.Binds may s') (himp : may → may') : s.Binds may' s' := by
  obtain ⟨names, hs', hnames⟩ := h
  exact ⟨names, hs', fun hne => ⟨(hnames hne).1, himp (hnames hne).2⟩⟩

theorem declareBinding (hon : s.extensions.templateBindings) (hmay : may) (name : String) :
    s.Binds may (s.declareBinding name).2 :=
  ⟨[name], rfl, fun _ => ⟨hon, hmay⟩⟩

theorem extensions (h : s.Binds may s') : s'.extensions = s.extensions := by
  obtain ⟨names, rfl, -⟩ := h
  exact s.declareAll_extensions names

theorem named? (h : s.Binds may s') (name : String) : s'.named? name = s.named? name := by
  obtain ⟨names, rfl, -⟩ := h
  exact s.declareAll_named? names name

end Binds

end TemplateScope

end TagExpr
