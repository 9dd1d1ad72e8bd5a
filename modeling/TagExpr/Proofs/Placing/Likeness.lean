import Mathlib.Logic.Function.Basic
import TagExpr.Proofs.Parse.Bindings

/-!
# Likenesses of parses

A likeness says how one parse may differ from another: in the places of its tokens, in the names of
its identifiers, and in the parts of the language that are switched on. Names are only ever compared
with each other, so an injective renaming of them changes no position in a table and no slot.
-/

namespace TagExpr

variable {ε : Type} {r : String → String}

/-! ## Renaming -/

section Rename

variable (r)

def IdentKey.rename (k : IdentKey) : IdentKey := { k with name := r k.name }

/-- Only names are renamed, but neither internal names nor annotations. -/
def IdentKind.rename (kind : IdentKind) : IdentKind :=
  match kind with
  | .name n => .name (r n)
  | _ => kind

def Ident.rename (i : Ident) : Ident := { i with kind := i.kind.rename r }

def TokenKind.rename (kind : TokenKind) : TokenKind :=
  match kind with
  | .ident i => .ident (i.rename r)
  | _ => kind

def TemplateScope.rename (s : TemplateScope ε) : TemplateScope ε :=
  { s with
    named := s.named.map (Prod.map r id)
    bindings := s.bindings.map (Prod.map id (List.map r)) }

namespace Parse

def Extra.rename (extra : Extra) : Extra :=
  match extra with
  | .bareCall name lookup => .bareCall (r name) lookup
  | .methodCall name safe => .methodCall (r name) safe
  | _ => extra

def Tables.rename (t : Tables ε) : Tables ε :=
  { identifiers := t.identifiers.map (·.rename r)
    expressions := t.expressions.map (Prod.map r id)
    locals := t.locals.map (Prod.map r id)
    localCount := t.localCount
    defining := t.defining.map r }

end Parse

end Rename

/-! ### Nothing is renamed -/

@[simp] theorem IdentKey.rename_id : IdentKey.rename id = id := rfl

@[simp] theorem TemplateScope.rename_id (s : TemplateScope ε) : s.rename id = s := by
  simp [rename]

@[simp] theorem TokenKind.rename_id (kind : TokenKind) : kind.rename id = kind := by
  unfold rename
  split
  case h_1 i =>
    obtain ⟨kind, lookup, call⟩ := i
    cases kind <;> rfl
  case h_2 => rfl

@[simp] theorem Parse.Tables.rename_id (t : Parse.Tables ε) : t.rename id = t := by
  simp [rename]

/-! ### Looking names up -/

theorem IdentKey.rename_injective (h : Function.Injective r) :
    Function.Injective (IdentKey.rename r) := by
  intro k k' heq
  obtain ⟨name, arity⟩ := k
  obtain ⟨name', arity'⟩ := k'
  obtain ⟨hname, harity⟩ := IdentKey.mk.inj heq
  exact congrArg₂ IdentKey.mk (h hname) harity

theorem lookup_rename {β : Type} (h : Function.Injective r) (l : List (String × β))
    (name : String) : (l.map (Prod.map r id)).lookup (r name) = l.lookup name := by
  induction l with
  | nil => rfl
  | cons entry l ih =>
    obtain ⟨other, b⟩ := entry
    simp only [List.map_cons, Prod.map_apply, id_eq, List.lookup_cons, ih]
    congr 1
    exact decide_eq_decide.2 h.eq_iff

theorem findIdx?_map_of_injective {α β : Type} [BEq α] [LawfulBEq α] [BEq β] [LawfulBEq β]
    {f : α → β} (h : Function.Injective f) (l : List α) (a : α) :
    (l.map f).findIdx? (· == f a) = l.findIdx? (· == a) := by
  rw [List.findIdx?_map]
  congr 1
  funext b
  exact Bool.eq_iff_iff.2 (by simpa using h.eq_iff)

namespace Parse

@[simp] theorem Extra.rename_eq_plain {extra : Extra} :
    extra.rename r = .plain ↔ extra = .plain := by
  cases extra <;> simp [rename]

@[simp] theorem Extra.rename_eq_colonSeen {extra : Extra} :
    extra.rename r = .colonSeen ↔ extra = .colonSeen := by
  cases extra <;> simp [rename]

namespace Tables

variable (t : Tables ε)

theorem identifier_rename (h : Function.Injective r) (key : IdentKey) :
    (t.rename r).identifier (key.rename r) =
      ((t.identifier key).1, (t.identifier key).2.rename r) := by
  unfold identifier
  have found := findIdx?_map_of_injective (IdentKey.rename_injective h) t.identifiers key
  simp only [rename] at found ⊢
  rw [found]
  cases t.identifiers.findIdx? (· == key) <;> simp

theorem expression_rename (h : Function.Injective r) (name : String) (e : ε) :
    (t.rename r).expression (r name) e =
      ((t.expression name e).1, (t.expression name e).2.rename r) := by
  unfold expression
  have found : (t.expressions.map (Prod.map r id)).findIdx? (·.1 == r name) =
      t.expressions.findIdx? (·.1 == name) := by
    rw [List.findIdx?_map]
    congr 1
    funext entry
    exact Bool.eq_iff_iff.2 (by simpa using h.eq_iff)
  simp only [rename] at found ⊢
  rw [found]
  cases t.expressions.findIdx? (·.1 == name) <;> simp

theorem local?_rename (h : Function.Injective r) (name : String) :
    (t.rename r).local? (r name) = t.local? name := lookup_rename h t.locals name

theorem declareLocal_rename (name : String) :
    (t.rename r).declareLocal (r name) =
      ((t.declareLocal name).1, (t.declareLocal name).2.rename r) := rfl

@[simp] theorem scopeMark_rename : (t.rename r).scopeMark = t.scopeMark := List.length_map _

@[simp] theorem endScope_rename (mark : Nat) :
    (t.rename r).endScope mark = (t.endScope mark).rename r := by
  simp [endScope, rename]

end Tables

end Parse

namespace TemplateScope

variable (s : TemplateScope ε)

theorem bindingNames_rename (template : TemplateId) :
    (s.rename r).bindingNames template = (s.bindingNames template).map r := by
  unfold bindingNames rename
  simp only
  induction s.bindings with
  | nil => rfl
  | cons entry rest ih =>
    obtain ⟨other, names⟩ := entry
    simp only [List.map_cons, Prod.map_apply, List.lookup_cons, id_eq]
    split
    · rfl
    · exact ih

theorem slot?_rename (h : Function.Injective r) (template : TemplateId) (name : String) :
    (s.rename r).slot? template (r name) = s.slot? template name := by
  unfold slot?
  rw [bindingNames_rename, findIdx?_map_of_injective h]

theorem findBinding?_rename (h : Function.Injective r) (name : String) :
    (s.rename r).findBinding? (r name) = s.findBinding? name := by
  unfold findBinding?
  simp only [slot?_rename s h]
  rfl

theorem setBindingNames_rename (bindings : List (TemplateId × List String)) (template : TemplateId)
    (names : List String) :
    setBindingNames (bindings.map (Prod.map id (List.map r))) template (names.map r) =
      (setBindingNames bindings template names).map (Prod.map id (List.map r)) := by
  induction bindings with
  | nil => rfl
  | cons entry rest ih =>
    obtain ⟨other, old⟩ := entry
    simp only [List.map_cons, Prod.map_apply, id_eq, setBindingNames, ih]
    split <;> rfl

theorem declareBinding_rename (h : Function.Injective r) (name : String) :
    (s.rename r).declareBinding (r name) =
      ((s.declareBinding name).1, (s.declareBinding name).2.rename r) := by
  have current : (s.rename r).current = s.current := rfl
  unfold declareBinding
  simp only [current, slot?_rename s h, bindingNames_rename, List.length_map]
  split
  · rfl
  · have names : (s.bindingNames s.current).map r ++ [r name] =
        (s.bindingNames s.current ++ [name]).map r := by simp
    simp only [names]
    exact congrArg (fun bindings => (_, { s.rename r with bindings }))
      (setBindingNames_rename _ _ _)

theorem declareBinding_extensions (extensions : Extensions) (name : String) :
    ({ s with extensions } : TemplateScope ε).declareBinding name =
      ((s.declareBinding name).1, { (s.declareBinding name).2 with extensions }) := by
  simp only [declareBinding, slot?, bindingNames, current]
  split <;> rfl

theorem named?_rename (h : Function.Injective r) (name : String) :
    (s.rename r).named? (r name) = s.named? name := lookup_rename h s.named name

theorem eraseNamed_rename (h : Function.Injective r) (name : String) :
    (s.rename r).eraseNamed (r name) = (s.eraseNamed name).rename r := by
  have kept : (s.named.map (Prod.map r id)).filter (·.1 != r name) =
      (s.named.filter (·.1 != name)).map (Prod.map r id) := by
    rw [List.filter_map]
    congr 2
    funext entry
    exact Bool.eq_iff_iff.2 (by simpa using h.ne_iff)
  exact congrArg (fun named => { s.rename r with named }) kept

theorem abandon_extensions (extensions : Extensions) (name : String) :
    ({ s with extensions } : TemplateScope ε).abandon name =
      { s.abandon name with extensions } := by
  simp only [abandon, named?]
  split <;> rfl

theorem setNamed_rename (h : Function.Injective r) (name : String) (entry : NamedEntry ε) :
    (s.rename r).setNamed (r name) entry = (s.setNamed name entry).rename r := by
  unfold setNamed
  rw [eraseNamed_rename s h]
  rfl

theorem abandon_rename (h : Function.Injective r) (name : String) :
    (s.rename r).abandon (r name) = (s.abandon name).rename r := by
  unfold abandon
  rw [named?_rename s h]
  split
  · exact eraseNamed_rename s h name
  · rfl

end TemplateScope

/-! ## Likenesses -/

/-- How the spans of one parse are related to those of another. -/
structure SpanRelation where
  rel : Span → Span → Prop
  merge : ∀ {s s' t t' : Span}, rel s s' → rel t t' → rel (s.merge t) (s'.merge t')

/-- The errors have one cause, and their places are related. -/
structure ParseError.Twin (R : SpanRelation) (e e' : ParseError) : Prop where
  fault : e'.fault = e.fault
  span : R.rel e.span e'.span

/-- How the second of two parses may differ from the first one. -/
structure Likeness extends SpanRelation where
  /-- What the names of the first parse are called in the second one. -/
  name : String → String
  injective : Function.Injective name
  /-- The parts of the language in the first parse. -/
  extensions : Extensions
  /-- Those in the second one. -/
  extensions' : Extensions
  subset : extensions ⊆ extensions'
  interpolation : extensions'.interpolation = extensions.interpolation
  /-- The second parse fails where the first one does, for the same cause. -/
  strict : Prop
  exact : strict → extensions' = extensions
  unnamed : strict → name = id

/-- Only the places differ. -/
def SpanRelation.likeness (R : SpanRelation) (extensions : Extensions) : Likeness where
  toSpanRelation := R
  name := id
  injective := Function.injective_id
  extensions := extensions
  extensions' := extensions
  subset := ⟨id, id, id, id⟩
  interpolation := rfl
  strict := True
  exact _ := rfl
  unnamed _ := rfl

/-- The names are renamed as well. Nothing is said where the first parse fails. -/
def Likeness.renaming (L : Likeness) (name : String → String)
    (injective : Function.Injective name) : Likeness :=
  { L with
    name
    injective
    strict := False
    exact := False.elim
    unnamed := False.elim }

variable {L : Likeness} {s s' : TemplateScope ε}

/-- The scopes of two parses. If named expressions are switched on in the second parse only, there
are none. -/
structure TemplateScope.Alike (L : Likeness) (s s' : TemplateScope ε) : Prop where
  left : s.extensions = L.extensions
  right : s' = { s.rename L.name with extensions := L.extensions' }
  named : L.extensions'.namedExpressions = L.extensions.namedExpressions ∨ s.named = []

namespace TemplateScope.Alike

theorem of_likeness {R : SpanRelation} (s : TemplateScope ε) :
    Alike (R.likeness s.extensions) s s :=
  ⟨rfl, by simp [SpanRelation.likeness], .inl rfl⟩

theorem eq_of_likeness {R : SpanRelation} {extensions : Extensions}
    (h : Alike (R.likeness extensions) s s') : s' = s := by
  have left : s.extensions = extensions := h.left
  rw [h.right, ← left]
  simp only [SpanRelation.likeness, rename_id]

theorem extensions (h : s.Alike L s') : s'.extensions = L.extensions' := by rw [h.right]

theorem findBinding? (h : s.Alike L s') (name : String) :
    s'.findBinding? (L.name name) = s.findBinding? name := by
  rw [h.right]
  exact s.findBinding?_rename L.injective name

theorem declareBinding (h : s.Alike L s') (name : String) :
    (s'.declareBinding (L.name name)).1 = (s.declareBinding name).1 ∧
      (s.declareBinding name).2.Alike L (s'.declareBinding (L.name name)).2 := by
  have declared : s'.declareBinding (L.name name) = ((s.declareBinding name).1,
      { (s.declareBinding name).2.rename L.name with extensions := L.extensions' }) := by
    rw [h.right, declareBinding_extensions, s.declareBinding_rename L.injective]
  rw [declared]
  refine ⟨rfl, ?_, rfl, ?_⟩
  · rw [← h.left]
    exact declareBinding_frame TemplateScope.extensions (fun _ _ => rfl) s name
  · rw [declareBinding_frame TemplateScope.named (fun _ _ => rfl) s name]
    exact h.named

theorem named? (h : s.Alike L s') (name : String) : s'.named? (L.name name) = s.named? name := by
  rw [h.right]
  exact s.named?_rename L.injective name

theorem isNamed (h : s.Alike L s') (name : String) : s'.isNamed (L.name name) = s.isNamed name :=
  congrArg Option.isSome (h.named? name)

theorem beginDefinition (h : s.Alike L s') (on : s.extensions.namedExpressions = true)
    (name : String) :
    (s.beginDefinition name).Alike L (s'.beginDefinition (L.name name)) := by
  refine ⟨h.left, ?_, .inl ?_⟩
  · have renamed := s.setNamed_rename L.injective name .pending
    rw [h.right]
    exact congrArg (fun s : TemplateScope ε => { s with extensions := L.extensions' }) renamed
  · rw [h.left] at on
    rw [on, L.subset.1 on]

theorem abandon (h : s.Alike L s') (name : String) :
    (s.abandon name).Alike L (s'.abandon (L.name name)) := by
  refine ⟨?_, ?_, h.named.imp id fun none => ?_⟩
  · rw [← h.left]
    unfold TemplateScope.abandon
    split <;> rfl
  · rw [h.right, abandon_extensions, s.abandon_rename L.injective]
  · unfold TemplateScope.abandon
    split
    · simp [eraseNamed, none]
    · exact none

/-- Named expressions are switched on in both parses, or there are none. -/
theorem named?_of_off (h : s.Alike L s') (hoff : s.extensions.namedExpressions = false)
    (hon : s'.extensions.namedExpressions = true) (name : String) : s.named? name = none := by
  rcases h.named with same | none
  · rw [h.left] at hoff
    rw [h.extensions, same, hoff] at hon
    cases hon
  · rw [TemplateScope.named?, none]
    rfl

end TemplateScope.Alike

end TagExpr
