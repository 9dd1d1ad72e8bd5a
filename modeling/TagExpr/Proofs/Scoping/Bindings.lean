import TagExpr.Proofs.Parse.Scope
import TagExpr.Proofs.Scoping.Calls
import Mathlib.Data.List.Nodup

/-!
# Template bindings

The texts of a template file share its template bindings. Whatever is parsed, and whatever scopes
are entered and left meanwhile, the names of a template and its slots are in one-to-one
correspondence, and a name keeps its slot. Within a text, a name that is no visible local is the
binding of the innermost scope that has declared it, by then.
-/

namespace TagExpr

open Parse Scoping

variable {ε : Type}

/-! ## Names and slots -/

namespace TemplateScope

variable {s s' : TemplateScope ε} {name : String} {id t : TemplateId} {slot : Nat}

/-- No template has declared a name twice. -/
def Distinct (s : TemplateScope ε) : Prop := ∀ id, (s.bindingNames id).Nodup

/-- A slot belongs to the name that is at its place. -/
theorem slot?_eq_some_iff (h : s.Distinct) :
    s.slot? id name = some slot ↔ (s.bindingNames id)[slot]? = some name := by
  unfold slot?
  constructor
  · intro found
    obtain ⟨within, same, -⟩ := List.findIdx?_eq_some_iff_getElem.1 found
    rw [List.getElem?_eq_getElem within, eq_of_beq same]
  · intro there
    obtain ⟨within, rfl⟩ := List.getElem?_eq_some_iff.1 there
    refine List.findIdx?_eq_some_iff_getElem.2
      ⟨within, beq_self_eq_true _, fun i earlier same => ?_⟩
    exact Nat.ne_of_lt earlier ((List.Nodup.getElem_inj_iff (h id)).1 (eq_of_beq same))

theorem exists_slot?_iff : (∃ slot, s.slot? id name = some slot) ↔ name ∈ s.bindingNames id := by
  rw [← Option.isSome_iff_exists, slot?, List.findIdx?_isSome, List.any_eq_true]
  constructor
  · rintro ⟨other, member, same⟩
    exact eq_of_beq same ▸ member
  · exact fun member => ⟨name, member, beq_self_eq_true name⟩

theorem slot?_eq_none_iff : s.slot? id name = none ↔ name ∉ s.bindingNames id := by
  rw [← exists_slot?_iff, ← Option.isSome_iff_exists, Option.not_isSome_iff_eq_none]

/-- Later names have later slots. -/
theorem slot?_of_prefix (h : s.bindingNames id <+: s'.bindingNames id)
    (found : s.slot? id name = some slot) : s'.slot? id name = some slot := by
  obtain ⟨more, names⟩ := h
  unfold slot? at found ⊢
  rw [← names, List.findIdx?_append, found]
  rfl

theorem Distinct.declareBinding (h : s.Distinct) (name : String) :
    (s.declareBinding name).2.Distinct := by
  intro id
  cases found : s.slot? s.current name with
  | some slot =>
    rw [declareBinding_of_slot found]
    exact h id
  | none =>
    rw [declareBinding_of_new found, bindingNames_setBindingNames]
    split
    · refine List.nodup_append.2 ⟨h s.current, List.nodup_singleton name, ?_⟩
      intro other member name' only same
      rw [List.mem_singleton] at only
      exact slot?_eq_none_iff.1 found (only ▸ same ▸ member)
    · exact h id

theorem Distinct.declareAll (h : s.Distinct) (names : List String) :
    (s.declareAll names).Distinct := by
  induction names generalizing s with
  | nil => exact h
  | cons name names ih => exact ih (h.declareBinding name)

/-- The slot that a declaration answers is the one of the name from then on. -/
theorem slot?_declareBinding (h : s.Distinct) (name : String) :
    (s.declareBinding name).1.1 = s.current ∧
      (s.declareBinding name).2.slot? s.current name = some (s.declareBinding name).1.2 := by
  cases found : s.slot? s.current name with
  | some slot =>
    rw [declareBinding_of_slot found]
    exact ⟨rfl, found⟩
  | none =>
    have answered : (s.declareBinding name).1 = (s.current, (s.bindingNames s.current).length) := by
      simp only [TemplateScope.declareBinding, found]
    refine ⟨congrArg Prod.fst answered, ?_⟩
    rw [slot?_eq_some_iff (h.declareBinding name), answered, declareBinding_of_new found,
      bindingNames_setBindingNames, if_pos rfl]
    exact List.getElem?_concat_length ..

/-! ## The innermost scope with a name -/

/-- The scope of `t` is the innermost one whose template has declared the name, which has that slot
there. -/
def Innermost (s : TemplateScope ε) (name : String) (t : TemplateId) (slot : Nat) : Prop :=
  ∃ above below, s.openScopes = above ++ t :: below ∧ (∀ u ∈ above, name ∉ s.bindingNames u) ∧
    s.slot? t name = some slot

theorem findBinding?_eq_some_iff :
    s.findBinding? name = some (t, slot) ↔ s.Innermost name t slot := by
  rw [findBinding?, List.findSome?_eq_some_iff]
  constructor
  · rintro ⟨above, u, below, split, found, others⟩
    obtain ⟨_, declared, same⟩ := Option.map_eq_some_iff.1 found
    obtain ⟨rfl, rfl⟩ := Prod.mk.inj same
    refine ⟨above, below, split, fun u hu => ?_, declared⟩
    exact slot?_eq_none_iff.1 (Option.map_eq_none_iff.1 (others u hu))
  · rintro ⟨above, below, split, others, found⟩
    refine ⟨above, t, below, split, by rw [found]; rfl, fun u hu => ?_⟩
    rw [slot?_eq_none_iff.2 (others u hu)]
    rfl

end TemplateScope

/-! ## What happens to the scope of a file -/

/-- What can happen to the scope of a template file. -/
inductive ScopeAction (ε : Type) where
  /-- A text that begins `offset` bytes into the file is parsed, with success or not. -/
  | parse (text : String) (offset : Nat)
  | push (id : TemplateId)
  | pop
  /-- A definition has been compiled. -/
  | complete (name : String) (e : ε)
  /-- A definition could not be compiled. -/
  | abandon (name : String)

namespace TemplateScope

variable {s : TemplateScope ε}

def act (s : TemplateScope ε) : ScopeAction ε → TemplateScope ε
  | .parse text offset => (TagExpr.parse text offset s).2
  | .push id => s.push id
  | .pop =>
    match s.pop? with
    | some (_, s) => s
    | none => s
  | .complete name e => s.complete name e
  | .abandon name => s.abandon name

/-- The scope after some actions. -/
def acts (s : TemplateScope ε) (actions : List (ScopeAction ε)) : TemplateScope ε :=
  actions.foldl act s

/-- All that a parse does is to declare bindings, if they are switched on, and to change the named
expressions. -/
theorem exists_of_parse (s : TemplateScope ε) (text : String) (offset : Nat) :
    ∃ names named, (TagExpr.parse text offset s).2 = { s.declareAll names with named } ∧
      (names ≠ [] → s.extensions.templateBindings) := by
  have leaves := parse_leaves text offset s
  cases parsed : TagExpr.parse text offset s with
  | mk result s' =>
    rw [parsed] at leaves
    cases result with
    | error e =>
      obtain ⟨⟨names, rfl, gate⟩, -⟩ := leaves
      exact ⟨names, _, rfl, fun some => (gate some).1⟩
    | ok p =>
      obtain ⟨-, leaves⟩ := leaves
      cases defines : nameDefined? s.extensions text with
      | none =>
        rw [defines] at leaves
        obtain ⟨names, rfl, gate⟩ := leaves
        exact ⟨names, _, rfl, fun some => (gate some).1⟩
      | some name =>
        rw [defines] at leaves
        obtain ⟨-, names, rfl, gate⟩ := leaves
        exact ⟨names, _, declareAll_withNamed s _ names, fun some => (gate some).1⟩

/-- All that an action does is to declare bindings, if they are switched on, to change the named
expressions and to enter and leave scopes. -/
theorem exists_of_act (s : TemplateScope ε) (action : ScopeAction ε) :
    ∃ names named inner, s.act action = { s.declareAll names with named, inner } ∧
      (names ≠ [] → s.extensions.templateBindings) := by
  have nothing : ([] : List String) ≠ [] → s.extensions.templateBindings := absurd rfl
  cases action with
  | parse text offset =>
    obtain ⟨names, named, left, gate⟩ := s.exists_of_parse text offset
    exact ⟨names, named, (s.declareAll names).inner, left, gate⟩
  | push | complete => exact ⟨[], _, _, rfl, nothing⟩
  | pop =>
    obtain ⟨extensions, named, bindings, inner⟩ := s
    cases inner <;> exact ⟨[], _, _, rfl, nothing⟩
  | abandon name =>
    simp only [act, abandon]
    split <;> exact ⟨[], _, _, rfl, nothing⟩

/-- **One action.** The names of each template are continued, and stay distinct. -/
theorem act_bindings (s : TemplateScope ε) (action : ScopeAction ε) :
    (∀ id, s.bindingNames id <+: (s.act action).bindingNames id) ∧
      (s.Distinct → (s.act action).Distinct) := by
  obtain ⟨names, named, inner, acted, -⟩ := s.exists_of_act action
  rw [acted]
  exact ⟨fun id => (bindingNames_declareAll s names id).1,
    fun distinct => distinct.declareAll names⟩

/-- **All actions.** -/
theorem acts_bindings (s : TemplateScope ε) (actions : List (ScopeAction ε)) :
    (∀ id, s.bindingNames id <+: (s.acts actions).bindingNames id) ∧
      (s.Distinct → (s.acts actions).Distinct) := by
  induction actions generalizing s with
  | nil => exact ⟨fun id => List.prefix_rfl, fun distinct => distinct⟩
  | cons action actions ih =>
    obtain ⟨names, distinct⟩ := s.act_bindings action
    obtain ⟨names', distinct'⟩ := ih (s.act action)
    exact ⟨fun id => (names id).trans (names' id), fun h => distinct' (distinct h)⟩

theorem distinct_fresh (extensions : Extensions) : (fresh extensions : TemplateScope ε).Distinct :=
  fun _ => List.nodup_nil

/-! ## Open scopes -/

theorem head?_openScopes (s : TemplateScope ε) : s.openScopes.head? = some s.current := by
  unfold openScopes current
  cases s.inner <;> rfl

theorem getLast?_openScopes (s : TemplateScope ε) :
    s.openScopes.getLast? = some TemplateId.root :=
  List.getLast?_concat

/-- Every scope is left but the outermost one. -/
theorem pop?_cases (s : TemplateScope ε) :
    (s.pop? = none ∧ s.openScopes = [TemplateId.root]) ∨
    ∃ id s', s.pop? = some (id, s') ∧ s.openScopes = id :: s'.openScopes := by
  unfold pop? openScopes
  cases s.inner with
  | nil => exact .inl ⟨rfl, rfl⟩
  | cons id below => exact .inr ⟨id, _, rfl, rfl⟩

/-- The scopes that are open after an action, if these have been open, innermost first. The
outermost scope is not left. -/
def scopesAfter : List TemplateId → ScopeAction ε → List TemplateId
  | scopes, .push id => id :: scopes
  | _ :: outer :: scopes, .pop => outer :: scopes
  | scopes, _ => scopes

theorem openScopes_act (s : TemplateScope ε) (action : ScopeAction ε) :
    (s.act action).openScopes = scopesAfter s.openScopes action := by
  cases action with
  | parse text offset =>
    obtain ⟨names, named, left, -⟩ := s.exists_of_parse text offset
    rw [act, left]
    show (s.declareAll names).inner ++ _ = _
    rw [declareAll_inner]
    rfl
  | push | complete => rfl
  | pop =>
    obtain ⟨extensions, named, bindings, inner⟩ := s
    match inner with
    | [] => rfl
    | [_] => rfl
    | _ :: _ :: _ => rfl
  | abandon name =>
    simp only [act, abandon]
    split <;> rfl

theorem openScopes_acts (s : TemplateScope ε) (actions : List (ScopeAction ε)) :
    (s.acts actions).openScopes = actions.foldl scopesAfter s.openScopes := by
  induction actions generalizing s with
  | nil => rfl
  | cons action actions ih =>
    rw [List.foldl_cons, ← openScopes_act]
    exact ih (s.act action)

end TemplateScope

/-! ## What a text binds -/

namespace Cue

/-- The names that the cues bind with `:=`, in order. -/
def bound : List Cue → List String
  | .word (.name .unstated name false) :: .bind :: cs => name :: bound cs
  | _ :: cs => bound cs
  | [] => []

theorem bound_word (w : Word) {cs : List Cue} (next : cs.head? ≠ some .bind) :
    bound (.word w :: cs) = bound cs := by
  rw [bound.eq_def]
  split
  case h_1 same => exact absurd (congrArg List.head? (List.cons.inj same).2) next
  case h_2 same => rw [(List.cons.inj same).2]
  case h_3 none => cases none

end Cue

namespace Scoping

variable {r r' : Reading ε} {v : Visit} {vs : List Visit} {c cs : List Cue}

/-- A walk does not stop between a name and the `=` or `:=` after it. -/
theorem Reads.head?_ne (h : Reads r vs cs r') :
    cs.head? ≠ some .assign ∧ cs.head? ≠ some .bind := by
  induction h with
  | nil => simp
  | cons step _ ih => cases step <;> simp_all

/-- A step binds the names of its cues. -/
theorem Step.file_eq (h : Step r v c r') (next : cs.head? ≠ some .bind) :
    ∃ names, Cue.bound (c ++ cs) = names ++ Cue.bound cs ∧ r'.file = r.file.declareAll names := by
  cases h with
  | enter | leave | clause | assign | declare => exact ⟨[], rfl, rfl⟩
  | name | other => exact ⟨[], Cue.bound_word _ next, rfl⟩
  | @bind name template slot file declared =>
    refine ⟨[name], rfl, ?_⟩
    rw [TemplateScope.declareAll_cons, declared]
    rfl

/-- **The bindings in the middle of a walk are those of the names that have been bound before.** -/
theorem Reads.file_eq (h : Reads r vs cs r') : r'.file = r.file.declareAll (Cue.bound cs) := by
  induction h with
  | nil => rfl
  | cons step rest ih =>
    obtain ⟨names, bound, file⟩ := step.file_eq rest.head?_ne.2
    rw [ih, file, bound, TemplateScope.declareAll_append]

/-- What a bare name can be met as. -/
theorem Step.bare_cases {name : String} (h : Step r v (.word (.bare name) :: c) r') :
    (c = [] ∧ v = r.resolve name) ∨
    (c = [.assign] ∧ ((∃ place, r.resolve name = .reads place ∧ v = .assigns place) ∨
      r.resolve name = .other ∧ v = .assigns (.slot r.next))) ∨
    (c = [.bind] ∧ ∃ template slot, v = .assigns (.binding template slot) ∧
      r.file.declareBinding name = ((template, slot), r'.file)) := by
  cases h with
  | name resolved => exact .inl ⟨rfl, resolved.symm⟩
  | other not_bare => exact absurd rfl (not_bare name)
  | assign resolved => exact .inr (.inl ⟨rfl, .inl ⟨_, resolved, rfl⟩⟩)
  | declare resolved => exact .inr (.inl ⟨rfl, .inr ⟨resolved, rfl⟩⟩)
  | bind declared => exact .inr (.inr ⟨rfl, _, _, rfl, declared⟩)

/-- A name that is no visible local is a binding just if there is an innermost one. -/
theorem Reading.resolve_eq_binding {name : String} (no_local : r.visible.lookup name = none)
    (t : TemplateId) (slot : Nat) :
    r.resolve name = .reads (.binding t slot) ↔ r.file.Innermost name t slot := by
  rw [← TemplateScope.findBinding?_eq_some_iff]
  simp only [resolve, no_local]
  cases r.file.findBinding? name with
  | none => simp
  | some found => simp [Prod.ext_iff]

end Scoping

/-! ## Names of a text -/

theorem bodyScope_eq (text : String) (scope : TemplateScope ε) :
    ∃ named, bodyScope text scope = { scope with named } := by
  unfold bodyScope
  split
  · exact ⟨_, rfl⟩
  · exact ⟨scope.named, rfl⟩

/-- A bare name between the cues `ds` and `es` of a text is met by the walk over the tree, and has a
leaf in it. With `:=` after it, the leaf is the binding of the innermost scope. Otherwise, if no
local of that name is visible, it is a binding just if the scope of that binding is the innermost
one whose template has declared the name until then. -/
def BindsName (text : String) (scope scope' : TemplateScope ε) (p : Parsed ε) (ds es : List Cue)
    (name : String) : Prop :=
  ∃ before v after r leaf, p.node.visits = before ++ v :: after ∧
    Reads (.ofText text scope) before ds r ∧
    p.node.leaves[(Cue.words ds).length]? = some leaf ∧
    (es.head? = some .bind → ∃ slot, scope'.slot? scope.current name = some slot ∧
      v = .assigns (.binding scope.current slot) ∧ leaf = .binding scope.current slot) ∧
    (es.head? ≠ some .bind → r.visible.lookup name = none → ∀ t slot,
      let innermost := (scope.declareAll (Cue.bound ds)).Innermost name t slot
      (leaf = .binding t slot ↔ innermost) ∧
      (v = .reads (.binding t slot) ↔ innermost ∧ es.head? ≠ some .assign) ∧
      (v = .assigns (.binding t slot) ↔ innermost ∧ es.head? = some .assign))

/-- The visit and the leaf of an operand are of the same binding. -/
theorem Visit.binding_iff {v : Visit} {leaf : Leaf} (h : v.operand? = some leaf.place?)
    (t : TemplateId) (slot : Nat) :
    leaf = .binding t slot ↔ v = .reads (.binding t slot) ∨ v = .assigns (.binding t slot) := by
  have leaf_iff : leaf = .binding t slot ↔ leaf.place? = some (.binding t slot) := by
    cases leaf <;> simp [Leaf.place?]
  rw [leaf_iff, ← Option.some.injEq, ← h]
  cases v <;> simp [operand?]

theorem bindsName {text : String} {offset : Nat} {scope scope' : TemplateScope ε} {p : Parsed ε}
    (h : parse text offset scope = (.ok p, scope')) (distinct : scope.Distinct) {ds es : List Cue}
    {name : String} (hcues : cuesOf scope.extensions text = ds ++ .word (.bare name) :: es) :
    BindsName text scope scope' p ds es name := by
  obtain ⟨last, hreads, -, -, hfile⟩ := parse_reads h
  rw [hcues] at hreads
  obtain ⟨before, v, after, r, r', c, rest, hvisits, rfl, hbefore, hstep, hrest, hoperand⟩ :=
    hreads.at_word
  have bare := hstep.bare_cases
  -- The leaf of the word.
  obtain ⟨leaf, hleaf, met⟩ : ∃ leaf, p.node.leaves[(Cue.words ds).length]? = some leaf ∧
      v.operand? = some leaf.place? := by
    rw [Node.operands_visits, List.getElem?_map] at hoperand
    have operand : v.operand?.isSome := by
      rcases bare with ⟨-, rfl⟩ | ⟨-, ⟨place, -, rfl⟩ | ⟨-, rfl⟩⟩ | ⟨-, _, _, rfl, -⟩
      · rcases r.resolve_cases name with other | ⟨place, reads⟩
        · rw [other]; rfl
        · rw [reads]; rfl
      all_goals rfl
    obtain ⟨place, found⟩ := Option.isSome_iff_exists.1 operand
    rw [found] at hoperand
    obtain ⟨leaf, hleaf, rfl⟩ := Option.map_eq_some_iff.1 hoperand
    exact ⟨leaf, hleaf, found⟩
  -- The bindings of the file until then.
  obtain ⟨named, body⟩ := bodyScope_eq text scope
  have file : r.file = { scope.declareAll (Cue.bound ds) with named } := by
    rw [hbefore.file_eq, ← TemplateScope.declareAll_withNamed, ← body]
    rfl
  have next := hrest.head?_ne
  refine ⟨before, v, after, r, leaf, hvisits, hbefore, hleaf, fun binds => ?_,
    fun no_bind no_local t slot => ?_⟩
  · rcases bare with ⟨rfl, -⟩ | ⟨rfl, -⟩ | ⟨rfl, template, slot, rfl, declared⟩
    · exact absurd binds next.2
    · cases binds
    · have current : r.file.current = scope.current := by
        rw [file, TemplateScope.current, TemplateScope.current, ← scope.declareAll_inner]
      have distinct' : r.file.Distinct := by
        rw [file]
        exact distinct.declareAll _
      obtain ⟨here, declares⟩ := TemplateScope.slot?_declareBinding distinct' name
      rw [declared, current] at here declares
      obtain rfl : template = scope.current := here
      refine ⟨slot, ?_, rfl, (Visit.binding_iff met _ _).2 (.inr rfl)⟩
      rw [← hfile, hrest.file_eq]
      exact TemplateScope.slot?_of_prefix (TemplateScope.bindingNames_declareAll _ _ _).1 declares
  · have resolve := Reading.resolve_eq_binding no_local t slot
    rw [file] at resolve
    have visit : (v = .reads (.binding t slot) ↔ r.resolve name = .reads (.binding t slot) ∧
          (c ++ rest).head? ≠ some .assign) ∧
        (v = .assigns (.binding t slot) ↔ r.resolve name = .reads (.binding t slot) ∧
          (c ++ rest).head? = some .assign) := by
      rcases bare with ⟨rfl, rfl⟩ | ⟨rfl, ⟨place, reads, rfl⟩ | ⟨other, rfl⟩⟩ | ⟨rfl, -⟩
      · rcases r.resolve_cases name with other | ⟨place, reads⟩
        · simp [other]
        · simp [reads, next.1]
      · simp [reads]
      · simp [other]
      · exact absurd rfl no_bind
    rw [Visit.binding_iff met, visit.1, visit.2, resolve]
    refine ⟨?_, Iff.rfl, Iff.rfl⟩
    rw [← and_or_left]
    exact and_iff_left (ne_or_eq _ _)

/-! ## All scopes of a file -/

/-- **Template bindings.** Whatever has happened to the scope of a file, the names that a template
has declared and the slots that are counted are in one-to-one correspondence, and a name keeps its
slot whatever happens later. The outermost scope is the root scope and is not left. In the texts
that are parsed, a bare name is the binding of the innermost scope that has it, and `:=` binds it in
the innermost scope. -/
theorem bindings_keep_slots (extensions : Extensions) (actions : List (ScopeAction ε)) :
    let s := (TemplateScope.fresh extensions).acts actions
    (∀ id, (∀ name, name ∈ s.bindingNames id ↔ ∃ slot, s.slot? id name = some slot) ∧
      (∀ name slot, s.slot? id name = some slot → slot < s.bindingCount id) ∧
      ∀ slot < s.bindingCount id, ∃ name, s.slot? id name = some slot ∧
        ∀ other, s.slot? id other = some slot → other = name) ∧
    (∀ later id name slot, s.slot? id name = some slot → (s.acts later).slot? id name = some slot) ∧
    (s.openScopes = actions.foldl TemplateScope.scopesAfter [TemplateId.root] ∧
      s.openScopes.head? = some s.current ∧ s.openScopes.getLast? = some TemplateId.root ∧
      ((s.pop? = none ∧ s.openScopes = [TemplateId.root]) ∨
        ∃ id s', s.pop? = some (id, s') ∧ s.openScopes = id :: s'.openScopes)) ∧
    ∀ text offset p s', parse text offset s = (.ok p, s') →
      ∀ ds es name, cuesOf s.extensions text = ds ++ .word (.bare name) :: es →
        BindsName text s s' p ds es name := by
  intro s
  have distinct : s.Distinct :=
    (TemplateScope.acts_bindings _ actions).2 (TemplateScope.distinct_fresh extensions)
  refine ⟨fun id => ⟨fun name => TemplateScope.exists_slot?_iff.symm, fun name slot found => ?_,
    fun slot counted => ?_⟩, fun later id name slot => ?_,
    ⟨TemplateScope.openScopes_acts _ actions, s.head?_openScopes, s.getLast?_openScopes,
      s.pop?_cases⟩, fun text offset p s' h ds es name => bindsName h distinct⟩
  · rw [TemplateScope.slot?_eq_some_iff distinct] at found
    exact (List.getElem?_eq_some_iff.1 found).1
  · have there := List.getElem?_eq_getElem counted
    refine ⟨_, (TemplateScope.slot?_eq_some_iff distinct).2 there, fun other found => ?_⟩
    rw [TemplateScope.slot?_eq_some_iff distinct, there] at found
    exact (Option.some.inj found).symm
  · exact TemplateScope.slot?_of_prefix ((s.acts_bindings later).1 id)

/-- Within the scope of another template, a name of the root template is still its binding, and the
name bound last is the one of the scope within. -/
theorem bindings_keep_slots_of_nested_scope :
    let s := (TemplateScope.fresh : TemplateScope Nat).acts
      [.parse "x := 1; y := 2" 0, .push 7, .parse "y := x" 20, .parse "y := ;" 30]
    s.slot? 0 "y" = some 1 ∧ s.slot? 7 "y" = some 0 ∧
      ∃ p s', parse "x + y" 40 s = (.ok p, s') ∧
        p.node.leaves.map Leaf.place? = [some (.binding 0 0), some (.binding 7 0)] ∧
        BindsName "x + y" s s' p [.word (.bare "x")] [] "y" := by
  intro s
  have parsed : (parse "x + y" 40 s).1.toOption.map (·.node.leaves.map Leaf.place?) =
      some [some (.binding 0 0), some (.binding 7 0)] := by decide +kernel
  obtain ⟨p, s', h⟩ := Parse.parse_of_isOk "x + y" 40 s (by decide +kernel)
  rw [h] at parsed
  have cues : cuesOf s.extensions "x + y" = [.word (.bare "x")] ++ .word (.bare "y") :: [] := by
    decide +kernel
  refine ⟨by decide +kernel, by decide +kernel, p, s', h, Option.some.inj parsed, ?_⟩
  exact (bindings_keep_slots .all _).2.2.2 "x + y" 40 p s' h _ _ _ cues

end TagExpr
