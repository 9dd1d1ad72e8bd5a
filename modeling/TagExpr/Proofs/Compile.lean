import TagExpr.Compile
import TagExpr.Proofs.Parse.Scope
import TagExpr.Proofs.Parse.Tables

/-!
# Compiled expressions

A compiled expression carries the tables that its tree refers to, and the named expressions among
them have been compiled in the same template file before. So its tables cover its tree, and those of
every expression that it can reach.
-/

namespace TagExpr

/-! ## Finished expressions -/

namespace TemplateScope

variable {ε : Type} {s s' : TemplateScope ε} {name other : String}

theorem named?_eraseNamed (s : TemplateScope ε) (name other : String) :
    (s.eraseNamed name).named? other = if other = name then none else s.named? other := by
  unfold named? eraseNamed
  simp only
  induction s.named with
  | nil => simp
  | cons entry rest ih =>
    obtain ⟨first, found⟩ := entry
    rw [Parse.Describes.lookup_cons_entry]
    by_cases hf : first = name
    · simp only [hf, List.filter_cons, bne_self_eq_false, Bool.false_eq_true, if_false, ih]
      by_cases ho : other = name
      · simp [ho]
      · simp [ho]
    · have hkeep : (first != name) = true := by simpa using hf
      simp only [List.filter_cons, hkeep, if_true]
      rw [Parse.Describes.lookup_cons_entry, ih]
      by_cases ho : other = first
      · simp [ho, hf]
      · simp [ho]

theorem named?_setNamed_eq (s : TemplateScope ε) (name other : String) (entry : NamedEntry ε) :
    (s.setNamed name entry).named? other = if other = name then some entry else s.named? other := by
  have herase := named?_eraseNamed s name other
  unfold setNamed named? at *
  simp only at *
  rw [Parse.Describes.lookup_cons_entry, herase]
  split <;> rfl

theorem expression?_eq_some {e : ε} :
    s.expression? other = some e ↔ s.named? other = some (.defined e) := by
  unfold expression?
  split
  case h_1 found heq => simp [heq]
  case h_2 hne =>
    constructor
    · intro h
      cases h
    · intro h
      exact absurd h (hne e)

theorem named?_beginDefinition (s : TemplateScope ε) (name other : String) :
    (s.beginDefinition name).named? other =
      if other = name then some .pending else s.named? other :=
  named?_setNamed_eq s name other .pending

/-- A parse finishes no expression. -/
theorem Leaves.expression? {may : Prop} {defines : Option String} {p : Parsed ε}
    (h : s.Leaves may defines (.ok p, s')) {e : ε} (he : s'.expression? other = some e) :
    s.expression? other = some e := by
  rw [expression?_eq_some] at he ⊢
  cases defines with
  | none => rwa [h.2.named?] at he
  | some name =>
    rw [h.2.2.named?, named?_beginDefinition] at he
    split at he
    · cases he
    · exact he

end TemplateScope

/-! ## Tables of compiled expressions -/

/-- The tables of a compiled expression, and the slots of the bindings in the scope of its file. -/
def Expression.limits (e : Expression) (scope : TemplateScope Expression) : Limits where
  identifiers := e.identifiers.map (·.key)
  expressions := e.expressions.length
  locals := e.localCount
  bindings := scope.bindingCount
  recursive := e.name.isSome

/-- The tables of the expression cover its tree, and so do those of all expressions that it can
reach. -/
inductive Expression.Covered : Expression → Prop
  | intro {e : Expression} (scope : TemplateScope Expression) :
    e.body.Within (e.limits scope) → (∀ callee ∈ e.expressions, callee.Covered) → e.Covered

namespace Compiler

variable {c c' : Compiler} {t t' : Template} {text : String} {offset : Nat} {e : Expression}

theorem key_identifier (c : Compiler) (known : List IdentifierRef) (key : IdentKey) :
    (c.identifier known key).1.key = key := by
  unfold Compiler.identifier
  split
  case h_1 ref hf => simpa using List.find?_some hf
  case h_2 => rfl

/-- The identifiers of an expression are those of the members it mentions, in the same order. -/
theorem keys_identifiers (c : Compiler) (known : List IdentifierRef) (keys : List IdentKey) :
    (c.identifiers known keys).1.map (·.key) = keys := by
  induction keys generalizing c known with
  | nil => rfl
  | cons key keys ih => simp [Compiler.identifiers, c.key_identifier, ih]

/-- The compiled expression has the tree of the parsed one, and its tables. -/
structure Gathers (p : Parsed Expression) (e : Expression) : Prop where
  name : e.name = p.name
  params : e.params = p.params
  localCount : e.localCount = p.localCount
  identifiers : e.identifiers.map (·.key) = p.identifiers
  expressions : e.expressions = p.expressions
  body : e.body = p.node

theorem compile_ok (h : c.compile t text offset = (.ok e, t', c')) :
    ∃ p scope, parse text offset t.scope = (.ok p, scope) ∧ Gathers p e ∧
      t'.scope = match p.name with
        | some name => scope.complete name e
        | none => scope := by
  unfold Compiler.compile at h
  split at h
  case h_1 => cases h
  case h_2 p scope hparse =>
    refine ⟨p, scope, hparse, ?_⟩
    split at h
    case h_1 => cases h
    case h_2 program c₁ _ =>
      simp only [Prod.mk.injEq, Except.ok.injEq] at h
      obtain ⟨rfl, rfl, -⟩ := h
      exact ⟨⟨rfl, rfl, rfl, c₁.keys_identifiers _ _, rfl, rfl⟩, rfl⟩

/-- A text that does not compile leaves bindings only. An earlier definition is the reason exactly
if the text defines its name. -/
theorem compile_error {e : ParseError} (h : c.compile t text offset = (.error e, t', c')) :
    c' = c ∧ t'.identifiers = t.identifiers ∧
      t.scope.Binds (Parse.HasBinding text.toList) t'.scope ∧
      ∀ name, e.fault = .duplicateDefinition name ↔
        t.scope.isNamed name ∧ nameDefined? t.scope.extensions text = some name := by
  have hleaves := parse_leaves text offset t.scope
  unfold Compiler.compile at h
  split at h
  case h_1 error scope hparse =>
    simp only [Prod.mk.injEq, Except.error.injEq] at h
    obtain ⟨rfl, rfl, rfl⟩ := h
    rw [hparse] at hleaves
    exact ⟨rfl, rfl, hleaves.1, hleaves.2⟩
  case h_2 p scope hparse =>
    rw [hparse] at hleaves
    obtain ⟨hname, hscope⟩ := hleaves
    split at h
    case h_2 => cases h
    case h_1 =>
      simp only [Prod.mk.injEq, Except.error.injEq] at h
      obtain ⟨rfl, rfl, rfl⟩ := h
      -- The name of a definition was new, and it is given up.
      rw [hname]
      cases hdefines : nameDefined? t.scope.extensions text with
      | none =>
        rw [hdefines] at hscope
        exact ⟨rfl, rfl, hscope, by simp [badPattern]⟩
      | some name =>
        rw [hdefines] at hscope
        refine ⟨rfl, rfl, hscope.2.abandon hscope.1, fun other => ?_⟩
        have hne : (badPattern p).fault ≠ .duplicateDefinition other := by simp [badPattern]
        refine ⟨fun hdup => absurd hdup hne, ?_⟩
        rintro ⟨hnamed, heq⟩
        cases heq
        rw [hscope.1] at hnamed
        cases hnamed

/-- The text of a compiled expression defines the name of the expression, if it defines any, and
that name was new. -/
theorem compile_defines (h : c.compile t text offset = (.ok e, t', c')) :
    e.name = nameDefined? t.scope.extensions text ∧
      ∀ name ∈ e.name, t.scope.isNamed name = false := by
  obtain ⟨p, scope, hparse, he, -⟩ := compile_ok h
  have hleaves := parse_leaves text offset t.scope
  rw [hparse] at hleaves
  obtain ⟨hname, hscope⟩ := hleaves
  rw [he.name, hname]
  refine ⟨rfl, fun name hmem => ?_⟩
  rw [Option.mem_def.mp hmem] at hscope
  exact hscope.1

theorem compile_of_isOk (c : Compiler) (t : Template) (text : String) (offset : Nat)
    (h : (c.compile t text offset).1.isOk) :
    ∃ e t' c', c.compile t text offset = (.ok e, t', c') := by
  cases hcompile : c.compile t text offset with
  | mk r after =>
    rw [hcompile] at h
    cases r with
    | error e => cases h
    | ok e => exact ⟨e, after.1, after.2, rfl⟩

/-- Compiling a text defines the name that the text defines, if it compiles, and no other. -/
theorem compile_named? {r : Except ParseError Expression}
    (h : c.compile t text offset = (r, t', c')) (other : String) :
    t'.scope.named? other =
      match r with
      | .ok e => if e.name = some other then some (.defined e) else t.scope.named? other
      | .error _ => t.scope.named? other := by
  cases r with
  | error e => exact (compile_error h).2.2.1.named? other
  | ok e =>
    obtain ⟨p, scope, hparse, he, hscope⟩ := compile_ok h
    have hleaves := parse_leaves text offset t.scope
    rw [hparse] at hleaves
    obtain ⟨hname, hleaves⟩ := hleaves
    rw [← hname] at hleaves
    simp only [hscope, he.name]
    cases hp : p.name with
    | none =>
      rw [hp] at hleaves
      simpa using hleaves.named? other
    | some name =>
      rw [hp] at hleaves
      simp only [Option.some.injEq]
      rw [TemplateScope.complete, TemplateScope.named?_setNamed_eq, hleaves.2.named?,
        TemplateScope.named?_beginDefinition]
      by_cases ho : other = name
      · simp [ho]
      · simp [ho, Ne.symm ho]

theorem compile_extensions {r : Except ParseError Expression}
    (h : c.compile t text offset = (r, t', c')) : t'.scope.extensions = t.scope.extensions := by
  cases r with
  | error e => exact (compile_error h).2.2.1.extensions
  | ok e =>
    obtain ⟨p, scope, hparse, -, hscope⟩ := compile_ok h
    have hleaves := parse_leaves text offset t.scope
    rw [hparse] at hleaves
    obtain ⟨hname, hleaves⟩ := hleaves
    rw [← hname] at hleaves
    rw [hscope]
    cases hp : p.name with
    | none =>
      rw [hp] at hleaves
      exact hleaves.extensions
    | some name =>
      rw [hp] at hleaves
      exact hleaves.2.extensions

/-- Compiling a text finishes no expression but its own. -/
theorem compile_expression? {r : Except ParseError Expression}
    (h : c.compile t text offset = (r, t', c')) {other : String} {e' : Expression}
    (he : t'.scope.expression? other = some e') :
    r = .ok e' ∨ t.scope.expression? other = some e' := by
  simp only [TemplateScope.expression?_eq_some, compile_named? h] at he ⊢
  cases r with
  | error e => exact .inr he
  | ok e =>
    simp only at he
    split at he
    · cases he
      exact .inl rfl
    · exact .inr he

theorem Gathers.limits {p : Parsed Expression} (h : Gathers p e)
    (scope : TemplateScope Expression) : e.limits scope = p.limits scope := by
  simp only [Expression.limits, Parsed.limits, h.identifiers, h.expressions, h.localCount, h.name]

/-- The tables of a compiled expression cover its tree. -/
theorem compile_within (h : c.compile t text offset = (.ok e, t', c')) :
    e.body.Within (e.limits t'.scope) ∧ (e.identifiers.map (·.key)).Nodup ∧
      e.params ≤ e.localCount := by
  obtain ⟨p, scope, hparse, he, hscope⟩ := compile_ok h
  obtain ⟨hwithin, hnodup, hle⟩ := Parsed.within hparse
  have hbindings : t'.scope.bindingCount = scope.bindingCount := by
    rw [hscope]
    cases p.name <;> rfl
  have hlimits : e.limits t'.scope = p.limits scope := by
    rw [← he.limits]
    simp only [Expression.limits, hbindings]
  refine ⟨?_, ?_, ?_⟩
  · rw [he.body, hlimits]
    exact hwithin
  · rw [he.identifiers]
    exact hnodup
  · rw [he.params, he.localCount]
    exact hle

/-- An expression can call only what has been finished in its template file before it. -/
theorem compile_expressions (h : c.compile t text offset = (.ok e, t', c')) :
    ∀ callee ∈ e.expressions, ∃ name, t.scope.expression? name = some callee := by
  obtain ⟨p, scope, hparse, he, -⟩ := compile_ok h
  intro callee hcallee
  rw [he.expressions] at hcallee
  obtain ⟨name, hname⟩ := Parsed.expression?_of_mem hparse hcallee
  have hleaves := parse_leaves text offset t.scope
  rw [hparse] at hleaves
  exact ⟨name, hleaves.expression? hname⟩

end Compiler

/-! ## Template files -/

namespace Template

/-- A template file as it is reached from a fresh one: texts are compiled in it, by whatever
compiler and whether they fail or not, and template scopes are entered and left. -/
inductive Reachable : Template → Prop
  | fresh (extensions : Extensions) : Reachable (.fresh extensions)
  | compile {t : Template} (c : Compiler) (text : String) (offset : Nat) :
    Reachable t → Reachable (c.compile t text offset).2.1
  | push {t : Template} (id : TemplateId) :
    Reachable t → Reachable { t with scope := t.scope.push id }
  | pop {t : Template} {id : TemplateId} {scope : TemplateScope Expression} :
    Reachable t → t.scope.pop? = some (id, scope) → Reachable { t with scope }

/-- All finished expressions of a template file are covered by their tables. -/
def Covered (t : Template) : Prop :=
  ∀ name e, t.scope.expression? name = some e → e.Covered

theorem Covered.compile {c c' : Compiler} {t t' : Template} {text : String} {offset : Nat}
    {e : Expression} (ht : t.Covered) (h : c.compile t text offset = (.ok e, t', c')) :
    e.Covered := by
  refine .intro t'.scope (Compiler.compile_within h).1 ?_
  intro callee hcallee
  obtain ⟨name, hname⟩ := Compiler.compile_expressions h callee hcallee
  exact ht name callee hname

theorem Reachable.covered {t : Template} (h : t.Reachable) : t.Covered := by
  -- An expression calls only those finished before it, which the induction has covered.
  induction h with
  | fresh extensions =>
    intro name e he
    cases he
  | @compile t c text offset _ ih =>
    intro name e he
    cases hcompile : c.compile t text offset with
    | mk r after =>
      obtain ⟨t', c'⟩ := after
      rw [hcompile] at he
      rcases Compiler.compile_expression? hcompile he with rfl | hold
      · exact ih.compile hcompile
      · exact ih name e hold
  | push id _ ih => exact ih
  | @pop t id scope _ hpop ih =>
    intro name e he
    refine ih name e ?_
    unfold TemplateScope.pop? at hpop
    split at hpop
    · cases hpop
    · cases hpop
      exact he

end Template

end TagExpr
