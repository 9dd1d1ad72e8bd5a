import TagExpr.Proofs.Parse.Keeps
import TagExpr.Proofs.Parse.Words

/-!
# What a parse leaves behind

The scope after the parse of a text. A definition reserves its name, which is given up again if the
body fails; otherwise only bindings are declared. The parse fails because of an earlier definition
exactly if the text defines a name that has been defined.
-/

namespace TagExpr

open Parse

variable {ε : Type}

theorem runFrom_binds (scope : TemplateScope ε) (tables : Tables ε) (offset : Nat)
    (at_ : Cursor) :
    scope.Binds (HasBinding at_.rest) (Parsed.runFrom scope tables offset at_).2 ∧
      ∀ e, (Parsed.runFrom scope tables offset at_).1 = .error e → e.Fresh := by
  have hrun := keeps_rounds (at_.rest.length + 1) .operand offset at_ { scope, tables }
  unfold Parsed.runFrom whole
  rw [EStateM.run]
  cases heq : rounds (at_.rest.length + 1) .operand offset at_ { scope, tables } with
  | ok o b => exact ⟨hrun.ok heq, by simp⟩
  | error e b => exact ⟨(hrun.error heq).1, by simpa using (hrun.error heq).2⟩

/-! ## Definitions -/

/-- The name that a text defines. -/
def nameDefined? (extensions : Extensions) (text : String) : Option String :=
  (definitionOf? extensions text).map (·.name)

namespace TemplateScope

variable {s s' : TemplateScope ε} {name : String} {may : Prop}

theorem eraseNamed_of_isNamed (h : s.isNamed name = false) :
    (s.eraseNamed name).named = s.named := by
  refine List.filter_eq_self.mpr ?_
  intro entry hentry
  have hnone : s.named.lookup name = none := by simpa [isNamed, named?] using h
  have hne := List.lookup_eq_none_iff.mp hnone entry hentry
  simpa [bne_iff_ne, ne_comm] using hne

/-- A definition that is given up leaves its bindings only. -/
theorem Binds.abandon (hnew : s.isNamed name = false)
    (h : (s.beginDefinition name).Binds may s') : s.Binds may (s'.abandon name) := by
  obtain ⟨names, rfl, hnames⟩ := h
  have hpending : ((s.beginDefinition name).declareAll names).named? name = some .pending := by
    rw [declareAll_named?]
    exact named?_setNamed s name .pending
  -- Without the reserved name the named expressions are those from before.
  have hbegin : s.beginDefinition name = { s with named := (name, .pending) :: s.named } := by
    simp only [beginDefinition, setNamed, eraseNamed_of_isNamed hnew]
    rfl
  have herase : s.named.filter (·.1 != name) = s.named := eraseNamed_of_isNamed hnew
  refine ⟨names, ?_, hnames⟩
  simp only [TemplateScope.abandon, hpending]
  rw [hbegin, declareAll_withNamed]
  simp only [eraseNamed, List.filter_cons, bne_self_eq_false, Bool.false_eq_true, if_false, herase]
  rw [← s.declareAll_named names]

end TemplateScope

/-! ## Results -/

/-- What a parse in a scope leaves behind, of a text that defines the name given, if any. A failed
one leaves bindings at most, as does an expression; a definition has reserved its name besides. -/
def TemplateScope.Leaves (scope : TemplateScope ε) (may : Prop) (defines : Option String) :
    Except ParseError (Parsed ε) × TemplateScope ε → Prop
  | (.error e, scope') =>
    scope.Binds may scope' ∧
      ∀ name, e.fault = .duplicateDefinition name ↔ scope.isNamed name ∧ defines = some name
  | (.ok p, scope') =>
    p.name = defines ∧
      match defines with
      | none => scope.Binds may scope'
      | some name => scope.isNamed name = false ∧ (scope.beginDefinition name).Binds may scope'

/-- A fresh error, when no name is defined or one that is new. -/
theorem ParseError.Fresh.leaves {e : ParseError} {scope scope' : TemplateScope ε} {may : Prop}
    {defines : Option String} (h : e.Fresh) (hb : scope.Binds may scope')
    (hnew : ∀ name ∈ defines, scope.isNamed name = false) :
    scope.Leaves may defines (.error e, scope') := by
  refine ⟨hb, fun name => ⟨fun hdup => absurd hdup (h name), ?_⟩⟩
  rintro ⟨hnamed, hdefines⟩
  rw [hnew name hdefines] at hnamed
  cases hnamed

theorem ofDefinition_leaves (definition : Definition) (offset : Nat) (span : Span)
    (scope : TemplateScope ε) :
    scope.Leaves (HasBinding definition.body.rest) (some definition.name)
      (Parsed.ofDefinition definition offset span scope) := by
  unfold Parsed.ofDefinition
  simp only
  split
  case isTrue hnamed =>
    refine ⟨.refl scope, fun name => ?_⟩
    simp only [ParseFault.duplicateDefinition.injEq, Option.some.injEq]
    exact ⟨fun h => ⟨h ▸ hnamed, h⟩, fun h => h.2⟩
  case isFalse hnamed =>
    have hnew : scope.isNamed definition.name = false := by simpa using hnamed
    have hall : ∀ name ∈ some definition.name, scope.isNamed name = false := by simpa using hnew
    split
    case h_1 =>
      exact (ParseError.fresh_of_fault (by simp)).leaves (.refl scope) hall
    case h_2 tables _ =>
      obtain ⟨hbinds, hfresh⟩ := runFrom_binds (scope.beginDefinition definition.name)
        { tables with defining := some definition.name } offset definition.body
      split
      case h_1 e scope' heq =>
        rw [heq] at hbinds hfresh
        exact (hfresh e rfl).leaves (hbinds.abandon hnew) hall
      case h_2 heq =>
        rw [heq] at hbinds
        exact ⟨rfl, hnew, hbinds⟩

theorem TemplateScope.Leaves.mono {scope : TemplateScope ε} {may may' : Prop}
    {defines : Option String} {r : Except ParseError (Parsed ε) × TemplateScope ε}
    (h : scope.Leaves may defines r) (himp : may → may') : scope.Leaves may' defines r := by
  obtain ⟨r, scope'⟩ := r
  cases r with
  | error e => exact ⟨h.1.mono himp, h.2⟩
  | ok p =>
    refine ⟨h.1, ?_⟩
    cases defines with
    | none => exact h.2.mono himp
    | some name => exact ⟨h.2.1, h.2.2.mono himp⟩

theorem parse_leaves (text : String) (offset : Nat) (scope : TemplateScope ε) :
    scope.Leaves (HasBinding text.toList) (nameDefined? scope.extensions text)
      (parse text offset scope) := by
  unfold parse nameDefined?
  cases hdef : definitionOf? scope.extensions text with
  | some definition =>
    rw [definitionOf?] at hdef
    have hbody : definition.body.rest <:+ text.toList := by
      split at hdef
      · exact Signature.definition?_suffix hdef
      · cases hdef
    simp only [hdef]
    exact (ofDefinition_leaves definition offset _ scope).mono fun hb => hb.trans hbody.isInfix
  | none =>
    obtain ⟨hbinds, hfresh⟩ := runFrom_binds scope {} offset (Cursor.start text.toList)
    rw [definitionOf?] at hdef
    simp only [hdef]
    split
    case h_1 e scope' heq =>
      rw [heq] at hbinds hfresh
      exact (hfresh e rfl).leaves hbinds (by simp)
    case h_2 heq =>
      rw [heq] at hbinds
      exact ⟨rfl, hbinds⟩

end TagExpr
