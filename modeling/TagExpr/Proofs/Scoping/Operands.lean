import TagExpr.Proofs.Parse.Operands
import TagExpr.Proofs.Scoping.Operators

/-!
# Names where an operand is expected

A bare name is resolved among the visible locals, the innermost first. Each source interpolated in a
string literal is read in a scope of its own, whose locals are hidden after it; that the source is
read as the rules say is a hypothesis here. Other tokens bring no names.
-/

namespace TagExpr.Parse

open Scoping

variable {ε : Type} {N : Names} {b b' : Bench ε} {start r : Reading ε} {cs : List Cue}

/-! ## Names -/

/-- A bare name is what the rules resolve it to, and no other name is a local. -/
theorem ends_resolveName_step (hd : Describes N b.tables b.scope) (name : String)
    (lookup : Lookup) (span : Span) :
    Ends (resolveName name lookup span) b
      (fun o b' => ∃ M v, Looked N M b b' ∧ o.pairValue = none ∧ o.node.visits = [v] ∧
        ∀ r, Mirrors r b.tables b.scope → Scoping.Step r v [.word (.name lookup name false)] r)
      (fun _ _ => True) := by
  unfold resolveName
  by_cases hl : lookup = .unstated
  · subst hl
    simp only [ne_eq, not_true_eq_false, if_false, ends_bind, ends_get]
    cases hlocal : b.tables.local? name with
    | some slot =>
      refine ⟨N, _, .refl hd, rfl, rfl, fun r hm => .name ?_⟩
      rw [Tables.local?, hm.locals] at hlocal
      exact Reading.resolve_of_local hlocal
    | none =>
      cases hbinding : b.scope.findBinding? name with
      | some found =>
        refine ⟨N, _, .refl hd, rfl, rfl, fun r hm => .name ?_⟩
        rw [Tables.local?, hm.locals] at hlocal
        rw [hm.scope] at hbinding
        exact Reading.resolve_of_binding hlocal hbinding
      | none =>
        have hother (r : Reading ε) (hm : Mirrors r b.tables b.scope) :
            Scoping.Step r .other [.word (.name .unstated name false)] r := by
          rw [Tables.local?, hm.locals] at hlocal
          rw [hm.scope] at hbinding
          exact .name (Reading.resolve_of_none hlocal hbinding)
        simp only [ends_bind]
        refine (ends_namedCall? hd name []).mono ?_ fun _ _ he => he
        intro node b₁ hend
        obtain ⟨M, hlooked, hn, -⟩ := hend
        cases node with
        | none =>
          simp only [ends_bind]
          refine (ends_identifier hlooked.describes _).mono ?_ fun _ _ he => he
          intro ident b₂ hend
          obtain ⟨L, hlooked', _⟩ := hend
          exact ⟨L, .other, hlooked.trans hlooked', rfl, rfl, hother⟩
        | some node =>
          refine ⟨M, .other, hlooked, rfl, ?_, hother⟩
          cases hn node rfl <;> rfl
  · simp only [ne_eq, hl, not_false_eq_true, if_true, ends_bind]
    refine (ends_identifier hd _).mono ?_ fun _ _ he => he
    intro ident b₁ hend
    obtain ⟨M, hlooked, _⟩ := hend
    refine ⟨M, .other, hlooked, rfl, rfl, fun r _ => .other r ?_⟩
    intro other heq
    cases heq
    exact hl rfl

/-! ## Completing an operand -/

/-- A fragment that a walk passes through is pushed. -/
theorem Agrees.value (h : Agrees N .operand start b cs) {M : Names} (ht : Tabled N M b b')
    {o : Operand} {ds : List Cue}
    (hpass : ∀ r, Mirrors r b.tables b.scope → Passes r o.visits ds b') :
    Scanned start { b' with operands := b'.operands.push o } (cs ++ ds) :=
  h.scanned.value [] rfl h.stands.layout.base_le ht rfl hpass

/-- A fragment that is no name is pushed. -/
theorem Agrees.plain (h : Agrees N .operand start b cs) {o : Operand} {w : Word}
    (ho : o.visits = [.other]) (hw : ∀ name, w ≠ .bare name) :
    Scanned start { b with operands := b.operands.push o } (cs ++ [.word w]) := by
  refine h.value (.refl h.stands.describes) fun r hm => ?_
  rw [ho]
  exact Looked.passes (.refl h.stands.describes) hm (.other r hw)

/-- The head of a call waits for its arguments. -/
theorem Agrees.head (h : Agrees N .operand start b cs) {extra : Extra} {w : Word} (span : Span)
    (he : Pending.visits { op := .call, span, base := b.operands.size, extra } = [.other])
    (htaken : Pending.taken { op := .call, span, base := b.operands.size, extra } = 0)
    (hclosing : Pending.closing { op := .call, span, base := b.operands.size, extra } = [])
    (hw : ∀ name, w ≠ .bare name) :
    Scanned start
      { b with operators := b.operators.push { op := .call, span, base := b.operands.size, extra } }
      (cs ++ [.word w]) := by
  refine h.scanned.wait hclosing htaken rfl fun r => ?_
  rw [he]
  exact .one (.other r hw)

theorem Agrees.ident (h : Agrees N .operand start b cs) (i : Ident) (span : Span) :
    Ends (ident i span) b (fun _ b' => Scanned start b' (cs ++ [.word (Word.ofIdent i)]))
      (fun _ _ => True) := by
  unfold Parse.ident
  obtain ⟨kind, lookup, call⟩ := i
  cases kind with
  | current levels => exact h.plain rfl (by simp [Word.ofIdent, Word.bare])
  | internal name =>
    simp only
    split
    case h_1 => trivial
    case h_2 =>
      cases call with
      | true => trivial
      | false => exact h.plain rfl (by simp [Word.ofIdent, Word.bare])
  | annotated name =>
    simp only [ends_bind, ends_get]
    cases b.scope.extensions.annotations with
    | false => trivial
    | true =>
      cases call with
      | true => exact h.head span rfl rfl rfl (by simp [Word.ofIdent, Word.bare])
      | false => exact h.plain rfl (by simp [Word.ofIdent, Word.bare])
  | name name =>
    cases call with
    | true => exact h.head span rfl rfl rfl (by simp [Word.ofIdent, Word.bare])
    | false =>
      simp only [Bool.false_eq_true, if_false, ends_bind]
      refine (ends_resolveName_step h.stands.describes name lookup span).mono ?_ fun _ _ he => he
      intro o b₁ hend
      obtain ⟨M, v, hlooked, hnone, hv, hstep⟩ := hend
      refine h.value hlooked.toTabled fun r hm => ?_
      rw [Operand.visits_of_none hnone, hv]
      exact hlooked.passes hm (hstep r hm)

/-! ## String literals -/

/-- On the bench `b` the step yields one fragment, and a walk over it agrees with the cues. -/
def Sourced (N : Names) (cs : List Cue) (b : Bench ε) (step : Parse ε Operand) : Prop :=
  Ends step b
    (fun o b' => Yields N (Cue.words cs) o b' ∧
      ∀ r, Mirrors r b.tables b.scope → Passes r o.node.visits cs b')
    (fun _ _ => True)

section Literal

variable {nested : List Char → Nat → Parse ε Operand} {nestedCues : List Char → List Cue}
  {base : Nat} {part : Literal.Segment} {parts : List Literal.Segment}

/-- An interpolated source has a scope of its own. -/
theorem Sourced.isolated {step : Parse ε Operand}
    (h : Sourced N cs { b with operands := .empty, operators := .empty } step) :
    Ends (isolated step) b
      (fun o b' => ∀ r, Mirrors r b.tables b.scope → Passes r (Visit.enclosed o.node.visits) cs b')
      (fun _ _ => True) := by
  simp only [Parse.isolated, ends_bind, ends_get, ends_set]
  refine h.mono ?_ fun _ _ he => he
  intro o b₁ hend
  obtain ⟨_, hpass⟩ := hend
  rw [ends_modify, ends_pure]
  intro r hm
  obtain ⟨r', hreads, hm', ha⟩ := hpass r.enter hm.enter
  refine ⟨_, hreads.enclosed ha, ?_, rfl⟩
  show Mirrors _ (b₁.tables.endScope b.tables.scopeMark) b₁.scope
  rw [hm.scopeMark]
  exact hm'.leave ha

theorem ends_segment_passes (hd : Describes N b.tables b.scope)
    (hnested : ∀ source place, part = .expression source place →
      Sourced N (nestedCues source) { b with operands := .empty, operators := .empty }
        (nested source (base + place))) :
    Ends (segment nested base part) b
      (fun node b' => ∀ r, Mirrors r b.tables b.scope →
        Passes r (Visit.enclosed node.visits) (Cue.ofSegment nestedCues part) b')
      (fun _ _ => True) := by
  -- A part that is one word declares nothing in the scope that is entered for it.
  have word {M : Names} {b' : Bench ε} (hlooked : Looked N M b b') {v : Visit} {w : Word}
      (hstep : ∀ r, Mirrors r b.tables b.scope → Scoping.Step r v [.word w] r) :
      ∀ r, Mirrors r b.tables b.scope → Passes r (Visit.enclosed [v]) [.word w] b' :=
    fun r hm => ⟨r, (Reads.one (hstep r.enter hm.enter)).enclosed rfl, hlooked.mirrors hm, rfl⟩
  cases part with
  | text text => exact word (.refl hd) fun r _ => .other r (by simp [Word.bare])
  | expression source place =>
    rw [segment, ends_map]
    exact (hnested source place rfl).isolated
  | name name place =>
    rw [segment, ends_map]
    refine (ends_resolveName_step hd _ _ _).mono ?_ fun _ _ he => he
    intro o b₁ hend
    obtain ⟨M, v, hlooked, _, hv, hstep⟩ := hend
    rw [hv]
    exact word hlooked hstep

variable (nested base parts) in
/-- A walk over the parts of a literal agrees with their cues. -/
theorem ends_segments_passes (hd : Describes N b.tables b.scope)
    (hnested : ∀ source start b', Calls nested base parts b source start b' →
      ∀ M, N.Grows M → Describes M b'.tables b'.scope →
        Sourced M (nestedCues source) b' (nested source start)) :
    Ends (segments nested base parts) b
      (fun nodes b' => ∀ r, Mirrors r b.tables b.scope →
        Passes r (Node.visitsOfParts nodes) (parts.flatMap (Cue.ofSegment nestedCues)) b')
      (fun _ _ => True) := by
  -- As for the words, the calls for the rest of the parts are calls for the whole literal.
  induction parts generalizing N b with
  | nil => exact fun r hm => ⟨r, .nil r, hm, rfl⟩
  | cons part parts ih =>
    have hsource : ∀ source place, part = .expression source place →
        Sourced N (nestedCues source) { b with operands := .empty, operators := .empty }
          (nested source (base + place)) := by
      intro source place heq
      subst heq
      exact hnested source _ _ .head N (.refl N) hd
    have hpart := (ends_segment_passes hd hsource).and
      (ends_segment (fun source => Cue.words (nestedCues source)) part (E := fun _ => True) hd
        fun source place heq => (hsource source place heq).mono (fun _ _ hy => hy.1)
          fun _ _ he => he)
    rw [segments_cons, ends_bind]
    refine hpart.and_self.mono ?_ fun _ _ _ => trivial
    intro node b₁ hend
    obtain ⟨⟨hpass, M, o, ht, _⟩, hrun⟩ := hend
    rw [ends_bind]
    have hrest := ih ht.describes fun source start b' hcall L hg =>
      hnested source start b' (hcall.cons hrun) L (ht.grows.trans hg)
    refine hrest.mono ?_ fun _ _ he => he
    intro nodes b₂ hpasses r hm
    obtain ⟨r₁, hreads, hm₁, ha₁⟩ := hpass r hm
    obtain ⟨r₂, hreads', hm₂, ha₂⟩ := hpasses r₁ hm₁
    exact ⟨r₂, hreads.append hreads', hm₂, ha₂.trans ha₁⟩

variable (nestedCues) in
theorem ends_string_passes {raw : List Char} {doubleQuoted : Bool} {span : Span}
    (hd : Describes N b.tables b.scope)
    (hnested : ∀ parts, doubleQuoted → b.scope.extensions.interpolation →
      Literal.split raw = .ok parts → ∀ source start b',
      Calls nested (span.start + 1) parts b source start b' →
      ∀ M, N.Grows M → Describes M b'.tables b'.scope →
        Sourced M (nestedCues source) b' (nested source start)) :
    Ends (string nested raw doubleQuoted span) b
      (fun o b' => o.pairValue = none ∧ ∀ r, Mirrors r b.tables b.scope →
        Passes r o.node.visits (Cue.ofOperand N.extensions nestedCues (.str raw doubleQuoted)) b')
      (fun _ _ => True) := by
  have text (text : List Char) (r : Reading ε) (hm : Mirrors r b.tables b.scope) :
      Passes r [.other] [.word (.literal (.str (String.ofList text)))] b :=
    Looked.passes (.refl hd) hm (.other r (by simp [Word.bare]))
  simp only [string, Cue.ofOperand, ends_bind, ends_get, hd.extensions]
  cases hq : doubleQuoted && b.scope.extensions.interpolation with
  | true =>
    rw [Bool.and_eq_true] at hq
    simp only [if_true]
    cases hs : Literal.split raw with
    | error e => trivial
    | ok parts =>
      simp only
      split
      case h_1 heq => cases heq
      case h_2 whole heq =>
        cases heq
        exact ⟨rfl, text whole⟩
      case h_3 heq =>
        cases heq
        rw [ends_bind]
        refine (ends_segments_passes _ _ _ hd (hnested parts hq.1 hq.2 hs)).mono ?_
          fun _ _ he => he
        intro nodes b₁ hpass
        exact ⟨rfl, hpass⟩
  | false =>
    simp only [Bool.false_eq_true, if_false, Word.ofString, hq]
    cases Literal.unescape raw with
    | error e => trivial
    | ok whole => exact ⟨rfl, text whole⟩

/-! ## Any token -/

variable (nested nestedCues) in
/-- A token in operand position agrees with its cues. -/
theorem Agrees.operand (h : Agrees N .operand start b cs) (kind : TokenKind) (span : Span)
    (hnested : ∀ raw parts, kind = .str raw true → b.scope.extensions.interpolation →
      Literal.split raw = .ok parts → ∀ source start b',
      Calls nested (span.start + 1) parts b source start b' →
      ∀ M, N.Grows M → Describes M b'.tables b'.scope →
        Sourced M (nestedCues source) b' (nested source start)) :
    Ends (operand nested kind span) b
      (fun _ b' => Scanned start b' (cs ++ Cue.ofOperand N.extensions nestedCues kind))
      (fun _ _ => True) := by
  unfold Parse.operand
  cases kind with
  | null | bool | int | double | regex | emptyMap => exact h.plain rfl (by simp [Word.bare])
  | str raw doubleQuoted =>
    simp only [ends_bind]
    have hsource : ∀ parts, doubleQuoted → b.scope.extensions.interpolation →
        Literal.split raw = .ok parts → ∀ source start b',
        Calls nested (span.start + 1) parts b source start b' →
        ∀ M, N.Grows M → Describes M b'.tables b'.scope →
          Sourced M (nestedCues source) b' (nested source start) :=
      fun parts (hq : doubleQuoted) => hnested raw parts (by rw [hq])
    have hwords := ends_string (fun source => Cue.words (nestedCues source)) (E := fun _ => True)
      (fun _ _ => trivial) h.stands.describes fun parts hq hx hs source start b' hcall M hg hd =>
        (hsource parts hq hx hs source start b' hcall M hg hd).mono (fun _ _ hy => hy.1)
          fun _ _ he => he
    refine ((ends_string_passes nestedCues h.stands.describes hsource).and hwords).mono ?_
      fun _ _ _ => trivial
    intro o b₁ hend
    obtain ⟨⟨hnone, hpass⟩, M, ht, _⟩ := hend
    refine h.value ht ?_
    rw [Operand.visits_of_none hnone]
    exact hpass
  | ident i => exact h.ident i span
  | operator symbol =>
    have hcues : Cue.ofOperand N.extensions nestedCues (.operator symbol) = [] := rfl
    simp only [hcues, List.append_nil]
    cases hcl : Operator.closers.contains symbol with
    | true =>
      simp only [if_true, ends_bind, ends_pure]
      exact (h.closeWithoutOperand symbol span).mono (fun _ _ hs => hs) fun _ _ _ => trivial
    | false =>
      simp only [Bool.false_eq_true, if_false]
      cases Operator.findPrefix? symbol with
      | none => trivial
      | some op =>
        have hwait := h.scanned.wait (p := { op, span, base := b.operands.size }) rfl rfl rfl .nil
        rwa [List.append_nil] at hwait
  | comma => trivial
  | finish =>
    simp only [ends_bind, ends_get]
    split <;> trivial

end Literal

end TagExpr.Parse
