import TagExpr.Proofs.Scoping.Calls
import TagExpr.Proofs.Session.Run

/-!
# Definitions

In a session that begins with a fresh file, a name is defined by the first definition of it that
compiles, and by that one for good: later definitions of the name fail, and a definition that fails
leaves no trace in the table of named expressions. What is in that table is called wherever its name
is called or, if nothing hides it, read.
-/

namespace TagExpr

open Parse Scoping

/-- The expression that a reply gives to a name. -/
def Reply.defines? (name : String) : Reply → Option Expression
  | .compiled (.ok e) => if e.name = some name then some e else none
  | _ => none

theorem Reply.defines?_eq_some {reply : Reply} {name : String} {e : Expression} :
    reply.defines? name = some e ↔ reply = .compiled (.ok e) ∧ e.name = some name := by
  unfold defines?
  split
  case h_1 found =>
    rw [Option.ite_none_right_eq_some, Option.some.injEq, Reply.compiled.injEq, Except.ok.injEq]
    constructor
    · rintro ⟨hname, rfl⟩
      exact ⟨rfl, hname⟩
    · rintro ⟨rfl, hname⟩
      exact ⟨hname, rfl⟩
  case h_2 hother =>
    constructor
    · intro h
      cases h
    · rintro ⟨hreply, -⟩
      exact absurd hreply (hother e)

namespace Session

variable {s s' : Session} {text : String} {offset : Nat} {e : Expression} {name : String}

/-! ## The table of named expressions -/

/-- A request defines a name just if it has not been defined and the reply gives it an expression.
-/
theorem answer_named? (s : Session) (request : Request) (name : String) :
    (s.answer request).2.scope.named? name =
      (s.scope.named? name).or (((s.answer request).1.defines? name).map .defined) := by
  rcases s.answer_cases request with ⟨text, offset, result, hreply, hcompile⟩ | ⟨-, hnamed, hreply⟩
  · generalize (s.answer request).2 = s' at hreply hcompile
    have hafter := Compiler.compile_named? (compile_eq.mp hcompile) name
    rw [hreply]
    simp only [scope, hafter]
    cases result with
    | error e => simp [Reply.defines?]
    | ok e =>
      by_cases hname : e.name = some name
      · -- The name of a definition that compiles was new.
        have hnew := (Compiler.compile_defines (compile_eq.mp hcompile)).2 name hname
        have hnone : s.template.scope.named? name = none := by
          simpa [TemplateScope.isNamed] using hnew
        simp [Reply.defines?, hname, hnone]
      · simp [Reply.defines?, hname]
  · have hnone : (s.answer request).1.defines? name = none :=
      Option.eq_none_iff_forall_ne_some.mpr fun e he => hreply _ (Reply.defines?_eq_some.mp he).1
    rw [hnone, TemplateScope.named?, hnamed, TemplateScope.named?]
    simp

/-- After some requests the names have the entries that they had, and the others are defined by the
first replies that give them expressions. -/
theorem run_named? (s : Session) (requests : List Request) (name : String) :
    (s.run requests).2.scope.named? name =
      (s.scope.named? name).or
        (((s.run requests).1.findSome? (Reply.defines? name)).map .defined) := by
  induction requests generalizing s with
  | nil => simp [run]
  | cons request rest ih =>
    have hrest := ih (s.answer request).2
    rw [answer_named?] at hrest
    simp only [run, hrest, List.findSome?_cons]
    cases s.scope.named? name with
    | some entry => simp
    | none => cases (s.answer request).1.defines? name <;> simp

/-- Named expressions are switched on if there are any. -/
def Licensed (s : Session) : Prop :=
  ∀ name, s.scope.isNamed name → s.scope.extensions.namedExpressions

theorem namedExpressions_of_nameDefined? {extensions : Extensions}
    (h : nameDefined? extensions text = some name) : extensions.namedExpressions := by
  unfold nameDefined? definitionOf? at h
  split at h
  case isTrue hon => exact hon
  case isFalse => cases h

theorem namedExpressions_of_defines? {request : Request}
    (h : (s.answer request).1.defines? name = some e) : s.scope.extensions.namedExpressions := by
  obtain ⟨hreply, hname⟩ := Reply.defines?_eq_some.mp h
  rcases s.answer_cases request with ⟨text, offset, result, hanswer, hcompile⟩ | ⟨-, -, hother⟩
  · rw [hanswer] at hreply
    obtain rfl := Reply.compiled.inj hreply
    have hdefines := (Compiler.compile_defines (compile_eq.mp hcompile)).1
    exact namedExpressions_of_nameDefined? (hdefines.symm.trans hname)
  · exact absurd hreply (hother _)

theorem Licensed.answer (hs : s.Licensed) (request : Request) : (s.answer request).2.Licensed := by
  intro name hnamed
  rw [answer_extensions]
  rw [TemplateScope.isNamed, answer_named?] at hnamed
  cases hold : s.scope.named? name with
  | some entry => exact hs name (by simp [TemplateScope.isNamed, hold])
  | none =>
    rw [hold, Option.none_or, Option.isSome_map, Option.isSome_iff_exists] at hnamed
    obtain ⟨e, he⟩ := hnamed
    exact namedExpressions_of_defines? he

/-! ## Mentions of named expressions -/

/-- In the scope that a parse leaves behind, the name of the text and those that had been defined
can be called. -/
theorem canCall_of_leaves {ε : Type} {scope scope' : TemplateScope ε} {may : Prop}
    {defines : Option String} {p : Parsed ε} (h : scope.Leaves may defines (.ok p, scope'))
    (hon : scope.extensions.namedExpressions)
    (hname : p.name = some name ∨ ∃ e, scope.named? name = some (.defined e)) :
    canCall scope' p.name name := by
  obtain ⟨hp, h⟩ := h
  cases defines with
  | none =>
    obtain ⟨e, he⟩ := hname.resolve_left (by simp [hp])
    simp [canCall, h.extensions, hon, h.named?, he]
  | some own =>
    have hext : scope'.extensions = scope.extensions := h.2.extensions
    have hnamed := h.2.named? name
    rw [TemplateScope.named?_beginDefinition] at hnamed
    by_cases hown : name = own
    · subst hown
      rw [if_pos rfl] at hnamed
      simp [canCall, hext, hon, hnamed, hp]
    · obtain ⟨e, he⟩ := hname.resolve_left (by simp [hp, Ne.symm hown])
      simp [canCall, hext, hon, hnamed, hown, he]

/-- In a compiled expression its own name and those that have been defined before are called where
they are mentioned and not hidden. -/
theorem Licensed.mention (hs : s.Licensed) (h : s.compile text offset = (.ok e, s'))
    {ds es : List Cue} {call : Bool}
    (hname : e.name = some name ∨ ∃ callee, s.scope.named? name = some (.defined callee))
    (hcues : cuesOf s.scope.extensions text = ds ++ .word (.name .unstated name call) :: es) :
    Mention (.ofText text s.scope) e.body ds es name call
      (Leaf.Calls e.name e.expressions s.scope name) := by
  obtain ⟨p, scope, hparse, he, -⟩ := Compiler.compile_ok (compile_eq.mp h)
  have hleaves := parse_leaves text offset s.template.scope
  rw [hparse] at hleaves
  have hon : s.scope.extensions.namedExpressions := by
    rcases hname with hown | ⟨callee, hcallee⟩
    · have hdefines := (Compiler.compile_defines (compile_eq.mp h)).1
      exact namedExpressions_of_nameDefined? (hdefines.symm.trans hown)
    · exact hs name (by simp [TemplateScope.isNamed, hcallee])
  have hcall : canCall scope p.name name := canCall_of_leaves hleaves hon (he.name ▸ hname)
  have hmention := Parsed.mentions_at hparse hcall hcues
  rw [← he.body, ← he.name, ← he.expressions] at hmention
  refine hmention.mono fun leaf hleaf => ?_
  cases hleaf with
  | recurse hown => exact .recurse hown
  | named hdefined htarget =>
    -- While the text is parsed nothing is finished.
    have hbefore := hleaves.expression? (TemplateScope.expression?_eq_some.mpr hdefined)
    exact .named (TemplateScope.expression?_eq_some.mp hbefore) htarget

/-! ## Compiling a definition -/

/-- A text that compiles defines the name that it says, which was new. -/
theorem compile_defines (h : s.compile text offset = (.ok e, s')) :
    e.name = nameDefined? s.scope.extensions text ∧
      ∀ name ∈ e.name, s.scope.isNamed name = false ∧ s'.scope.named? name = some (.defined e) := by
  have hcompile := compile_eq.mp h
  obtain ⟨hname, hnew⟩ := Compiler.compile_defines hcompile
  refine ⟨hname, fun name hmem => ⟨hnew name hmem, ?_⟩⟩
  rw [scope, Compiler.compile_named? hcompile]
  simp only [Option.mem_def.mp hmem, if_true]

/-- A second definition of a name fails, for that reason. -/
theorem compile_again (offset : Nat) (hdefines : nameDefined? s.scope.extensions text = some name)
    (hold : s.scope.isNamed name) :
    ∃ error s', s.compile text offset = (.error error, s') ∧
      error.fault = .duplicateDefinition name := by
  cases h : s.compile text offset with
  | mk result s' =>
    cases result with
    | ok e =>
      obtain ⟨hname, hnew⟩ := compile_defines h
      rw [(hnew name (hname.trans hdefines)).1] at hold
      cases hold
    | error error =>
      obtain ⟨-, -, -, hdup⟩ := Compiler.compile_error (compile_eq.mp h)
      exact ⟨error, s', rfl, (hdup name).mpr ⟨hold, hdefines⟩⟩

/-- A text that fails defines nothing, and a new name is not the reason. -/
theorem compile_failed {error : ParseError} (h : s.compile text offset = (.error error, s'))
    (name : String) :
    s'.scope.named? name = s.scope.named? name ∧
      (s.scope.isNamed name = false → error.fault ≠ .duplicateDefinition name) := by
  obtain ⟨-, -, hbinds, hdup⟩ := Compiler.compile_error (compile_eq.mp h)
  refine ⟨hbinds.named? name, fun hnew hfault => ?_⟩
  have hold := ((hdup name).mp hfault).1
  rw [← scope, hnew] at hold
  cases hold

end Session

/-! ## Sessions of fresh files -/

/-- How definitions stand in a session, of a file with these extensions, that has given these
replies. -/
structure DefinitionsStand (extensions : Extensions) (replies : List Reply) (s : Session) :
    Prop where
  /-- A name is defined by the first reply that gives it an expression. -/
  named : ∀ name, s.scope.named? name = (replies.findSome? (Reply.defines? name)).map .defined
  /-- No definition is left unfinished. -/
  finished : ∀ name, s.scope.named? name ≠ some .pending
  /-- An expression stays under its name, whatever is asked later. -/
  kept : ∀ name e, s.scope.named? name = some (.defined e) →
    ∀ later, (s.run later).2.scope.named? name = some (.defined e)
  /-- A text that compiles defines the name that it says, which was new. -/
  compiled : ∀ text offset e s', s.compile text offset = (.ok e, s') →
    e.name = nameDefined? extensions text ∧
      ∀ name ∈ e.name, s.scope.isNamed name = false ∧ s'.scope.named? name = some (.defined e)
  /-- Another definition of a name that has been defined fails, for that reason. -/
  again : ∀ text offset name, nameDefined? extensions text = some name → s.scope.isNamed name →
    ∃ error s', s.compile text offset = (.error error, s') ∧
      error.fault = .duplicateDefinition name
  /-- A text that fails defines nothing, and a new name is not the reason. -/
  failed : ∀ text offset error s', s.compile text offset = (.error error, s') →
    ∀ name, s'.scope.named? name = s.scope.named? name ∧
      (s.scope.isNamed name = false → error.fault ≠ .duplicateDefinition name)
  /-- In an expression its own name is a recursive call, and any name that has been defined before
  is a call of what it was defined as, where the name is called or read and not hidden. -/
  mentions : ∀ text offset e s', s.compile text offset = (.ok e, s') → ∀ ds es name call,
    (e.name = some name ∨ s.scope.isNamed name) →
    cuesOf extensions text = ds ++ .word (.name .unstated name call) :: es →
    Mention (.ofText text s.scope) e.body ds es name call fun leaf =>
      if e.name = some name then leaf = .recurse
      else ∃ callee target, s.scope.named? name = some (.defined callee) ∧
        e.expressions[target]? = some callee ∧ leaf = .named target

/-- **In every session of a fresh file a name stands for the first definition of it that
compiles.** -/
theorem definitions_stand (compiler : Compiler) (extensions : Extensions)
    (requests : List Request) :
    DefinitionsStand extensions ((Session.fresh compiler extensions).run requests).1
      ((Session.fresh compiler extensions).run requests).2 := by
  have hnamed (name : String) := (Session.fresh compiler extensions).run_named? requests name
  have hext := (Session.fresh compiler extensions).run_extensions requests
  have hlicensed : ((Session.fresh compiler extensions).run requests).2.Licensed :=
    Session.run_keeps (fun s request hs => hs.answer request) (fun name h => by cases h) requests
  generalize ((Session.fresh compiler extensions).run requests).1 = replies at *
  generalize ((Session.fresh compiler extensions).run requests).2 = s at *
  have named (name : String) :
      s.scope.named? name = (replies.findSome? (Reply.defines? name)).map .defined := hnamed name
  have finished (name : String) : s.scope.named? name ≠ some .pending := by
    rw [named]
    cases replies.findSome? (Reply.defines? name) <;> simp
  obtain rfl : extensions = s.scope.extensions := hext.symm
  refine ⟨named, finished, ?_, ?_, ?_, ?_, ?_⟩
  · intro name e he later
    rw [s.run_named? later, he, Option.some_or]
  · exact fun text offset e s' h => Session.compile_defines h
  · exact fun text offset name hdefines hold => Session.compile_again offset hdefines hold
  · exact fun text offset error s' h name => Session.compile_failed h name
  · intro text offset e s' h ds es name call hname hcues
    have hdefined : e.name = some name ∨
        ∃ callee, s.scope.named? name = some (.defined callee) := by
      refine hname.imp_right fun hold => ?_
      obtain ⟨entry, hentry⟩ := Option.isSome_iff_exists.mp hold
      cases entry with
      | pending => exact absurd hentry (finished name)
      | defined callee => exact ⟨callee, hentry⟩
    refine (hlicensed.mention h hdefined hcues).mono fun leaf hleaf => ?_
    cases hleaf with
    | recurse hown => rw [if_pos hown]
    | @named target callee hcallee htarget =>
      -- The own name was new, so it is another one that has been defined.
      have hother : e.name ≠ some name := by
        intro hown
        have hnew := ((Session.compile_defines h).2 name hown).1
        rw [TemplateScope.isNamed, hcallee] at hnew
        cases hnew
      rw [if_neg hother]
      exact ⟨callee, target, hcallee, htarget, rfl⟩

/-- The second text that defines `f` is the first one that compiles. -/
theorem definitions_stand_of_retry :
    ∃ e replies s, (Session.fresh {} .all).run [.compile "f(n) -> n +" 0,
        .compile "f(n) -> n < 1 ? 0 : f(n - 1)" 0, .compile "f -> 2" 0] = (replies, s) ∧
      s.scope.named? "f" = some (.defined e) ∧ e.params = 1 ∧ DefinitionsStand .all replies s := by
  obtain ⟨e, he, hparams⟩ : ∃ e, ((Session.fresh {} .all).run [.compile "f(n) -> n +" 0,
      .compile "f(n) -> n < 1 ? 0 : f(n - 1)" 0, .compile "f -> 2" 0]).2.scope.expression? "f" =
        some e ∧ e.params = 1 :=
    Option.map_eq_some_iff.mp (by decide +kernel)
  exact ⟨e, _, _, (Prod.eta _).symm, TemplateScope.expression?_eq_some.mp he, hparams,
    definitions_stand {} .all _⟩

/-- A parameter hides the expression of its name: the body of this definition is its own name, and
it is no recursive call. -/
theorem parameter_hides_definition :
    ∃ e s', (Session.fresh {} .all).compile "f(f) -> f" 0 = (.ok e, s') ∧ e.name = some "f" ∧
      cuesOf .all "f(f) -> f" = [.word (.bare "f")] ∧ e.body.leaves = [.localVar 0] := by
  have hbody : ((Session.fresh {} .all).compile "f(f) -> f" 0).1.toOption.map
      (fun e => (e.name, e.body)) = some (some "f", .localVar 0) := by decide +kernel
  have hcues : cuesOf .all "f(f) -> f" = [.word (.bare "f")] := by decide +kernel
  cases h : (Session.fresh {} .all).compile "f(f) -> f" 0 with
  | mk result s' =>
    rw [h] at hbody
    cases result with
    | error error => cases hbody
    | ok e =>
      obtain ⟨hname, hnode⟩ := Prod.mk.inj (Option.some.inj hbody)
      refine ⟨e, s', rfl, hname, hcues, ?_⟩
      rw [hnode]
      rfl

end TagExpr
