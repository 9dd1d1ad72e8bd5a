import TagExpr.Proofs.Compile

/-!
# Sessions

Template files are compiled call by call. A session is a file with its compiler between two calls,
and a call is a request that the session answers.

A text that does not compile gives back the name that it has reserved, and it leaves no identifiers
and no programs. Only the template bindings that it has declared before the fault keep their slots,
so the failure cannot be seen later on if the text holds no `:=`.
-/

namespace TagExpr

/-- A template file and the compiler that is used for it. -/
structure Session where
  compiler : Compiler
  template : Template

/-- What can be asked of a session. -/
inductive Request where
  /-- Compile a text that begins `offset` bytes into the file. -/
  | compile (text : String) (offset : Nat)
  /-- Enter the scope of a template. -/
  | push (id : TemplateId)
  /-- Leave the innermost scope. -/
  | pop
  /-- Count the bindings of a template. -/
  | count (id : TemplateId)
  /-- Look for the finished expression of that name. -/
  | find (name : String)
  /-- Go on with a compiler that has been used for other files, or with another one. -/
  | use (compiler : Compiler)

inductive Reply where
  | compiled (result : Except ParseError Expression)
  /-- The template whose scope has been left, if it was not the root scope. -/
  | popped (id : Option TemplateId)
  | count (bindings : Nat)
  | found (e : Option Expression)
  | done

namespace Session

/-- A fresh template file. -/
def fresh (compiler : Compiler) (extensions : Extensions) : Session :=
  ⟨compiler, .fresh extensions⟩

def compile (s : Session) (text : String) (offset : Nat) :
    Except ParseError Expression × Session :=
  let (result, template, compiler) := s.compiler.compile s.template text offset
  (result, { compiler, template })

/-- The scope of the template file. -/
def scope (s : Session) : TemplateScope Expression := s.template.scope

def answer (s : Session) : Request → Reply × Session
  | .compile text offset =>
    let (result, s) := s.compile text offset
    (.compiled result, s)
  | .push id => (.done, { s with template.scope := s.scope.push id })
  | .pop =>
    match s.scope.pop? with
    | some (id, scope) => (.popped (some id), { s with template.scope := scope })
    | none => (.popped none, s)
  | .count id => (.count (s.scope.bindingCount id), s)
  | .find name => (.found (s.scope.expression? name), s)
  | .use compiler => (.done, { s with compiler })

/-- The replies to some requests and the session after them. -/
def run (s : Session) : List Request → List Reply × Session
  | [] => ([], s)
  | request :: rest =>
    let (reply, s) := s.answer request
    let (replies, s) := s.run rest
    (reply :: replies, s)

variable {s s' : Session} {text : String} {offset : Nat}

/-! ## One request -/

theorem compile_eq {result : Except ParseError Expression} :
    s.compile text offset = (result, s') ↔
      s.compiler.compile s.template text offset = (result, s'.template, s'.compiler) := by
  unfold compile
  constructor
  · rintro ⟨⟩
    rfl
  · intro h
    rw [h]

/-- A request compiles a text, or it concerns neither the extensions nor the named expressions. -/
theorem answer_cases (s : Session) (request : Request) :
    (∃ text offset result, s.answer request = (.compiled result, (s.answer request).2) ∧
      s.compile text offset = (result, (s.answer request).2)) ∨
    ((s.answer request).2.scope.extensions = s.scope.extensions ∧
      (s.answer request).2.scope.named = s.scope.named ∧
      ∀ result, (s.answer request).1 ≠ .compiled result) := by
  cases request with
  | compile text offset => exact .inl ⟨text, offset, _, rfl, rfl⟩
  | push | count | find | use => exact .inr ⟨rfl, rfl, by simp [answer]⟩
  | pop =>
    refine .inr ?_
    unfold answer TemplateScope.pop?
    cases s.scope.inner with
    | nil => exact ⟨rfl, rfl, by simp⟩
    | cons id below => exact ⟨rfl, rfl, by simp⟩

theorem answer_extensions (s : Session) (request : Request) :
    (s.answer request).2.scope.extensions = s.scope.extensions := by
  rcases s.answer_cases request with ⟨text, offset, result, -, hcompile⟩ | ⟨hext, -⟩
  · exact Compiler.compile_extensions (compile_eq.mp hcompile)
  · exact hext

/-! ## All requests -/

/-- What every request keeps holds at the end if it holds at the beginning. -/
theorem run_keeps {P : Session → Prop} (h : ∀ s request, P s → P (s.answer request).2) (hs : P s)
    (requests : List Request) : P (s.run requests).2 := by
  induction requests generalizing s with
  | nil => exact hs
  | cons request rest ih => exact ih (h s request hs)

theorem run_extensions (s : Session) (requests : List Request) :
    (s.run requests).2.scope.extensions = s.scope.extensions :=
  run_keeps (P := fun s' => s'.scope.extensions = s.scope.extensions)
    (fun s' request hs' => (s'.answer_extensions request).trans hs') rfl requests

end Session

end TagExpr

/-! ## Texts that do not compile -/

namespace TagExpr

variable {ε : Type}

open Parse

/-- All that a text has left of itself in a scope is slots for bindings of the innermost template,
and those only if it holds a `:=` where bindings are switched on. -/
structure TemplateScope.Spared (text : String) (s s' : TemplateScope ε) : Prop where
  extensions : s'.extensions = s.extensions
  named : s'.named = s.named
  inner : s'.inner = s.inner
  bindings : ∀ id, s.bindingNames id <+: s'.bindingNames id ∧
    (id ≠ s.current → s'.bindingNames id = s.bindingNames id)
  unseen : s.extensions.templateBindings = false ∨ ¬ HasBinding text.toList → s' = s

theorem TemplateScope.Binds.spared {text : String} {s s' : TemplateScope ε}
    (h : s.Binds (HasBinding text.toList) s') : s.Spared text s' := by
  obtain ⟨names, rfl, hnames⟩ := h
  refine ⟨by simp, by simp, by simp, s.bindingNames_declareAll names, fun hquiet => ?_⟩
  have hnil : names = [] := by
    by_contra hne
    obtain ⟨hon, hbinding⟩ := hnames hne
    rcases hquiet with hoff | hno
    · rw [hon] at hoff
      cases hoff
    · exact hno hbinding
  rw [hnil, declareAll_nil]

end TagExpr
