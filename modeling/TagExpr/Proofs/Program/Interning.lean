import Mathlib.Data.List.Dedup
import TagExpr.Proofs.Compile
import TagExpr.Proofs.Program.Lowering

/-!
# Shared programs

One compiler compiles the tags of many template files, one after the other. It keeps one tree for
each program (`program?_cases`), and it never drops or changes one. So two expressions share a
program exactly if their trees are equal, and the shared program is the one that the tree of the
expression alone is lowered to: nothing of the expression for which it was made is in it
(`sharing_invisible`).
-/

namespace TagExpr

/-- The text of a tag that is to be compiled: it begins `offset` bytes into a template file, which
is in whatever state it has come to. -/
structure Tag where
  template : Template
  text : String
  offset : Nat

namespace Tag

def parsed (t : Tag) : Except ParseError (Parsed Expression) × TemplateScope Expression :=
  parse t.text t.offset t.template.scope

/-- The tree of the tag, if the text is an expression and all of its patterns are. -/
def runnable? (t : Tag) : Option Node :=
  match t.parsed.1 with
  | .ok p => if p.node.lower.isSome then some p.node else none
  | .error _ => none

/-- An expression has the tree of the tag, and its own tables, place and slots. -/
structure Yields (t : Tag) (p : Parsed Expression) (e : Expression) : Prop
    extends Compiler.Gathers p e where
  span : e.span = p.span
  output : e.output = p.output
  label : e.callName = Compiler.label p t.text

end Tag

/-- Calls an expression through a program at hand, which runs on the tables of the expression. -/
def Expression.callWith (env : Environment) (program : Program) (e : Expression)
    (args : List Value) : Eval Value := do
  let c ← Eval.context
  if c.maxCallDepth ≤ c.callDepth then
    Eval.fail (.recursionLimit c.maxCallDepth)
  else
    let frame ← Eval.newFrame (e.initialSlots .null args)
    let levels := Calls.maxLevels - 1
    Eval.located e.span (Eval.during (·.enterCall args.head?) (·.leaveCall args.head?)
      (program ⟨env, Calls.ofLevels env (pure .null) levels, levels, e, frame⟩))

/-- Through the program of its own tree an expression comes to what it is evaluated to. -/
theorem Expression.callWith_meaning (env : Environment) (e : Expression) (args : List Value) :
    e.callWith env e.body.meaning args = e.tryEvaluate env args := rfl

namespace Compiler

/-- Compiles some tags one after the other. -/
def compileAll (c : Compiler) : List Tag → List (Except ParseError Expression) × Compiler
  | [] => ([], c)
  | t :: rest =>
    let (result, _, c) := c.compile t.template t.text t.offset
    let (results, c) := c.compileAll rest
    (result :: results, c)

/-- The program with that number. -/
def executable? (c : Compiler) (number : Nat) : Option Program :=
  c.programs[number]?.bind Node.lower

variable {c c' : Compiler} {n : Node} {t : Tag} {tags : List Tag}

/-! ## One tag -/

/-- The trees of a compiler are different ones, and all of them can be lowered. -/
structure Interned (c : Compiler) : Prop where
  distinct : c.programs.Nodup
  lowered : ∀ n ∈ c.programs, n.lower.isSome

/-- The trees once another one is among them. -/
def withTree (c : Compiler) (n : Node) : List Node :=
  if n ∈ c.programs then c.programs else c.programs ++ [n]

theorem isSome_lower (n : Node) : n.lower.isSome = Node.arePatterns n.patterns := by
  rw [Node.lower_eq]
  cases Node.arePatterns n.patterns <;> rfl

/-- A tree that can be lowered has a program, which is that of the equal tree or a new one. -/
theorem program?_of_lower (c : Compiler) (h : n.lower.isSome) :
    ∃ number c', c.program? n = some (number, c') ∧ c'.programs = c.withTree n ∧
      c'.programs[number]? = some n := by
  unfold program? withTree
  split
  case h_1 number found =>
    obtain ⟨hlt, heq, -⟩ := List.findIdx?_eq_some_iff_getElem.mp found
    have hn : c.programs[number] = n := by simpa using heq
    have hmem : n ∈ c.programs := hn ▸ List.getElem_mem hlt
    refine ⟨number, c, rfl, by rw [if_pos hmem], ?_⟩
    rw [List.getElem?_eq_getElem hlt, hn]
  case h_2 missed =>
    have hnew : n ∉ c.programs := by
      intro hmem
      simpa using List.findIdx?_eq_none_iff.mp missed n hmem
    have hpatterns : (n.patterns.all fun source => (Regex.compile? source).isSome) = true := by
      rw [isSome_lower] at h
      exact h
    refine ⟨c.size, _, if_pos hpatterns, by rw [if_neg hnew], ?_⟩
    simp [size]

/-- A tree that cannot be lowered has none. -/
theorem program?_of_not_lower (hc : c.Interned) (h : n.lower.isSome = false) :
    c.program? n = none := by
  unfold program?
  split
  case h_1 number found =>
    obtain ⟨hlt, heq, -⟩ := List.findIdx?_eq_some_iff_getElem.mp found
    have hn : c.programs[number] = n := by simpa using heq
    have hlowered := hc.lowered _ (List.getElem_mem hlt)
    rw [hn, h] at hlowered
    cases hlowered
  case h_2 =>
    rw [isSome_lower] at h
    exact if_neg (by rw [← Node.arePatterns, h]; decide)

theorem Interned.withTree (hc : c.Interned) (hn : n.lower.isSome)
    (h : c'.programs = c.withTree n) : c'.Interned := by
  unfold Compiler.withTree at h
  split at h
  case isTrue => exact ⟨h ▸ hc.distinct, h ▸ hc.lowered⟩
  case isFalse hnew =>
    constructor
    · rw [h, List.nodup_append]
      refine ⟨hc.distinct, List.nodup_singleton n, ?_⟩
      rintro a ha b hb rfl
      rw [List.mem_singleton] at hb
      exact hnew (hb ▸ ha)
    · intro a ha
      rw [h, List.mem_append, List.mem_singleton] at ha
      rcases ha with hold | rfl
      · exact hc.lowered a hold
      · exact hn

theorem mem_withTree {a : Node} : a ∈ c.withTree n ↔ a ∈ c.programs ∨ a = n := by
  unfold withTree
  split
  case isTrue hmem =>
    constructor
    · exact .inl
    · rintro (hold | rfl)
      · exact hold
      · exact hmem
  case isFalse => rw [List.mem_append, List.mem_singleton]

theorem prefix_withTree (c : Compiler) (n : Node) : c.programs <+: c.withTree n := by
  unfold withTree
  split
  · exact List.prefix_refl _
  · exact List.prefix_append _ _

theorem programs_identifiers (c : Compiler) (known : List IdentifierRef) (keys : List IdentKey) :
    (c.identifiers known keys).2.2.programs = c.programs := by
  induction keys generalizing c known with
  | nil => rfl
  | cons key rest ih =>
    simp only [Compiler.identifiers, ih]
    unfold Compiler.identifier
    split <;> rfl

/-- What compiling a tag comes to, given the trees that the compiler keeps. -/
def Settles (programs : List Node) (t : Tag) : Except ParseError Expression → Prop
  | .ok e => ∃ p scope, t.parsed = (.ok p, scope) ∧ t.Yields p e ∧ t.runnable? = some p.node ∧
      programs[e.program]? = some p.node
  | .error _ => t.runnable? = none

theorem Settles.mono {programs more : List Node} {result : Except ParseError Expression}
    (h : Settles programs t result) (hmore : programs <+: more) : Settles more t result := by
  cases result with
  | error error => exact h
  | ok e =>
    obtain ⟨p, scope, hparsed, he, hrunnable, hprogram⟩ := h
    obtain ⟨new, rfl⟩ := hmore
    refine ⟨p, scope, hparsed, he, hrunnable, ?_⟩
    rw [List.getElem?_append_left (List.getElem?_eq_some_iff.mp hprogram).1]
    exact hprogram

theorem runnable?_of_parsed {p : Parsed Expression} {scope : TemplateScope Expression}
    (h : t.parsed = (.ok p, scope)) :
    t.runnable? = if p.node.lower.isSome then some p.node else none := by
  unfold Tag.runnable?
  rw [h]

/-- A tag that can run adds its tree, and any other leaves the compiler as it is. -/
theorem compile_settles (hc : c.Interned) (t : Tag) :
    ∃ result t' c', c.compile t.template t.text t.offset = (result, t', c') ∧ c'.Interned ∧
      c.programs <+: c'.programs ∧ Settles c'.programs t result ∧
      ∀ a, a ∈ c'.programs ↔ a ∈ c.programs ∨ t.runnable? = some a := by
  unfold Compiler.compile
  have hparsed : parse t.text t.offset t.template.scope = t.parsed := rfl
  rw [hparsed]
  cases hresult : t.parsed with
  | mk result scope =>
    cases result with
    | error error =>
      have hnone : t.runnable? = none := by
        unfold Tag.runnable?
        rw [hresult]
      exact ⟨_, _, _, rfl, hc, List.prefix_refl _, hnone, fun a => by simp [hnone]⟩
    | ok p =>
      have hrunnable := runnable?_of_parsed hresult
      simp only
      cases hlower : p.node.lower.isSome with
      | false =>
        rw [hlower, if_neg (by decide)] at hrunnable
        rw [program?_of_not_lower hc hlower]
        exact ⟨_, _, _, rfl, hc, List.prefix_refl _, hrunnable, fun a => by simp [hrunnable]⟩
      | true =>
        rw [hlower, if_pos rfl] at hrunnable
        obtain ⟨number, c₁, hprogram, hprograms, hnumber⟩ := c.program?_of_lower hlower
        rw [hprogram]
        have hafter := c₁.programs_identifiers t.template.identifiers p.identifiers
        have hlast := hafter.trans hprograms
        refine ⟨_, _, _, rfl, hc.withTree hlower hlast, ?_, ?_, fun a => ?_⟩
        · rw [hlast]
          exact c.prefix_withTree p.node
        · refine ⟨p, scope, hresult, ?_, hrunnable, ?_⟩
          · exact ⟨⟨rfl, rfl, rfl, c₁.keys_identifiers _ _, rfl, rfl⟩, rfl, rfl, rfl⟩
          · rw [hafter]
            exact hnumber
        · rw [hlast, mem_withTree, hrunnable, Option.some.injEq, eq_comm (a := a)]

/-! ## Many tags -/

/-- The compiler after some tags keeps the trees of those that can run, and all results can find
theirs. -/
theorem compileAll_settles (hc : c.Interned) (tags : List Tag) :
    ∃ results c', c.compileAll tags = (results, c') ∧ c'.Interned ∧ c.programs <+: c'.programs ∧
      List.Forall₂ (Settles c'.programs) tags results ∧
      ∀ a, a ∈ c'.programs ↔ a ∈ c.programs ∨ a ∈ tags.filterMap Tag.runnable? := by
  induction tags generalizing c with
  | nil => exact ⟨_, _, rfl, hc, List.prefix_refl _, .nil, by simp⟩
  | cons t rest ih =>
    obtain ⟨result, t', c₁, hcompile, hc₁, hgrows, hsettles, hmem⟩ := compile_settles hc t
    obtain ⟨results, c₂, hrest, hc₂, hgrows', hall, hmem'⟩ := ih hc₁
    refine ⟨result :: results, c₂, ?_, hc₂, hgrows.trans hgrows', ?_, fun a => ?_⟩
    · unfold compileAll
      rw [hcompile]
      simp only [hrest]
    · exact .cons (hsettles.mono hgrows') hall
    · rw [hmem', hmem, List.mem_filterMap, List.mem_filterMap]
      simp only [List.mem_cons, exists_eq_or_imp, or_assoc]

theorem Interned.empty : Interned {} := ⟨List.nodup_nil, by simp⟩

end Compiler

/-- What is said of the expressions that one compiler has made of some tags, and of the compiler. -/
structure ProgramsShared (tags : List Tag) (results : List (Except ParseError Expression))
    (c : Compiler) : Prop where
  /-- Expressions share a program exactly if their trees are equal. -/
  sharing : ∀ e₁ e₂, .ok e₁ ∈ results → .ok e₂ ∈ results →
    (e₁.sharesProgram e₂ ↔ e₁.body = e₂.body)
  /-- There are as many programs as different trees that could be lowered. -/
  size : c.size = (tags.filterMap Tag.runnable?).dedup.length
  /-- A tag that does not compile leaves the compiler as it is. -/
  failing : ∀ (t : Tag) error t' c', c.compile t.template t.text t.offset = (.error error, t', c') →
    c' = c
  /-- A tag compiles if it can run, whatever has been compiled before. -/
  compiles : List.Forall₂ (fun t result => result.isOk = t.runnable?.isSome) tags results
  /-- The shared program is the one of the own tree alone, and it runs on the own tables. -/
  alone : ∀ (i : Nat) (t : Tag) (e : Expression), tags[i]? = some t → results[i]? = some (.ok e) →
    ∃ p scope program, t.parsed = (.ok p, scope) ∧ t.Yields p e ∧
      p.node.lower = some program ∧ c.executable? e.program = some program ∧
      ∀ env args, e.callWith env program args = e.tryEvaluate env args

namespace Compiler

variable {c : Compiler} {t : Tag} {tags : List Tag} {e e₁ e₂ : Expression}
  {results : List (Except ParseError Expression)}

theorem Settles.isOk_eq {programs : List Node} {result : Except ParseError Expression}
    (h : Settles programs t result) : result.isOk = t.runnable?.isSome := by
  cases result with
  | error error =>
    have hnone : t.runnable? = none := h
    rw [hnone]
    rfl
  | ok e =>
    obtain ⟨p, scope, -, -, hrunnable, -⟩ := h
    rw [hrunnable]
    rfl

theorem Settles.body {programs : List Node} (h : Settles programs t (.ok e)) :
    programs[e.program]? = some e.body := by
  obtain ⟨p, scope, -, hyields, -, hprogram⟩ := h
  rw [hyields.body]
  exact hprogram

theorem Settles.alone (hc : c.Interned) (h : Settles c.programs t (.ok e)) :
    ∃ p scope program, t.parsed = (.ok p, scope) ∧ t.Yields p e ∧
      p.node.lower = some program ∧ c.executable? e.program = some program ∧
      ∀ env args, e.callWith env program args = e.tryEvaluate env args := by
  obtain ⟨p, scope, hparsed, hyields, hrunnable, hprogram⟩ := h
  have hlowered := hc.lowered p.node (List.mem_of_getElem? hprogram)
  obtain ⟨program, hlower⟩ := Option.isSome_iff_exists.mp hlowered
  refine ⟨p, scope, program, hparsed, hyields, hlower, ?_, ?_⟩
  · unfold executable?
    rw [hprogram]
    exact hlower
  · intro env args
    rw [(Node.lower_eq_some_iff.mp hlower).2, ← hyields.body]
    exact e.callWith_meaning env args

/-- The trees are different ones, so a tree has one number. -/
theorem Interned.sharesProgram_iff (hc : c.Interned) (h₁ : c.programs[e₁.program]? = some e₁.body)
    (h₂ : c.programs[e₂.program]? = some e₂.body) :
    e₁.sharesProgram e₂ ↔ e₁.body = e₂.body := by
  unfold Expression.sharesProgram
  rw [beq_iff_eq]
  constructor
  · intro hsame
    rw [hsame, h₂] at h₁
    exact (Option.some.inj h₁).symm
  · intro hsame
    rw [hsame] at h₁
    obtain ⟨hlt₁, hn₁⟩ := List.getElem?_eq_some_iff.mp h₁
    obtain ⟨hlt₂, hn₂⟩ := List.getElem?_eq_some_iff.mp h₂
    exact hc.distinct.getElem_inj_iff.mp (hn₁.trans hn₂.symm)

theorem Interned.size_eq (hc : c.Interned)
    (h : ∀ n, n ∈ c.programs ↔ n ∈ tags.filterMap Tag.runnable?) :
    c.size = (tags.filterMap Tag.runnable?).dedup.length := by
  have hperm : c.programs.Perm (tags.filterMap Tag.runnable?).dedup := by
    rw [List.perm_ext_iff_of_nodup hc.distinct (List.nodup_dedup _)]
    intro n
    rw [h, List.mem_dedup]
  exact hperm.length_eq

theorem settles_of_getElem? {programs : List Node} {result : Except ParseError Expression}
    (h : List.Forall₂ (Settles programs) tags results) {i : Nat} (ht : tags[i]? = some t)
    (hr : results[i]? = some result) : Settles programs t result := by
  obtain ⟨hi, ht⟩ := List.getElem?_eq_some_iff.mp ht
  obtain ⟨hi', hr⟩ := List.getElem?_eq_some_iff.mp hr
  have hget := (List.forall₂_iff_get.mp h).2 i hi hi'
  rw [List.get_eq_getElem, List.get_eq_getElem, ht, hr] at hget
  exact hget

theorem exists_settles {programs : List Node} {result : Except ParseError Expression}
    (h : List.Forall₂ (Settles programs) tags results) (hr : result ∈ results) :
    ∃ t, Settles programs t result := by
  obtain ⟨i, hi⟩ := List.mem_iff_getElem?.mp hr
  have hlt : i < tags.length := by
    rw [h.length_eq]
    exact (List.getElem?_eq_some_iff.mp hi).1
  exact ⟨tags[i], settles_of_getElem? h (List.getElem?_eq_getElem hlt) hi⟩

end Compiler

/-- **Sharing is exact, and nobody can see it.** This holds for the tags of any template files, in
whatever states these are, that one compiler compiles one after the other. -/
theorem sharing_invisible (tags : List Tag) :
    ∃ results c, Compiler.compileAll {} tags = (results, c) ∧ ProgramsShared tags results c := by
  obtain ⟨results, c, hrun, hc, -, hall, hmem⟩ :=
    Compiler.compileAll_settles Compiler.Interned.empty tags
  have settled {e : Expression} (he : .ok e ∈ results) : c.programs[e.program]? = some e.body := by
    obtain ⟨t, ht⟩ := Compiler.exists_settles hall he
    exact ht.body
  refine ⟨results, c, hrun, ?_, ?_, ?_, ?_, ?_⟩
  · intro e₁ e₂ he₁ he₂
    exact hc.sharesProgram_iff (settled he₁) (settled he₂)
  · exact hc.size_eq fun n => by simpa using hmem n
  · intro t error t' c' h
    exact (Compiler.compile_error h).1
  · exact hall.imp fun t result h => h.isOk_eq
  · intro i t e ht he
    exact (Compiler.settles_of_getElem? hall ht he).alone hc

/-- Of the tags of two files, two that differ in names and places share a program; two others do not
compile, the one for its text and the other for its pattern. -/
theorem program_of_two_files :
    let tags : List Tag := [⟨.fresh, "a + 1", 0⟩, ⟨.fresh, "a +", 6⟩, ⟨.fresh, " b + 1", 40⟩,
      ⟨.fresh, "~/[/", 0⟩, ⟨.fresh, "a - 1", 0⟩]
    ∃ results c, Compiler.compileAll {} tags = (results, c) ∧ ProgramsShared tags results c ∧
      results.map (·.toOption.map fun e => (e.program, e.identifiers.map (·.key.name))) =
        [some (0, ["a"]), none, some (0, ["b"]), none, some (1, ["a"])] ∧ c.size = 2 := by
  intro tags
  obtain ⟨results, c, hrun, hshared⟩ := sharing_invisible tags
  have hresults : ((Compiler.compileAll {} tags).1.map
      (·.toOption.map fun e => (e.program, e.identifiers.map (·.key.name))),
        (Compiler.compileAll {} tags).2.size) =
      ([some (0, ["a"]), none, some (0, ["b"]), none, some (1, ["a"])], 2) := by decide +kernel
  rw [hrun] at hresults
  obtain ⟨hprograms, hsize⟩ := Prod.mk.inj hresults
  exact ⟨results, c, hrun, hshared, hprograms, hsize⟩

end TagExpr
