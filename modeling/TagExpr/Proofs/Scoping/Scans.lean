import TagExpr.Proofs.Parse.Operators
import TagExpr.Proofs.Scoping.Reading
import TagExpr.Proofs.Scoping.Trace

/-!
# The stacks are read as the rules say

While a text is parsed, the walk over the stacks agrees with the cues of the text so far, and it
ends in the scopes that the tables keep. A streaming operator that waits has entered the scope of
its body; how many locals were visible before is what it returns to when it is applied, whatever
applies it. Commas, colons and closers leave all that as it is.

An assignment to the entry of a map literal is refused only when it is applied. Until then it waits,
and nothing is said about the stacks that it waits on.
-/

namespace TagExpr.Parse

open Scoping

variable {ε : Type} {N : Names} {b b' : Bench ε} {start r : Reading ε} {cs : List Cue}
  {bottom around : List Scope} {p q : Pending} {ps : List Pending}
  {os upper under args below : List Operand} {u v w : List Word}

/-! ## The invariant -/

/-- The tables and the scope of the file are those of the reading. -/
structure Mirrors (r : Reading ε) (tables : Tables ε) (scope : TemplateScope ε) : Prop where
  locals : tables.locals = r.visible
  localCount : tables.localCount = r.next
  scope : scope = r.file

theorem Mirrors.enter {tables : Tables ε} {scope : TemplateScope ε} (h : Mirrors r tables scope) :
    Mirrors r.enter tables scope :=
  ⟨h.locals, h.localCount, h.scope⟩

theorem Mirrors.scopeMark {tables : Tables ε} {scope : TemplateScope ε}
    (h : Mirrors r tables scope) : tables.scopeMark = (r.current :: r.around).flatten.length := by
  rw [Tables.scopeMark, h.locals, Reading.visible, List.flatten_cons]

theorem Mirrors.declare {tables : Tables ε} {scope : TemplateScope ε} (h : Mirrors r tables scope)
    (name : String) : Mirrors (r.declare name) (tables.declareLocal name).2 scope where
  locals := by rw [Reading.visible_declare, ← h.locals, ← h.localCount, Tables.declareLocal]
  localCount := congrArg (· + 1) h.localCount
  scope := h.scope

/-- What the locals of the innermost scope stood on is what is visible after it. -/
theorem Mirrors.leave {tables : Tables ε} {scope : TemplateScope ε} {outer : Scope}
    {rest : List Scope} (h : Mirrors r tables scope) (ha : r.around = outer :: rest) :
    Mirrors { r with current := outer, around := rest }
      (tables.endScope (outer :: rest).flatten.length) scope where
  locals := by
    have hlocals : tables.locals = r.current ++ (outer :: rest).flatten := by
      rw [h.locals, Reading.visible, ha]
    simp [Tables.endScope, hlocals, Reading.visible]
  localCount := h.localCount
  scope := h.scope

/-- The waiting streaming operators, the latest first, return to the scopes `around`, of which the
scopes `bottom` lie around the whole text. -/
inductive Waits (bottom : List Scope) : List Pending → List Scope → Prop
  | start : Waits bottom [] bottom
  | plain {p : Pending} {ps : List Pending} {around : List Scope} : p.closing = [] →
      Waits bottom ps around → Waits bottom (p :: ps) around
  | stream {p : Pending} {ps : List Pending} {clause : Option Nat} {scope : Scope}
      {around : List Scope} : p.extra = .stream clause (scope :: around).flatten.length →
      Waits bottom ps around → Waits bottom (p :: ps) (scope :: around)

/-- The pieces on the stacks agree with the cues and lead from the reading `start` to `r`. -/
structure Scans (start r : Reading ε) (b : Bench ε) (cs : List Cue) : Prop where
  reads : Reads start (trace b.operands.toList b.operators.toList) cs r
  mirrors : Mirrors r b.tables b.scope
  waits : Waits start.around b.operators.toList r.around

/-- No waiting assignment has the entry of a map literal for its target. -/
def Unpaired (os : List Operand) (ps : List Pending) : Prop :=
  ∀ p ∈ ps, p.taken = 1 → ∀ target ∈ (os.drop (os.length - p.base)).head?, ¬ target.isPair

/-- The pieces on the stacks agree with the cues, if no assignment waits that will be refused. -/
def Scanned (start : Reading ε) (b : Bench ε) (cs : List Cue) : Prop :=
  Unpaired b.operands.toList b.operators.toList → ∃ r, Scans start r b cs

/-- The stacks are laid out, and their pieces agree with the cues. -/
structure Agrees (N : Names) (mode : LexMode) (start : Reading ε) (b : Bench ε) (cs : List Cue) :
    Prop where
  stands : Stands N mode b (Cue.words cs)
  scanned : Scanned start b cs

theorem Waits.of_plain (h : Waits bottom (p :: ps) around) (hp : p.closing = []) :
    Waits bottom ps around := by
  cases h with
  | plain _ hrest => exact hrest
  | stream he => simp [Pending.closing, he] at hp

theorem Waits.of_nil (h : Waits bottom [] around) : around = bottom := by
  cases h with
  | start => rfl

theorem Pending.leave_of_closing (h : p.closing = []) (tables : Tables ε) :
    p.leave tables = tables := by
  unfold Pending.leave
  unfold Pending.closing at h
  split
  case h_1 he => simp [he] at h
  case h_2 => rfl

/-- A step that declares nothing leaves the reading as it is. -/
theorem Looked.mirrors {M : Names} (hl : Looked N M b b') (h : Mirrors r b.tables b.scope) :
    Mirrors r b'.tables b'.scope :=
  ⟨hl.locals.trans h.locals, hl.localCount.trans h.localCount, hl.scope.trans h.scope⟩

/-! ## Targets of waiting assignments -/

theorem drop_above (hb : p.base ≤ under.length) :
    (upper ++ under).drop ((upper ++ under).length - p.base) =
      under.drop (under.length - p.base) := by
  have habove : (upper ++ under).length - p.base = upper.length + (under.length - p.base) := by
    rw [List.length_append]
    omega
  rw [habove, ← List.drop_drop, List.drop_left]

variable (upper) in
/-- What lies above the bases of all operators is no target. -/
theorem unpaired_append (hb : ∀ p ∈ ps, p.base ≤ under.length) :
    Unpaired (upper ++ under) ps ↔ Unpaired under ps := by
  refine forall₂_congr fun p hp => ?_
  rw [drop_above (hb p hp)]

theorem Unpaired.tail (h : Unpaired os (p :: ps)) : Unpaired os ps :=
  fun q hq => h q (List.mem_cons_of_mem p hq)

/-- The operator on top has no target. -/
theorem Unpaired.cons (h : Unpaired os ps) (hp : p.taken = 0) : Unpaired os (p :: ps) := by
  refine List.forall_mem_cons.2 ⟨fun htaken => ?_, h⟩
  rw [hp] at htaken
  cases htaken

/-! ## Applying operators -/

/-- What an operator takes is not refused once it has been applied. -/
theorem Applicable.unpaired (ha : Applicable N p ps os args below u v)
    (hargs : ∀ arg ∈ args, ¬ arg.isPair)
    (hlen : os.length = p.base + if p.extra = .colonSeen then 2 else 1) (h : Unpaired below ps) :
    Unpaired os (p :: ps) := by
  rw [ha.operands] at hlen ⊢
  have hrest : Unpaired (args.reverse ++ below) ps :=
    (unpaired_append args.reverse ha.below.base_le).2 h
  refine List.forall_mem_cons.2 ⟨fun htaken target htarget => ?_, hrest⟩
  have he : p.extra ≠ .colonSeen := by
    intro he
    simp [Pending.taken, he] at htaken
  rw [if_neg he] at hlen
  have habove : (args.reverse ++ below).length - p.base = 1 := by omega
  rw [habove] at htarget
  refine hargs target ?_
  cases ha.takes with
  | unary _ hplain => simp [Pending.taken, hplain] at htaken
  | @joining left right => simp_all
  | ternary _ hseen => exact absurd hseen he

/-- An operator that is applied leaves the agreement as it is; a streaming operator leaves the scope
of its body. -/
theorem Scans.apply (h : Scans start r b cs) (hb : b.operators = ⟨p :: ps⟩)
    (hlen : b.operands.size = p.base + if p.extra = .colonSeen then 2 else 1)
    (ha : Applicable N p ps b.operands.toList args below u v)
    (happ : Applies N p args below { b with operators := ⟨ps⟩ } b') :
    ∃ r', Scans start r' b' cs := by
  obtain ⟨hargs, o, hbuilt, rfl⟩ := happ
  have hreads : Reads start (trace b.operands.toList (p :: ps)) cs r := by
    simpa only [hb] using h.reads
  have hwaits : Waits start.around (p :: ps) r.around := by
    simpa only [hb] using h.waits
  have htrace : trace (o :: below) ps = trace b.operands.toList (p :: ps) ++ p.closing := by
    rw [Stack.size, ha.operands] at hlen
    rw [ha.operands]
    exact trace_apply hbuilt ha.takes (ha.derives.pairValue_eq_none hargs) hlen ha.below.base_le
  by_cases hp : p.closing = []
  · refine ⟨r, ?_, ?_, hwaits.of_plain hp⟩
    · show Reads start (trace (o :: below) ps) cs r
      rwa [htrace, hp, List.append_nil]
    · rw [Pending.leave_of_closing hp]
      exact h.mirrors
  · generalize hr : r.around = outer at hwaits
    cases hwaits with
    | plain hp' => exact absurd hp' hp
    | @stream _ _ clause scope rest he hrest =>
      have hclosing : p.closing = [.leave] := by simp [Pending.closing, he]
      refine ⟨{ r with current := scope, around := rest }, ?_, ?_, hrest⟩
      · show Reads start (trace (o :: below) ps) cs _
        rw [htrace, hclosing, ← List.append_nil cs]
        exact hreads.append (.one (.leave hr))
      · have hleave : p.leave b.tables = b.tables.endScope (scope :: rest).flatten.length := by
          rw [Pending.leave, he]
        show Mirrors _ (p.leave b.tables) b.scope
        rw [hleave]
        exact h.mirrors.leave hr

theorem Agrees.apply (h : Agrees N .operator start b cs) (hb : b.operators = ⟨p :: ps⟩) :
    Ends (apply p) { b with operators := ⟨ps⟩ }
      (fun _ b' => Agrees N .operator start b' cs ∧ b'.operators = ⟨ps⟩)
      (fun e _ => Regular e) := by
  refine ((h.stands.apply hb).and (h.stands.ends_top hb)).mono ?_ fun _ _ he => he.1
  intro _ b' hend
  obtain ⟨⟨hs, hops⟩, hc, args, below, u, v, _, ha, happ⟩ := hend
  refine ⟨⟨hs, fun hunpaired => ?_⟩, hops⟩
  have hlen : b.operands.size = p.base + if p.extra = .colonSeen then 2 else 1 := by
    have hl : Layout N .operator b.operands.toList (p :: ps) (Cue.words cs) := by
      simpa only [hb] using h.stands.layout
    exact hl.base_top hc
  obtain ⟨hargs, o, -, hb'⟩ := id happ
  have hbelow : Unpaired below ps := by
    rw [hb'] at hunpaired
    exact (unpaired_append [o] ha.below.base_le).1 hunpaired
  obtain ⟨r, hr⟩ := h.scanned (by
    rw [hb]
    exact ha.unpaired hargs hlen hbelow)
  exact hr.apply hb hlen ha happ

theorem Agrees.reduceWhile (h : Agrees N .operator start b cs) (q : Pending → Bool) :
    Ends (reduceWhile q) b
      (fun _ b' => Agrees N .operator start b' cs ∧
        b'.operators = ⟨b.operators.toList.dropWhile q⟩)
      (fun e _ => Regular e) :=
  ends_applyWhile (I := fun b' => Agrees N .operator start b' cs) (fun _ _ _ hs hb => hs.apply hb) q
    h rfl

/-! ## Commas and colons -/

/-- What a comma or a colon changes of the operator on top is nothing that a walk meets. -/
theorem Scanned.replace_top (h : Scanned start b cs) (hb : b.operators = ⟨p :: ps⟩)
    (hbase : q.base = p.base) (hvisits : q.visits = p.visits) (hp : p.taken = 0) (hq : q.taken = 0)
    (hp' : p.closing = []) (hq' : q.closing = []) :
    Scanned start { b with operators := ⟨q :: ps⟩ } cs := by
  intro hunpaired
  obtain ⟨r, hr⟩ := h (by
    rw [hb]
    exact hunpaired.tail.cons hp)
  have hreads : Reads start (trace b.operands.toList (p :: ps)) cs r := by
    simpa only [hb] using hr.reads
  have hwaits : Waits start.around (p :: ps) r.around := by
    simpa only [hb] using hr.waits
  refine ⟨r, ?_, hr.mirrors, ?_⟩
  · show Reads start (trace b.operands.toList (q :: ps)) cs r
    rw [trace] at hreads ⊢
    simpa only [hbase, hvisits, hp, hq] using hreads
  · exact .plain hq' (hwaits.of_plain hp')

/-- A container stands for no operand and has no scope to leave. -/
theorem Opened.piece (h : Opened N p.op.kind p.extra ps below u) (hc : p.op.kind.isContainer) :
    p.taken = 0 ∧ p.closing = [] := by
  unfold Pending.taken Pending.closing
  generalize p.op.kind = kind, p.extra = extra at h hc
  cases h with
  | alone _ ho => cases ho <;> exact ⟨rfl, rfl⟩
  | after _ hf =>
    cases hf with
    | assign | bind | stream => cases hc
    | _ => exact ⟨rfl, rfl⟩

theorem Agrees.comma (h : Agrees N .operator start b cs) (span : Span) :
    Ends (comma span) b (fun _ b' => Scanned start b' cs) (fun _ _ => True) := by
  unfold Parse.comma
  rw [ends_bind]
  refine (h.reduceWhile _).mono ?_ fun _ _ _ => trivial
  intro _ b₁ hend
  obtain ⟨h₁, hops⟩ := hend
  rw [ends_bind, ends_get]
  cases hps : b₁.operators.toList with
  | nil =>
    have hpeek : b₁.operators.peek? = none := by simp [Stack.peek?, hps]
    simp [hpeek]
  | cons c rest =>
    have hpeek : b₁.operators.peek? = some c := by simp [Stack.peek?, hps]
    have hc : c.op.kind.isContainer := by
      rw [hops] at hps
      exact isContainer_of_dropWhile hps
    obtain ⟨_, _, _, _, -, -, -, hcont⟩ := (hps ▸ h₁.stands.layout).contents_operator hc
    obtain ⟨htaken, hclosing⟩ := hcont.opened.piece hc
    simp only [hpeek]
    split
    · trivial
    · split
      · trivial
      · rw [ends_set]
        have hcounted := h₁.scanned.replace_top (q := { c with commas := c.commas + 1 })
          (show b₁.operators = ⟨c :: rest⟩ by rw [← hps]) rfl rfl htaken htaken hclosing hclosing
        simpa [Stack.modifyAt, hps] using hcounted

/-- An operator that starts to wait above all operands adds what a walk meets of it. -/
theorem Scans.push (hbase : p.base = b.operands.size)
    (hreads : Reads start (trace (b.operands.toList.drop p.taken) b.operators.toList ++ p.visits)
      cs r)
    (hm : Mirrors r b.tables b.scope) (hw : Waits start.around (p :: b.operators.toList) r.around) :
    Scans start r { b with operators := b.operators.push p } cs := by
  refine ⟨?_, hm, hw⟩
  show Reads start (trace b.operands.toList (p :: b.operators.toList)) cs r
  rwa [trace_push hbase]

/-- An operator that declares and assigns nothing starts to wait. -/
theorem Scanned.wait (h : Scanned start b cs) (hp : p.closing = []) (htaken : p.taken = 0)
    (hbase : p.base = b.operands.size) {ds : List Cue}
    (hreads : ∀ r : Reading ε, Reads r p.visits ds r) :
    Scanned start { b with operators := b.operators.push p } (cs ++ ds) := by
  intro hunpaired
  obtain ⟨r, hr⟩ := h hunpaired.tail
  refine ⟨r, .push hbase ?_ hr.mirrors (.plain hp hr.waits)⟩
  rw [htaken]
  exact hr.reads.append (hreads r)

theorem Agrees.colon (h : Agrees N .operator start b cs) (op : Operator) (span : Span) :
    Ends (colon op span) b (fun _ b' => Scanned start b' cs) (fun _ _ => True) := by
  unfold Parse.colon Parse.reduceFor
  rw [ends_bind]
  refine (h.reduceWhile _).mono ?_ fun _ _ _ => trivial
  intro _ b₁ hend
  obtain ⟨h₁, _⟩ := hend
  rw [ends_bind, ends_get]
  simp only
  split
  case isTrue hany =>
    rw [ends_bind]
    refine (h₁.reduceWhile _).mono ?_ fun _ _ _ => trivial
    intro _ b₂ hend
    obtain ⟨h₂, hops⟩ := hend
    obtain ⟨p, ps, hp, -, hextra⟩ := exists_openTernary hany
    rw [hp] at hops
    rw [ends_modify]
    have hseen := h₂.scanned.replace_top (q := { p with extra := .colonSeen }) hops rfl
      (by simp [Pending.visits, hextra]) (by simp [Pending.taken, hextra]) rfl
      (by simp [Pending.closing, hextra]) rfl
    simpa [Stack.modifyAt, hops] using hseen
  case isFalse =>
    split
    case h_2 => trivial
    case h_1 =>
      split
      case isFalse => trivial
      case isTrue =>
        rw [ends_pushOperator]
        have hwait := h₁.scanned.wait (p := { op, span, base := b₁.operands.size }) rfl rfl rfl .nil
        simpa using hwait

/-! ## Operands -/

/-- From the reading `r` the visits agree with the cues, and they end in the scopes in which they
begin, with the names of `b`. -/
def Passes (r : Reading ε) (vs : List Visit) (cs : List Cue) (b : Bench ε) : Prop :=
  ∃ r', Reads r vs cs r' ∧ Mirrors r' b.tables b.scope ∧ r'.around = r.around

variable (upper) in
/-- A fragment takes the place of the operands `upper` and adds some visits to theirs. -/
theorem Scanned.value (h : Scanned start b cs) (hops : b.operands.toList = upper ++ under)
    (hbase : ∀ p ∈ b.operators.toList, p.base ≤ under.length) {M : Names}
    (ht : Tabled N M { b with operands := ⟨under⟩ } b') {o : Operand} {vs : List Visit}
    {ds : List Cue} (ho : o.visits = visitsOf upper.reverse ++ vs)
    (hpass : ∀ r, Mirrors r b.tables b.scope → Passes r vs ds b') :
    Scanned start { b' with operands := b'.operands.push o } (cs ++ ds) := by
  have hunder : b'.operands.toList = under := by rw [ht.operands]
  have hpending : b'.operators.toList = b.operators.toList := by rw [ht.operators]
  intro hunpaired
  have hrest : Unpaired under b.operators.toList := by
    rw [← hunder, ← hpending]
    refine (unpaired_append [o] ?_).1 hunpaired
    rwa [hunder, hpending]
  obtain ⟨r, hr⟩ := h (hops ▸ (unpaired_append upper hbase).2 hrest)
  obtain ⟨r', hreads, hm, ha⟩ := hpass r hr.mirrors
  refine ⟨r', ?_, hm, ?_⟩
  · have htrace : trace (o :: under) b.operators.toList =
        trace b.operands.toList b.operators.toList ++ vs := by
      rw [trace_cons hbase, ho, ← List.append_assoc, ← trace_append upper hbase, ← hops]
    show Reads start (trace (o :: b'.operands.toList) b'.operators.toList) (cs ++ ds) r'
    rw [hunder, hpending, htrace]
    exact hr.reads.append hreads
  · show Waits start.around b'.operators.toList r'.around
    rw [hpending, ha]
    exact hr.waits

/-- A step that declares nothing passes through one word. -/
theorem Looked.passes {M : Names} (hl : Looked N M b b') (hm : Mirrors r b.tables b.scope)
    {v : Visit} {w : Word} (hstep : Scoping.Step r v [.word w] r) : Passes r [v] [.word w] b' :=
  ⟨r, .one hstep, hl.mirrors hm, rfl⟩

/-! ## Closers -/

/-- The fragment of a closed container stands for all its pieces. -/
theorem ClosesTop.scanned {close : Span} {receivers elements rest : List Operand} {v' : List Word}
    (hc : ClosesTop N close p ps receivers elements rest u v' v b b') (h : Scanned start b cs) :
    Scanned start b' cs := by
  obtain ⟨hr, M, b₁, o, hl, hclosed, rfl⟩ := hc.closes
  obtain ⟨htaken, hclosing, -⟩ := hclosed.piece
  have hops : b₁.operators.toList = ps := by rw [hl.operators]
  intro hunpaired
  have hrest : Unpaired rest ps := by
    rw [← hops]
    exact (unpaired_append [o] (hops ▸ hc.layout.base_le)).1 hunpaired
  have hbefore : Unpaired b.operands.toList b.operators.toList := by
    rw [hc.operands, hc.operators, ← List.append_assoc]
    exact ((unpaired_append _ hc.layout.base_le).2 hrest).cons htaken
  obtain ⟨r, hscans⟩ := h hbefore
  have hreads := hscans.reads
  have hwaits := hscans.waits
  rw [hc.operators, hc.operands] at hreads
  rw [hc.operators] at hwaits
  have htrace : trace (o :: rest) ps =
      trace (elements.reverse ++ (receivers ++ rest)) (p :: ps) :=
    trace_closed hclosed (hc.derivesReceivers.pairValue_eq_none hr)
      hc.derivesElements.isSome_pairValue hc.base hc.layout.base_le
  refine ⟨r, ?_, hl.mirrors hscans.mirrors, ?_⟩
  · show Reads start (trace (o :: rest) b₁.operators.toList) cs r
    rwa [hops, htrace]
  · show Waits start.around b₁.operators.toList r.around
    rw [hops]
    exact hwaits.of_plain hclosing

/-- Closing the innermost container once it is on top. -/
theorem ends_close_scanned {I : Bench ε → Prop} {symbol : String} {span : Span}
    (h : Ends reduceToContainer b (fun _ b' => Ready N b' w ∧ I b') (fun e _ => Regular e))
    (hI : ∀ b', I b' → Scanned start b' cs) :
    Ends (close symbol span) b (fun _ b' => Scanned start b' cs) (fun e _ => Regular e) := by
  refine (ends_closeTop h).mono ?_ fun _ _ he => he
  intro _ b'' hend
  obtain ⟨b', c, ps, receivers, elements, rest, u, v', v, hb', _, _, hc⟩ := hend
  exact hc.scanned (hI b' hb')

theorem Agrees.close (h : Agrees N .operator start b cs) (symbol : String) (span : Span) :
    Ends (close symbol span) b (fun _ b' => Scanned start b' cs) (fun e _ => Regular e) := by
  have hready := h.stands.ready.and (h.reduceWhile (!·.op.kind.isContainer))
  exact ends_close_scanned (hready.mono (fun _ _ hr => hr) fun _ _ he => he.1) fun _ hb =>
    hb.1.scanned

theorem Agrees.closeWithoutOperand (h : Agrees N .operand start b cs) (symbol : String)
    (span : Span) :
    Ends (closeWithoutOperand symbol span) b (fun _ b' => Scanned start b' cs)
      (fun e _ => Regular e) :=
  h.stands.ends_closeWithoutOperand fun hready =>
    ends_close_scanned hready fun _ hb => hb ▸ h.scanned

end TagExpr.Parse
