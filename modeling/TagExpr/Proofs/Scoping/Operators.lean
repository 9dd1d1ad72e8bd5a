import TagExpr.Proofs.Scoping.Scans

/-!
# Names after an operand

An assignment settles its target when its operator comes: the bare name that was read last is read
again as what it assigns to, or it is declared. The clause of a streaming operator is declared in
the scope that the operator opens. All other operators leave the names alone.
-/

namespace TagExpr.Parse

open Scoping

variable {ε : Type} {N : Names} {b b' : Bench ε} {start r : Reading ε} {cs : List Cue}
  {p : Pending} {o : Operand} {below : List Operand}

/-! ## Navigation -/

theorem Agrees.navigate (h : Agrees N .operator start b cs) {symbol : String} {op : Operator}
    {safe : Bool} (hop : Operator.findInfix? symbol = some op) (hk : op.kind = .navigate safe)
    (hcl : Operator.closers.contains symbol = false) (span : Span) (base : Nat) (at_ : Cursor) :
    Ends (navigate safe span base at_) b
      (fun _ b' => Scanned start b' (cs ++ (operatorReach symbol at_).1.map .word))
      (fun _ _ => True) := by
  obtain ⟨o, below, u, v, hops, -, hl, hd, -⟩ := h.stands.layout.top_value
  unfold Parse.navigate
  rw [ends_bind, ends_readToken]
  cases hnext : Token.next .member at_ with
  | error e => trivial
  | ok token =>
    obtain ⟨⟨kind, memberSpan⟩, after⟩ := token
    rcases member_kind hnext with hfin | ⟨name, call, hname⟩
    · cases hfin
      trivial
    · cases hname
      have member (call : Bool) (r : Reading ε) :
          Reads r [.other] [.word (.member name call)] r := .one (.other r (by simp [Word.bare]))
      rw [operatorReach_of_navigate hcl hop hk hnext]
      cases call with
      | true =>
        simp only [if_true, ends_bind, ends_pushOperator, ends_pure]
        exact h.scanned.wait rfl rfl rfl (member true)
      | false =>
        have hf : floorOf b.operators.toList ≤ below.length := by
          simpa using hl.floor_le
        simp only [Bool.false_eq_true, if_false]
        rw [ends_bind, ends_popValue (by rw [← hops]) hf]
        split
        case isTrue => trivial
        case isFalse hp =>
          rw [ends_bind]
          refine (ends_identifier (b := { b with operands := ⟨below⟩ })
            h.stands.describes _).mono ?_
            fun _ _ he => he
          intro ident b' hend
          obtain ⟨M, hlooked, _⟩ := hend
          rw [ends_bind, ends_pushOperand, ends_pure]
          refine h.scanned.value [o] hops hl.base_le hlooked.toTabled ?_ fun r hm =>
            hlooked.passes hm (.other r (by simp [Word.bare]))
          rw [List.reverse_singleton, visitsOf_one, hd.visits_eq hp, Operand.visits_of_none rfl]
          rfl

/-! ## Targets of assignments -/

/-- What an assignment to a place keeps beside it while it waits. -/
def extraOf : Place → Extra
  | .slot slot => .assignLocal slot
  | .binding template slot => .assignBinding template slot

/-- A bare name is met in one visit, and it reads a place just if it is a local or a binding. -/
theorem Bare.visits {name : String} {node : Node} (h : Bare N name node) :
    node.visits = [.other] ∨ (∃ slot, node = .localVar slot) ∨
      ∃ template slot, node = .binding template slot := by
  cases h with
  | localVar => exact .inr (.inl ⟨_, rfl⟩)
  | binding => exact .inr (.inr ⟨_, _, rfl⟩)
  | named hc => cases hc <;> exact .inl rfl
  | property => exact .inl rfl

/-- Where the operand on top is met in one visit, that visit is the last word of the text so far,
and a bare name if the operand still bears one. -/
theorem Scans.last_word (h : Scans start r b cs) (hs : Stands N .operator b (Cue.words cs))
    (hops : b.operands.toList = o :: below) {v : Visit} (hv : o.visits = [v])
    (hplain : v = .other ∨ ∃ place, v = .reads place) :
    ∃ w ds, cs = ds ++ [.word w] ∧ Reads start (trace below b.operators.toList) ds r ∧
      Step r v [.word w] r ∧ ∀ name, o.name = some name → w = .bare name := by
  obtain ⟨_, _, u, words, heq, hw, hl, hd, -⟩ := hs.layout.top_value
  cases hops.symm.trans heq
  have hreads := h.reads
  rw [heq, trace_cons hl.base_le, hv] at hreads
  obtain ⟨r', ds, c, rfl, hbefore, hstep⟩ := hreads.last
  obtain ⟨w, rfl, rfl⟩ : ∃ w, c = [.word w] ∧ r' = r := by
    rcases hplain with rfl | ⟨place, rfl⟩
    · cases hstep with
      | name => exact ⟨_, rfl, rfl⟩
      | other => exact ⟨_, rfl, rfl⟩
    · cases hstep with
      | name => exact ⟨_, rfl, rfl⟩
  refine ⟨w, ds, rfl, hbefore, hstep, fun name hname => ?_⟩
  -- Both lists of words end in the word of the operand.
  rw [(hd.of_name rfl hname).1, Cue.words_append] at hw
  exact List.singleton_inj.1 (List.append_inj' hw rfl).2

theorem Scans.last_name (h : Scans start r b cs) (hs : Stands N .operator b (Cue.words cs))
    (hops : b.operands.toList = o :: below) (hp : ¬ o.isPair) {name : String}
    (hname : o.name = some name) :
    ∃ ds, cs = ds ++ [.word (.bare name)] ∧ Reads start (trace below b.operators.toList) ds r ∧
      o.node.visits = [r.resolve name] := by
  obtain ⟨_, _, _, _, heq, -, -, hd, -⟩ := hs.layout.top_value
  cases hops.symm.trans heq
  obtain ⟨v, hv, hplain⟩ : ∃ v, o.node.visits = [v] ∧ (v = .other ∨ ∃ place, v = .reads place) := by
    rcases (hd.of_name rfl hname).2.visits with hother | ⟨slot, hn⟩ | ⟨template, slot, hn⟩
    · exact ⟨.other, hother, .inl rfl⟩
    · exact ⟨_, by rw [hn, Node.visits], .inr ⟨.slot slot, rfl⟩⟩
    · exact ⟨_, by rw [hn, Node.visits], .inr ⟨.binding template slot, rfl⟩⟩
  have hvisits : o.visits = [v] := by rw [hd.visits_eq hp, hv]
  obtain ⟨w, ds, rfl, hbefore, hstep, hw⟩ := h.last_word hs hops hvisits hplain
  obtain rfl := hw name hname
  exact ⟨ds, rfl, hbefore, by rw [hv, hstep.resolve_of_bare]⟩

/-- The target `o` of the operator that the cue `mark` stands for was settled: while the operator
waits, a walk meets an assignment to the place where it meets the target now. -/
structure Settles (start : Reading ε) (b : Bench ε) (cs : List Cue) (mark : Cue) (o : Operand)
    (below : List Operand) (place : Place) (b' : Bench ε) : Prop where
  operands : b'.operands = b.operands
  operators : b'.operators = b.operators
  assigns : ¬ o.isPair → ∀ r, Scans start r b cs → ∃ r',
    Reads start (trace below b.operators.toList ++ [.assigns place]) (cs ++ [mark]) r' ∧
      Mirrors r' b'.tables b'.scope ∧ r'.around = r.around

theorem Agrees.assignmentTarget (h : Agrees N .operator start b cs)
    (hops : b.operands.toList = o :: below) (span : Span) :
    Ends (assignmentTarget span) b
      (fun extra b' => ∃ place, extra = extraOf place ∧
        Settles start b cs .assign o below place b')
      (fun _ _ => True) := by
  obtain ⟨_, _, _, _, heq, -, -, hd, -⟩ := h.stands.layout.top_value
  cases hops.symm.trans heq
  have hpeek : b.operands.peek? = some o := by simp [Stack.peek?, hops]
  -- A place that the operand reads is assigned to.
  have known (place : Place) (hnode : o.node.visits = [.reads place]) :
      Settles start b cs .assign o below place b := by
    refine ⟨rfl, rfl, fun hp r hr => ?_⟩
    have hvisits : o.visits = [.reads place] := by rw [hd.visits_eq hp, hnode]
    obtain ⟨w, ds, rfl, hbefore, hstep, -⟩ :=
      hr.last_word h.stands hops hvisits (.inr ⟨place, rfl⟩)
    obtain ⟨name, rfl, hresolve⟩ := hstep.resolve_of_reads
    rw [List.append_assoc]
    exact ⟨r, hbefore.append (.one (.assign hresolve)), hr.mirrors, rfl⟩
  simp only [Parse.assignmentTarget, ends_bind, ends_get, hpeek]
  split
  case h_1 slot hn => exact ⟨.slot slot, rfl, known _ (by rw [hn, Node.visits])⟩
  case h_2 template slot hn =>
    exact ⟨.binding template slot, rfl, known _ (by rw [hn, Node.visits])⟩
  case h_3 name hname hlocal hbinding =>
    rw [ends_bind, ends_withTables, ends_pure]
    refine ⟨.slot b.tables.localCount, rfl, rfl, rfl, fun hp r hr => ?_⟩
    obtain ⟨ds, rfl, hbefore, hvisits⟩ := hr.last_name h.stands hops hp hname
    have hnew : r.resolve name = .other := by
      rcases (hd.of_name rfl hname).2.visits with hother | ⟨slot, hn⟩ | ⟨template, slot, hn⟩
      · exact List.singleton_inj.1 (hvisits.symm.trans hother)
      · exact absurd hn (hlocal slot)
      · exact absurd hn (hbinding template slot)
    rw [List.append_assoc]
    refine ⟨r.declare name, hbefore.append ?_, hr.mirrors.declare name, rfl⟩
    rw [hr.mirrors.localCount]
    exact .one (.declare hnew)
  case h_4 => trivial

theorem Agrees.bindingTarget (h : Agrees N .operator start b cs)
    (hops : b.operands.toList = o :: below) (span : Span) :
    Ends (bindingTarget span) b
      (fun extra b' => ∃ place, extra = extraOf place ∧
        Settles start b cs .bind o below place b')
      (fun _ _ => True) := by
  have hpeek : b.operands.peek? = some o := by simp [Stack.peek?, hops]
  simp only [Parse.bindingTarget, ends_bind, ends_get]
  split
  case isTrue => trivial
  case isFalse =>
    simp only [hpeek]
    split
    case h_1 => trivial
    case h_2 name hname =>
      cases hbind : b.scope.declareBinding name with
      | mk found file =>
        obtain ⟨template, slot⟩ := found
        refine ⟨.binding template slot, rfl, rfl, rfl, fun hp r hr => ?_⟩
        obtain ⟨ds, rfl, hbefore, -⟩ := hr.last_name h.stands hops hp hname
        rw [hr.mirrors.scope] at hbind
        rw [List.append_assoc]
        exact ⟨{ r with file }, hbefore.append (.one (.bind hbind)),
          ⟨hr.mirrors.locals, hr.mirrors.localCount, rfl⟩, rfl⟩

/-! ## Operators that start to wait -/

theorem Settles.wait {mark : Cue} {place : Place} (h : Settles start b cs mark o below place b')
    (hs : Scanned start b cs) (hops : b.operands.toList = o :: below) (op : Operator)
    (span : Span) :
    Scanned start
      { b' with
        operators := b'.operators.push
          { op, span, base := b'.operands.size, extra := extraOf place } }
      (cs ++ [mark]) := by
  have htaken : ∀ p : Pending, p.extra = extraOf place →
      p.taken = 1 ∧ p.closing = [] ∧ p.visits = [.assigns place] := by
    intro p he
    cases place <;> simp [Pending.taken, Pending.closing, Pending.visits, he, extraOf]
  have hops' : b'.operands.toList = o :: below := by rw [h.operands, hops]
  intro hunpaired
  have hp : ¬ o.isPair := by
    refine hunpaired _ List.mem_cons_self (htaken _ rfl).1 o ?_
    simp [Stack.size, hops']
  obtain ⟨r, hr⟩ := hs (by
    rw [← h.operands, ← h.operators]
    exact hunpaired.tail)
  obtain ⟨r', hreads, hm, ha⟩ := h.assigns hp r hr
  refine ⟨r', .push rfl ?_ hm (.plain (htaken _ rfl).2.1 ?_)⟩
  · rw [(htaken _ rfl).1, (htaken _ rfl).2.2, hops', h.operators]
    exact hreads
  · rw [ha, h.operators]
    exact hr.waits

/-- A streaming operator that starts to wait has entered the scope of its body, and the tables know
how many locals were visible before. -/
theorem Scans.enter (h : Scans start r b cs) {clause : Option Nat} {ds : List Cue} {r' : Reading ε}
    (he : p.extra = .stream clause b.tables.scopeMark) (hbase : p.base = b'.operands.size)
    (hreads : Reads r.enter (Visit.ofClause clause) ds r') (hm : Mirrors r' b'.tables b'.scope)
    (ha : r'.around = r.enter.around) (hops : b'.operands = b.operands)
    (hpending : b'.operators = b.operators) :
    Scans start r' { b' with operators := b'.operators.push p } (cs ++ ds) := by
  have hvisits : p.visits = [.enter] ++ Visit.ofClause clause := by
    rw [Pending.visits, he]
    rfl
  refine .push hbase ?_ hm ?_
  · have htaken : p.taken = 0 := by rw [Pending.taken, he]
    rw [htaken, hvisits, hops, hpending]
    exact h.reads.append (.append (.one (.enter r)) hreads)
  · rw [ha, hpending]
    exact .stream (he.trans (by rw [h.mirrors.scopeMark])) h.waits

/-- The clause is declared in the scope of the body. -/
theorem Scanned.streamClause (h : Scanned start b cs) (op : Operator) (span : Span) (at_ : Cursor) :
    Ends (streamClause at_) b
      (fun x b' => Scanned start
        { b' with
          operators := b'.operators.push { op, span, base := b'.operands.size, extra := x.1 } }
        (cs ++ ((Signature.lambda? at_).map fun clause => Cue.clause clause.name).toList))
      (fun _ _ => True) := by
  simp only [Parse.streamClause, ends_bind, ends_get]
  cases hclause : Signature.lambda? at_ with
  | none =>
    intro hunpaired
    obtain ⟨r, hr⟩ := h hunpaired.tail
    exact ⟨r.enter, hr.enter rfl rfl (.nil _) hr.mirrors.enter rfl rfl rfl⟩
  | some clause =>
    intro hunpaired
    obtain ⟨r, hr⟩ := h hunpaired.tail
    refine ⟨r.enter.declare clause.name,
      hr.enter rfl rfl ?_ (hr.mirrors.enter.declare clause.name) rfl rfl rfl⟩
    have hslot : b.tables.localCount = r.enter.next := hr.mirrors.localCount
    rw [hslot]
    exact .one (.clause r.enter clause.name)

/-! ## Any operator -/

theorem cues_of_closer {symbol : String} (h : Operator.closers.contains symbol) (at_ : Cursor) :
    Cue.ofOperator symbol at_ = [] := by
  have hnone : ∀ symbol ∈ Operator.closers, Operator.findInfix? symbol = none := by decide
  rw [Cue.ofOperator, hnone symbol (List.contains_iff_mem.1 h)]
  simp only [operatorReach, h, if_true, Option.map_none, List.map_nil]

/-- An operator symbol after an operand agrees with its cues. -/
theorem Agrees.operator (h : Agrees N .operator start b cs) (symbol : String) (span : Span)
    (base : Nat) (at_ : Cursor) :
    Ends (operator symbol span base at_) b
      (fun _ b' => Scanned start b' (cs ++ Cue.ofOperator symbol at_)) (fun _ _ => True) := by
  unfold Parse.operator
  cases hcl : Operator.closers.contains symbol with
  | true =>
    rw [if_pos rfl, ends_bind, cues_of_closer hcl, List.append_nil]
    exact (h.close symbol span).mono (fun _ _ hs => hs) fun _ _ _ => trivial
  | false =>
    rw [if_neg (by simp)]
    cases hop : Operator.findInfix? symbol with
    | none => trivial
    | some op =>
      simp only
      split
      case h_1 safe hk =>
        have hcues : Cue.ofOperator symbol at_ = (operatorReach symbol at_).1.map .word := by
          simp only [Cue.ofOperator, hop, Option.map_some, hk]
        rw [hcues]
        exact h.navigate hop hk hcl span base at_
      case h_2 hk =>
        have hcues : Cue.ofOperator symbol at_ = [] := by
          simp only [Cue.ofOperator, hop, Option.map_some, hk,
            operatorReach_plain hcl hop (by simp [hk]) (by simp [hk]), List.map_nil]
        rw [ends_bind, hcues, List.append_nil]
        exact (h.colon op span).mono (fun _ _ hs => hs) fun _ _ _ => trivial
      case h_3 hnav hcolon =>
        rw [reduceFor, ends_bind]
        refine (h.reduceWhile _).mono ?_ fun _ _ _ => trivial
        intro _ b₁ hend
        obtain ⟨h₁, _⟩ := hend
        obtain ⟨o, below, hops, -⟩ := h₁.stands.peek
        cases hk : op.kind with
        | navigate safe => exact absurd hk (hnav safe)
        | colon => exact absurd hk hcolon
        | assign =>
          have hcues : Cue.ofOperator symbol at_ = [.assign] := by
            simp only [Cue.ofOperator, hop, Option.map_some, hk]
          simp only [pure_bind, hcues]
          rw [ends_bind]
          refine (h₁.assignmentTarget hops span).mono ?_ fun _ _ _ => trivial
          intro extra b₂ hend
          obtain ⟨place, hextra, hsettles⟩ := hend
          subst hextra
          exact hsettles.wait h₁.scanned hops op span
        | bind =>
          have hcues : Cue.ofOperator symbol at_ = [.bind] := by
            simp only [Cue.ofOperator, hop, Option.map_some, hk]
          simp only [pure_bind, hcues]
          rw [ends_bind]
          refine (h₁.bindingTarget hops span).mono ?_ fun _ _ _ => trivial
          intro extra b₂ hend
          obtain ⟨place, hextra, hsettles⟩ := hend
          subst hextra
          exact hsettles.wait h₁.scanned hops op span
        | stream s =>
          have hcues : Cue.ofOperator symbol at_ =
              ((Signature.lambda? at_).map fun clause => Cue.clause clause.name).toList := by
            simp only [Cue.ofOperator, hop, Option.map_some, hk]
          rw [ends_bind, hcues]
          exact h₁.scanned.streamClause op span at_
        | _ =>
          have hcues : Cue.ofOperator symbol at_ = [] := by
            simp only [Cue.ofOperator, hop, Option.map_some, hk,
              operatorReach_plain hcl hop (by simp [hk]) (by simp [hk]), List.map_nil]
          rw [hcues]
          exact h₁.scanned.wait rfl rfl rfl .nil

end TagExpr.Parse
