import TagExpr.Proofs.Parse.Reduction
import TagExpr.Proofs.Scoping.Visits

/-!
# The walk over the stacks

The operand stack and the operator stack hold a tree in pieces. `trace` is what a walk over the
pieces meets, in the order of the text: what lies above the base of an operator comes after it.
Applying an operator or closing a container puts pieces together and leaves the trace as it is; only
a streaming operator, when it is applied, leaves the scope of its body.
-/

namespace TagExpr.Parse

variable {N : Names} {os upper under args below receivers elements : List Operand}
  {ps : List Pending} {p : Pending} {o : Operand} {w : List Word} {mode : LexMode}

/-! ## Pieces -/

/-- What a walk meets in a finished fragment; the value of an entry comes last. -/
def Operand.visits (o : Operand) : List Visit :=
  o.node.visits ++ (o.pairValue.map Node.visits).getD []

/-- What it meets in some fragments, from left to right. -/
def visitsOf (os : List Operand) : List Visit := os.flatMap Operand.visits

namespace Pending

/-- What it meets of an operator before its last operand. -/
def visits (p : Pending) : List Visit :=
  match p.extra with
  | .plain | .colonSeen => []
  | .bareCall .. | .methodCall .. | .annotated _ => [.other]
  | .assignLocal slot => [.assigns (.slot slot)]
  | .assignBinding template slot => [.assigns (.binding template slot)]
  | .stream clause _ => .enter :: Visit.ofClause clause

/-- The number of operands on the left that the operator stands for: an assignment is met in the
place of its target. -/
def taken (p : Pending) : Nat :=
  match p.extra with
  | .assignLocal _ | .assignBinding .. => 1
  | _ => 0

/-- What the walk meets of the operator when it is applied. -/
def closing (p : Pending) : List Visit :=
  match p.extra with
  | .stream .. => [.leave]
  | _ => []

end Pending

/-- What a walk meets of the stacks, both top first. -/
def trace : List Operand → List Pending → List Visit
  | os, [] => visitsOf os.reverse
  | os, p :: ps =>
    let above := os.length - p.base
    trace (os.drop (above + p.taken)) ps ++ p.visits ++ visitsOf (os.take above).reverse

@[simp] theorem visitsOf_append (os os' : List Operand) :
    visitsOf (os ++ os') = visitsOf os ++ visitsOf os' := List.flatMap_append

@[simp] theorem visitsOf_one (o : Operand) : visitsOf [o] = o.visits := List.flatMap_singleton _ o

theorem visitsOf_cons (o : Operand) (os : List Operand) :
    visitsOf (o :: os) = o.visits ++ visitsOf os := rfl

@[simp] theorem visitsOf_nil : visitsOf [] = [] := rfl

theorem Operand.visits_of_none (h : o.pairValue = none) : o.visits = o.node.visits := by
  rw [visits, h]
  exact List.append_nil _

theorem visitsOf_eq (h : ∀ o ∈ os, o.pairValue = none) :
    visitsOf os = Node.visitsOfList (os.map (·.node)) := by
  induction os with
  | nil => rfl
  | cons o os ih =>
    obtain ⟨ho, hos⟩ := List.forall_mem_cons.1 h
    rw [List.map_cons, Node.visitsOfList, ← ih hos, ← Operand.visits_of_none ho]
    rfl

/-! ## Putting the stacks together -/

variable (upper) in
theorem trace_operator (hb : under.length = p.base) :
    trace (upper ++ under) (p :: ps) =
      trace (under.drop p.taken) ps ++ p.visits ++ visitsOf upper.reverse := by
  have above : (upper ++ under).length - p.base = upper.length := by
    rw [List.length_append, hb, Nat.add_sub_cancel]
  rw [trace]
  simp only [above, List.take_left, ← List.drop_drop, List.drop_left]

variable (upper) in
/-- Fragments above the bases of all operators come last. -/
theorem trace_append (hb : ∀ p ∈ ps, p.base ≤ under.length) :
    trace (upper ++ under) ps = trace under ps ++ visitsOf upper.reverse := by
  cases ps with
  | nil => rw [trace, trace, List.reverse_append, visitsOf_append]
  | cons p ps =>
    have hle : p.base ≤ under.length := hb p List.mem_cons_self
    obtain ⟨above, rest, rfl, hrest⟩ : ∃ above rest, under = above ++ rest ∧ rest.length = p.base :=
      ⟨under.take (under.length - p.base), under.drop (under.length - p.base),
        (List.take_append_drop ..).symm, by rw [List.length_drop]; omega⟩
    rw [← List.append_assoc, trace_operator _ hrest, trace_operator _ hrest, List.reverse_append,
      visitsOf_append, List.append_assoc (trace _ _ ++ _)]

theorem trace_cons (hb : ∀ p ∈ ps, p.base ≤ os.length) :
    trace (o :: os) ps = trace os ps ++ o.visits := by
  have h := trace_append [o] hb
  rwa [List.reverse_singleton, visitsOf_one] at h

/-- An operator that comes waits above all operands. -/
theorem trace_push (hb : p.base = os.length) :
    trace os (p :: ps) = trace (os.drop p.taken) ps ++ p.visits := by
  calc trace os (p :: ps)
    _ = trace (os.drop p.taken) ps ++ p.visits ++ visitsOf [] := trace_operator [] hb.symm
    _ = trace (os.drop p.taken) ps ++ p.visits := List.append_nil _

/-! ## Bases -/

/-- Operators come upon the operands that are there. -/
theorem Layout.base_le (h : Layout N mode os ps w) : ∀ p ∈ ps, p.base ≤ os.length := by
  induction h with
  | start => exact List.forall_mem_nil _
  | value _ _ _ ih => exact fun p hp => Nat.le_succ_of_le (ih p hp)
  | opens _ _ hb _ ih => exact List.forall_mem_cons.2 ⟨Nat.le_of_eq hb, ih⟩
  | follows _ _ hb _ _ ih => exact List.forall_mem_cons.2 ⟨Nat.le_of_eq hb, ih⟩
  | colonSeen _ _ _ ih => exact List.forall_mem_cons.2 (List.forall_mem_cons.1 ih)
  | comma _ _ ih => exact List.forall_mem_cons.2 (List.forall_mem_cons.1 ih)

/-- Above the base of the operator on top lies its last operand, and for a question mark both that
it chooses between. -/
theorem Layout.base_top (h : Layout N .operator os (p :: ps) w) (hc : ¬ p.op.kind.isContainer) :
    os.length = p.base + if p.extra = .colonSeen then 2 else 1 := by
  obtain ⟨o, os, u, v, rfl, rfl, hl, -⟩ := h.top_value
  cases hl with
  | opens _ ho hb =>
    have he : p.extra ≠ .colonSeen := by
      generalize p.op.kind = kind, p.extra = extra at ho
      cases ho <;> simp
    rw [if_neg he, List.length_cons, hb]
  | follows _ hf hb =>
    have he : p.extra ≠ .colonSeen := by
      generalize p.op.kind = kind, p.extra = extra at hf
      cases hf with
      | assign ht | bind ht => cases ht <;> simp
      | _ => simp
    rw [if_neg he, List.length_cons, List.length_cons, hb]
  | @colonSeen q _ _ _ hl hk he =>
    -- Before its colon the question mark had one operand above its base.
    obtain ⟨yes, os', u, v, rfl, rfl, hl', -⟩ := hl.top_value
    have hb : q.base = os'.length := by
      cases hl' with
      | opens _ ho => exact absurd hk ho.not_ternary
      | follows _ _ hb => exact hb
      | colonSeen => cases he
      | comma _ hv => simp_all [OpKind.isVariadic]
    simp [hb]
  | comma _ hv => exact absurd (isContainer_of_isVariadic hv) hc

/-! ## Fragments -/

theorem Derives.visits_eq (h : Derives N [o] w) (hp : ¬ o.isPair) : o.visits = o.node.visits :=
  Operand.visits_of_none
    (h.pairValue_eq_none (List.forall_mem_singleton.2 hp) o List.mem_cons_self)

/-! ## Applied operators -/

theorem visits_joinSequence (left right : Node) :
    (joinSequence left right).visits = left.visits ++ right.visits := by
  unfold joinSequence
  split
  · rw [Node.visits, Node.visits, Node.visitsOfList_append]
    simp only [Node.visitsOfList, List.append_nil]
  · simp only [Node.visits, Node.visitsOfList, List.append_nil]

/-- A sign folded into a number leaves one constant. -/
theorem visits_of_foldSign? {op : UnaryOp} {node : Node} {value : Literal}
    (h : foldSign? op node = some value) : node.visits = [.other] := by
  unfold foldSign? at h
  split at h <;> first | rfl | cases h

/-- An operator keeps something beside it only if it is an assignment, a streaming operator or a
question mark. -/
theorem Takes.plain (h : Takes N p args)
    (hk : p.op.kind ≠ .ternary ∧ p.op.kind ≠ .assign ∧ p.op.kind ≠ .bind ∧
      ∀ op, p.op.kind ≠ .stream op) : p.extra = .plain := by
  cases h with
  | unary _ he => exact he
  | ternary hk' => exact absurd hk' hk.1
  | joining hj hf =>
    generalize p.op.kind = kind, p.extra = extra at hj hf hk
    cases hf <;> simp_all [isJoining]

/-- An operator waits below one last operand. -/
theorem trace_one (hlen : (o :: under).length = p.base + 1) (ho : o.pairValue = none) :
    trace (o :: under) (p :: ps) =
      trace (under.drop p.taken) ps ++ p.visits ++ o.node.visits := by
  have hbase : under.length = p.base := Nat.succ.inj hlen
  have h : trace (o :: under) (p :: ps) =
      trace (under.drop p.taken) ps ++ p.visits ++ visitsOf [o] := trace_operator [o] hbase
  rw [h, visitsOf_one, Operand.visits_of_none ho]

/-- A question mark that has seen its colon waits below the two operands it chooses between. -/
theorem trace_two {yes no : Operand} (hlen : (no :: yes :: under).length = p.base + 2)
    (hyes : yes.pairValue = none) (hno : no.pairValue = none) :
    trace (no :: yes :: under) (p :: ps) =
      trace (under.drop p.taken) ps ++ p.visits ++ (yes.node.visits ++ no.node.visits) := by
  have hbase : under.length = p.base := Nat.succ.inj (Nat.succ.inj hlen)
  have h : trace (no :: yes :: under) (p :: ps) =
      trace (under.drop p.taken) ps ++ p.visits ++ visitsOf [yes, no] :=
    trace_operator [no, yes] hbase
  rw [h, visitsOf_cons, visitsOf_one, Operand.visits_of_none hyes, Operand.visits_of_none hno]

/-- **Applying an operator keeps what a walk meets**, except that a streaming operator leaves the
scope of its body. -/
theorem trace_apply (hb : Built N p args o) (ht : Takes N p args)
    (hnone : ∀ arg ∈ args, arg.pairValue = none)
    (hlen : (args.reverse ++ below).length = p.base + if p.extra = .colonSeen then 2 else 1)
    (hbelow : ∀ q ∈ ps, q.base ≤ below.length) :
    trace (o :: below) ps = trace (args.reverse ++ below) (p :: ps) ++ p.closing := by
  have left_visits {left : Operand} (hl : left ∈ args) :
      trace (left :: below) ps = trace below ps ++ left.node.visits := by
    rw [trace_cons hbelow, Operand.visits_of_none (hnone left hl)]
  have last {x : Operand} {os : List Operand} (hx : x ∈ args)
      (hargs : args.reverse ++ below = x :: os) (he : p.extra ≠ .colonSeen) :
      trace (args.reverse ++ below) (p :: ps) =
        trace (os.drop p.taken) ps ++ p.visits ++ x.node.visits := by
    rw [if_neg he, hargs] at hlen
    rw [hargs]
    exact trace_one hlen (hnone x hx)
  rw [trace_cons hbelow]
  cases hb with
  | @sign op x value hk _ hf =>
    have he := ht.plain (by simp [hk])
    rw [last List.mem_cons_self rfl (by simp [he]), visits_of_foldSign? hf]
    simp [Pending.taken, Pending.visits, Pending.closing, he, Operand.visits, Operand.literal,
      Node.visits]
  | @unary op x hk =>
    have he := ht.plain (by simp [hk])
    rw [last List.mem_cons_self rfl (by simp [he])]
    simp [Pending.taken, Pending.visits, Pending.closing, he, Operand.visits, Node.visits]
  | @binary op left right hk =>
    have he := ht.plain (by simp [hk])
    rw [last (List.mem_of_mem_tail List.mem_cons_self) rfl (by simp [he])]
    simp [Pending.taken, Pending.visits, Pending.closing, he, left_visits, Operand.visits,
      Node.visits]
  | @ternary condition yes no _ he =>
    rw [if_pos he] at hlen
    have hcondition : condition ∈ [condition, yes, no] := List.mem_cons_self
    have hyes : yes.pairValue = none := hnone yes (by simp)
    have hno : no.pairValue = none := hnone no (by simp)
    have three : trace ([condition, yes, no].reverse ++ below) (p :: ps) =
        trace ((condition :: below).drop p.taken) ps ++ p.visits ++
          (yes.node.visits ++ no.node.visits) := trace_two hlen hyes hno
    rw [three]
    simp [Pending.taken, Pending.visits, Pending.closing, he, left_visits hcondition,
      Operand.visits, Node.visits]
  | @pair key value hk =>
    have he := ht.plain (by simp [hk])
    rw [last (List.mem_of_mem_tail List.mem_cons_self) rfl (by simp [he])]
    simp [Pending.taken, Pending.visits, Pending.closing, he, left_visits, Operand.visits,
      Operand.pair]
  | @assignLocal slot target value he | @assignBinding template slot target value he =>
    rw [last (List.mem_of_mem_tail List.mem_cons_self) rfl (by simp [he])]
    simp [Pending.taken, Pending.visits, Pending.closing, he, Operand.visits, Node.visits]
  | @stream op clause mark source body _ he =>
    rw [last (List.mem_of_mem_tail List.mem_cons_self) rfl (by simp [he])]
    simp [Pending.taken, Pending.visits, Pending.closing, he, left_visits, Operand.visits,
      Node.visits, Visit.enclosed]
  | @sequence left right hk =>
    have he := ht.plain (by simp [hk])
    rw [last (List.mem_of_mem_tail List.mem_cons_self) rfl (by simp [he])]
    simp [Pending.taken, Pending.visits, Pending.closing, he, left_visits, Operand.visits,
      visits_joinSequence]

/-! ## Closed containers -/

theorem visitsOf_pairs (h : ∀ o ∈ os, o.pairValue.isSome) :
    Node.visitsOfEntries (os.filterMap fun e => e.pairValue.map (e.node, ·)) = visitsOf os := by
  induction os with
  | nil => rfl
  | cons o os ih =>
    obtain ⟨ho, hos⟩ := List.forall_mem_cons.1 h
    obtain ⟨value, hvalue⟩ := Option.isSome_iff_exists.1 ho
    have hentry : o.visits = Node.visitsOfEntry (o.node, value) := by
      rw [Operand.visits, hvalue]
      rfl
    simp only [List.filterMap_cons, hvalue, Option.map_some, Node.visitsOfEntries, ih hos, ← hentry]
    rfl

theorem visits_map {entries : List (Node × Node)} (h : entries ≠ []) :
    (Node.map entries).visits = Node.visitsOfEntries entries := by
  cases entries with
  | nil => exact absurd rfl h
  | cons entry rest => rfl

theorem visits_collection? {kind : OpKind} {node : Node}
    (h : collection? kind elements = some node)
    (he : ∀ e ∈ elements, e.pairValue.isSome = e.isPair) : node.visits = visitsOf elements := by
  unfold collection? at h
  split at h
  case isTrue hplain =>
    have hnone : ∀ e ∈ elements, e.pairValue = none := by
      intro e hmem
      have hpair : e.isPair = false := by simpa using List.all_eq_true.1 hplain e hmem
      exact Option.not_isSome_iff_eq_none.1 (by simp [he e hmem, hpair])
    cases h
    rw [visitsOf_eq hnone]
    split <;> rfl
  case isFalse hnot =>
    split at h
    case isFalse => cases h
    case isTrue hpairs =>
      have hsome : ∀ e ∈ elements, e.pairValue.isSome := by
        intro e hmem
        rw [he e hmem]
        exact List.all_eq_true.1 hpairs e hmem
      cases h
      rw [← visitsOf_pairs hsome]
      refine visits_map ?_
      -- The empty map is written in another way: a literal with entries is not empty.
      cases elements with
      | nil => exact absurd rfl hnot
      | cons e rest =>
        obtain ⟨value, hvalue⟩ := Option.isSome_iff_exists.1 (hsome e List.mem_cons_self)
        simp [hvalue]

/-- **What a walk meets of a closed container**: the operand before it, what it opens with, and its
elements. -/
theorem Closed.visits {close : Span} (h : Closed N p close receivers elements o)
    (hr : ∀ r ∈ receivers, r.pairValue = none)
    (he : ∀ e ∈ elements, e.pairValue.isSome = e.isPair) :
    o.visits = visitsOf receivers ++ p.visits ++ visitsOf elements := by
  have args (hp : ∀ e ∈ elements, ¬ e.isPair) :
      visitsOf elements = Node.visitsOfList (elements.map (·.node)) := by
    refine visitsOf_eq fun e hmem => Option.not_isSome_iff_eq_none.1 ?_
    rw [he e hmem]
    exact hp e hmem
  cases h with
  | @group element _ hx hp =>
    rw [args (List.forall_mem_singleton.2 hp)]
    simp [Pending.visits, hx, Operand.visits, Node.visitsOfList]
  | collection hx hc =>
    rw [← visits_collection? hc he]
    simp [Pending.visits, hx, Operand.visits, Operand.object]
  | @lookup safe receiver key _ hx hp =>
    rw [args (List.forall_mem_singleton.2 hp), visitsOf_eq hr]
    simp [Pending.visits, hx, Operand.visits, Operand.object, Node.visits, Node.visitsOfList]
  | @named name args' node hx hp hc =>
    rw [args hp]
    cases hc <;> simp [Pending.visits, hx, Operand.visits, Operand.object, Node.visits]
  | call hx hp =>
    rw [args hp]
    simp [Pending.visits, hx, Operand.visits, Operand.object, Node.visits]
  | method hx hp =>
    rw [args hp, visitsOf_eq hr]
    simp [Pending.visits, hx, Operand.visits, Operand.object, Node.visits, Node.visitsOfList]
  | annotated hx hp =>
    rw [args hp]
    simp [Pending.visits, hx, Operand.visits, Operand.object, Node.visits]

/-- A closed container stands where its operand stood, and has no scope to leave. -/
theorem Closed.piece {close : Span} (h : Closed N p close receivers elements o) :
    p.taken = 0 ∧ p.closing = [] ∧ receivers.reverse = receivers := by
  cases h with
  | group _ he | collection he | lookup _ he | named he | call he | method he | annotated he =>
    simp [Pending.taken, Pending.closing, he]

/-- **Closing a container keeps what a walk meets.** -/
theorem trace_closed {close : Span} (hc : Closed N p close receivers elements o)
    (hr : ∀ r ∈ receivers, r.pairValue = none)
    (he : ∀ e ∈ elements, e.pairValue.isSome = e.isPair)
    (hlen : (receivers ++ below).length = p.base)
    (hbelow : ∀ q ∈ ps, q.base ≤ below.length) :
    trace (o :: below) ps = trace (elements.reverse ++ (receivers ++ below)) (p :: ps) := by
  obtain ⟨htaken, -, hreverse⟩ := hc.piece
  calc trace (o :: below) ps
    _ = trace below ps ++ o.visits := trace_cons hbelow
    _ = trace below ps ++ visitsOf receivers ++ p.visits ++ visitsOf elements := by
      rw [hc.visits hr he, ← List.append_assoc, ← List.append_assoc]
    _ = trace (receivers ++ below) ps ++ p.visits ++ visitsOf elements := by
      rw [trace_append receivers hbelow, hreverse]
    _ = trace (elements.reverse ++ (receivers ++ below)) (p :: ps) := by
      rw [trace_operator elements.reverse hlen, htaken, List.drop_zero, List.reverse_reverse]

end TagExpr.Parse
