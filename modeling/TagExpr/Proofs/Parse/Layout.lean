import TagExpr.Proofs.Parse.Derivation

/-!
# The layout of the two stacks

`Layout N mode os ps w` reads the operand stack `os` and the operator stack `ps`, both top first, as
one sequence of fragments and operators in source order, derived from the words `w` read so far. It
has one constructor for each way in which a token extends that sequence. In operator position the
sequence ends in a complete operand, in operand position one is still expected.

An operator on top of the stack has its operands right below, which the inversion lemmas say; they
are what applying an operator and closing a container rely on.
-/

namespace TagExpr.Parse

/-! ## Operators and what they come with -/

/-- The operators that may come where an operand is expected. -/
inductive Opens (N : Names) : OpKind → Extra → Prop
  | unary (op : UnaryOp) : Opens N (.unary op) .plain
  | group : Opens N .group .plain
  | listLiteral : Opens N .listLiteral .plain
  | setLiteral : Opens N .setLiteral .plain
  | bareCall (name : String) (lookup : Lookup) : Opens N .call (.bareCall name lookup)
  | annotated (name : String) : N.extensions.annotations → Opens N .call (.annotated name)

/-- The operators that may come after the operand `o`. -/
inductive Follows (N : Names) (o : Operand) : OpKind → Extra → Prop
  | binary (op : BinaryOp) : Follows N o (.binary op) .plain
  | ternary : Follows N o .ternary .plain
  | colon : Follows N o .colon .plain
  | sequence : Follows N o .sequence .plain
  | lookup (safe : Bool) : Follows N o (.lookup safe) .plain
  | assign {extra : Extra} : Target N o extra → Follows N o .assign extra
  | bind {extra : Extra} : Target N o extra → Follows N o .bind extra
  | stream (op : StreamOp) {binding : Option Nat} (mark : Nat) :
      (∀ slot ∈ binding, slot < N.slots.length) →
      Follows N o (.stream op) (.stream binding mark)
  | methodCall (name : String) (safe : Bool) : Follows N o .call (.methodCall name safe)

/-- The innermost open container is a list or set literal, which may hold entries. -/
def InCollection (ps : List Pending) : Prop :=
  ∃ c, ps.find? (·.op.kind.isContainer) = some c ∧
    (c.op.kind = .listLiteral ∨ c.op.kind = .setLiteral)

/-- The stacks hold, in source order, fragments and operators that are derived from the words. -/
inductive Layout (N : Names) : LexMode → List Operand → List Pending → List Word → Prop
  | start : Layout N .operand [] [] []
  | value {o : Operand} {os : List Operand} {ps : List Pending} {w v : List Word} :
      Layout N .operand os ps w → Derives N [o] v → (o.isPair → InCollection ps) →
      Layout N .operator (o :: os) ps (w ++ v)
  | opens {p : Pending} {os : List Operand} {ps : List Pending} {w : List Word} :
      Layout N .operand os ps w → Opens N p.op.kind p.extra → p.base = os.length →
      p.commas = 0 → Layout N .operand os (p :: ps) (w ++ p.words)
  | follows {p : Pending} {o : Operand} {os : List Operand} {ps : List Pending} {w : List Word} :
      Layout N .operator (o :: os) ps w → Follows N o p.op.kind p.extra →
      p.base = os.length + 1 → p.commas = 0 → (p.op.kind = .colon → InCollection ps) →
      Layout N .operand (o :: os) (p :: ps) (w ++ p.words)
  | colonSeen {p : Pending} {os : List Operand} {ps : List Pending} {w : List Word} :
      Layout N .operator os (p :: ps) w → p.op.kind = .ternary → p.extra = .plain →
      Layout N .operand os ({ p with extra := .colonSeen } :: ps) w
  | comma {p : Pending} {os : List Operand} {ps : List Pending} {w : List Word} :
      Layout N .operator os (p :: ps) w → p.op.kind.isVariadic →
      Layout N .operand os ({ p with commas := p.commas + 1 } :: ps) w

variable {N M : Names} {mode : LexMode} {o : Operand} {os : List Operand} {p : Pending}
  {ps : List Pending} {w : List Word}

theorem Opens.mono (hg : N.Grows M) {kind : OpKind} {extra : Extra} (h : Opens N kind extra) :
    Opens M kind extra := by
  cases h with
  | unary op => exact .unary op
  | group => exact .group
  | listLiteral => exact .listLiteral
  | setLiteral => exact .setLiteral
  | bareCall name lookup => exact .bareCall name lookup
  | annotated name he => exact .annotated name (hg.extensions ▸ he)

theorem Follows.mono (hg : N.Grows M) {kind : OpKind} {extra : Extra}
    (h : Follows N o kind extra) : Follows M o kind extra := by
  cases h with
  | binary op => exact .binary op
  | ternary => exact .ternary
  | colon => exact .colon
  | sequence => exact .sequence
  | lookup safe => exact .lookup safe
  | assign ht => exact .assign (ht.mono hg)
  | bind ht => exact .bind (ht.mono hg)
  | stream op mark hs =>
    exact .stream op mark fun slot hslot => Nat.lt_of_lt_of_le (hs slot hslot) hg.slots.length_le
  | methodCall name safe => exact .methodCall name safe

theorem Layout.mono (hg : N.Grows M) (h : Layout N mode os ps w) : Layout M mode os ps w := by
  induction h with
  | start => exact .start
  | value _ hd hp ih => exact .value ih (hd.mono hg) hp
  | opens _ ho hb hc ih => exact .opens ih (ho.mono hg) hb hc
  | follows _ hf hb hc hp ih => exact .follows ih (hf.mono hg) hb hc hp
  | colonSeen _ hk he ih => exact .colonSeen ih hk he
  | comma _ hv ih => exact .comma ih hv

/-! ## The floor of the innermost container -/

/-- The height of the operand stack below which everything belongs to the expression around the
innermost container. -/
def floorOf (ps : List Pending) : Nat :=
  ((ps.find? (·.op.kind.isContainer)).map (·.base)).getD 0

theorem floorOf_cons_of_container (h : p.op.kind.isContainer) : floorOf (p :: ps) = p.base := by
  simp [floorOf, h]

theorem floorOf_cons_of_not (h : ¬ p.op.kind.isContainer) : floorOf (p :: ps) = floorOf ps := by
  simp [floorOf, h]

/-- No operand of the innermost container lies below its floor, and in operator position there is
one above it. -/
theorem Layout.floor_le (h : Layout N mode os ps w) :
    floorOf ps + (if mode = .operator then 1 else 0) ≤ os.length := by
  induction h with
  | start => simp [floorOf]
  | value _ _ _ ih => simpa using ih
  | @opens p _ _ _ _ _ hb _ ih =>
    by_cases hc : p.op.kind.isContainer
    · simp [floorOf_cons_of_container hc, hb]
    · simpa [floorOf_cons_of_not hc] using ih
  | @follows p _ _ _ _ _ _ hb _ _ ih =>
    by_cases hc : p.op.kind.isContainer
    · simp [floorOf_cons_of_container hc, hb]
    · simp only [floorOf_cons_of_not hc]
      simp at ih ⊢
      omega
  | @colonSeen p _ ps _ _ hk _ ih =>
    have hc : ¬ p.op.kind.isContainer := by simp [hk, OpKind.isContainer, OpKind.closer?]
    rw [floorOf_cons_of_not hc] at ih
    rw [floorOf_cons_of_not (p := { p with extra := .colonSeen }) hc]
    simp at ih ⊢
    omega
  | @comma p _ ps _ _ hv ih =>
    have hc : p.op.kind.isContainer := by
      cases hk : p.op.kind <;> simp_all [OpKind.isVariadic, OpKind.isContainer, OpKind.closer?]
    rw [floorOf_cons_of_container hc] at ih
    rw [floorOf_cons_of_container (p := { p with commas := p.commas + 1 }) hc]
    simp at ih ⊢
    omega

/-! ## Operands of the operator on top -/

theorem Opens.not_ternary {kind : OpKind} {extra : Extra} (h : Opens N kind extra) :
    kind ≠ .ternary := by
  cases h <;> simp

theorem isContainer_of_isVariadic {kind : OpKind} (h : kind.isVariadic) : kind.isContainer := by
  cases kind <;> simp_all [OpKind.isVariadic, OpKind.isContainer, OpKind.closer?]

/-- In operator position the top of the operand stack is complete. -/
theorem Layout.top_value (h : Layout N .operator os ps w) :
    ∃ o below u v, os = o :: below ∧ w = u ++ v ∧ Layout N .operand below ps u ∧
      Derives N [o] v ∧ (o.isPair → InCollection ps) := by
  cases h with
  | value hl hd hp => exact ⟨_, _, _, _, rfl, rfl, hl, hd, hp⟩

theorem Layout.below_unary (h : Layout N .operand os (p :: ps) w) {op : UnaryOp}
    (hk : p.op.kind = .unary op) : p.extra = .plain ∧ Layout N .operand os ps w := by
  cases h with
  | opens hl ho _ _ =>
    rw [hk] at ho
    generalize he : p.extra = extra at ho
    cases ho
    exact ⟨rfl, by simpa [Pending.words, he] using hl⟩
  | follows _ hf _ _ _ =>
    rw [hk] at hf
    cases hf
  | colonSeen _ hk' _ => simp_all
  | comma _ hv => simp_all [OpKind.isVariadic]

/-- An infix operator other than the question mark: it waits between its two operands. -/
def isJoining : OpKind → Bool
  | .binary _ | .colon | .assign | .bind | .stream _ | .sequence => true
  | _ => false

theorem Layout.below_joining (h : Layout N .operand os (p :: ps) w) (hk : isJoining p.op.kind) :
    ∃ o below u v, os = o :: below ∧ w = u ++ v ∧ Layout N .operand below ps u ∧
      Derives N [o] v ∧ Follows N o p.op.kind p.extra ∧
      (p.op.kind = .colon → InCollection ps) := by
  cases h with
  | opens _ ho _ _ =>
    generalize p.op.kind = kind, p.extra = extra at ho hk
    cases ho <;> cases hk
  | @follows _ o below _ _ hl hf _ _ hp =>
    obtain ⟨_, _, u, v, heq, rfl, hb, hd, -⟩ := hl.top_value
    cases heq
    refine ⟨o, below, u, v, rfl, ?_, hb, hd, hf, hp⟩
    -- Only a method call comes with a word, and it is a container.
    have hw : p.words = [] := by
      unfold Pending.words
      generalize p.op.kind = kind, p.extra = extra at hf hk
      cases hf with
      | methodCall => cases hk
      | assign ht | bind ht => cases ht <;> rfl
      | _ => rfl
    rw [hw, List.append_nil]
  | colonSeen _ hk' _ => simp_all [isJoining]
  | @comma q _ _ _ _ hv => cases hq : q.op.kind <;> simp_all [OpKind.isVariadic, isJoining]

theorem Layout.below_ternary (h : Layout N .operand os (p :: ps) w) (hk : p.op.kind = .ternary)
    (he : p.extra = .colonSeen) :
    ∃ yes condition below u v, os = yes :: condition :: below ∧ w = u ++ v ∧
      Layout N .operand below ps u ∧ Derives N [condition, yes] v := by
  cases h with
  | opens _ ho _ _ => exact absurd hk ho.not_ternary
  | follows _ hf _ _ _ =>
    rw [hk, he] at hf
    cases hf
  | @colonSeen q _ _ _ hl _ hq =>
    obtain ⟨yes, os', u, v, rfl, rfl, hl', hd, -⟩ := hl.top_value
    cases hl' with
    | opens _ ho _ _ => exact absurd hk ho.not_ternary
    | @follows _ condition below _ _ hl'' _ _ _ _ =>
      obtain ⟨_, _, u', v', heq, rfl, hb, hd', -⟩ := hl''.top_value
      cases heq
      refine ⟨yes, condition, below, u', v' ++ v, rfl, ?_, hb, .cons hd' hd⟩
      simp [Pending.words, hq]
    | colonSeen => cases hq
    | comma _ hv => simp_all [OpKind.isVariadic]
  | comma _ hv => simp_all [OpKind.isVariadic]

theorem Layout.top_kind (h : Layout N .operand os (p :: ps) w) :
    p.op.kind.isContainer ∨ isJoining p.op.kind ∨ p.op.kind = .ternary ∨
      ∃ op, p.op.kind = .unary op := by
  cases h with
  | opens _ ho _ _ =>
    generalize p.op.kind = kind, p.extra = extra at ho
    cases ho <;> simp [OpKind.isContainer, OpKind.closer?, isJoining]
  | follows _ hf _ _ _ =>
    generalize p.op.kind = kind, p.extra = extra at hf
    cases hf <;> simp [OpKind.isContainer, OpKind.closer?, isJoining]
  | colonSeen _ hk _ => exact .inr (.inr (.inl hk))
  | comma _ hv => exact .inl (isContainer_of_isVariadic hv)

/-- The operands that the operator on top takes. -/
inductive Takes (N : Names) (p : Pending) : List Operand → Prop
  | unary {op : UnaryOp} {x : Operand} : p.op.kind = .unary op → p.extra = .plain → Takes N p [x]
  | joining {left right : Operand} : isJoining p.op.kind → Follows N left p.op.kind p.extra →
      Takes N p [left, right]
  | ternary {condition yes no : Operand} : p.op.kind = .ternary → p.extra = .colonSeen →
      Takes N p [condition, yes, no]

/-- In operator position the operands of the operator on top are complete, unless it is a question
mark without its colon. -/
theorem Layout.takes (h : Layout N .operator os (p :: ps) w) (hc : ¬ p.op.kind.isContainer)
    (ht : p.op.kind = .ternary → p.extra = .colonSeen) :
    ∃ args below u v, os = args.reverse ++ below ∧ w = u ++ v ∧ Layout N .operand below ps u ∧
      Derives N args v ∧ Takes N p args ∧ (p.op.kind = .colon → InCollection ps) := by
  obtain ⟨o, os', u, v, rfl, rfl, hl, hd, -⟩ := h.top_value
  rcases hl.top_kind with hk | hk | hk | ⟨op, hk⟩
  · exact absurd hk hc
  · obtain ⟨left, below, u', v', rfl, rfl, hl', hd', hf, hp⟩ := hl.below_joining hk
    exact ⟨[left, o], below, u', v' ++ v, rfl, by simp, hl', .cons hd' hd, .joining hk hf, hp⟩
  · obtain ⟨yes, condition, below, u', v', rfl, rfl, hl', hd'⟩ := hl.below_ternary hk (ht hk)
    exact ⟨[condition, yes, o], below, u', v' ++ v, rfl, by simp, hl', hd'.append hd,
      .ternary hk (ht hk), by simp [hk]⟩
  · obtain ⟨he, hl'⟩ := hl.below_unary hk
    exact ⟨[o], os', u, v, rfl, rfl, hl', hd, .unary hk he, by simp [hk]⟩

/-! ## Contents of a container -/

/-- How a container was opened: on its own, or after an operand that it takes. -/
inductive Opened (N : Names) (kind : OpKind) (extra : Extra) (ps : List Pending) :
    List Operand → List Word → Prop
  | alone {below : List Operand} {u : List Word} : Layout N .operand below ps u →
      Opens N kind extra → Opened N kind extra ps below u
  | after {o : Operand} {below : List Operand} {u : List Word} :
      Layout N .operator (o :: below) ps u → Follows N o kind extra →
      Opened N kind extra ps (o :: below) u

theorem mem_collection_of_pair (hc : p.op.kind.isContainer) (h : InCollection (p :: ps)) :
    p.op.kind = .listLiteral ∨ p.op.kind = .setLiteral := by
  obtain ⟨c, hf, hk⟩ := h
  simp only [List.find?_cons, hc, Option.some.injEq] at hf
  rwa [← hf] at hk

/-- What lies on the stacks from the container `p` on: the container came upon the operands `below`,
which take the words `u`, and holds the elements, which take the words `v`. -/
structure Contents (N : Names) (p : Pending) (ps : List Pending) (elements below : List Operand)
    (u v : List Word) : Prop where
  base : below.length = p.base
  opened : Opened N p.op.kind p.extra ps below u
  derives : Derives N elements v
  variadic : p.commas ≠ 0 → p.op.kind.isVariadic
  pairs : ∀ e ∈ elements, e.isPair → p.op.kind = .listLiteral ∨ p.op.kind = .setLiteral

/-- Where an operand is expected a container holds one element for each of its commas. -/
theorem Layout.contents (h : Layout N .operand os (p :: ps) w) (hc : p.op.kind.isContainer) :
    ∃ elements below u v, os = elements.reverse ++ below ∧ w = u ++ p.words ++ v ∧
      elements.length = p.commas ∧ Contents N p ps elements below u v := by
  -- The induction is on the commas: taking one back leads to the operand in front of it.
  induction hn : p.commas generalizing p os w with
  | zero =>
    cases h with
    | opens hl ho hb _ =>
      exact ⟨[], os, _, [], rfl, by simp, rfl, hb.symm, .alone hl ho, .nil, by simp [hn], by simp⟩
    | follows hl hf hb _ _ =>
      exact ⟨[], _, _, [], rfl, by simp, rfl, by simp [hb], .after hl hf, .nil, by simp [hn],
        by simp⟩
    | colonSeen _ hk _ => simp_all [OpKind.isContainer, OpKind.closer?]
    | comma => simp at hn
  | succ n ih =>
    cases h with
    | opens _ _ _ h0 => omega
    | follows _ _ _ h0 _ => omega
    | colonSeen _ hk _ => simp_all [OpKind.isContainer, OpKind.closer?]
    | @comma q _ _ _ hl hv =>
      obtain ⟨o, os', u', v', rfl, rfl, hl', hd, hp⟩ := hl.top_value
      obtain ⟨elements, below, u, v, rfl, rfl, hlen, hcont⟩ := ih hl' hc (by simpa using hn)
      refine ⟨elements ++ [o], below, u, v ++ v', by simp, by simp [Pending.words], by simp [hlen],
        hcont.base, hcont.opened, hcont.derives.append hd, fun _ => hv, ?_⟩
      intro e he hpair
      rcases List.mem_append.mp he with he | he
      · exact hcont.pairs e he hpair
      · rw [List.mem_singleton.mp he] at hpair
        exact mem_collection_of_pair (p := q) hc (hp hpair)

/-- After an operand it holds one more. -/
theorem Layout.contents_operator (h : Layout N .operator os (p :: ps) w)
    (hc : p.op.kind.isContainer) :
    ∃ elements below u v, os = elements.reverse ++ below ∧ w = u ++ p.words ++ v ∧
      elements.length = p.commas + 1 ∧ Contents N p ps elements below u v := by
  obtain ⟨o, os', u', v', rfl, rfl, hl, hd, hp⟩ := h.top_value
  obtain ⟨elements, below, u, v, rfl, rfl, hlen, hcont⟩ := hl.contents hc
  refine ⟨elements ++ [o], below, u, v ++ v', by simp, by simp, by simp [hlen], hcont.base,
    hcont.opened, hcont.derives.append hd, hcont.variadic, ?_⟩
  intro e he hpair
  rcases List.mem_append.mp he with he | he
  · exact hcont.pairs e he hpair
  · rw [List.mem_singleton.mp he] at hpair
    exact mem_collection_of_pair hc (hp hpair)

end TagExpr.Parse
