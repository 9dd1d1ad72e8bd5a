import TagExpr.Proofs.Parse.Whole

/-!
# The operands of open containers

An open container holds one operand for each of its commas, what its waiting operators have taken
from their left, and in operator position the operand just completed. The count holds in every round
of every run, in interpolated expressions too, and no step of the parser runs out of operands: an
unexpected end is reported only where a text really ends short.
-/

namespace TagExpr.Parse

variable {ε : Type} {N : Names} {mode : LexMode} {os : List Operand} {ps : List Pending}
  {w : List Word}

/-! ## Counting -/

/-- The operands on the left of a waiting operator that belong to it: one if it takes one, and for a
question mark one more when its colon has been seen. -/
def Pending.owed (p : Pending) : Nat :=
  match p.op.kind, p.extra with
  | .ternary, .colonSeen => 2
  | .call, .methodCall .. => 1
  | kind, _ => if kind.hasLeft then 1 else 0

/-- A part of the operand stack that belongs to one open container. -/
structure Region where
  base : Nat
  commas : Nat
  /-- What the waiting operators of the region are owed. -/
  owed : Nat

/-- The height to which the operand stack reaches where the region expects an operand. -/
def Region.height (r : Region) : Nat := r.base + r.commas + r.owed

def Region.wait (r : Region) (p : Pending) : Region := { r with owed := r.owed + p.owed }

/-- The region of the innermost open container, or of the whole expression. -/
def innermost : List Pending → Region
  | [] => ⟨0, 0, 0⟩
  | p :: ps => if p.op.kind.isContainer then ⟨p.base, p.commas, 0⟩ else (innermost ps).wait p

/-- The regions around, each with the base of the container that was opened in it. -/
def enclosing : List Pending → List (Region × Nat)
  | [] => []
  | p :: ps =>
    if p.op.kind.isContainer then ((innermost ps).wait p, p.base) :: enclosing ps else enclosing ps

/-- Every region around is as high as its commas and waiting operators say, and the operand stack is
by `extra` operands higher than those of the innermost one. -/
structure Counts (height extra : Nat) (ps : List Pending) : Prop where
  inner : height = (innermost ps).height + extra
  outer : ∀ r ∈ enclosing ps, r.2 = r.1.height

/-- The operands of every region are counted; in operator position the innermost region has one
more, which has just been completed. -/
def Balanced (mode : LexMode) (b : Bench ε) : Prop :=
  Counts b.operands.size (if mode = .operator then 1 else 0) b.operators.toList

/-! ## One token -/

theorem Opens.owed {p : Pending} (h : Opens N p.op.kind p.extra) : p.owed = 0 := by
  unfold Pending.owed
  generalize p.op.kind = kind, p.extra = extra at h
  cases h <;> rfl

theorem Follows.owed {o : Operand} {p : Pending} (h : Follows N o p.op.kind p.extra) :
    p.owed = 1 := by
  unfold Pending.owed
  generalize p.op.kind = kind, p.extra = extra at h
  cases h with
  | assign ht | bind ht => cases ht <;> rfl
  | _ => rfl

theorem Counts.value {height : Nat} (h : Counts height 0 ps) : Counts (height + 1) 1 ps :=
  ⟨by rw [h.inner, Nat.add_zero], h.outer⟩

/-- An operator starts to wait for what it is owed. -/
theorem Counts.push {height : Nat} {p : Pending} (h : Counts height p.owed ps)
    (hb : p.base = height) (hc : p.commas = 0) : Counts height 0 (p :: ps) := by
  have hwait : height = ((innermost ps).wait p).height := by
    have := h.inner
    simp only [Region.height, Region.wait] at this ⊢
    omega
  -- A container begins a region, and the one around it waits from now on.
  by_cases hk : p.op.kind.isContainer
  · constructor
    · simp [innermost, hk, Region.height, hb, hc]
    · intro r hr
      rw [enclosing, if_pos hk] at hr
      rcases List.mem_cons.mp hr with rfl | hr
      · show p.base = ((innermost ps).wait p).height
        rw [hb, ← hwait]
      · exact h.outer r hr
  · constructor
    · rw [innermost, if_neg hk, Nat.add_zero]
      exact hwait
    · rw [enclosing, if_neg hk]
      exact h.outer

/-- A question mark is owed one more operand once its colon has been seen. -/
theorem Counts.colonSeen {height : Nat} {p : Pending} (h : Counts height 1 (p :: ps))
    (hk : p.op.kind = .ternary) (he : p.extra = .plain) :
    Counts height 0 ({ p with extra := .colonSeen } :: ps) := by
  have hc : ¬ p.op.kind.isContainer := by simp [hk, OpKind.isContainer, OpKind.closer?]
  obtain ⟨hin, hout⟩ := h
  rw [innermost, if_neg hc] at hin
  rw [enclosing, if_neg hc] at hout
  constructor
  · rw [innermost, if_neg hc]
    simp only [Region.height, Region.wait, Pending.owed, hk, he, OpKind.hasLeft] at hin ⊢
    simp only [if_true] at hin
    omega
  · rw [enclosing, if_neg hc]
    exact hout

/-- A comma counts the operand before it. -/
theorem Counts.comma {height : Nat} {p : Pending} (h : Counts height 1 (p :: ps))
    (hc : p.op.kind.isContainer) :
    Counts height 0 ({ p with commas := p.commas + 1 } :: ps) := by
  obtain ⟨hin, hout⟩ := h
  rw [innermost, if_pos hc] at hin
  rw [enclosing, if_pos hc] at hout
  constructor
  · rw [innermost, if_pos hc]
    simp only [Region.height] at hin ⊢
    omega
  · rw [enclosing, if_pos hc]
    exact hout

/-- Stacks that are laid out are counted. -/
theorem Layout.counts (h : Layout N mode os ps w) :
    Counts os.length (if mode = .operator then 1 else 0) ps := by
  induction h with
  | start => exact ⟨rfl, by simp [enclosing]⟩
  | value _ _ _ ih => exact ih.value
  | opens _ ho hb hc ih => exact .push (by rw [ho.owed]; exact ih) hb hc
  | follows _ hf hb hc _ ih => exact .push (by rw [hf.owed]; exact ih) hb hc
  | colonSeen _ hk he ih => exact ih.colonSeen hk he
  | comma _ hv ih => exact ih.comma (isContainer_of_isVariadic hv)

variable {b b' : Bench ε} {r : Round ε} {c : Pending}

theorem Stands.balanced (h : Stands N mode b w) : Balanced mode b := h.layout.counts

/-! ## What the count is good for -/

theorem Counts.of_container {height extra : Nat} (h : Counts height extra (c :: ps))
    (hc : c.op.kind.isContainer) : height = c.base + c.commas + extra := by
  have := h.inner
  rw [innermost, if_pos hc] at this
  simpa [Region.height] using this

/-- A round in which no step runs out of operands. -/
structure Round.Counted (r : Round ε) : Prop where
  balanced : Balanced r.mode r.bench
  /-- After an operand, once all operators above it are applied, the innermost container holds one
  operand more than commas. -/
  container : r.mode = .operator → ∀ b', reduceToContainer r.bench = .ok () b' →
    ∀ c ∈ b'.operators.peek?, c.base ≤ b'.operands.size ∧
      b'.operands.size - c.base = c.commas + 1
  /-- Right after its opener or a comma, a container holds as many operands as commas. -/
  opened : r.mode = .operand → ∀ c ∈ r.bench.operators.peek?, c.op.kind.isContainer →
    c.base ≤ r.bench.operands.size ∧ r.bench.operands.size - c.base = c.commas
  /-- Once everything is applied, one operand is left. -/
  finish : r.mode = .operator → ∀ b', reduceWhile (fun _ => true) r.bench = .ok () b' →
    b'.operands.size = 1
  /-- Operators always find their operands above the floor. -/
  apply : r.mode = .operator → ∀ q e b', reduceWhile q r.bench = .error e b' → Regular e
  /-- Nor does any other step run out of operands, unless the text ends short. -/
  fails : ∀ e b', r.run = .error e b' → r.Fails e

theorem Round.LaidOut.counted (h : r.LaidOut) : r.Counted := by
  obtain ⟨⟨N, w, hs⟩, hfuel⟩ := h
  refine ⟨hs.balanced, ?_, ?_, ?_, ?_, ?_⟩
  · intro hm b' hrun c hpeek
    rw [hm] at hs
    obtain ⟨hs', hops⟩ := (hs.reduceWhile _).ok hrun
    obtain ⟨below, heq⟩ := List.head?_eq_some_iff.mp hpeek
    have hc : c.op.kind.isContainer := by
      rw [hops] at heq
      exact isContainer_of_dropWhile heq
    have hbalanced : Counts _ _ _ := hs'.balanced
    rw [heq] at hbalanced
    have := hbalanced.of_container hc
    simp only [if_true] at this
    omega
  · intro hm c hpeek hc
    obtain ⟨below, heq⟩ := List.head?_eq_some_iff.mp hpeek
    have hbalanced : Counts _ _ _ := hs.balanced
    rw [heq, hm] at hbalanced
    have := hbalanced.of_container hc
    simp only [reduceCtorEq, if_false] at this
    omega
  · intro hm b' hrun
    rw [hm] at hs
    obtain ⟨hs', hops⟩ := (hs.reduceWhile _).ok hrun
    have hnil : b'.operators.toList = [] := by simp [hops]
    have hbalanced : Counts _ _ _ := hs'.balanced
    rw [hnil] at hbalanced
    simpa [innermost, Region.height] using hbalanced.inner
  · intro hm q e b' hrun
    rw [hm] at hs
    exact (hs.reduceWhile q).error hrun
  · intro e b' hrun
    exact (ends_rounds r.base hs hfuel).error hrun

/-- In every round that the parse of a text comes to, the operands of all open containers are
counted and no step runs out of them. So no fault speaks of a missing element or of a trailing
comma, and only a text that ends short ends unexpectedly. -/
theorem operands_balanced (text : String) (offset : Nat) (scope : TemplateScope ε) :
    (∀ first, firstRound? text offset scope = some first →
      ∀ r, Visits first r → r.Counted) ∧
    (∀ e, (parse text offset scope).1 = .error e →
      e.fault ≠ .missingElement ∧ e.fault ≠ .trailingComma ∧
      (e.fault = .unexpectedEnd → ∃ first r, firstRound? text offset scope = some first ∧
        Visits first r ∧ r.EndsShort e)) := by
  constructor
  · intro first hfirst r hv
    exact (hv.laidOut (firstRound?_laidOut hfirst)).counted
  · intro e he
    rcases parse_error he with hr | ⟨first, b, hfirst, hrun⟩
    · exact ⟨hr.1, hr.2.1, fun h => absurd h hr.2.2⟩
    · -- The round that ends short may be that of an interpolated expression.
      rcases (firstRound?_laidOut hfirst).counted.fails e b hrun with hr | ⟨r, hv, hshort⟩
      · exact ⟨hr.1, hr.2.1, fun h => absurd h hr.2.2⟩
      · have hend : e.fault = .unexpectedEnd := by
          rcases hshort with ⟨-, token, after, -, -, rfl⟩ | ⟨-, _, _, _, -, h⟩
          · rfl
          · obtain ⟨_, _, _, -, -, -, rfl⟩ := h
            rfl
        exact ⟨by simp [hend], by simp [hend], fun _ => ⟨first, r, hfirst, hv, hshort⟩⟩

theorem operands_balanced_of_dangling :
    (parse "(1 +" 0 (TemplateScope.fresh : TemplateScope Nat)).1 =
        .error ⟨.unexpectedEnd, ⟨4, 4⟩⟩ ∧
      ∃ first r, firstRound? "(1 +" 0 (TemplateScope.fresh : TemplateScope Nat) = some first ∧
        Visits first r ∧ r.EndsShort ⟨.unexpectedEnd, ⟨4, 4⟩⟩ := by
  have h : (parse "(1 +" 0 (TemplateScope.fresh : TemplateScope Nat)).1 =
      .error ⟨.unexpectedEnd, ⟨4, 4⟩⟩ := rfl
  exact ⟨h, ((operands_balanced _ _ _).2 _ h).2.2 rfl⟩

end TagExpr.Parse
