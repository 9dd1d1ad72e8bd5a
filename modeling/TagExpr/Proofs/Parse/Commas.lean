import TagExpr.Proofs.Parse.Altered
import TagExpr.Proofs.Parse.Balance

/-!
# Trailing commas

A comma on a line of its own, right before a closer, changes nothing where the closer follows an
element of a container that may hold several. It is rejected before the closer of a group or of an
index, and a comma with no element before it is rejected everywhere (`trailing_commas`). Up to the
comma the text is read as it is without it, and the closer makes of the container what it made of it
before, since the comma is only counted (`close_behind_comma`).
-/

namespace TagExpr

/-- What follows where a comma on a line of its own is put before a text. -/
def commaBefore (x : List Char) : List Char := '\n' :: ',' :: x

theorem stops_commaBefore (x : List Char) : Token.Stops (commaBefore x) :=
  ⟨'\n', ',' :: x, rfl, rfl⟩

/-! ## Signatures -/

namespace Signature

variable {lexemes : List (List Char)} {name text p x : List Char}

/-- Behind each comma among the lexemes stands a name. -/
inductive Listed : List (List Char) → Prop
  | nil : Listed []
  | plain {lexeme : List Char} {lexemes : List (List Char)} :
      ',' ∉ lexeme → Listed lexemes → Listed (lexeme :: lexemes)
  | comma {name : List Char} {lexemes : List (List Char)} :
      IsName name → Listed (name :: lexemes) → Listed ([','] :: name :: lexemes)

theorem Laid.behind_comma (h : Laid lexemes text) (hl : Listed lexemes) {d : Char}
    (htext : text = p ++ ',' :: d :: x) : Text.isSeparator d ∨ Token.isNameStart d := by
  induction h generalizing p with
  | nil => simp at htext
  | separator hsep _ ih =>
    cases p with
    | nil =>
      obtain ⟨rfl, -⟩ := List.cons.inj htext
      cases hsep
    | cons _ p => exact ih hl (List.cons.inj htext).2
  | lexeme h ih =>
    cases hl with
    | plain hnone hlater =>
      rcases List.append_eq_append_iff.mp htext with ⟨part, -, hrest⟩ | ⟨part, hlexeme, hrest⟩
      · exact ih hlater hrest
      · cases part with
        | nil => exact ih (p := []) hlater hrest.symm
        | cons e part =>
          obtain ⟨rfl, -⟩ := List.cons.inj hrest
          exact absurd (by simp [hlexeme]) hnone
    | comma hname hlater =>
      cases p with
      | cons _ p => exact ih hlater (List.cons.inj htext).2
      | nil =>
        obtain ⟨gap, more, hrest, hgap, -⟩ := laid_cons_iff.mp h
        obtain rfl : _ = d :: x := (List.cons.inj htext).2
        cases gap with
        | nil =>
          obtain ⟨e, tail, rfl, hstart, -⟩ := hname.cons
          obtain ⟨rfl, -⟩ := List.cons.inj hrest
          exact .inr hstart
        | cons e gap =>
          obtain ⟨rfl, -⟩ := List.cons.inj hrest
          exact .inl (hgap _ List.mem_cons_self)

theorem IsName.no_comma (h : IsName name) : ',' ∉ name := fun hmem => by cases h.part _ hmem

theorem listed_laterParams {names more : List (List Char)} (h : ∀ n ∈ names, IsName n)
    (hmore : Listed more) : Listed (laterParams names ++ more) := by
  induction names with
  | nil => exact .plain (by decide) hmore
  | cons name names ih =>
    have hname := h name List.mem_cons_self
    exact .comma hname (.plain hname.no_comma (ih fun n hn => h n (List.mem_cons_of_mem _ hn)))

theorem listed_arrow (discard : Bool) : Listed [arrow discard] := by
  cases discard <;> exact .plain (by decide) .nil

/-- The last lexeme is an arrow. -/
def Arrowed (lexemes : List (List Char)) : Prop :=
  ∃ before last, lexemes = before ++ [last] ∧ last.getLast? = some '>'

theorem Arrowed.getLast? (h : Arrowed lexemes) (hl : Laid lexemes text) :
    text.getLast? = some '>' := by
  obtain ⟨before, last, rfl, hlast⟩ := h
  obtain ⟨written, tail, rfl, -, htail⟩ := hl.split
  obtain ⟨gap, rest, rfl, -, hrest⟩ := laid_cons_iff.mp htail
  cases hrest
  simp [List.getLast?_append, hlast]

theorem ClauseLexemes.listed (h : ClauseLexemes lexemes) : Listed lexemes ∧ Arrowed lexemes := by
  obtain ⟨name, hname, rfl⟩ := h
  exact ⟨.plain hname.1.no_comma (.plain (by decide) .nil), [name], clauseArrow, rfl, rfl⟩

theorem DefinitionLexemes.listed (h : DefinitionLexemes lexemes) :
    Listed lexemes ∧ Arrowed lexemes := by
  obtain ⟨name, params, discard, hname, hparams, hheads⟩ := h
  have harrow : (arrow discard).getLast? = some '>' := by cases discard <;> rfl
  cases hheads with
  | bare => exact ⟨.plain hname.1.no_comma (listed_arrow discard), [name], _, rfl, harrow⟩
  | list =>
    have hhead : ',' ∉ name ++ ['('] := by simp [hname.1.no_comma]
    refine ⟨.plain hhead ?_, (name ++ ['(']) :: paramLexemes params, _, rfl, harrow⟩
    cases params with
    | nil => exact @listed_laterParams [] _ (by simp) (listed_arrow discard)
    | cons first params =>
      refine .plain (hparams first List.mem_cons_self).no_comma ?_
      exact listed_laterParams (fun n hn => hparams n (List.mem_cons_of_mem _ hn))
        (listed_arrow discard)

/-- Neither a name nor a separator begins the text. -/
def Blocks (x : List Char) : Prop :=
  ∀ c ∈ x.head?, Text.isSeparator c = false ∧ Token.isNameStart c = false

/-- No signature runs past a comma that no name follows. -/
theorem Begins.before_comma {P : List (List Char) → Prop}
    (hP : ∀ lexemes, P lexemes → Listed lexemes ∧ Arrowed lexemes) (hx : Blocks x)
    (h : Begins P (p ++ commaBefore x)) : Begins P (p ++ x) := by
  obtain ⟨lexemes, written, rest, hlex, hlaid, heq⟩ := h
  obtain ⟨hlisted, harrow⟩ := hP lexemes hlex
  have hlast := harrow.getLast? hlaid
  rcases List.append_eq_append_iff.mp heq with ⟨part, rfl, hpart⟩ | ⟨part, rfl, -⟩
  · match part with
    | [] => exact ⟨lexemes, p, x, hlex, by simpa using hlaid, rfl⟩
    | [d] =>
      obtain ⟨rfl, -⟩ := List.cons.inj hpart
      simp at hlast
    | [d, e] =>
      obtain ⟨rfl, htail⟩ := List.cons.inj hpart
      obtain ⟨rfl, -⟩ := List.cons.inj htail
      simp at hlast
    | d :: e :: f :: part =>
      obtain ⟨rfl, htail⟩ := List.cons.inj hpart
      obtain ⟨rfl, rfl⟩ := List.cons.inj htail
      obtain ⟨hsep, hstart⟩ := hx f rfl
      have hwritten : p ++ '\n' :: ',' :: f :: part = (p ++ ['\n']) ++ ',' :: f :: part := by simp
      rcases hlaid.behind_comma hlisted hwritten with h | h
      · cases hsep.symm.trans h
      · cases hstart.symm.trans h
  · exact ⟨lexemes, written, part ++ x, hlex, hlaid, by simp⟩

end Signature

theorem alters_commaBefore {x : List Char} (h : Signature.Blocks x) :
    Alters x (commaBefore x) 2 where
  token p := (stops_commaBefore x).keeps p x
  clause _ begins := begins.before_comma (fun _ => Signature.ClauseLexemes.listed) h
  definition _ begins := begins.before_comma (fun _ => Signature.DefinitionLexemes.listed) h
  length := rfl

/-! ## Tokens -/

namespace Token

variable {c after : Cursor} {symbol : String} {span : Span} {x : List Char}

/-- Before the symbol there is what is skipped. -/
theorem gap_of_symbol (h : next .operator c = .ok (⟨.operator symbol, span⟩, after)) :
    ∃ gap, c.rest = gap ++ (symbol.toList ++ after.rest) ∧ Skips .operator gap := by
  obtain ⟨found, hskip, hread⟩ := next_eq h
  obtain ⟨-, hfinish, -⟩ | ⟨hne, count, -, spelt, rfl⟩ := read_cases hread
  · cases hfinish
  obtain ⟨offset, text⟩ := c
  obtain ⟨gap, rfl, skips, -⟩ := skip_gap hskip hne
  refine ⟨gap, ?_, skips⟩
  have hsymbol : symbol = String.ofList (found.rest.take count) := by
    unfold Spelt at spelt
    simp only at spelt
    split at spelt
    · cases spelt
    · cases spelt
      rfl
  rw [hsymbol, String.toList_ofList]
  exact congrArg (gap ++ ·) (List.take_append_drop count found.rest).symm

theorem next_commaBefore (offset : Nat) (x : List Char) :
    next .operator ⟨offset, commaBefore x⟩ =
      .ok (⟨.comma, Span.ofRange (offset + 1) (offset + 2)⟩, ⟨offset + 2, x⟩) := by
  rfl

/-- Where an operand is expected a closer is read as well. -/
theorem next_closer (h : Operator.closers.contains symbol) (offset : Nat) (rest : List Char) :
    next .operand ⟨offset, symbol.toList ++ rest⟩ =
      .ok (⟨.operator symbol, Span.ofRange offset (offset + 1)⟩, ⟨offset + 1, rest⟩) := by
  simp only [Operator.closers, List.contains_cons, Bool.or_eq_true, beq_iff_eq] at h
  rcases h with rfl | rfl | rfl | h
  · rfl
  · rfl
  · rfl
  · cases h

theorem blocks_closer (h : Operator.closers.contains symbol) (rest : List Char) :
    Signature.Blocks (symbol.toList ++ rest) := by
  simp only [Operator.closers, List.contains_cons, Bool.or_eq_true, beq_iff_eq] at h
  rcases h with rfl | rfl | rfl | h
  all_goals first | (rintro c ⟨⟩; decide) | cases h

end Token

namespace Parse

variable {ε : Type} {N : Names} {w : List Word} {b b' b₁ : Bench ε} {c : Pending} {o : Operand}
  {symbol : String} {span : Span} {extensions : Extensions}

/-! ## The closer behind the comma -/

theorem Operand.Twin.moved (o : Operand) (span : Span) :
    Operand.Twin (SpanRelation.anywhere.likeness extensions) o { o with span } := by
  have twin : Operand.Twin (SpanRelation.anywhere.likeness extensions) o
      { o with span, name := o.name.map id } := .intro o trivial
  rwa [Option.map_id_apply] at twin

theorem Operand.Twin.same (o : Operand) :
    Operand.Twin (SpanRelation.anywhere.likeness extensions) o o := .moved o o.span

theorem Pending.Twin.same (p : Pending) :
    Pending.Twin (SpanRelation.anywhere.likeness extensions) p p := by
  have twin : Pending.Twin (SpanRelation.anywhere.likeness extensions) p
      { p with extra := p.extra.rename id } := .intro p trivial
  have extra : p.extra.rename id = p.extra := by
    cases p.extra <;> rfl
  rwa [extra] at twin

theorem Bench.Twin.same (b : Bench ε) :
    Bench.Twin (SpanRelation.anywhere.likeness b.scope.extensions) b b :=
  ⟨.of_likeness b.scope, b.tables.rename_id.symm, List.forall₂_same.mpr fun o _ => .same o,
    List.forall₂_same.mpr fun p _ => .same p⟩

/-- Benches that are alike and have the same stacks are the same. -/
theorem Bench.Twin.eq {c : Bench ε}
    (h : Bench.Twin (SpanRelation.anywhere.likeness extensions) b c)
    (operands : c.operands = b.operands) (operators : c.operators = b.operators) : c = b := by
  obtain ⟨scope, tables, -, -⟩ := h
  have tables := tables.trans b.tables.rename_id
  obtain ⟨_, _, _, _⟩ := c
  obtain rfl := scope.eq_of_likeness
  cases tables
  cases operands
  cases operators
  rfl

/-- Behind an element the innermost container comes to the top, with one comma less than elements.
-/
theorem Stands.container_on_top (h : Stands N .operator b w) (hopen : openContainer? b = some c)
    (reduced : reduceToContainer b = .ok () b₁) :
    ∃ below, b₁.operators = ⟨c :: below⟩ ∧ c.op.kind.isContainer ∧
      b₁.operands.size = c.base + (c.commas + 1) := by
  obtain ⟨stands, hops⟩ := (h.reduceWhile _).ok reduced
  have hhead : (b.operators.toList.dropWhile (!·.op.kind.isContainer)).head? = some c := by
    rw [← List.find?_eq_head?_dropWhile_not]
    exact hopen
  obtain ⟨below, htop⟩ := List.head?_eq_some_iff.mp hhead
  have hc := isContainer_of_dropWhile htop
  rw [htop] at hops
  have counts := stands.layout.counts
  rw [hops] at counts
  exact ⟨below, hops, hc, counts.of_container hc⟩

section Top

variable {below : List Pending}

theorem reduceToContainer_of_top (htop : b.operators = ⟨c :: below⟩) (hc : c.op.kind.isContainer) :
    reduceToContainer b = .ok () b := by
  unfold reduceToContainer reduceWhile
  rw [get_bind]
  simp only [htop, applyWhile, hc]
  rfl

/-- The comma is counted. -/
theorem comma_of_top (reduced : reduceToContainer b = .ok () b₁)
    (htop : b₁.operators = ⟨c :: below⟩)
    (hv : c.op.kind.isVariadic) (hsize : b₁.operands.size = c.base + (c.commas + 1)) (span : Span) :
    comma span b =
      .ok () { b₁ with operators := ⟨{ c with commas := c.commas + 1 } :: below⟩ } := by
  have count : b₁.operands.size - c.base = c.commas + 1 := by omega
  unfold comma
  rw [bind_of_ok reduced, get_bind]
  simp only [htop, Stack.peek?, List.head?_cons, hv, count, Bool.not_true, Bool.false_eq_true,
    if_false, ne_eq, not_true_eq_false]
  rfl

/-- Where the container has one element, the comma is out of place. -/
theorem comma_of_single (reduced : reduceToContainer b = .ok () b₁)
    (htop : b₁.operators = ⟨c :: below⟩) (hv : ¬ c.op.kind.isVariadic) (span : Span) :
    comma span b = .error ⟨.unexpectedToken "," .operator, span⟩ b₁ := by
  unfold comma
  rw [bind_of_ok reduced, get_bind]
  simp only [htop, Stack.peek?, List.head?_cons, hv]
  rfl

/-- A closer takes all above the base of the container on top, whatever commas there are. -/
theorem close_of_top {commas : Nat} (reduced : reduceToContainer b = .ok () b₁)
    (htop : b₁.operators = ⟨{ c with commas } :: below⟩) (hv : c.op.kind.isVariadic)
    (hcloser : c.op.kind.closer? = some symbol) (span : Span) :
    close symbol span b =
      let taken := (b₁.operands.popMany? (b₁.operands.size - c.base)).getD ([], b₁.operands)
      closeContainer c taken.1 span { b₁ with operators := ⟨below⟩, operands := taken.2 } := by
  unfold close
  rw [bind_of_ok reduced, get_bind]
  simp only [htop, Stack.pop?, hv, hcloser, Bool.not_true, Bool.false_eq_true, and_false, if_false,
    ne_eq, not_true_eq_false]
  rfl

theorem closer_of_close (reduced : reduceToContainer b = .ok () b₁)
    (htop : b₁.operators = ⟨c :: below⟩) (ran : close symbol span b = .ok () b') :
    c.op.kind.closer? = some symbol := by
  by_contra other
  unfold close at ran
  rw [bind_of_ok reduced, get_bind] at ran
  simp only [htop, Stack.pop?, ne_eq, other, not_false_eq_true, if_true] at ran
  cases ran

/-- Right after a comma the closer ends the container, too. -/
theorem closeWithoutOperand_of_top (htop : b.operators = ⟨c :: below⟩) (hc : c.op.kind.isContainer)
    (hsize : b.operands.size = c.base + c.commas) :
    closeWithoutOperand symbol span b = close symbol span b := by
  unfold closeWithoutOperand
  rw [get_bind]
  simp only [htop, Stack.peek?, List.head?_cons, hc, hsize, Bool.not_true, Bool.false_or, ne_eq,
    not_true_eq_false, decide_false, Bool.false_eq_true, if_false]

end Top

/-- **The comma changes nothing about a container that may hold several elements.** -/
theorem close_behind_comma (h : Stands N .operator b w) (hopen : openContainer? b = some c)
    (hv : c.op.kind.isVariadic) (ran : close symbol span b = .ok () b') (mark closing : Span) :
    ∃ extensions, Matches (SpanRelation.anywhere.likeness extensions) (fun _ _ => True)
      (close symbol span b) ((comma mark >>= fun _ => closeWithoutOperand symbol closing) b) := by
  obtain ⟨_, b₁, reduced, -⟩ := exists_of_bind ran
  obtain ⟨below, htop, hc, hsize⟩ := h.container_on_top hopen reduced
  have hcloser := closer_of_close reduced htop ran
  -- The comma leaves the container on top, so nothing is to be reduced for the closer.
  rw [bind_of_ok (comma_of_top reduced htop hv hsize mark)]
  generalize hcounted : ({ b₁ with
    operators := ⟨{ c with commas := c.commas + 1 } :: below⟩ } : Bench ε) = b₂
  have htop₂ : b₂.operators = ⟨{ c with commas := c.commas + 1 } :: below⟩ := by rw [← hcounted]
  have hsize₂ : b₂.operands.size = c.base + (c.commas + 1) := by rw [← hcounted, hsize]
  rw [closeWithoutOperand_of_top htop₂ hc hsize₂, close_of_top reduced htop hv hcloser,
    close_of_top (reduceToContainer_of_top htop₂ hc) htop₂ hv hcloser, ← hcounted]
  refine ⟨b₁.scope.extensions, parallel_closeContainer (.same c) ?_ trivial _ _ ?_⟩
  · exact List.forall₂_same.mpr fun o _ => .same o
  · exact .same { b₁ with operators := ⟨below⟩, operands := _ }

/-! ## Runs -/

variable {first r r' : Round ε} {after : Cursor}

/-- The run completes an element of the container, and a closer follows: it stands where an operator
is expected, so there is an element before it and no trailing comma. -/
structure AtCloser (first : Round ε) (symbol : String) (c : Pending) (after : Cursor)
    (r : Round ε) : Prop where
  proceeds : Proceeds first r
  element : r.mode = .operator
  container : openContainer? r.bench = some c
  closer : Operator.closers.contains symbol
  token : ∃ span, Token.next .operator r.at_ = .ok (⟨.operator symbol, span⟩, after)

/-- In the altered text the comma is read instead of the closer. -/
theorem AtCloser.comma (h : AtCloser first symbol c after r)
    (alt : r.Altered (symbol.toList ++ after.rest)
      (commaBefore (symbol.toList ++ after.rest)) 2 r') :
    ∃ gap, r.at_.rest = gap ++ (symbol.toList ++ after.rest) ∧
      Token.next .operator r'.at_ =
        .ok (⟨.comma, Span.ofRange (r.at_.offset + byteLength gap + 1)
          (r.at_.offset + byteLength gap + 2)⟩,
          ⟨r.at_.offset + byteLength gap + 2, symbol.toList ++ after.rest⟩) := by
  obtain ⟨span, hnext⟩ := h.token
  obtain ⟨gap, hgap, skips⟩ := Token.gap_of_symbol hnext
  obtain ⟨_, ⟨q, hq, rfl⟩, rfl⟩ := alt
  obtain rfl := List.append_cancel_right (hq.symm.trans hgap)
  refine ⟨q, hgap, ?_⟩
  simp only
  rw [Token.next_skip skips, Token.next_commaBefore]

theorem rounds_closer (hcloser : Operator.closers.contains symbol) {fuel base : Nat} {at_ : Cursor}
    (h : Token.next .operator at_ = .ok (⟨.operator symbol, span⟩, after)) :
    (rounds (fuel + 1) .operator base at_ : Parse ε Operand) = (do
      close symbol (span.shift base)
      rounds fuel .operator base after) := by
  rw [rounds_operator h]
  simp only [operator, hcloser, if_true, bind_assoc, pure_bind]

/-- A comma and a closer behind it. -/
theorem rounds_comma_closer (hcloser : Operator.closers.contains symbol) {fuel base offset : Nat}
    {at_ : Cursor} {rest : List Char}
    (h : Token.next .operator at_ = .ok (⟨.comma, span⟩, ⟨offset, symbol.toList ++ rest⟩)) :
    (rounds (fuel + 2) .operator base at_ : Parse ε Operand) = (do
      comma (span.shift base)
      closeWithoutOperand symbol ((Span.ofRange offset (offset + 1)).shift base)
      rounds fuel .operator base ⟨offset + 1, rest⟩) := by
  rw [rounds_operator h]
  simp only [rounds_operand (Token.next_closer hcloser offset rest), operand, hcloser, if_true,
    bind_assoc, pure_bind]

/-- The two runs from there on. -/
theorem AtCloser.runs (h : AtCloser first symbol c after r) (laid : r.LaidOut)
    (alt : r.Altered (symbol.toList ++ after.rest)
      (commaBefore (symbol.toList ++ after.rest)) 2 r') :
    ∃ fuel gap span closing place, after.rest.length < fuel ∧
      r.at_.rest = gap ++ (symbol.toList ++ after.rest) ∧
      r.run = (do
        close symbol span
        rounds fuel .operator r.base after : Parse ε Operand) r.bench ∧
      r'.run = (do
        Parse.comma ((Span.ofRange (r.at_.offset + byteLength gap + 1)
          (r.at_.offset + byteLength gap + 2)).shift r.base)
        closeWithoutOperand symbol closing
        rounds (fuel + 1) .operator r.base ⟨place, after.rest⟩ : Parse ε Operand) r.bench := by
  obtain ⟨gap, hgap, hcomma⟩ := h.comma alt
  obtain ⟨_, _, rfl⟩ := alt
  obtain ⟨-, hmode, -, hcloser, span, hnext⟩ := h
  obtain ⟨fuel, mode, base, at_, bench⟩ := r
  obtain rfl : mode = .operator := hmode
  have lasts : at_.rest.length < fuel := laid.2
  have shorter : after.rest.length < at_.rest.length := Token.length_next hnext (by simp)
  obtain ⟨fuel, rfl⟩ : ∃ n, fuel = n + 1 := ⟨fuel - 1, by omega⟩
  exact ⟨fuel, gap, span.shift base, _, _, by omega, hgap,
    congrFun (rounds_closer hcloser hnext) bench,
    congrFun (rounds_comma_closer hcloser hcomma) bench⟩

/-- With the comma the run goes on behind the closer as without it. -/
theorem AtCloser.matches (h : AtCloser first symbol c after r) (laid : r.LaidOut)
    (hv : c.op.kind.isVariadic) (ran : r.run = .ok o b)
    (alt : r.Altered (symbol.toList ++ after.rest)
      (commaBefore (symbol.toList ++ after.rest)) 2 r') :
    ∃ extensions, Matches (SpanRelation.anywhere.likeness extensions)
      (Operand.Twin (SpanRelation.anywhere.likeness extensions)) r.run r'.run := by
  obtain ⟨fuel, gap, span, closing, place, lasts, -, hrun, hrun'⟩ := h.runs laid alt
  obtain ⟨_, _, stands⟩ := laid.1
  rw [h.element] at stands
  obtain ⟨_, b₁, closed, -⟩ := exists_of_bind (hrun.symm.trans ran)
  obtain ⟨extensions, same⟩ := close_behind_comma stands h.container hv closed _ closing
  rw [hrun, hrun', ← bind_assoc]
  refine ⟨extensions, same.bind fun _ _ _ => ?_⟩
  exact parallel_rounds_same rfl (by simp) lasts (Nat.lt_succ_of_lt lasts)

/-- Where the container has one element, the run fails at the comma. -/
theorem AtCloser.refused (h : AtCloser first symbol c after r) (laid : r.LaidOut)
    (hv : ¬ c.op.kind.isVariadic) (ran : r.run = .ok o b)
    (alt : r.Altered (symbol.toList ++ after.rest)
      (commaBefore (symbol.toList ++ after.rest)) 2 r') :
    ∃ gap b', r.at_.rest = gap ++ (symbol.toList ++ after.rest) ∧
      r'.run = .error ⟨.unexpectedToken "," .operator,
        (Span.ofRange (r.at_.offset + byteLength gap + 1)
          (r.at_.offset + byteLength gap + 2)).shift r.base⟩ b' := by
  obtain ⟨fuel, gap, span, closing, place, -, hgap, hrun, hrun'⟩ := h.runs laid alt
  obtain ⟨_, _, stands⟩ := laid.1
  rw [h.element] at stands
  obtain ⟨_, b₁, closed, -⟩ := exists_of_bind (hrun.symm.trans ran)
  obtain ⟨_, b₂, reduced, -⟩ := exists_of_bind closed
  obtain ⟨below, htop, -, -⟩ := stands.container_on_top h.container reduced
  refine ⟨gap, b₂, hgap, ?_⟩
  rw [hrun']
  simp only [Bind.bind, EStateM.bind, comma_of_single reduced htop hv]

/-- Where an operand is expected the run fails at a comma. -/
theorem run_comma_of_operand {fuel base : Nat} {at_ : Cursor}
    (h : Token.next .operand at_ = .ok (⟨.comma, span⟩, after)) :
    (Round.mk (fuel + 1) .operand base at_ b).run =
      .error ⟨.unexpectedToken "," .operand, span.shift base⟩ b := by
  rw [Round.run, rounds_operand h]
  rfl

end Parse

open Parse

variable {ε : Type}

/-- **Trailing commas.** Where the run of a text that parses comes to a closer behind an element, a
comma on a line of its own may be put before the closer of a literal or of a call: the text then
parses to the same expression but for its place, and leaves the same scope. Before the closer of a
group or of an index the comma is rejected. So is, in every text, a comma with no element before it,
in whatever container or interpolated source it stands. -/
theorem trailing_commas (text : String) (offset : Nat) (scope : TemplateScope ε) {first : Round ε}
    (hfirst : firstRound? text offset scope = some first) :
    (∀ symbol c after r before text' p scope', AtCloser first symbol c after r →
      text.toList = before ++ (symbol.toList ++ after.rest) →
      text'.toList = before ++ commaBefore (symbol.toList ++ after.rest) →
      parse text offset scope = (.ok p, scope') →
        ((c.op.kind = .listLiteral ∨ c.op.kind = .setLiteral ∨ c.op.kind = .call) →
          ∃ span, parse text' offset scope = (.ok { p with span }, scope')) ∧
        ((c.op.kind = .group ∨ ∃ safe, c.op.kind = .lookup safe) →
          (parse text' offset scope).1 = .error ⟨.unexpectedToken "," .operator,
            (Span.ofRange (byteLength before + 1) (byteLength before + 2)).shift offset⟩)) ∧
    ∀ r span after, Visits first r → r.mode = .operand →
      Token.next .operand r.at_ = .ok (⟨.comma, span⟩, after) →
        (parse text offset scope).1 =
          .error ⟨.unexpectedToken "," .operand, span.shift r.base⟩ := by
  have laid := firstRound?_laidOut hfirst
  refine ⟨fun symbol c after r before text' p scope' closer htext htext' hparse => ?_,
    fun r span after visits hmode hnext => ?_⟩
  · have hlaid := closer.proceeds.visits.laidOut laid
    have alters := alters_commaBefore (Token.blocks_closer closer.closer after.rest)
    obtain ⟨span, hnext⟩ := closer.token
    obtain ⟨gap, hgap, -⟩ := Token.gap_of_symbol hnext
    obtain ⟨first', r', hfirst', proceeds', alt, same⟩ :=
      closer.proceeds.parse_altered alters hfirst htext htext' ⟨gap, hgap.symm⟩
    obtain ⟨o, b, ran⟩ : ∃ o b, r.run = .ok o b := by
      obtain ⟨first₁, o, b, hfirst₁, ran, -, -⟩ := parse_ok hparse
      cases hfirst₁.symm.trans hfirst
      exact ⟨o, b, closer.proceeds.run ▸ ran⟩
    refine ⟨fun hkind => ?_, fun hkind => ?_⟩
    · have hv : c.op.kind.isVariadic := by
        rcases hkind with h | h | h <;> rw [h] <;> rfl
      obtain ⟨extensions, ends⟩ := closer.matches hlaid hv ran alt
      have outcome := same extensions ends
      rw [hparse] at outcome
      generalize parse text' offset scope = ended at outcome ⊢
      cases outcome with
      | ok twin =>
        obtain ⟨-⟩ := twin
        exact ⟨_, rfl⟩
    · have hv : ¬ c.op.kind.isVariadic := by
        rcases hkind with h | ⟨safe, h⟩ <;> rw [h] <;> exact Bool.false_ne_true
      obtain ⟨gap', b', hgap', hrun⟩ := closer.refused hlaid hv ran alt
      rw [proceeds'.visits.parse_error hfirst' ⟨b', hrun⟩]
      obtain ⟨passed, hpassed, hoffset⟩ :=
        (firstRound?_reaches hfirst).trans (closer.proceeds.reaches laid)
      -- The closer stands behind what has been passed and what is skipped.
      obtain rfl : before = passed ++ gap' := by
        rw [hgap', ← List.append_assoc] at hpassed
        exact List.append_cancel_right (htext.symm.trans hpassed)
      have base : r.base = offset := by
        rw [closer.proceeds.base_eq, firstRound?_start hfirst]
        rfl
      rw [hoffset, base, byteLength_append]
      simp only [Cursor.start, Nat.zero_add]
  · obtain ⟨fuel, mode, base, at_, bench⟩ := r
    obtain rfl : mode = .operand := hmode
    have lasts : at_.rest.length < fuel := (visits.laidOut laid).2
    obtain ⟨fuel, rfl⟩ : ∃ n, fuel = n + 1 := ⟨fuel - 1, by omega⟩
    exact visits.parse_error hfirst ⟨bench, run_comma_of_operand hnext⟩

/-- The argument of a call in a group may be followed by a comma, the call may not, and an element
has to come before a comma. -/
theorem trailing_commas_of_call_in_group :
    (∃ p scope' span, parse "(f(1))" 0 (TemplateScope.fresh : TemplateScope Nat) = (.ok p, scope') ∧
      parse "(f(1\n,))" 0 (TemplateScope.fresh : TemplateScope Nat) =
        (.ok { p with span }, scope')) ∧
    (parse "(f(1)\n,)" 0 (TemplateScope.fresh : TemplateScope Nat)).1 =
      .error ⟨.unexpectedToken "," .operator, ⟨6, 7⟩⟩ ∧
    (parse "f(,1)" 0 (TemplateScope.fresh : TemplateScope Nat)).1 =
      .error ⟨.unexpectedToken "," .operand, ⟨2, 3⟩⟩ := by
  have opened : Token.next .operand ⟨0, "(f(1))".toList⟩ =
      .ok (⟨.operator "(", ⟨0, 1⟩⟩, ⟨1, "f(1))".toList⟩) := rfl
  have called : Token.next .operand ⟨1, "f(1))".toList⟩ =
      .ok (⟨.ident ⟨.name "f", .unstated, true⟩, ⟨1, 3⟩⟩, ⟨3, "1))".toList⟩) := by decide +kernel
  have argument : Token.next .operand ⟨3, "1))".toList⟩ =
      .ok (⟨.int 1, ⟨3, 4⟩⟩, ⟨4, "))".toList⟩) := by decide +kernel
  have closed : Token.next .operator ⟨4, "))".toList⟩ =
      .ok (⟨.operator ")", ⟨4, 5⟩⟩, ⟨5, ")".toList⟩) := rfl
  have last : Token.next .operator ⟨5, ")".toList⟩ =
      .ok (⟨.operator ")", ⟨5, 6⟩⟩, ⟨6, []⟩) := rfl
  have hfirst : firstRound? "(f(1))" 0 (TemplateScope.fresh : TemplateScope Nat) =
      some ⟨7, .operand, 0, ⟨0, "(f(1))".toList⟩, { scope := .fresh, tables := {} }⟩ := rfl
  have start : Proceeds (Round.mk 7 .operand 0 ⟨0, "(f(1))".toList⟩
      { scope := (TemplateScope.fresh : TemplateScope Nat), tables := {} }) _ := .refl
  have inner := ((start.tail ⟨_, .operand opened rfl⟩).tail ⟨_, .operand called rfl⟩).tail
    ⟨_, .operand argument rfl⟩
  have outer := inner.tail ⟨_, .operator closed rfl⟩
  have hinner : AtCloser _ ")" _ _ _ := ⟨inner, rfl, rfl, rfl, _, closed⟩
  have houter : AtCloser _ ")" _ _ _ := ⟨outer, rfl, rfl, rfl, _, last⟩
  have hfirst' : firstRound? "f(,1)" 0 (TemplateScope.fresh : TemplateScope Nat) =
      some ⟨6, .operand, 0, ⟨0, "f(,1)".toList⟩, { scope := .fresh, tables := {} }⟩ := rfl
  have called' : Token.next .operand ⟨0, "f(,1)".toList⟩ =
      .ok (⟨.ident ⟨.name "f", .unstated, true⟩, ⟨0, 2⟩⟩, ⟨2, ",1)".toList⟩) := by decide +kernel
  obtain ⟨closers, -⟩ := trailing_commas "(f(1))" 0 TemplateScope.fresh hfirst
  obtain ⟨-, leading⟩ := trailing_commas "f(,1)" 0 TemplateScope.fresh hfirst'
  obtain ⟨p, scope', hparse⟩ := parse_of_isOk "(f(1))" 0 (TemplateScope.fresh : TemplateScope Nat)
    (by decide +kernel)
  obtain ⟨kept, -⟩ := closers _ _ _ _ "(f(1".toList "(f(1\n,))" p scope' hinner rfl rfl hparse
  obtain ⟨-, refused⟩ := closers _ _ _ _ "(f(1)".toList "(f(1)\n,)" p scope' houter rfl rfl hparse
  obtain ⟨span, again⟩ := kept (.inr (.inr rfl))
  exact ⟨⟨p, scope', span, hparse, again⟩, refused (.inl rfl),
    leading _ _ _ (.single (.operand called' rfl)) rfl rfl⟩

end TagExpr
