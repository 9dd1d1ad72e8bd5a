import TagExpr.Proofs.Parse.Refusal
import TagExpr.Proofs.Placing.Parallel

/-!
# Two texts with tokens alike

A track says at which places of two texts the same is read but for what a likeness allows, from
there to the end of the texts (`Track`). Two parses that begin at such places end alike
(`parallel_rounds`), and so do the parses of two texts with signatures alike (`Track.parse`).
-/

namespace TagExpr

variable {ε : Type} {L : Likeness}

/-! ## What is read at two places -/

/-- Both are values that `Q` relates, or the same fault at related places. The places are counted
from `base` and `base'` on. -/
inductive LexAlike {α β : Type} (L : Likeness) (base base' : Nat) (Q : α → β → Prop) :
    Except LexError α → Except LexError β → Prop
  | ok {a : α} {a' : β} : Q a a' → LexAlike L base base' Q (.ok a) (.ok a')
  | fault {fault : LexFault} {span span' : Span} : L.rel (span.shift base) (span'.shift base') →
      LexAlike L base base' Q (.error ⟨fault, span⟩) (.error ⟨fault, span'⟩)
  | lenient {e : LexError} {r : Except LexError β} : ¬ L.strict →
      LexAlike L base base' Q (.error e) r

theorem LexAlike.mono {α β : Type} {base base' : Nat} {Q Q' : α → β → Prop}
    {r : Except LexError α} {r' : Except LexError β} (h : LexAlike L base base' Q r r')
    (hq : ∀ a a', Q a a' → Q' a a') : LexAlike L base base' Q' r r' := by
  cases h with
  | ok h => exact .ok (hq _ _ h)
  | fault hspan => exact .fault hspan
  | lenient h => exact .lenient h

/-- The tokens are the same one but for the renaming. Of the contents of string literals nothing is
said. -/
inductive TokenKind.Alike (L : Likeness) : TokenKind → TokenKind → Prop
  | str (raw raw' : List Char) (doubleQuoted : Bool) :
      Alike L (.str raw doubleQuoted) (.str raw' doubleQuoted)
  | renamed {kind : TokenKind} : (∀ raw doubleQuoted, kind ≠ .str raw doubleQuoted) →
      Alike L kind (kind.rename L.name)

theorem TokenKind.Alike.ne_finish {kind kind' : TokenKind} (h : kind.Alike L kind')
    (hk : kind ≠ .finish) : kind' ≠ .finish := by
  cases h with
  | str => simp
  | renamed => cases kind <;> simp_all [TokenKind.rename]

theorem TokenKind.alike_of_unnamed (hname : L.name = id) (kind : TokenKind) :
    kind.Alike L kind := by
  cases kind with
  | str raw doubleQuoted => exact .str raw raw doubleQuoted
  | _ =>
    have alike := fun kind : TokenKind => @TokenKind.Alike.renamed L kind
    simp only [hname, TokenKind.rename_id] at alike
    exact alike _ (by simp)

/-- Tokens alike are read, of which `Q` holds, or the same fault is found. The spans are those in
the template, in which the texts begin at `base` and `base'`. -/
abbrev ReadsAlike (L : Likeness) (base base' : Nat)
    (Q : TokenKind → TokenKind → Span → Span → Cursor → Cursor → Prop) :
    Except LexError (Token × Cursor) → Except LexError (Token × Cursor) → Prop :=
  LexAlike L base base' fun r r' => r.1.kind.Alike L r'.1.kind ∧
    L.rel (r.1.span.shift base) (r'.1.span.shift base') ∧
    Q r.1.kind r'.1.kind (r.1.span.shift base) (r'.1.span.shift base') r.2 r'.2

theorem forall₂_mono_of_mem {α β : Type} {Q Q' : α → β → Prop} {as : List α} {bs : List β}
    (h : List.Forall₂ Q as bs) (himp : ∀ a b, a ∈ as → b ∈ bs → Q a b → Q' a b) :
    List.Forall₂ Q' as bs := by
  induction h with
  | nil => exact .nil
  | cons hq _ ih =>
    exact .cons (himp _ _ List.mem_cons_self List.mem_cons_self hq) (ih fun a b ha hb =>
      himp a b (List.mem_cons_of_mem _ ha) (List.mem_cons_of_mem _ hb))

/-- Parts of two literals, whose contents begin at `start` and `start'`. Of the interpolated sources
holds `source`. -/
inductive Literal.Segment.Alike (L : Likeness) (source : List Char → List Char → Nat → Nat → Prop)
    (start start' : Nat) : Literal.Segment → Literal.Segment → Prop
  | text (text : List Char) : Alike L source start start' (.text text) (.text text)
  | name {name name' : List Char} {place place' : Nat} :
      String.ofList name' = L.name (String.ofList name) →
      L.rel (Span.ofRange (start + place) (start + place + byteLength name))
        (Span.ofRange (start' + place') (start' + place' + byteLength name')) →
      Alike L source start start' (.name name place) (.name name' place')
  | expression {text text' : List Char} {place place' : Nat} :
      source text text' (start + place) (start' + place') →
      Alike L source start start' (.expression text place) (.expression text' place')

/-- The contents of two string literals, whose parts are alike where interpolation is read and which
stand for one text where it is not. -/
structure LiteralsAlike (L : Likeness) (source : List Char → List Char → Nat → Nat → Prop)
    (start start' : Nat) (doubleQuoted : Bool) (raw raw' : List Char) : Prop where
  unescape : (doubleQuoted && L.extensions.interpolation) = false →
    LexAlike L start start' (fun text text' => text' = text) (Literal.unescape raw)
      (Literal.unescape raw')
  split : (doubleQuoted && L.extensions.interpolation) = true →
    LexAlike L start start' (List.Forall₂ (Literal.Segment.Alike L source start start'))
      (Literal.split raw) (Literal.split raw')

theorem LiteralsAlike.mono {source source' : List Char → List Char → Nat → Nat → Prop}
    {start start' : Nat} {doubleQuoted : Bool} {raw raw' : List Char}
    (h : LiteralsAlike L source start start' doubleQuoted raw raw')
    (himp : ∀ text text' place place', text.length < raw.length → text'.length < raw'.length →
      source text text' place place' → source' text text' place place') :
    LiteralsAlike L source' start start' doubleQuoted raw raw' := by
  refine ⟨h.unescape, fun hsplit => ?_⟩
  have alike := h.split hsplit
  cases hr : Literal.split raw <;> cases hr' : Literal.split raw' <;> rw [hr, hr'] at alike
  · cases alike with
    | fault hspan => exact .fault hspan
    | lenient hlenient => exact .lenient hlenient
  · cases alike with
    | lenient hlenient => exact .lenient hlenient
  · cases alike
  · cases alike with
    | ok parts =>
      refine .ok (forall₂_mono_of_mem parts fun part part' hmem hmem' hpart => ?_)
      cases hpart with
      | text text => exact .text text
      | name hname hspan => exact .name hname hspan
      | expression hsource =>
        exact .expression (himp _ _ _ _ (Literal.length_of_mem_split hr hmem)
          (Literal.length_of_mem_split hr' hmem') hsource)

/-- After two streaming operators there are clauses with names alike, or none. -/
inductive Clauses (L : Likeness) (at_ : Cursor → Cursor → Prop) (after after' : Cursor) : Prop
  | none : Signature.lambda? after = none → Signature.lambda? after' = none → at_ after after' →
      Clauses L at_ after after'
  | clause {clause clause' : LambdaClause} : Signature.lambda? after = some clause →
      Signature.lambda? after' = some clause' → clause'.name = L.name clause.name →
      at_ clause.body clause'.body → Clauses L at_ after after'

/-- How two texts go on after an operator symbol: `at_` holds of the places, by mode, from which the
same is read, and `clauses` of the places where a clause may stand. -/
def AfterSymbol (at_ : LexMode → Cursor → Cursor → Prop) (clauses : Cursor → Cursor → Prop)
    (symbol : String) (after after' : Cursor) : Prop :=
  if Operator.closers.contains symbol then
    at_ .operator after after'
  else
    match (Operator.findInfix? symbol).map Operator.kind with
    | some (.navigate _) => at_ .member after after'
    | some (.stream _) => clauses after after'
    | _ => at_ .operand after after'

/-- How two texts go on after a token in operator position. -/
def AfterOperator (at_ : LexMode → Cursor → Cursor → Prop) (clauses : Cursor → Cursor → Prop)
    (kind : TokenKind) (after after' : Cursor) : Prop :=
  match kind with
  | .comma => at_ .operand after after'
  | .operator symbol => AfterSymbol at_ clauses symbol after after'
  | _ => True

/-- How two texts go on after a member name. -/
def FollowsMember (at_ : LexMode → Cursor → Cursor → Prop) (kind : TokenKind)
    (after after' : Cursor) : Prop :=
  match kind with
  | .ident { kind := .name _, call, .. } => at_ (if call then .operand else .operator) after after'
  | _ => True

/-- Places of two texts from which the same is read to their ends but for what the likeness allows.
A place is given by where its text begins in the template and by a cursor in that text. After an
operand the first text may be refused instead, unless the likeness is strict. -/
structure Track (L : Likeness) where
  at_ : LexMode → Nat → Nat → Cursor → Cursor → Prop
  operand : ∀ {base base' : Nat} {c c' : Cursor}, at_ .operand base base' c c' →
    ReadsAlike L base base' (fun kind kind' span span' after after' =>
        (kind ≠ .finish → at_ kind.modeAfter base base' after after') ∧
        ∀ raw raw' doubleQuoted, kind = .str raw doubleQuoted → kind' = .str raw' doubleQuoted →
          LiteralsAlike L (fun source source' start start' =>
              at_ .operand start start' (Cursor.start source) (Cursor.start source'))
            (span.start + 1) (span'.start + 1) doubleQuoted raw raw')
      (Token.next .operand c) (Token.next .operand c')
  operator : ∀ {base base' : Nat} {c c' : Cursor}, at_ .operator base base' c c' →
    (¬ L.strict ∧ Refused .operator c) ∨
    ReadsAlike L base base' (fun kind _ _ _ after after' =>
        AfterOperator (at_ · base base') (Clauses L (at_ .operand base base')) kind after after')
      (Token.next .operator c) (Token.next .operator c')
  member : ∀ {base base' : Nat} {c c' : Cursor}, at_ .member base base' c c' →
    ReadsAlike L base base' (fun kind _ _ _ after after' =>
        FollowsMember (at_ · base base') kind after after')
      (Token.next .member c) (Token.next .member c')

namespace Parse

variable {base base' : Nat} {span span' : Span} {nested nested' : List Char → Nat → Parse ε Operand}

/-- Both steps go on alike after what is read. -/
theorem parallel_read {α β : Type} {mode : LexMode} {c c' : Cursor}
    {Q : TokenKind → TokenKind → Span → Span → Cursor → Cursor → Prop} {Q' : α → β → Prop}
    {next : TokenKind × Span × Cursor → Parse ε α} {next' : TokenKind × Span × Cursor → Parse ε β}
    (h : ReadsAlike L base base' Q (Token.next mode c) (Token.next mode c'))
    (hn : ∀ kind kind' span span' after after', Token.next mode c = .ok (⟨kind, span⟩, after) →
      Token.next mode c' = .ok (⟨kind', span'⟩, after') → kind.Alike L kind' →
      L.rel (span.shift base) (span'.shift base') →
      Q kind kind' (span.shift base) (span'.shift base') after after' →
      Parallel L Q' (next (kind, span.shift base, after))
        (next' (kind', span'.shift base', after'))) :
    Parallel L Q' (readToken mode base c >>= next) (readToken mode base' c' >>= next') := by
  unfold readToken
  cases hread : Token.next mode c with
  | error e =>
    rw [hread] at h
    refine .bind (Q := fun _ _ => False) ?_ fun _ _ h => h.elim
    cases hread' : Token.next mode c' <;> rw [hread'] at h
    · cases h with
      | fault hspan => exact parallel_throw ⟨rfl, hspan⟩
      | lenient hlenient => exact parallel_lenient hlenient _
    · cases h with
      | lenient hlenient => exact parallel_lenient hlenient _
  | ok r =>
    rw [hread] at h
    cases hread' : Token.next mode c' <;> rw [hread'] at h
    · cases h
    · cases h with
      | ok h => exact hn _ _ _ _ _ _ hread hread' h.1 h.2.1 h.2.2

/-! ## Operands -/

theorem parallel_resolveName (name : String) (lookup : Lookup) (h : L.rel span span') :
    Parallel L (Operand.Twin L) (resolveName name lookup span : Parse ε Operand)
      (resolveName (L.name name) lookup span') := by
  have named (node : Node) : Parallel L (Operand.Twin L)
      (pure { Operand.object node span with name := some name } : Parse ε Operand)
      (pure { Operand.object node span' with name := some (L.name name) }) :=
    parallel_pure (.intro { Operand.object node span with name := some name } h)
  have property : Parallel L Eq
      (do return .identifier (← identifier (.property name)) lookup : Parse ε Node)
      (do return .identifier (← identifier (.property (L.name name))) lookup) := by
    refine (parallel_identifier (.property name)).bind ?_
    rintro ident _ rfl
    exact parallel_pure rfl
  unfold resolveName
  simp only
  split
  · refine property.bind ?_
    rintro node _ rfl
    exact parallel_pure (.intro (.object node span) h)
  · refine parallel_get.bind fun b c hbc => ?_
    rw [hbc.tables]
    simp only [Tables.local?_rename _ L.injective, hbc.scope.findBinding?]
    split
    · exact named _
    · split
      · exact named _
      · refine (parallel_namedCall? _ _).bind ?_
        rintro found _ rfl
        split
        · exact named _
        · refine property.bind ?_
          rintro node _ rfl
          exact named node

/-- Both texts go on in that mode. -/
abbrev Both (next : LexMode) : LexMode → LexMode → Prop :=
  fun mode mode' => mode = next ∧ mode' = next

/-- An operand is complete. -/
theorem parallel_complete {o o' : Operand} (h : Operand.Twin L o o') :
    Parallel L (Both .operator) (do pushOperand o; return .operator : Parse ε LexMode)
      (do pushOperand o'; return .operator : Parse ε LexMode) :=
  (parallel_pushOperand h).bind fun _ _ _ => parallel_pure ⟨rfl, rfl⟩

theorem parallel_ident (i : Ident) (h : L.rel span span') :
    Parallel L (Both (TokenKind.ident i).modeAfter)
      (ident i span : Parse ε LexMode) (ident (i.rename L.name) span') := by
  have opens (extra : Extra) : Parallel L (Both .operand)
      (do pushOperator .call span extra; return .operand : Parse ε LexMode)
      (do pushOperator .call span' (extra.rename L.name); return .operand : Parse ε LexMode) :=
    (parallel_pushOperator _ _ h).bind fun _ _ _ => parallel_pure ⟨rfl, rfl⟩
  obtain ⟨kind, lookup, call⟩ := i
  cases kind with
  | current levels => exact parallel_complete (.intro (.object (.current levels) span) h)
  | internal name =>
    unfold ident
    simp only [TokenKind.modeAfter, Ident.rename, IdentKind.rename]
    split
    · exact parallel_fail _ h
    case h_2 internal _ =>
      have completes := parallel_complete (ε := ε) (.intro
        { node := .internal lookup internal,
          type := if internal = .index then .integral else .boolean, span } h)
      cases call with
      | true =>
        exact .bind (Q := fun _ _ => True) (parallel_unexpected _ _ h) fun _ _ _ => completes
      | false => exact completes
  | annotated name =>
    have reads : Parallel L (Both (if call then .operand else .operator)) (do
          if call then
            pushOperator .call span (.annotated name)
            return .operand
          else
            pushOperand (.object (.annotated name []) span)
            return .operator : Parse ε LexMode) (do
          if call then
            pushOperator .call span' (.annotated name)
            return .operand
          else
            pushOperand (.object (.annotated name []) span')
            return .operator : Parse ε LexMode) := by
      cases call with
      | true => exact opens _
      | false => exact parallel_complete (.intro (.object (.annotated name []) span) h)
    unfold ident
    simp only [TokenKind.modeAfter, Ident.rename, IdentKind.rename]
    refine parallel_get.bind fun b c hbc => ?_
    exact parallel_enabled hbc.scope L.subset.2.1 _ h reads
  | name name =>
    unfold ident
    cases call with
    | true => exact opens (.bareCall name lookup)
    | false => exact (parallel_resolveName _ _ h).bind fun _ _ ho => parallel_complete ho

theorem parallel_isolated {parse parse' : Parse ε Operand}
    (h : Parallel L (Operand.Twin L) parse parse') :
    Parallel L (Operand.Twin L) (isolated parse) (isolated parse') := by
  refine parallel_get.bind fun b c hbc => ?_
  refine .bind (Q := fun _ _ => True) (parallel_set ?_) fun _ _ _ => h.bind fun o o' ho => ?_
  · exact ⟨hbc.scope, hbc.tables, .nil, .nil⟩
  · refine (parallel_modify ?_).bind fun _ _ _ => parallel_pure ho
    intro b₁ c₁ hbc₁
    refine ⟨hbc₁.scope, ?_, hbc.operands, hbc.operators⟩
    simp only [hbc₁.tables, hbc.tables, Tables.scopeMark_rename, Tables.endScope_rename]

theorem Operand.Twin.node {o o' : Operand} (h : Operand.Twin L o o') : o'.node = o.node := by
  obtain ⟨-⟩ := h
  rfl

/-- Sources of two literals are parsed side by side. -/
abbrev SideBySide (L : Likeness) (nested nested' : List Char → Nat → Parse ε Operand)
    (source source' : List Char) (start start' : Nat) : Prop :=
  Parallel L (Operand.Twin L) (nested source start) (nested' source' start')

theorem parallel_segments {parts parts' : List Literal.Segment}
    (h : List.Forall₂ (Literal.Segment.Alike L (SideBySide L nested nested') base base') parts
      parts') :
    Parallel L Eq (segments nested base parts) (segments nested' base' parts') := by
  induction h with
  | nil => exact parallel_pure rfl
  | @cons part part' parts parts' hpart _ ih =>
    have cons (node : Node) : Parallel L Eq (do return node :: (← segments nested base parts))
        (do return node :: (← segments nested' base' parts')) := by
      refine ih.bind ?_
      rintro nodes _ rfl
      exact parallel_pure rfl
    unfold segments
    cases hpart with
    | text text => exact cons _
    | expression hsource =>
      refine (parallel_isolated hsource).bind fun o o' ho => ?_
      rw [ho.node]
      exact cons o.node
    | name hname hspan =>
      simp only [hname]
      refine (parallel_resolveName _ _ hspan).bind fun o o' ho => ?_
      rw [ho.node]
      exact cons o.node

theorem parallel_string {raw raw' : List Char} (doubleQuoted : Bool) (h : L.rel span span')
    (hraw : LiteralsAlike L (SideBySide L nested nested') (span.start + 1) (span'.start + 1)
      doubleQuoted raw raw') :
    Parallel L (Operand.Twin L) (string nested raw doubleQuoted span)
      (string nested' raw' doubleQuoted span') := by
  have whole (text : List Char) : Parallel L (Operand.Twin L)
      (pure (.literal (.str (String.ofList text)) .string span) : Parse ε Operand)
      (pure (.literal (.str (String.ofList text)) .string span')) :=
    parallel_pure (.intro (.literal (.str (String.ofList text)) .string span) h)
  unfold string
  refine parallel_get.bind fun b c hbc => ?_
  rw [hbc.scope.extensions, hbc.scope.left, L.interpolation]
  split
  case isTrue hsplit =>
    have alike := hraw.split hsplit
    revert alike
    generalize Literal.split raw = r, Literal.split raw' = r'
    rintro (@⟨parts, parts', hparts⟩ | hspan | hlenient)
    · have joined : Parallel L (Operand.Twin L)
          (do return { node := .concat (← segments nested (span.start + 1) parts), type := .string,
                       span })
          (do return { node := .concat (← segments nested' (span'.start + 1) parts'),
                       type := .string, span := span' }) := by
        refine (parallel_segments hparts).bind ?_
        rintro nodes _ rfl
        exact parallel_pure (.intro { node := .concat nodes, type := .string, span } h)
      cases hparts with
      | nil => exact joined
      | cons hpart hrest =>
        cases hpart with
        | text text =>
          cases hrest with
          | nil => exact whole text
          | cons => exact joined
        | _ => exact joined
    · exact parallel_throw ⟨rfl, hspan⟩
    · exact parallel_lenient hlenient _
  case isFalse hplain =>
    have alike := hraw.unescape (Bool.eq_false_iff.2 hplain)
    revert alike
    generalize Literal.unescape raw = r, Literal.unescape raw' = r'
    rintro (⟨rfl⟩ | hspan | hlenient)
    · exact whole _
    · exact parallel_throw ⟨rfl, hspan⟩
    · exact parallel_lenient hlenient _

theorem parallel_operand {kind kind' : TokenKind} (hkind : kind.Alike L kind')
    (h : L.rel span span')
    (hn : ∀ raw raw' doubleQuoted, kind = .str raw doubleQuoted → kind' = .str raw' doubleQuoted →
      LiteralsAlike L (SideBySide L nested nested') (span.start + 1) (span'.start + 1)
        doubleQuoted raw
        raw') :
    Parallel L (fun mode mode' => kind ≠ .finish ∧ Both kind.modeAfter mode mode')
      (operand nested kind span) (operand nested' kind' span') := by
  have complete {o o' : Operand} (ho : Operand.Twin L o o') (hk : kind ≠ .finish)
      (hm : kind.modeAfter = .operator) :
      Parallel L (fun mode mode' => kind ≠ .finish ∧ Both kind.modeAfter mode mode')
        (do pushOperand o; return .operator : Parse ε LexMode)
        (do pushOperand o'; return .operator : Parse ε LexMode) :=
    (parallel_complete ho).mono fun _ _ hmodes => ⟨hk, by rwa [hm]⟩
  cases hkind with
  | str raw raw' doubleQuoted =>
    exact (parallel_string doubleQuoted h (hn raw raw' doubleQuoted rfl rfl)).bind fun _ _ ho =>
      complete ho (by simp) rfl
  | renamed hne =>
    cases kind with
    | null => exact complete (.intro (.literal .null .object span) h) (by simp) rfl
    | bool value => exact complete (.intro (.literal (.bool value) .boolean span) h) (by simp) rfl
    | int value => exact complete (.intro (.literal (.int value) .integral span) h) (by simp) rfl
    | double value =>
      exact complete (.intro (.literal (.double value) .floating span) h) (by simp) rfl
    | regex raw =>
      exact complete (.intro (.object (.regex (String.ofList (Literal.regexSource raw))) span) h)
        (by simp) rfl
    | emptyMap => exact complete (.intro (.object (.map []) span) h) (by simp) rfl
    | str raw doubleQuoted => exact absurd rfl (hne raw doubleQuoted)
    | ident i => exact (parallel_ident i h).mono fun _ _ hmodes => ⟨by simp, hmodes⟩
    | operator symbol =>
      unfold operand
      simp only [TokenKind.modeAfter, TokenKind.rename]
      split
      · exact (parallel_closeWithoutOperand symbol h).bind fun _ _ _ =>
          parallel_pure ⟨by simp, rfl, rfl⟩
      · split
        · exact parallel_unexpected _ _ h
        · exact (parallel_pushOperator _ _ h).bind fun _ _ _ => parallel_pure ⟨by simp, rfl, rfl⟩
    | comma => exact parallel_unexpected _ _ h
    | finish =>
      refine parallel_get.bind fun b c hbc => ?_
      rw [hbc.isEmpty_operands, hbc.isEmpty_operators]
      split
      · exact parallel_fail _ h
      · exact parallel_fail _ h

/-! ## Operators -/

theorem parallel_assignmentTarget (h : L.rel span span') :
    Parallel L (fun extra extra' => extra' = extra.rename L.name)
      (assignmentTarget span : Parse ε Extra) (assignmentTarget span') := by
  refine parallel_get.bind fun b c hbc => ?_
  have top := hbc.peek_operands
  generalize b.operands.peek? = o?, c.operands.peek? = o?' at top
  rcases top with @⟨o, _, ⟨hspan⟩⟩ | _
  · simp only
    cases o.node with
    | localVar | binding => exact parallel_pure rfl
    | _ =>
      cases o.name with
      | none => exact parallel_fail _ hspan
      | some name =>
        refine (parallel_declareLocal name).bind ?_
        rintro slot _ rfl
        exact parallel_pure rfl
  · exact parallel_fail _ h

theorem parallel_bindingTarget (h : L.rel span span') :
    Parallel L (fun extra extra' => extra' = extra.rename L.name)
      (bindingTarget span : Parse ε Extra) (bindingTarget span') := by
  refine parallel_get.bind fun b c hbc => ?_
  refine parallel_enabled hbc.scope L.subset.2.2.2 _ h ?_
  have top := hbc.peek_operands
  generalize b.operands.peek? = o?, c.operands.peek? = o?' at top
  rcases top with @⟨o, _, ⟨hspan⟩⟩ | _
  · simp only
    cases hname : o.name with
    | none => exact parallel_fail _ hspan
    | some name =>
      obtain ⟨same, alike⟩ := hbc.scope.declareBinding name
      simp only [Option.map_some, same]
      refine .bind (Q := fun _ _ => True) (parallel_set ?_) fun _ _ _ => parallel_pure rfl
      exact ⟨alike, hbc.tables, hbc.operands, hbc.operators⟩
  · exact parallel_fail _ h

theorem parallel_streamClause {at_ : Cursor → Cursor → Prop} {after after' : Cursor}
    (h : Clauses L at_ after after') :
    Parallel L (fun r r' => r'.1 = r.1.rename L.name ∧ at_ r.2 r'.2)
      (streamClause after : Parse ε (Extra × Cursor)) (streamClause after') := by
  refine parallel_get.bind fun b c hbc => ?_
  rw [hbc.tables, Tables.scopeMark_rename]
  cases h with
  | none hnone hnone' hat =>
    rw [hnone, hnone']
    exact parallel_pure ⟨rfl, hat⟩
  | @clause clause clause' hclause hclause' hname hat =>
    rw [hclause, hclause']
    simp only [hname]
    refine (parallel_declareLocal clause.name).bind ?_
    rintro slot _ rfl
    exact parallel_pure ⟨rfl, hat⟩

variable (K : Track L)

theorem parallel_navigate (safe : Bool) (h : L.rel span span') {after after' : Cursor}
    (hat : K.at_ .member base base' after after') :
    Parallel L (fun r r' => r'.1 = r.1 ∧ r.1 ≠ .member ∧ K.at_ r.1 base base' r.2 r'.2)
      (navigate safe span base after : Parse ε (LexMode × Cursor))
      (navigate safe span' base' after') := by
  refine parallel_read (K.member hat) ?_
  rintro kind kind' memberSpan memberSpan' last last' - - hkind hspan hfollows
  have full := L.merge h hspan
  cases hkind with
  | str => exact parallel_fail _ hspan
  | renamed =>
    cases kind with
    | ident i =>
      obtain ⟨i, lookup, call⟩ := i
      cases i with
      | name name =>
        cases call with
        | true =>
          exact (parallel_pushOperator _ (.methodCall name safe) full).bind fun _ _ _ =>
            parallel_pure ⟨rfl, by simp, hfollows⟩
        | false =>
          refine (parallel_popValue h).bind fun receiver receiver' hreceiver => ?_
          refine (parallel_identifier (.property name)).bind ?_
          rintro ident _ rfl
          have reach := L.merge hreceiver.span hspan
          obtain ⟨-⟩ := hreceiver
          exact (parallel_pushOperand (.intro (.object (.member receiver.node ident safe) _)
            reach)).bind fun _ _ _ => parallel_pure ⟨rfl, by simp, hfollows⟩
      | _ => exact parallel_fail _ hspan
    | _ => exact parallel_fail _ hspan

theorem parallel_operator (symbol : String) (h : L.rel span span') {after after' : Cursor}
    (hat : AfterSymbol (K.at_ · base base') (Clauses L (K.at_ .operand base base')) symbol after
      after') :
    Parallel L (fun r r' => r'.1 = r.1 ∧ r.1 ≠ .member ∧ K.at_ r.1 base base' r.2 r'.2)
      (operator symbol span base after : Parse ε (LexMode × Cursor))
      (operator symbol span' base' after') := by
  unfold AfterSymbol at hat
  unfold operator
  split at hat
  case isTrue hcloser =>
    rw [if_pos hcloser, if_pos hcloser]
    exact (parallel_close symbol h).bind fun _ _ _ => parallel_pure ⟨rfl, by simp, hat⟩
  case isFalse hcloser =>
    rw [if_neg hcloser, if_neg hcloser]
    cases hop : Operator.findInfix? symbol with
    | none => exact parallel_unexpected _ _ h
    | some op =>
      rw [hop] at hat
      simp only [Option.map_some] at hat
      simp only
      have wait (extra : Extra) {next next' : Cursor}
          (hnext : K.at_ .operand base base' next next') :
          Parallel L (fun r r' => r'.1 = r.1 ∧ r.1 ≠ .member ∧ K.at_ r.1 base base' r.2 r'.2)
            (do pushOperator op span extra; return (.operand, next) :
              Parse ε (LexMode × Cursor))
            (do pushOperator op span' (extra.rename L.name); return (.operand, next')) :=
        (parallel_pushOperator _ _ h).bind fun _ _ _ => parallel_pure ⟨rfl, by simp, hnext⟩
      cases hk : op.kind with
      | navigate safe =>
        simp only [hk] at hat ⊢
        exact parallel_navigate K safe h hat
      | colon =>
        simp only [hk] at hat ⊢
        exact (parallel_colon op h).bind fun _ _ _ => parallel_pure ⟨rfl, by simp, hat⟩
      | assign =>
        simp only [hk] at hat ⊢
        refine (parallel_reduceFor op).bind fun _ _ _ => ?_
        refine (parallel_assignmentTarget h).bind ?_
        rintro extra _ rfl
        exact wait extra hat
      | bind =>
        simp only [hk] at hat ⊢
        refine (parallel_reduceFor op).bind fun _ _ _ => ?_
        refine (parallel_bindingTarget h).bind ?_
        rintro extra _ rfl
        exact wait extra hat
      | stream streamOp =>
        simp only [hk] at hat ⊢
        refine (parallel_reduceFor op).bind fun _ _ _ => ?_
        refine (parallel_streamClause hat).bind ?_
        rintro ⟨extra, next⟩ ⟨_, next'⟩ ⟨rfl, hnext⟩
        exact wait extra hnext
      | _ =>
        simp only [hk] at hat ⊢
        exact (parallel_reduceFor op).bind fun _ _ _ => wait .plain hat

/-! ## Runs -/

/-- What both steps answer for themselves. -/
theorem Parallel.and {α β : Type} {Q : α → β → Prop} {P : α → Prop} {P' : β → Prop}
    {step : Parse ε α} {step' : Parse ε β} (h : Parallel L Q step step') (hs : Answers P step)
    (hs' : Answers P' step') :
    Parallel L (fun a a' => Q a a' ∧ P a ∧ P' a') step step' := by
  intro b c hbc
  have hm := h b c hbc
  have ha := hs b
  have ha' := hs' c
  unfold Ends at ha ha'
  revert hm ha ha'
  generalize step b = r, step' c = r'
  rintro (⟨hq, hbc'⟩ | ⟨he, hscope⟩ | hlenient) ha ha'
  · exact .ok ⟨hq, ha, ha'⟩ hbc'
  · exact .error he hscope
  · exact .lenient hlenient

theorem parallel_fails {α β : Type} {Q : α → β → Prop} {step : Parse ε α} {step' : Parse ε β}
    (hlenient : ¬ L.strict) (h : Answers (fun _ => False) step) : Parallel L Q step step' := by
  intro b c _
  have hends := h b
  unfold Ends at hends
  cases hb : step b with
  | ok a b' =>
    rw [hb] at hends
    exact hends.elim
  | error e b' => exact .lenient hlenient

/-- From places at which the same is read two parses end alike. -/
theorem parallel_rounds (K : Track L) {fuel fuel' : Nat} {mode : LexMode} {c c' : Cursor}
    (h : K.at_ mode base base' c c') (hmode : mode ≠ .member) (hfuel : c.rest.length < fuel)
    (hfuel' : c'.rest.length < fuel') :
    Parallel L (Operand.Twin L) (rounds fuel mode base c : Parse ε Operand)
      (rounds fuel' mode base' c') := by
  -- Every token but the end of the text shortens what is left, so the fuel of both runs lasts.
  induction fuel generalizing fuel' mode base base' c c' with
  | zero => omega
  | succ fuel ih =>
    obtain ⟨fuel', rfl⟩ : ∃ less, fuel' = less + 1 := ⟨fuel' - 1, by omega⟩
    cases mode with
    | member => exact absurd rfl hmode
    | operand =>
      unfold rounds
      refine parallel_read (K.operand h) ?_
      rintro kind kind' span span' after after' hnext hnext' hkind hspan ⟨hafter, hraw⟩
      refine (parallel_operand hkind hspan ?_).bind ?_
      · rintro raw raw' doubleQuoted rfl rfl
        -- An interpolated source is shorter than the text that holds its literal.
        have hle := (Token.infix_of_str hnext).length_le
        have hle' := (Token.infix_of_str hnext').length_le
        refine (hraw raw raw' doubleQuoted rfl rfl).mono fun text text' _ _ hlen hlen' hat => ?_
        refine ih hat (by simp) ?_ ?_
        · show text.length < fuel
          omega
        · show text'.length < fuel'
          omega
      · rintro _ _ ⟨hfinish, rfl, rfl⟩
        have hlen := Token.length_next hnext hfinish
        have hlen' := Token.length_next hnext' (hkind.ne_finish hfinish)
        exact ih (hafter hfinish) kind.modeAfter_ne_member (by omega) (by omega)
    | operator =>
      rcases K.operator h with ⟨hlenient, hrefused⟩ | hread
      · exact parallel_fails hlenient (hrefused.answers _ _)
      unfold rounds
      refine parallel_read hread ?_
      intro kind kind' span span' after after' hnext hnext' hkind hspan hafter
      cases hkind with
      | str => exact parallel_unexpected _ _ hspan
      | renamed =>
        cases kind with
        | finish => exact parallel_finish hspan
        | comma =>
          have hlen := Token.length_next hnext (by simp)
          have hlen' := Token.length_next hnext' (by simp [TokenKind.rename])
          exact (parallel_comma hspan).bind fun _ _ _ =>
            ih hafter (by simp) (by omega) (by omega)
        | operator symbol =>
          have hlen := Token.length_next hnext (by simp)
          have hlen' := Token.length_next hnext' (by simp [TokenKind.rename])
          refine ((parallel_operator K symbol hspan hafter).and
            (answers_operator symbol _ base after) (answers_operator symbol _ base' after')).bind ?_
          rintro ⟨mode, next⟩ ⟨_, next'⟩ ⟨⟨rfl, hmode, hnext⟩, hsuffix, hsuffix'⟩
          have hle : next.rest.length ≤ after.rest.length := hsuffix.length_le
          have hle' : next'.rest.length ≤ after'.rest.length := hsuffix'.length_le
          exact ih hnext hmode (by omega) (by omega)
        | _ => exact parallel_unexpected _ _ hspan

end Parse

/-! ## Whole texts -/

/-- Both parses succeed with answers that `Q` relates, or fail for one cause, and they leave scopes
alike. If the likeness is not strict, nothing is said where the first one fails. -/
inductive AlikeOutcome {α β : Type} (L : Likeness) (Q : α → β → Prop) :
    Except ParseError α × TemplateScope ε → Except ParseError β × TemplateScope ε → Prop
  | ok {a : α} {a' : β} {s s' : TemplateScope ε} : Q a a' → s.Alike L s' →
      AlikeOutcome L Q (.ok a, s) (.ok a', s')
  | error {e e' : ParseError} {s s' : TemplateScope ε} : e.Twin L.toSpanRelation e' →
      s.Alike L s' → AlikeOutcome L Q (.error e, s) (.error e', s')
  | lenient {e : ParseError} {s : TemplateScope ε} {r : Except ParseError β × TemplateScope ε} :
      ¬ L.strict → AlikeOutcome L Q (.error e, s) r

/-- The expressions differ in their places and in names only. -/
inductive Parsed.Alike (L : Likeness) : Parsed ε → Parsed ε → Prop
  | intro (p : Parsed ε) {span : Span} : L.rel p.span span →
      Alike L p { p with
        span
        name := p.name.map L.name
        identifiers := p.identifiers.map (·.rename L.name) }

theorem Parsed.Alike.ofOperand {o o' : Parse.Operand} (ho : Parse.Operand.Twin L o o')
    (tables : Parse.Tables ε) (name : Option String) (params : Nat) (discard : Bool)
    {span span' : Span} (h : L.rel span span') :
    (Parsed.ofOperand o tables name params discard span).Alike L
      (Parsed.ofOperand o' (tables.rename L.name) (name.map L.name) params discard span') := by
  obtain ⟨-⟩ := ho
  have alike := Parsed.Alike.intro (L := L) (Parsed.ofOperand o tables name params discard span) h
  have expressions :
      (tables.rename L.name).expressions.map (·.2) = tables.expressions.map (·.2) := by
    simp [Parse.Tables.rename]
  unfold Parsed.ofOperand
  rw [expressions]
  exact alike

/-- The signatures differ in places and in names only. -/
structure Definition.Alike (L : Likeness) (base base' : Nat) (d d' : Definition) : Prop where
  name : d'.name = L.name d.name
  nameSpan : L.rel (d.nameSpan.shift base) (d'.nameSpan.shift base')
  params : List.Forall₂
    (fun p p' => p'.1 = L.name p.1 ∧ L.rel (p.2.shift base) (p'.2.shift base')) d.params d'.params
  discard : d'.discard = d.discard

namespace Track

variable (K : Track L) {base base' : Nat} {s s' : TemplateScope ε}

theorem runFrom {c c' : Cursor} (h : K.at_ .operand base base' c c') (hs : s.Alike L s')
    (tables : Parse.Tables ε) :
    AlikeOutcome L (fun r r' => Parse.Operand.Twin L r.1 r'.1 ∧ r'.2 = r.2.rename L.name)
      (Parsed.runFrom s tables base c) (Parsed.runFrom s' (tables.rename L.name) base' c') := by
  have start : Parse.Bench.Twin L { scope := s, tables }
      { scope := s', tables := tables.rename L.name } := ⟨hs, rfl, .nil, .nil⟩
  have ends := Parse.parallel_rounds K h (by simp) (Nat.lt_succ_self c.rest.length)
    (Nat.lt_succ_self c'.rest.length) _ _ start
  unfold Parsed.runFrom Parse.whole EStateM.run
  revert ends
  generalize Parse.rounds _ _ base c _ = r
  generalize Parse.rounds _ _ base' c' _ = r'
  rintro (⟨ho, hb⟩ | ⟨he, hscope⟩ | hlenient)
  · exact .ok ⟨ho, hb.tables⟩ hb.scope
  · exact .error he hscope
  · exact .lenient hlenient

theorem declareParams {params params' : List (String × Span)}
    (h : List.Forall₂
      (fun p p' => p'.1 = L.name p.1 ∧ L.rel (p.2.shift base) (p'.2.shift base')) params params')
    (tables : Parse.Tables ε) :
    (∃ declared, Parsed.declareParams tables params = .ok declared ∧
        Parsed.declareParams (tables.rename L.name) params' = .ok (declared.rename L.name)) ∨
      ∃ name span span', Parsed.declareParams tables params = .error (name, span) ∧
        Parsed.declareParams (tables.rename L.name) params' = .error (L.name name, span') ∧
        L.rel (span.shift base) (span'.shift base') := by
  induction h generalizing tables with
  | nil => exact .inl ⟨tables, rfl, rfl⟩
  | @cons p p' params params' hp _ ih =>
    obtain ⟨name, span⟩ := p
    obtain ⟨_, span'⟩ := p'
    obtain ⟨rfl, hspan⟩ := hp
    unfold Parsed.declareParams
    rw [Parse.Tables.local?_rename _ L.injective, Parse.Tables.declareLocal_rename]
    split
    · exact .inr ⟨_, _, _, rfl, rfl, hspan⟩
    · exact ih _

/-- The cause names a name, which is the same one if the likeness is strict. -/
theorem alike_of_name {α β : Type} {Q : α → β → Prop} (fault : String → ParseFault) {name : String}
    {span span' : Span} (hspan : L.rel span span') (hs : s.Alike L s') :
    AlikeOutcome L Q (.error ⟨fault name, span⟩, s) (.error ⟨fault (L.name name), span'⟩, s') := by
  by_cases strict : L.strict
  · rw [L.unnamed strict]
    exact .error ⟨rfl, hspan⟩ hs
  · exact .lenient strict

theorem ofDefinition {d d' : Definition} (hd : d.Alike L base base' d')
    (h : K.at_ .operand base base' d.body d'.body) {span span' : Span} (hspan : L.rel span span')
    (hs : s.Alike L s') (on : s.extensions.namedExpressions = true) :
    AlikeOutcome L (Parsed.Alike L) (Parsed.ofDefinition d base span s)
      (Parsed.ofDefinition d' base' span' s') := by
  unfold Parsed.ofDefinition
  simp only [hd.name, hd.discard, ← hd.params.length_eq, hs.isNamed]
  split
  · exact alike_of_name .duplicateDefinition hd.nameSpan hs
  · rcases declareParams hd.params ({} : Parse.Tables ε) with
      ⟨declared, hok, hok'⟩ | ⟨name, at_, at_', herror, herror', hat⟩
    · rw [hok]
      rw [show Parsed.declareParams {} d'.params = .ok (declared.rename L.name) from hok']
      simp only
      have ends : AlikeOutcome L _ (Parsed.runFrom _ { declared with defining := some d.name } _ _)
          (Parsed.runFrom _ { declared.rename L.name with defining := some (L.name d.name) } _ _) :=
        K.runFrom h (hs.beginDefinition on d.name) { declared with defining := some d.name }
      revert ends
      generalize Parsed.runFrom _ _ base d.body = r
      generalize Parsed.runFrom _ _ base' d'.body = r'
      rintro (⟨⟨ho, htables⟩, hs'⟩ | ⟨he, hs'⟩ | hlenient)
      · rename_i r r' _ _
        obtain ⟨o, tables⟩ := r
        obtain ⟨_, _⟩ := r'
        cases htables
        exact .ok (.ofOperand ho tables (some d.name) _ _ hspan) hs'
      · exact .error he (hs'.abandon d.name)
      · exact .lenient hlenient
    · rw [herror, show Parsed.declareParams {} d'.params = .error (L.name name, at_') from herror']
      exact alike_of_name .duplicateParameter hat hs

/-- Two texts with tokens alike parse alike. -/
theorem parse {text text' : String} (hs : s.Alike L s')
    (hspan : L.rel ((Span.ofRange 0 (byteLength text.toList)).shift base)
      ((Span.ofRange 0 (byteLength text'.toList)).shift base'))
    (h : (definitionOf? s.extensions text = none ∧ definitionOf? s'.extensions text' = none ∧
        K.at_ .operand base base' (Cursor.start text.toList) (Cursor.start text'.toList)) ∨
      ∃ d d', definitionOf? s.extensions text = some d ∧
        definitionOf? s'.extensions text' = some d' ∧ d.Alike L base base' d' ∧
        K.at_ .operand base base' d.body d'.body) :
    AlikeOutcome L (Parsed.Alike L) (parse text base s) (parse text' base' s') := by
  unfold TagExpr.parse
  rcases h with ⟨hnone, hnone', hat⟩ | ⟨d, d', hsome, hsome', hd, hat⟩
  · unfold definitionOf? at hnone hnone'
    simp only [hnone, hnone']
    have ends := K.runFrom hat hs {}
    revert ends
    generalize Parsed.runFrom s _ base _ = r
    have empty : ({} : Parse.Tables ε).rename L.name = {} := rfl
    rw [empty]
    generalize Parsed.runFrom s' _ base' _ = r'
    rintro (⟨⟨ho, htables⟩, hs'⟩ | ⟨he, hs'⟩ | hlenient)
    · rename_i r r' _ _
      obtain ⟨o, tables⟩ := r
      obtain ⟨o', _⟩ := r'
      cases htables
      have binds : o'.binds = o.binds := by
        obtain ⟨-⟩ := ho
        rfl
      simp only [binds]
      exact .ok (.ofOperand ho tables none _ _ hspan) hs'
    · exact .error he hs'
    · exact .lenient hlenient
  · have on : s.extensions.namedExpressions = true := by
      unfold definitionOf? at hsome
      split at hsome
      · assumption
      · cases hsome
    unfold definitionOf? at hsome hsome'
    simp only [hsome, hsome']
    exact K.ofDefinition hd hat hspan hs on

end Track

end TagExpr
