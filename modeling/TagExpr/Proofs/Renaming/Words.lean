import Mathlib.Logic.Function.Basic
import TagExpr.Proofs.Parse.Words
import TagExpr.Proofs.Renaming.Reworded
import TagExpr.Proofs.Token.Signatures

/-!
# Renaming the words of a text

A renaming is applied to the text of an expression, name by name: names with marks before them, call
heads, member names, the names of clauses, definitions and parameters, and the names inside of
string literals where interpolation is switched on (`Renaming.text`). Everything else stays as it is
written: keywords, internal names, annotations, comments, and literals that are not split. Which
words are names is told by the tokens, as for the words of a text.

In a text in which words and signs take turns (`Turns`) a renaming changes the words and nothing
else. So the renamed lexeme of a name token is that of the renamed name (`words_token`), and renamed
clauses and signatures of definitions are clauses and signatures with the renamed names
(`lambda?_renamed`, `definition?_renamed`).
-/

namespace TagExpr

open Signature (IsName)

instance : DecidablePred IsName := fun _ => inferInstanceAs (Decidable (_ ∧ _))

instance : DecidablePred Signature.Names := fun _ => inferInstanceAs (Decidable (_ ∧ _))

/-- An injective renaming that makes names of names, and no keywords of what is none. Of texts that
are no names nothing is asked but injectivity. -/
structure Renaming where
  name : String → String
  injective : Function.Injective name
  isName : ∀ s, IsName s.toList → IsName (name s).toList
  plain : ∀ s, IsName s.toList → s ∉ Signature.keywords → name s ∉ Signature.keywords

namespace Renaming

/-- Every injective renaming of names to names other than keywords is one, with the identity
elsewhere. -/
def ofNames (f : String → String)
    (injective : ∀ s t, IsName s.toList → IsName t.toList → f s = f t → s = t)
    (isName : ∀ s, IsName s.toList → IsName (f s).toList)
    (plain : ∀ s, IsName s.toList → s ∉ Signature.keywords → f s ∉ Signature.keywords) :
    Renaming where
  name s := if IsName s.toList then f s else s
  injective := by
    intro s t h
    simp only at h
    split at h <;> split at h
    case isTrue.isTrue hs ht => exact injective s t hs ht h
    case isTrue.isFalse hs ht => exact absurd (h ▸ isName s hs) ht
    case isFalse.isTrue hs ht => exact absurd (h ▸ isName t ht) hs
    case isFalse.isFalse => exact h
  isName s hs := by
    rw [if_pos hs]
    exact isName s hs
  plain s hs hplain := by
    rw [if_pos hs]
    exact plain s hs hplain

variable (r : Renaming) (extensions : Extensions)

/-! ## Words -/

/-- The text with every word in it renamed. The first `skip` characters belong to a word that has
been renamed. -/
def wordsFrom (skip : Nat) : List Char → List Char
  | [] => []
  | c :: rest =>
    match skip with
    | skip + 1 => wordsFrom skip rest
    | 0 =>
      if Token.isNameStart c then
        let more := rest.takeWhile Token.isNamePart
        (r.name (String.ofList (c :: more))).toList ++ wordsFrom more.length rest
      else c :: wordsFrom 0 rest

/-- The text with every word in it renamed. -/
def words (text : List Char) : List Char := r.wordsFrom 0 text

/-! ## Literals -/

/-- The contents of a literal that is split, with the names in it renamed. `nested` renames the
source of an interpolated expression. The first `skip` characters have been dealt with. -/
def contentsFrom (nested : List Char → List Char) (skip : Nat) : List Char → List Char
  | [] => []
  | c :: rest =>
    match skip with
    | skip + 1 => contentsFrom nested skip rest
    | 0 =>
      if c = '\\' then
        match Literal.escape 0 rest with
        | .error _ => c :: rest
        | .ok (_, count) => c :: (rest.take (count - 1) ++ contentsFrom nested (count - 1) rest)
      else if c = '$' then
        match rest.head? with
        | none => [c]
        | some next =>
          if next = '\x7b' then
            match Literal.interpolated? 0 none (rest.drop 1) with
            | none => c :: rest
            | some source =>
              c :: next :: (nested source ++ '\x7d' :: contentsFrom nested (source.length + 2) rest)
          else if Token.isNameStart next then
            let name := rest.takeWhile Token.isNamePart
            c :: ((r.name (String.ofList name)).toList ++ contentsFrom nested name.length rest)
          else c :: contentsFrom nested 0 rest
      else c :: contentsFrom nested 0 rest

/-- The contents of a literal, with the names in it renamed. -/
def contents (nested : List Char → List Char) (raw : List Char) : List Char :=
  r.contentsFrom nested 0 raw

/-! ## Tokens -/

/-- The lexeme of a token, with the names in it renamed. -/
def lexeme (nested : List Char → List Char) (kind : TokenKind) (lexeme : List Char) : List Char :=
  match kind with
  | .ident { kind := .name _, .. } => r.words lexeme
  | .str raw true =>
    if extensions.interpolation then '"' :: (r.contents nested raw ++ ['"']) else lexeme
  | _ => lexeme

/-- What a text consists of before the rest of it. -/
def before (text rest : List Char) : List Char := text.take (text.length - rest.length)

/-- What follows an operator symbol, renamed. `next` renames a text from a place on. -/
def behindSymbol (next : LexMode → Cursor → List Char) (symbol : String) (after : Cursor) :
    List Char :=
  if Operator.closers.contains symbol then
    next .operator after
  else
    match (Operator.findInfix? symbol).map Operator.kind with
    | some (.navigate _) => next .member after
    | some (.stream _) =>
      match Signature.lambda? after with
      | some clause => r.words (before after.rest clause.body.rest) ++ next .operand clause.body
      | none => next .operand after
    | _ => next .operand after

/-- What follows a token, renamed. -/
def behind (next : LexMode → Cursor → List Char) (mode : LexMode) (kind : TokenKind)
    (after : Cursor) : List Char :=
  match mode, kind with
  | .operator, .comma => next .operand after
  | .operator, .operator symbol => r.behindSymbol next symbol after
  | _, kind => next kind.modeAfter after

/-- A text from a place on, with the names in it renamed, in at most `fuel` tokens. Where no token
is found the rest of the text stays as it is. -/
def textFrom : Nat → LexMode → Cursor → List Char
  | 0, _, at_ => at_.rest
  | fuel + 1, mode, at_ =>
    match Token.skip mode at_ with
    | .error _ => at_.rest
    | .ok found =>
      match Token.read mode found with
      | .error _ => at_.rest
      | .ok (token, after) =>
        let nested (source : List Char) : List Char := textFrom fuel .operand (Cursor.start source)
        before at_.rest found.rest ++
          (r.lexeme extensions nested token.kind (before found.rest after.rest) ++
            r.behind (textFrom fuel) mode token.kind after)

/-- **The text of an expression with the names in it renamed.** Every token takes at least one
character, so their number bounds that of the tokens. -/
def text (text : String) : String :=
  let body := bodyOf extensions text
  String.ofList (r.words (before text.toList body.rest) ++
    r.textFrom extensions (body.rest.length + 1) .operand body)

end Renaming

end TagExpr

/-! ## Renaming the words of tokens and signatures -/

namespace TagExpr

open Signature (IsName EndsName Names Laid Heads)
open Token (isNamePart isNameStart Signs opener)

namespace Renaming

variable (r : Renaming) {name rest p : List Char} {c : Char}

/-! ## Words -/

/-- What a name is called. -/
def renamed (name : List Char) : List Char := (r.name (String.ofList name)).toList

theorem isName_renamed (hn : IsName name) : IsName (r.renamed name) :=
  r.isName _ (by rwa [String.toList_ofList])

theorem ofList_renamed (name : List Char) :
    String.ofList (r.renamed name) = r.name (String.ofList name) := String.ofList_toList

theorem plain_renamed (hn : IsName name) (h : String.ofList name ∉ Signature.keywords) :
    String.ofList (r.renamed name) ∉ Signature.keywords := by
  rw [ofList_renamed]
  exact r.plain _ (by rwa [String.toList_ofList]) h

theorem wordsFrom_skip (p rest : List Char) : r.wordsFrom p.length (p ++ rest) = r.words rest := by
  induction p with
  | nil => rfl
  | cons c p ih => exact ih

theorem words_signs (h : Signs p) (rest : List Char) : r.words (p ++ rest) = p ++ r.words rest := by
  induction p with
  | nil => rfl
  | cons c p ih =>
    have hc : ¬ isNameStart c := fun hstart => by
      cases (h c List.mem_cons_self).symm.trans (Token.isNamePart_of_isNameStart hstart)
    rw [List.cons_append, words, wordsFrom, if_neg hc]
    exact congrArg (c :: ·) (ih fun d hd => h d (List.mem_cons_of_mem c hd))

theorem words_name (hn : IsName name) (hends : EndsName rest) :
    r.words (name ++ rest) = r.renamed name ++ r.words rest := by
  obtain ⟨c, more, rfl, hc, hmore⟩ := hn.cons
  have hword : (more ++ rest).takeWhile isNamePart = more := Token.takeWhile_run hmore hends
  rw [List.cons_append, words, wordsFrom, if_pos hc]
  simp only [hword, wordsFrom_skip]
  rfl

theorem words_only (h : Signs p) : r.words p = p := by
  simpa [words, wordsFrom] using r.words_signs h []

theorem words_whole (hn : IsName name) : r.words name = r.renamed name := by
  have ends : EndsName [] := by simp [EndsName]
  simpa [words, wordsFrom] using r.words_name hn ends

theorem signs_marks {lookup : Lookup} {marks : List Char} (h : Token.Marks lookup marks) :
    Signs marks := by
  intro c hc
  have hmark := h.isMark c hc
  simp only [Token.isMark, Bool.or_eq_true, decide_eq_true_eq] at hmark
  rcases hmark with (rfl | rfl) | rfl <;> rfl

theorem signs_opener (call : Bool) : Signs (opener call) :=
  Token.signs_of_all (by cases call <;> rfl)

/-- The lexeme of a name token. -/
theorem words_token {lookup : Lookup} {marks : List Char} {call : Bool}
    (hm : Token.Marks lookup marks) (hn : IsName name) :
    r.words (marks ++ (name ++ opener call)) = marks ++ (r.renamed name ++ opener call) := by
  have hends : EndsName (opener call) := by
    cases call with
    | true => exact fun c hc => by cases hc; rfl
    | false => simp [opener, EndsName]
  rw [words_signs r (signs_marks hm), words_name r hn hends, words_only r (signs_opener call)]

theorem words_call (hn : IsName name) : r.words (name ++ ['(']) = r.renamed name ++ ['('] :=
  (r.words_token .none hn : r.words ([] ++ (name ++ opener true)) = _)

theorem words_head (hn : IsName name) (rest : List Char) :
    r.words (name ++ ['('] ++ rest) = r.renamed name ++ ['('] ++ r.words rest := by
  have hends : EndsName (['('] ++ rest) := fun c hc => by cases hc; rfl
  have hparen : Signs ['('] := signs_opener true
  rw [List.append_assoc, words_name r hn hends, words_signs r hparen, List.append_assoc]

@[simp] theorem before_append (p rest : List Char) : before (p ++ rest) rest = p := by
  simp [before]

/-! ## Lexemes that take turns -/

/-- Words and signs by turns, a sign at the end. The flag says that a word stands before them. -/
inductive Turns : Bool → List (List Char) → Prop
  | nil : Turns false []
  | sign {inside : Bool} {sign : List Char} {lexemes : List (List Char)} : sign ≠ [] →
      Signs sign → Turns false lexemes → Turns inside (sign :: lexemes)
  | word {name : List Char} {lexemes : List (List Char)} : IsName name → Turns true lexemes →
      Turns false (name :: lexemes)
  | call {name : List Char} {lexemes : List (List Char)} : IsName name → Turns false lexemes →
      Turns false ((name ++ ['(']) :: lexemes)

section Turns

variable {inside : Bool} {lexemes : List (List Char)} {written a b : List Char}

theorem Turns.endsName (h : Turns true lexemes) (hl : Laid lexemes written) (rest : List Char) :
    EndsName (written ++ rest) := by
  cases h with
  | sign hne hsign _ =>
    obtain ⟨gap, after, rfl, hgap, -⟩ := Signature.laid_cons_iff.mp hl
    rw [List.append_assoc]
    refine Signature.endsName_gap hgap fun c hc => ?_
    obtain ⟨d, more, rfl⟩ := List.exists_cons_of_ne_nil hne
    cases hc
    exact hsign _ List.mem_cons_self

/-- The renamed text has the renamed lexemes. -/
theorem laid (h : Turns inside lexemes) (hl : Laid lexemes written) :
    Laid (lexemes.map r.words) (r.words written) := by
  induction h generalizing written with
  | nil =>
    cases hl
    exact .nil
  | sign _ hsign _ ih =>
    obtain ⟨gap, after, rfl, hgap, hl⟩ := Signature.laid_cons_iff.mp hl
    rw [words_signs r (Token.signs_separators hgap), words_signs r hsign, List.map_cons,
      words_only r hsign]
    exact (Laid.lexeme (ih hl)).after hgap
  | word hn hturns ih =>
    obtain ⟨gap, after, rfl, hgap, hl⟩ := Signature.laid_cons_iff.mp hl
    have hends : EndsName after := by simpa using hturns.endsName hl []
    rw [words_signs r (Token.signs_separators hgap), words_name r hn hends, List.map_cons,
      words_whole r hn]
    exact (Laid.lexeme (ih hl)).after hgap
  | call hn _ ih =>
    obtain ⟨gap, after, rfl, hgap, hl⟩ := Signature.laid_cons_iff.mp hl
    rw [words_signs r (Token.signs_separators hgap), words_head r hn, List.map_cons,
      words_call r hn]
    exact (Laid.lexeme (ih hl)).after hgap

/-- What stands before a text that is reworded may be words and signs by turns. -/
theorem reworded (h : Turns inside lexemes) (hl : Laid lexemes written)
    (hr : Reworded false a b) : Reworded inside (written ++ a) (r.words written ++ b) := by
  induction h generalizing written with
  | nil =>
    cases hl
    exact hr
  | @sign inside sign lexemes hne hsign _ ih =>
    obtain ⟨gap, after, rfl, hgap, hl⟩ := Signature.laid_cons_iff.mp hl
    have signs := (Token.signs_separators hgap).append hsign
    rw [words_signs r (Token.signs_separators hgap), words_signs r hsign]
    simpa using (ih hl).behindWord signs.endsWord (by simp [hne]) inside
  | word hn hturns ih =>
    obtain ⟨gap, after, rfl, hgap, hl⟩ := Signature.laid_cons_iff.mp hl
    have hends : EndsName after := by simpa using hturns.endsName hl []
    rw [words_signs r (Token.signs_separators hgap), words_name r hn hends]
    have named := Reworded.name hn (r.isName_renamed hn) (hturns.endsName hl a) (ih hl)
    simpa using named.behindSigns (Token.signs_separators hgap)
  | @call name lexemes hn _ ih =>
    obtain ⟨gap, after, rfl, hgap, hl⟩ := Signature.laid_cons_iff.mp hl
    have hends : EndsName ('(' :: (after ++ a)) := fun c hc => by cases hc; rfl
    have named := Reworded.name hn (r.isName_renamed hn) hends (.keep '(' (ih hl))
    rw [words_signs r (Token.signs_separators hgap), words_head r hn]
    simpa using named.behindSigns (Token.signs_separators hgap)

end Turns

/-! ## Clauses and signatures of definitions -/

section Signatures

variable {params lexemes : List (List Char)} {discard : Bool} {written : List Char}

theorem names_renamed (h : Names name) : Names (r.renamed name) :=
  ⟨r.isName_renamed h.1, r.plain_renamed h.1 h.2⟩

theorem turns_clause (hn : IsName name) : Turns false [name, Signature.clauseArrow] :=
  .word hn (.sign (by simp [Signature.clauseArrow]) (Token.signs_of_all rfl) .nil)

/-- **A renamed clause is a clause** with the renamed name. -/
theorem lambda?_renamed {at_ at' : Cursor} {clause : LambdaClause}
    (h : Signature.lambda? at_ = some clause)
    (hat : at'.rest = r.words (before at_.rest clause.body.rest) ++ rest) :
    ∃ clause', Signature.lambda? at' = some clause' ∧ clause'.name = r.name clause.name ∧
      clause'.body.rest = rest := by
  obtain ⟨written, hwritten, hname, hlaid⟩ := Signature.lambda?_laid h
  have hlaid' := r.laid (turns_clause hname.1) hlaid
  rw [List.map_cons, List.map_singleton, words_whole r hname.1,
    words_only r (Token.signs_of_all rfl)] at hlaid'
  rw [hwritten, before_append] at hat
  have hclause := Signature.lambda?_of_laid hat (r.names_renamed hname) hlaid'
  rwa [ofList_renamed, String.ofList_toList] at hclause

theorem turns_arrow (discard : Bool) : Turns false [Signature.arrow discard] := by
  cases discard <;> exact .sign (by simp [Signature.arrow]) (Token.signs_of_all rfl) .nil

theorem turns_laterParams (h : ∀ n ∈ params, IsName n) (inside : Bool) :
    Turns inside (Signature.laterParams params ++ [Signature.arrow discard]) := by
  induction params generalizing inside with
  | nil => exact .sign (by simp) (Token.signs_of_all rfl) (turns_arrow discard)
  | cons name params ih =>
    exact .sign (by simp) (Token.signs_of_all rfl) (.word (h name List.mem_cons_self)
      (ih (fun n hn => h n (List.mem_cons_of_mem name hn)) true))

theorem turns_heads (hn : IsName name) (h : ∀ n ∈ params, IsName n)
    (hheads : Signature.Heads name params discard lexemes) : Turns false lexemes := by
  cases hheads with
  | bare =>
    cases discard <;>
      exact .word hn (.sign (by simp [Signature.arrow]) (Token.signs_of_all rfl) .nil)
  | list =>
    refine .call hn ?_
    cases params with
    | nil => exact .sign (by simp) (Token.signs_of_all rfl) (turns_arrow discard)
    | cons first params =>
      exact .word (h first List.mem_cons_self)
        (turns_laterParams (fun n hn => h n (List.mem_cons_of_mem first hn)) true)

theorem words_arrow (discard : Bool) :
    r.words (Signature.arrow discard) = Signature.arrow discard :=
  r.words_only (Token.signs_of_all (by cases discard <;> rfl))

theorem map_laterParams (h : ∀ n ∈ params, IsName n) :
    (Signature.laterParams params).map r.words =
      Signature.laterParams (params.map r.renamed) := by
  have sign (c : Char) (hc : isNamePart c = false) : r.words [c] = [c] :=
    r.words_only (by simpa [Signs] using hc)
  induction params with
  | nil => exact congrArg ([·]) (sign ')' rfl)
  | cons name params ih =>
    simp only [Signature.laterParams, List.map_cons, sign ',' rfl,
      words_whole r (h name List.mem_cons_self), ih fun n hn => h n (List.mem_cons_of_mem name hn)]

theorem heads_renamed (hn : IsName name) (h : ∀ n ∈ params, IsName n)
    (hheads : Signature.Heads name params discard lexemes) :
    Signature.Heads (r.renamed name) (params.map r.renamed) discard (lexemes.map r.words) := by
  cases hheads with
  | bare hnil =>
    rw [List.map_cons, List.map_singleton, words_whole r hn, words_arrow]
    exact .bare (by rw [hnil]; rfl)
  | list =>
    have list : (Signature.paramLexemes params).map r.words =
        Signature.paramLexemes (params.map r.renamed) := by
      cases params with
      | nil => exact r.map_laterParams h
      | cons first params =>
        simp only [Signature.paramLexemes, List.map_cons,
          words_whole r (h first List.mem_cons_self),
          r.map_laterParams fun n hn => h n (List.mem_cons_of_mem first hn)]
    rw [List.map_cons, List.map_append, words_call r hn, list, List.map_singleton, words_arrow]
    exact .list

/-- **A renamed signature is a signature** with the renamed names. -/
theorem definition?_renamed {text : List Char} {d : Definition}
    (h : Signature.definition? text = some d) :
    ∃ d', Signature.definition? (r.words (before text d.body.rest) ++ rest) = some d' ∧
      d'.name = r.name d.name ∧ d'.params.map (·.1) = d.params.map (r.name ·.1) ∧
      d'.discard = d.discard ∧ d'.body.rest = rest := by
  obtain ⟨lexemes, written, htext, hname, hparams, hheads, hlaid⟩ := Signature.definition?_laid h
  have params : ∀ n ∈ d.params.map (·.1.toList), IsName n := List.forall_mem_map.mpr hparams
  have renamed (names : List (String × Span)) :
      ((names.map (·.1.toList)).map r.renamed).map String.ofList = names.map (r.name ·.1) := by
    simp [ofList_renamed]
  have hsig := Signature.definition?_of_laid (rfl : r.words written ++ rest = _)
    (r.names_renamed hname) (List.forall_mem_map.mpr fun n hn => r.isName_renamed (params n hn))
    (r.heads_renamed hname.1 params hheads) (r.laid (turns_heads hname.1 params hheads) hlaid)
  rw [htext, before_append]
  rwa [ofList_renamed, String.ofList_toList, renamed] at hsig

end Signatures

end Renaming

end TagExpr
