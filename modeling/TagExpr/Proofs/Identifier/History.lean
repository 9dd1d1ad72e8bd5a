import Mathlib.Data.List.Dedup
import TagExpr.Proofs.Draining.Ways

/-!
# Questions to an identifier

An identifier is asked for its member, or for the sort of the way to it, again and again and on
receivers of all shapes. It remembers one way for each shape that it has been asked about
(`answered_shapes`), it never gives a way up (`lookup_answered`), and what it remembers shows in no
answer: every answer is that of an identifier that has not been asked before
(`memory_invisible`).
-/

namespace TagExpr.Identifier

/-- What an identifier is asked. -/
inductive Question where
  /-- Read or call the member on a receiver. -/
  | get (receiver : Value) (args : List Value)
  /-- Tell the sort of the way to the member on a receiver. -/
  | kind (receiver : Value) (args : List Value)

/-- The shapes that the question is about. -/
def Question.shape : Question → ShapeKey
  | get receiver args | kind receiver args => ⟨receiver.shape, args.map Value.shape⟩

inductive Answer where
  | found (v : Option Value)
  | kind (k : Resolver.Kind)

/-- The answer to a question, and the identifier after it. -/
def answer (h : Host) (i : Identifier) : Question → StateM ObjectId (Answer × Identifier)
  | .get receiver args => do
    let (found, i) ← i.get h receiver args
    return (.found found, i)
  | .kind receiver args =>
    let (k, i) := i.kind h receiver args
    pure (.kind k, i)

/-- The answers to questions that are put to one identifier, and the identifier after them. -/
def answers (h : Host) (i : Identifier) :
    List Question → StateM ObjectId (List Answer × Identifier)
  | [] => return ([], i)
  | q :: rest => do
    let (a, i) ← i.answer h q
    let (more, i) ← i.answers h rest
    return (a :: more, i)

/-- The answers if each question is put to an identifier of its own. -/
def freshAnswers (h : Host) (key : IdentKey) : List Question → StateM ObjectId (List Answer)
  | [] => return []
  | q :: rest => do
    let (a, _) ← (fresh key).answer h q
    return a :: (← freshAnswers h key rest)

/-- The shapes for which the way is known. -/
def shapes (i : Identifier) : List ShapeKey := i.known.map (·.1)

variable {h : Host} {i j : Identifier} {q : Question} {next : ObjectId}

theorem lookup_eq_none_iff {shape : ShapeKey} : i.known.lookup shape = none ↔ shape ∉ i.shapes := by
  rw [List.lookup_eq_none_iff, shapes, List.mem_map]
  constructor
  · intro hall ⟨entry, hentry, heq⟩
    have := hall entry hentry
    simp [heq] at this
  · intro hnone entry hentry
    have hne : shape ≠ entry.1 := fun heq => hnone ⟨entry, hentry, heq.symm⟩
    simpa using hne

/-! ## One question -/

/-- The identifier after a question, which depends on nothing but the shapes and what it knew. -/
def asked (h : Host) (i : Identifier) : Question → Identifier
  | .get receiver args | .kind receiver args => (i.resolver h receiver args).2

theorem run_answer_identifier (i : Identifier) (q : Question) (next : ObjectId) :
    ((i.answer h q).run next).1.2 = i.asked h q := by
  cases q <;> rfl

/-- A question about new shapes adds these to the known ones. -/
theorem shapes_asked (i : Identifier) (q : Question) :
    (i.asked h q).shapes = i.shapes.insert q.shape := by
  have step (receiver : Value) (args : List Value) :
      (i.resolver h receiver args).2.shapes =
        i.shapes.insert ⟨receiver.shape, args.map Value.shape⟩ := by
    unfold resolver
    simp only
    split
    case h_1 r found =>
      have hmem : (⟨receiver.shape, args.map Value.shape⟩ : ShapeKey) ∈ i.shapes := by
        by_contra hnot
        rw [lookup_eq_none_iff.mpr hnot] at found
        cases found
      rw [List.insert_of_mem hmem]
    case h_2 missed => rw [List.insert_of_not_mem (lookup_eq_none_iff.mp missed)]; rfl
  cases q with
  | get receiver args => exact step receiver args
  | kind receiver args => exact step receiver args

/-- A way that is known stays. -/
theorem lookup_asked (i : Identifier) (q : Question) {shape : ShapeKey} {r : Resolver}
    (known : i.known.lookup shape = some r) : (i.asked h q).known.lookup shape = some r := by
  have step (receiver : Value) (args : List Value) :
      (i.resolver h receiver args).2.known.lookup shape = some r := by
    unfold resolver
    simp only
    split
    case h_1 => exact known
    case h_2 missed =>
      -- The shapes are new, so they are not those of the known way.
      have hne : shape ≠ ⟨receiver.shape, args.map Value.shape⟩ := by
        intro heq
        rw [heq, missed] at known
        cases known
      have hbeq : (shape == ⟨receiver.shape, args.map Value.shape⟩) = false := by simpa using hne
      rw [List.lookup_cons, hbeq]
      exact known
  cases q with
  | get receiver args => exact step receiver args
  | kind receiver args => exact step receiver args

/-- Two identifiers that take the same ways answer alike. -/
theorem SameWays.answer (same : i.SameWays h j) (q : Question) (next : ObjectId) :
    ((i.answer h q).run next).1.1 = ((j.answer h q).run next).1.1 ∧
      ((i.answer h q).run next).2 = ((j.answer h q).run next).2 := by
  cases q with
  | get receiver args =>
    have hi := same.run_get receiver args next
    have hj := (SameWays.refl (h := h) j).run_get receiver args next
    have hrun (k : Identifier) : (k.answer h (.get receiver args)).run next =
        ((.found ((k.get h receiver args).run next).1.1, ((k.get h receiver args).run next).1.2),
          ((k.get h receiver args).run next).2) := rfl
    rw [hrun, hrun, hi, hj]
    exact ⟨rfl, rfl⟩
  | kind receiver args =>
    have hrun (k : Identifier) : (k.answer h (.kind receiver args)).run next =
        ((.kind (k.resolver h receiver args).1.kind, (k.resolver h receiver args).2), next) := rfl
    rw [hrun, hrun, resolver_eq_way, resolver_eq_way, same.way]
    exact ⟨rfl, rfl⟩

theorem SameWays.asked (same : i.SameWays h j) (q : Question) : (i.asked h q).SameWays h j := by
  cases q with
  | get receiver args => exact same.learn receiver args
  | kind receiver args => exact same.learn receiver args

/-! ## Many questions -/

/-- The identifier after some questions. -/
def answered (h : Host) (i : Identifier) (history : List Question) : Identifier :=
  history.foldl (asked h) i

theorem run_answers_cons (i : Identifier) (q : Question) (rest : List Question) (next : ObjectId) :
    (i.answers h (q :: rest)).run next =
      let first := (i.answer h q).run next
      let more := (first.1.2.answers h rest).run first.2
      ((first.1.1 :: more.1.1, more.1.2), more.2) := rfl

theorem run_answers_identifier (i : Identifier) (history : List Question) (next : ObjectId) :
    ((i.answers h history).run next).1.2 = i.answered h history := by
  induction history generalizing i next with
  | nil => rfl
  | cons q rest ih =>
    rw [run_answers_cons]
    simp only
    rw [ih, run_answer_identifier]
    rfl

/-- Identifiers that take the ways of a fresh one answer as fresh ones do. -/
theorem SameWays.answers {key : IdentKey} (same : i.SameWays h (fresh key))
    (history : List Question) (next : ObjectId) :
    (((i.answers h history).run next).1.1, ((i.answers h history).run next).2) =
      (freshAnswers h key history).run next := by
  induction history generalizing i next with
  | nil => rfl
  | cons q rest ih =>
    obtain ⟨hanswer, hnext⟩ := same.answer q next
    have later := ih (same.asked q) ((i.answer h q).run next).2
    have hfresh : (freshAnswers h key (q :: rest)).run next =
        let first := ((fresh key).answer h q).run next
        let more := (freshAnswers h key rest).run first.2
        (first.1.1 :: more.1, more.2) := rfl
    rw [run_answers_cons, hfresh]
    simp only [run_answer_identifier, hanswer, ← hnext, ← later]

theorem SameWays.answered (same : i.SameWays h j) (history : List Question) :
    (i.answered h history).SameWays h j := by
  induction history generalizing i with
  | nil => exact same
  | cons q rest ih => exact ih (same.asked q)

theorem lookup_answered (i : Identifier) (history : List Question) {shape : ShapeKey} {r : Resolver}
    (known : i.known.lookup shape = some r) :
    (i.answered h history).known.lookup shape = some r := by
  induction history generalizing i with
  | nil => exact known
  | cons q rest ih => exact ih (i.asked h q) (i.lookup_asked q known)

/-- The known shapes are different ones: those from the beginning and those asked about. -/
theorem answered_shapes (i : Identifier) (history : List Question) (distinct : i.shapes.Nodup) :
    (i.answered h history).shapes.Nodup ∧
      ∀ shape, shape ∈ (i.answered h history).shapes ↔
        shape ∈ i.shapes ∨ shape ∈ history.map Question.shape := by
  induction history generalizing i with
  | nil => exact ⟨distinct, by simp [answered]⟩
  | cons q rest ih =>
    have hshapes := i.shapes_asked (h := h) q
    obtain ⟨hnodup, hmem⟩ := ih (i.asked h q) (by rw [hshapes]; exact distinct.insert)
    refine ⟨hnodup, fun shape => ?_⟩
    show shape ∈ ((i.asked h q).answered h rest).shapes ↔ _
    rw [hmem, hshapes, List.mem_insert_iff, List.map_cons, List.mem_cons]
    tauto

theorem knownShapes_answered (key : IdentKey) (history : List Question) :
    ((fresh key).answered h history).knownShapes = (history.map Question.shape).dedup.length := by
  obtain ⟨hnodup, hmem⟩ := (fresh key).answered_shapes (h := h) history List.nodup_nil
  have hperm : ((fresh key).answered h history).shapes.Perm (history.map Question.shape).dedup := by
    rw [List.perm_ext_iff_of_nodup hnodup (List.nodup_dedup _)]
    intro shape
    rw [hmem, List.mem_dedup]
    simp [shapes, fresh]
  rw [← hperm.length_eq, shapes, List.length_map, knownShapes]

/-- **What an identifier remembers shows in no answer.** Whatever has been asked before, every
answer is that of a fresh identifier, and so is the answer to the next question, with host objects
numbered from any number; as many ways are known as different shapes have been asked about; and a
way that is known, a miss included, is known ever after. -/
theorem memory_invisible (h : Host) (key : IdentKey) (history : List Question) (first : ObjectId) :
    ∃ replies i last, ((fresh key).answers h history).run first = ((replies, i), last) ∧
      (freshAnswers h key history).run first = (replies, last) ∧
      (∀ q next, ((i.answer h q).run next).1.1 = (((fresh key).answer h q).run next).1.1 ∧
        ((i.answer h q).run next).2 = (((fresh key).answer h q).run next).2) ∧
      i.knownShapes = (history.map Question.shape).dedup.length ∧
      ∀ later next shape r, i.known.lookup shape = some r →
        ((i.answers h later).run next).1.2.known.lookup shape = some r := by
  have same : (fresh key).SameWays h (fresh key) := .refl _
  have hidentifier := run_answers_identifier (h := h) (fresh key) history first
  have hreplies := same.answers history first
  generalize ((fresh key).answers h history).run first = run at hidentifier hreplies ⊢
  obtain ⟨⟨replies, i⟩, last⟩ := run
  cases hidentifier
  refine ⟨replies, _, last, rfl, hreplies.symm, ?_, knownShapes_answered key history, ?_⟩
  · intro q next
    exact (same.answered history).answer q next
  · intro later next shape r known
    rw [run_answers_identifier]
    exact lookup_answered _ later known

/-- A text, a map that holds null, a number without a length and another text are three shapes, and
the miss of the number stays a miss. -/
theorem miss_remembered :
    ∃ replies i last, ((fresh (.property "length")).answers {} [.get (.str "ab") [],
        .get (.map [(.str "length", .null)]) [], .kind (.int 1) [], .get (.str "c") []]).run 0 =
          ((replies, i), last) ∧
      i.knownShapes = 3 ∧ i.known.lookup ⟨.int, []⟩ = some .missing ∧
      ∀ later next, ((i.answers {} later).run next).1.2.known.lookup ⟨.int, []⟩ =
        some .missing := by
  obtain ⟨replies, i, last, hrun, -, -, hshapes, hkept⟩ := memory_invisible {} (.property "length")
    [.get (.str "ab") [], .get (.map [(.str "length", .null)]) [], .kind (.int 1) [],
      .get (.str "c") []] 0
  have hknown : i.known.lookup ⟨.int, []⟩ = some .missing := by
    have hi : i = (((fresh (.property "length")).answers {} [.get (.str "ab") [],
        .get (.map [(.str "length", .null)]) [], .kind (.int 1) [],
        .get (.str "c") []]).run 0).1.2 := by rw [hrun]
    rw [hi]
    rfl
  refine ⟨replies, i, last, hrun, ?_, hknown, fun later next => hkept later next _ _ hknown⟩
  rw [hshapes]
  decide

end TagExpr.Identifier
