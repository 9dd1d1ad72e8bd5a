import TagExpr.Render.Context
import Mathlib.Data.List.Forall2
import Mathlib.Data.List.Nodup

/-!
# Bindings and the activations of templates

What a binding is can be told from the requests that have been made: it is what was stored last in
its slot during the innermost activation of its template (`History.stored`). A context shows just
that (`Shows`), by one step for each request. Once an activation has been left, the bindings of its
template are those of the activation before (`Balanced.binding_eq`).
-/

namespace TagExpr

/-! ## Slots of a frame -/

theorem TemplateFrame.get_set_ne (f : TemplateFrame) {slot other : Nat} (h : other ≠ slot)
    (v : Value) : (f.set slot v).get other = f.get other := by
  unfold get set
  rw [List.getD_eq_getElem?_getD, List.getD_eq_getElem?_getD, List.getElem?_set_ne h.symm,
    List.getElem?_append]
  split
  · rfl
  · rename_i beyond
    rw [List.getElem?_eq_none (Nat.le_of_not_lt beyond), List.getElem?_replicate]
    split <;> rfl

theorem TemplateFrame.get_set (f : TemplateFrame) (slot other : Nat) (v : Value) :
    (f.set slot v).get other = if other = slot then v else f.get other := by
  split
  · subst other
    exact f.get_set_self slot v
  · exact f.get_set_ne ‹_› v

/-! ## Requests -/

/-- What can be asked of a context about the bindings of templates. -/
inductive FrameRequest where
  /-- Begin an activation of a template. -/
  | enter (id : TemplateId)
  /-- Leave the innermost activation. -/
  | leave
  | assign (id : TemplateId) (slot : Nat) (v : Value)
  | read (id : TemplateId) (slot : Nat)

inductive FrameReply where
  | done
  /-- The template whose activation has been left, if there was one. -/
  | left (id : Option TemplateId)
  | refused (fault : EvalFault)
  | value (v : Value)

namespace Context

def answer (c : Context) : FrameRequest → FrameReply × Context
  | .enter id => (.done, c.pushTemplate id)
  | .leave =>
    match c.popTemplate? with
    | some (id, c) => (.left (some id), c)
    | none => (.left none, c)
  | .assign id slot v =>
    match c.setBinding id slot v with
    | .ok c => (.done, c)
    | .error fault => (.refused fault, c)
  | .read id slot => (.value (c.binding id slot), c)

/-- The replies to some requests and the context after them. -/
def answers (c : Context) : List FrameRequest → List FrameReply × Context
  | [] => ([], c)
  | request :: rest =>
    let (reply, c) := c.answer request
    let (replies, c) := c.answers rest
    (reply :: replies, c)

end Context

/-! ## What the requests say -/

/-- An activation of a template. -/
inductive Activation where
  /-- One that was there before all requests, that many frames below the top. -/
  | initial (depth : Nat)
  /-- The one that began after that many requests. -/
  | begun (moment : Nat)
  deriving DecidableEq

namespace History

/-! A history is the list of the requests that have been made, the last one first. -/

variable (initial : List TemplateFrame)

/-- The activations that have not been left, the innermost first. -/
def live : List FrameRequest → List (Activation × TemplateId)
  | [] => initial.mapIdx fun depth f => (.initial depth, f.template)
  | .enter id :: past => (.begun past.length, id) :: live past
  | .leave :: past => (live past).tail
  | .assign _ _ _ :: past => live past
  | .read _ _ :: past => live past

/-- The innermost activation of a template. -/
def innermost? (past : List FrameRequest) (id : TemplateId) : Option Activation :=
  ((live initial past).find? (·.2 == id)).map (·.1)

/-- What was stored last in a slot during an activation. -/
def stored : List FrameRequest → Activation → Nat → Value
  | [], .initial depth, slot => (initial[depth]?.map (·.get slot)).getD .null
  | [], .begun _, _ => .null
  | .assign id place v :: past, a, slot =>
    if innermost? initial past id = some a ∧ slot = place then v else stored past a slot
  | .enter _ :: past, a, slot => stored past a slot
  | .leave :: past, a, slot => stored past a slot
  | .read _ _ :: past, a, slot => stored past a slot

/-- The reply that a request has to get after these others. -/
def reply (past : List FrameRequest) : FrameRequest → FrameReply
  | .enter _ => .done
  | .leave => .left ((live initial past).head?.map (·.2))
  | .assign id _ _ =>
    if (innermost? initial past id).isSome then .done else .refused (.noTemplateFrame id)
  | .read id slot =>
    .value (((innermost? initial past id).map fun a => stored initial past a slot).getD .null)

def replies (past : List FrameRequest) : List FrameRequest → List FrameReply
  | [] => []
  | request :: rest => reply initial past request :: replies (request :: past) rest

end History

open History

variable {initial : List TemplateFrame} {past : List FrameRequest} {c : Context}

namespace History

/-- An activation that is live began before. -/
theorem begun_lt_of_mem_live {moment : Nat}
    (h : .begun moment ∈ (live initial past).map (·.1)) : moment < past.length := by
  induction past with
  | nil => simp [live] at h
  | cons request past ih =>
    have before : .begun moment ∈ (live initial past).map (·.1) → moment < past.length + 1 :=
      fun h => Nat.lt_succ_of_lt (ih h)
    cases request with
    | enter id =>
      rcases List.mem_cons.1 h with now | h
      · exact (Activation.begun.inj now) ▸ Nat.lt_succ_self past.length
      · exact before h
    | leave =>
      rw [live, List.map_tail] at h
      exact before (List.mem_of_mem_tail h)
    | assign | read => exact before h

/-- No activation is live twice. -/
theorem nodup_live (initial : List TemplateFrame) (past : List FrameRequest) :
    ((live initial past).map (·.1)).Nodup := by
  induction past with
  | nil =>
    refine List.pairwise_iff_getElem.2 fun i j _ _ below same => ?_
    simp only [live, List.getElem_map, List.getElem_mapIdx] at same
    exact Nat.ne_of_lt below (Activation.initial.inj same)
  | cons request past ih =>
    cases request with
    | enter id =>
      refine List.nodup_cons.2 ⟨?_, ih⟩
      exact fun h => Nat.lt_irrefl _ (begun_lt_of_mem_live h)
    | leave =>
      rw [live, List.map_tail]
      exact ih.sublist (List.tail_sublist _)
    | assign | read => exact ih

theorem mem_live_of_innermost? {id : TemplateId} {a : Activation}
    (h : innermost? initial past id = some a) : a ∈ (live initial past).map (·.1) := by
  obtain ⟨entry, found, rfl⟩ := Option.map_eq_some_iff.1 h
  exact List.mem_map_of_mem (List.mem_of_find?_eq_some found)

/-- Nothing is stored during an activation that has not begun. -/
theorem stored_begun {moment : Nat} (h : past.length ≤ moment) (slot : Nat) :
    stored initial past (.begun moment) slot = .null := by
  induction past with
  | nil => rfl
  | cons request past ih =>
    have before := ih (Nat.le_of_succ_le h)
    cases request with
    | assign id place v =>
      rw [stored, if_neg, before]
      rintro ⟨inside, -⟩
      exact Nat.not_lt.2 (Nat.le_of_succ_le h)
        (begun_lt_of_mem_live (mem_live_of_innermost? inside))
    | enter | leave | read => exact before

end History

/-! ## A context shows its history -/

/-- The frame has what the values say of the activation. -/
structure Activation.Shown (values : Activation → Nat → Value) (entry : Activation × TemplateId)
    (f : TemplateFrame) : Prop where
  template : f.template = entry.2
  slots : ∀ slot, f.get slot = values entry.1 slot

/-- The frames of the context are those of the activations that are live. -/
def Context.Shows (c : Context) (initial : List TemplateFrame) (past : List FrameRequest) : Prop :=
  List.Forall₂ (Activation.Shown (stored initial past)) (live initial past) c.templates.toList

section

variable {values : Activation → Nat → Value} {entries : List (Activation × TemplateId)}
  {frames : List TemplateFrame} {id : TemplateId} {slot : Nat} {v : Value} {a : Activation}

theorem find?_shown (h : List.Forall₂ (Activation.Shown values) entries frames) (id : TemplateId)
    (slot : Nat) : (frames.find? (·.template == id)).map (·.get slot) =
      ((entries.find? (·.2 == id)).map (·.1)).map (values · slot) := by
  induction h with
  | nil => rfl
  | cons shown rest ih =>
    rw [List.find?_cons, List.find?_cons, shown.template]
    split
    · exact congrArg some (shown.slots slot)
    · exact ih

/-- What is stored during an activation concerns no other one. -/
theorem shown_of_not_mem (h : List.Forall₂ (Activation.Shown values) entries frames)
    (apart : a ∉ entries.map (·.1)) :
    List.Forall₂
      (Activation.Shown fun b place => if a = b ∧ place = slot then v else values b place)
      entries frames := by
  induction h with
  | nil => exact .nil
  | cons shown rest ih =>
    obtain ⟨other, apart⟩ := not_or.1 (List.mem_cons.not.1 apart)
    refine .cons ⟨shown.template, fun place => ?_⟩ (ih apart)
    rw [if_neg fun same => other same.1]
    exact shown.slots place

/-- The first frame of a template is the one of its innermost activation. -/
theorem shown_set {above below : List TemplateFrame} {f : TemplateFrame}
    (h : List.Forall₂ (Activation.Shown values) entries (above ++ f :: below))
    (distinct : (entries.map (·.1)).Nodup) (same : f.template = id)
    (others : ∀ g ∈ above, g.template ≠ id) :
    ∃ a, (entries.find? (·.2 == id)).map (·.1) = some a ∧
      List.Forall₂
        (Activation.Shown fun b place => if a = b ∧ place = slot then v else values b place)
        entries (above ++ f.set slot v :: below) := by
  induction above generalizing entries with
  | nil =>
    cases h with
    | @cons entry f entries below shown rest =>
      obtain ⟨apart, -⟩ := List.nodup_cons.1 distinct
      refine ⟨entry.1, ?_, .cons ⟨shown.template, fun place => ?_⟩ (shown_of_not_mem rest apart)⟩
      · rw [List.find?_cons, ← shown.template, same, beq_self_eq_true]
        rfl
      · rw [TemplateFrame.get_set, shown.slots place]
        simp only [true_and]
  | cons g above ih =>
    cases h with
    | @cons entry g entries frames shown rest =>
      obtain ⟨apart, distinct⟩ := List.nodup_cons.1 distinct
      obtain ⟨other, others⟩ := List.forall_mem_cons.1 others
      obtain ⟨a, innermost, changed⟩ := ih rest distinct others
      refine ⟨a, ?_, .cons ⟨shown.template, fun place => ?_⟩ changed⟩
      · rw [List.find?_cons, ← shown.template, beq_false_of_ne other, innermost]
      · rw [if_neg, shown.slots place]
        rintro ⟨rfl, -⟩
        obtain ⟨inner, member, same⟩ := Option.map_eq_some_iff.1 innermost
        exact apart (List.mem_map.2 ⟨inner, List.mem_of_find?_eq_some member, same⟩)

end

namespace Context

theorem shows_initial (c : Context) : c.Shows c.templates.toList [] := by
  rw [Shows, live, List.forall₂_iff_get]
  refine ⟨List.length_mapIdx, fun i h₁ h₂ => ?_⟩
  simp only [List.get_eq_getElem, List.getElem_mapIdx]
  refine ⟨rfl, fun slot => ?_⟩
  rw [stored, List.getElem?_eq_getElem h₂]
  rfl

theorem Shows.binding_eq (h : c.Shows initial past) (id : TemplateId) (slot : Nat) :
    c.binding id slot =
      ((innermost? initial past id).map fun a => stored initial past a slot).getD .null := by
  rw [innermost?, ← find?_shown h, binding]
  cases c.templates.toList.find? (·.template == id) <;> rfl

theorem answer_leave (c : Context) :
    c.answer .leave = (.left (c.templates.toList.head?.map (·.template)),
      { c with templates := ⟨c.templates.toList.tail⟩ }) := by
  obtain ⟨sections, ⟨frames⟩⟩ := c
  cases frames <;> rfl

/-- An assignment changes one slot of the first frame of the template, or there is no such frame and
it fails. -/
theorem setBinding_cases (c : Context) (id : TemplateId) (slot : Nat) (v : Value) :
    (∃ above f below, c.templates.toList = above ++ f :: below ∧ f.template = id ∧
      (∀ g ∈ above, g.template ≠ id) ∧
      c.setBinding id slot v = .ok { c with templates := ⟨above ++ f.set slot v :: below⟩ }) ∨
    ((∀ f ∈ c.templates.toList, f.template ≠ id) ∧
      c.setBinding id slot v = .error (.noTemplateFrame id)) := by
  unfold setBinding frameDepth?
  cases found : c.templates.toList.findIdx? (·.template == id) with
  | none =>
    rw [List.findIdx?_eq_none_iff] at found
    exact .inr ⟨fun f hf => by simpa using found f hf, rfl⟩
  | some depth =>
    obtain ⟨within, same, others⟩ := List.findIdx?_eq_some_iff_getElem.1 found
    refine .inl ⟨c.templates.toList.take depth, c.templates.toList[depth],
      c.templates.toList.drop (depth + 1), ?_, by simpa using same, ?_, ?_⟩
    · rw [List.getElem_cons_drop, List.take_append_drop]
    · intro g hg
      obtain ⟨i, hi, rfl⟩ := List.mem_iff_getElem.1 hg
      rw [List.getElem_take]
      simpa using others i (Nat.lt_of_lt_of_le hi (List.length_take_le _ _))
    · show Except.ok { c with templates := ⟨_⟩ } = _
      rw [List.modify_eq_take_cons_drop within]

/-- **One request.** The reply is the one that the history asks for, and the context goes on to show
it. -/
theorem Shows.answer (h : c.Shows initial past) (request : FrameRequest) :
    (c.answer request).1 = reply initial past request ∧
      (c.answer request).2.Shows initial (request :: past) := by
  cases request with
  | enter id =>
    refine ⟨rfl, .cons ⟨rfl, fun slot => ?_⟩ h⟩
    exact (stored_begun (Nat.le_refl _) slot).symm
  | leave =>
    rw [answer_leave, reply]
    unfold Shows at h ⊢
    rw [live]
    generalize live initial past = entries, c.templates.toList = frames at h ⊢
    cases h with
    | nil => exact ⟨rfl, .nil⟩
    | cons shown below =>
      exact ⟨congrArg (fun id => FrameReply.left (some id)) shown.template, below⟩
  | assign id slot v =>
    unfold Shows at h ⊢
    rw [reply, Context.answer, innermost?]
    rcases c.setBinding_cases id slot v with
      ⟨above, f, below, split, same, others, set⟩ | ⟨none, set⟩
    · rw [split] at h
      obtain ⟨a, innermost, changed⟩ := shown_set h (nodup_live initial past) same others
      rw [set, innermost]
      refine ⟨rfl, changed.imp fun entry f shown => ⟨shown.template, fun place => ?_⟩⟩
      simp only [shown.slots, stored, innermost?, innermost, Option.some.injEq]
    · have missing := find?_shown h id slot
      rw [List.find?_eq_none.2 fun f hf => by simpa using none f hf] at missing
      have outside := Option.map_eq_none_iff.1 missing.symm
      rw [set, outside]
      refine ⟨rfl, h.imp fun entry f shown => ⟨shown.template, fun place => ?_⟩⟩
      rw [shown.slots, stored, innermost?, outside, if_neg fun inside => nomatch inside.1]
  | read id slot => exact ⟨congrArg FrameReply.value (h.binding_eq id slot), h⟩

/-- **All requests.** -/
theorem Shows.answers (h : c.Shows initial past) (requests : List FrameRequest) :
    (c.answers requests).1 = replies initial past requests ∧
      (c.answers requests).2.Shows initial (requests.reverse ++ past) := by
  induction requests generalizing c past with
  | nil => exact ⟨rfl, h⟩
  | cons request rest ih =>
    obtain ⟨same, shown⟩ := h.answer request
    obtain ⟨replies_eq, shown'⟩ := ih shown
    rw [List.reverse_cons, List.append_assoc]
    exact ⟨List.cons_eq_cons.2 ⟨same, replies_eq⟩, shown'⟩

theorem answers_append (c : Context) (first rest : List FrameRequest) :
    c.answers (first ++ rest) =
      ((c.answers first).1 ++ ((c.answers first).2.answers rest).1,
        ((c.answers first).2.answers rest).2) := by
  induction first generalizing c with
  | nil => rfl
  | cons request first ih => simp only [List.cons_append, answers, ih]

/-- Only the frames of templates are touched. -/
theorem answers_templates (c : Context) (requests : List FrameRequest) :
    { (c.answers requests).2 with templates := c.templates } = c := by
  induction requests generalizing c with
  | nil => rfl
  | cons request rest ih =>
    have step : { (c.answer request).2 with templates := c.templates } = c := by
      cases request with
      | enter | read => rfl
      | leave => rw [answer_leave]
      | assign id slot v =>
        rw [answer]
        rcases c.setBinding_cases id slot v with ⟨above, f, below, -, -, -, set⟩ | ⟨-, set⟩
        · rw [set]
        · rw [set]
    have others := ih (c.answer request).2
    calc { ((c.answer request).2.answers rest).2 with templates := c.templates }
      _ = { { ((c.answer request).2.answers rest).2 with
            templates := (c.answer request).2.templates } with templates := c.templates } := rfl
      _ = c := by rw [others, step]

end Context

/-! ## Activations within activations -/

/-- Every activation that begins is left, and no other one is. -/
inductive Balanced : List FrameRequest → Prop where
  | nil : Balanced []
  | assign {id slot v rest} (h : Balanced rest) : Balanced (.assign id slot v :: rest)
  | read {id slot rest} (h : Balanced rest) : Balanced (.read id slot :: rest)
  | activation {id inner rest} (h : Balanced inner) (h' : Balanced rest) :
    Balanced (.enter id :: inner ++ .leave :: rest)

/-- Two parts of the frames have been changed so that their templates are still there, and of the
lower part only frames of templates that the upper part has not. -/
structure Covers (above below above' below' : List TemplateFrame) : Prop where
  upper : above'.map (·.template) = above.map (·.template)
  lower : below'.map (·.template) = below.map (·.template)
  covered : ∀ id ∈ above.map (·.template),
    below'.filter (·.template == id) = below.filter (·.template == id)

namespace Covers

variable {above below above' below' above'' below'' : List TemplateFrame}

theorem refl (above below : List TemplateFrame) : Covers above below above below :=
  ⟨rfl, rfl, fun _ _ => rfl⟩

theorem trans (h : Covers above below above' below') (h' : Covers above' below' above'' below'') :
    Covers above below above'' below'' where
  upper := h'.upper.trans h.upper
  lower := h'.lower.trans h.lower
  covered id hid := (h'.covered id (h.upper ▸ hid)).trans (h.covered id hid)

/-- The first frame of a template may be changed. -/
theorem set {before after : List TemplateFrame} {f : TemplateFrame} {id : TemplateId}
    (split : above ++ below = before ++ f :: after) (same : f.template = id)
    (others : ∀ g ∈ before, g.template ≠ id) (slot : Nat) (v : Value) :
    ∃ above' below', before ++ f.set slot v :: after = above' ++ below' ∧
      Covers above below above' below' := by
  have kept : (f.set slot v).template = f.template := rfl
  rcases List.append_eq_append_iff.1 split with ⟨rest, rfl, rfl⟩ | ⟨rest, rfl, tail⟩
  · refine ⟨above, rest ++ f.set slot v :: after, List.append_assoc _ _ _, rfl, ?_, ?_⟩
    · simp [kept]
    · intro other member
      obtain ⟨g, hg, rfl⟩ := List.mem_map.1 member
      have apart : id ≠ g.template := (others g (List.mem_append_left rest hg)).symm
      simp [kept, same, apart]
  · cases rest with
    | nil =>
      obtain rfl : f :: after = below := tail
      refine ⟨before, f.set slot v :: after, rfl, ?_, ?_, ?_⟩
      · simp
      · simp [kept]
      · intro other member
        obtain ⟨g, hg, rfl⟩ := List.mem_map.1 member
        have apart : id ≠ g.template := (others g (by simpa using hg)).symm
        simp [kept, same, apart]
    | cons g rest =>
      obtain ⟨rfl, rfl⟩ := List.cons.inj tail
      refine ⟨before ++ f.set slot v :: rest, below, by simp, ?_, rfl, fun _ _ => rfl⟩
      simp [kept]

/-- An activation that has begun above may end. -/
theorem tail {f : TemplateFrame} (h : Covers (f :: above) below above' below') :
    ∃ f' above'', above' = f' :: above'' ∧ f'.template = f.template ∧
      Covers above below above'' below' := by
  cases above' with
  | nil => exact nomatch h.upper
  | cons f' above'' =>
    obtain ⟨same, rest⟩ := List.cons.inj h.upper
    exact ⟨f', above'', rfl, same, rest, h.lower, fun id hid =>
      h.covered id (List.mem_cons_of_mem _ hid)⟩

end Covers

theorem Balanced.covers {requests : List FrameRequest} (h : Balanced requests)
    {above below : List TemplateFrame} (split : c.templates.toList = above ++ below) :
    ∃ above' below', (c.answers requests).2.templates.toList = above' ++ below' ∧
      Covers above below above' below' := by
  induction h generalizing c above below with
  | nil => exact ⟨above, below, split, .refl above below⟩
  | read _ ih => exact ih split
  | @assign id slot v rest _ ih =>
    show ∃ above' below', ((c.answer (.assign id slot v)).2.answers rest).2.templates.toList = _ ∧ _
    rw [Context.answer]
    rcases c.setBinding_cases id slot v with
      ⟨before, f, after, split', same, others, set⟩ | ⟨-, set⟩ <;> rw [set]
    · obtain ⟨above', below', found, first⟩ :=
        Covers.set (split.symm.trans split') same others slot v
      obtain ⟨above'', below'', found', later⟩ := ih (c := { c with templates := ⟨_⟩ }) found
      exact ⟨above'', below'', found', first.trans later⟩
    · exact ih split
  | @activation id inner rest _ _ ih ih' =>
    have begun : (c.pushTemplate id).templates.toList = ({ template := id } :: above) ++ below :=
      congrArg (List.cons (⟨id, []⟩ : TemplateFrame)) split
    obtain ⟨above', below', inside, during⟩ := ih begun
    obtain ⟨f', above'', rfl, -, during⟩ := during.tail
    have ended : (((c.pushTemplate id).answers inner).2.answer .leave).2.templates.toList =
        above'' ++ below' := by
      rw [Context.answer_leave, inside]
      rfl
    obtain ⟨last, below'', found, later⟩ := ih' ended
    refine ⟨last, below'', ?_, during.trans later⟩
    rw [List.cons_append]
    simp only [Context.answers, Context.answers_append]
    exact found

/-- Once an activation has been left, the bindings of its template are those from before it. -/
theorem Balanced.binding_eq {inner : List FrameRequest} (h : Balanced inner) (c : Context)
    (id : TemplateId) : ∃ replies c',
      c.answers (.enter id :: inner ++ [.leave]) = (.done :: replies ++ [.left (some id)], c') ∧
      c'.templates.toList.map (·.template) = c.templates.toList.map (·.template) ∧
      ∀ slot, c'.binding id slot = c.binding id slot := by
  have begun : (c.pushTemplate id).templates.toList = [⟨id, []⟩] ++ c.templates.toList := rfl
  obtain ⟨above', below', inside, during⟩ := h.covers begun
  obtain ⟨f, above'', rfl, same, after⟩ := during.tail
  obtain rfl : above'' = [] := List.map_eq_nil_iff.1 after.upper
  have ended : ((c.pushTemplate id).answers inner).2.answer .leave = (.left (some id),
      { ((c.pushTemplate id).answers inner).2 with templates := ⟨below'⟩ }) := by
    obtain rfl : f.template = id := same
    rw [Context.answer_leave, inside]
    rfl
  refine ⟨((c.pushTemplate id).answers inner).1,
    { ((c.pushTemplate id).answers inner).2 with templates := ⟨below'⟩ }, ?_, after.lower, ?_⟩
  · show (_ :: ((c.pushTemplate id).answers (inner ++ [.leave])).1,
      ((c.pushTemplate id).answers (inner ++ [.leave])).2) = _
    rw [Context.answers_append, Context.answers, ended]
    rfl
  · intro slot
    have first := congrArg List.head? (during.covered id (by simp))
    rw [List.head?_filter, List.head?_filter] at first
    simp only [Context.binding, first]

/-- **Bindings belong to activations.** Whatever is asked of a context, the replies are those that
the history of its activations gives, and its frames show what has been stored. An assignment
changes one slot of one frame, or nothing if the template has no frame. When an activation is left,
the bindings of its template are again those of the activation before. -/
theorem bindings_follow_activations (c : Context) :
    (∀ requests, (c.answers requests).1 = replies c.templates.toList [] requests ∧
      (c.answers requests).2.Shows c.templates.toList requests.reverse ∧
      { (c.answers requests).2 with templates := c.templates } = c) ∧
    (∀ id slot v,
      (∃ above f below, c.templates.toList = above ++ f :: below ∧ f.template = id ∧
        (∀ g ∈ above, g.template ≠ id) ∧
        ∃ f', c.setBinding id slot v = .ok { c with templates := ⟨above ++ f' :: below⟩ } ∧
          f'.template = id ∧ ∀ place, f'.get place = if place = slot then v else f.get place) ∨
      ((∀ f ∈ c.templates.toList, f.template ≠ id) ∧
        c.setBinding id slot v = .error (.noTemplateFrame id))) ∧
    ∀ id inner, Balanced inner → ∃ replies c',
      c.answers (.enter id :: inner ++ [.leave]) = (.done :: replies ++ [.left (some id)], c') ∧
      c'.templates.toList.map (·.template) = c.templates.toList.map (·.template) ∧
      ∀ slot, c'.binding id slot = c.binding id slot := by
  refine ⟨fun requests => ?_, fun id slot v => ?_, fun id inner h => h.binding_eq c id⟩
  · obtain ⟨same, shown⟩ := c.shows_initial.answers requests
    rw [List.append_nil] at shown
    exact ⟨same, shown, c.answers_templates requests⟩
  · rcases c.setBinding_cases id slot v with ⟨above, f, below, split, same, others, set⟩ | missing
    · exact .inl ⟨above, f, below, split, same, others, f.set slot v, set, same,
        fun place => f.get_set slot place v⟩
    · exact .inr missing

/-- A template that is entered again has bindings of its own meanwhile. -/
theorem bindings_of_nested_activation :
    ∃ c : Context, c.binding .root 0 = .int 1 ∧
      Balanced [.assign .root 0 (.int 2), .read .root 0] ∧
      ∃ replies c',
        c.answers (.enter .root :: [.assign .root 0 (.int 2), .read .root 0] ++ [.leave]) =
          (.done :: replies ++ [.left (some .root)], c') ∧ c'.binding .root 0 = .int 1 := by
  let c := (Context.fresh.answers [.assign .root 0 (.int 1)]).2
  have inner : Balanced [.assign .root 0 (.int 2), .read .root 0] := .assign (.read .nil)
  obtain ⟨replies, c', answered, -, same⟩ := (bindings_follow_activations c).2.2 .root _ inner
  exact ⟨c, rfl, inner, replies, c', answered, same 0⟩

end TagExpr
