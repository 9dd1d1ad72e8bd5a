import TagExpr.Proofs.Scoping.Reading

/-!
# Where slots are declared and mentioned

A walk that keeps to the rules declares each slot at one visit, which comes before all others that
mention the slot, and it does not mention the slot after it has left the scope of that visit.
-/

namespace TagExpr.Scoping

variable {ε : Type} {r r' : Reading ε} {v : Visit} {us vs : List Visit} {c cs ds : List Cue}
  {slot : Nat}

/-! ## What a step mentions -/

/-- The slots of the visible locals have been declared. -/
def Reading.Bounded (r : Reading ε) : Prop := ∀ entry ∈ r.visible, entry.2 < r.next

theorem Reading.resolve_eq {name : String} (h : slot ∈ (r.resolve name).slot?) :
    r.resolve name = .reads (.slot slot) ∧ ∃ entry ∈ r.visible, entry.2 = slot := by
  unfold resolve at h ⊢
  cases found : r.visible.lookup name with
  | some slot' =>
    rw [found] at h
    cases h
    obtain ⟨before, after, heq, -⟩ := List.lookup_eq_some_iff.1 found
    exact ⟨rfl, (name, slot), heq ▸ List.mem_append_right before List.mem_cons_self, rfl⟩
  | none =>
    rw [found] at h
    cases hfound : r.file.findBinding? name <;> simp [hfound, Visit.slot?] at h

/-- The visit declares the next slot: a clause does, and an assignment to a name that means neither
a local nor a binding. -/
inductive Declares (r : Reading ε) (name : String) : Visit → List Cue → Prop
  | clause : Declares r name (.clause r.next) [.clause name]
  | assignment : r.resolve name = .other →
      Declares r name (.assigns (.slot r.next)) [.word (.bare name), .assign]

theorem Declares.slot_eq {name : String} (h : Declares r name v c) : v.slot? = some r.next := by
  cases h <;> rfl

/-- A step mentions only the slot of a visible local, and makes no other ones visible, or it
declares the next slot. -/
theorem Step.slots (h : Step r v c r') :
    ((∀ slot ∈ v.slot?, v ≠ .clause slot ∧ ∃ entry ∈ r.visible, entry.2 = slot) ∧
      r'.next = r.next ∧ ∀ entry ∈ r'.visible, entry ∈ r.visible) ∨
    ∃ name, Declares r name v c ∧ r' = r.declare name := by
  cases h with
  | enter => exact .inl ⟨by simp [Visit.slot?], rfl, fun _ h => h⟩
  | leave ha =>
    refine .inl ⟨by simp [Visit.slot?], rfl, fun entry h => ?_⟩
    rw [Reading.visible, ha]
    exact List.mem_append_right _ h
  | clause name => exact .inr ⟨name, .clause, rfl⟩
  | name hr =>
    subst hr
    refine .inl ⟨fun slot hs => ?_, rfl, fun _ h => h⟩
    obtain ⟨heq, hv⟩ := Reading.resolve_eq hs
    exact ⟨by simp [heq], hv⟩
  | other => exact .inl ⟨by simp [Visit.slot?], rfl, fun _ h => h⟩
  | @assign place name hr =>
    refine .inl ⟨fun slot hs => ⟨by simp, ?_⟩, rfl, fun _ h => h⟩
    have hs' : slot ∈ (r.resolve name).slot? := by
      rw [hr]
      cases place <;> exact hs
    exact (Reading.resolve_eq hs').2
  | declare hr => exact .inr ⟨_, .assignment hr, rfl⟩
  | bind => exact .inl ⟨by simp [Visit.slot?], rfl, fun _ h => h⟩

theorem Step.next_le (h : Step r v c r') : r.next ≤ r'.next := by
  rcases h.slots with ⟨-, hn, -⟩ | ⟨name, -, rfl⟩
  · exact Nat.le_of_eq hn.symm
  · exact Nat.le_succ r.next

theorem Step.bounded (h : Step r v c r') (hb : r.Bounded) : r'.Bounded := by
  intro entry he
  rcases h.slots with ⟨-, hn, hv⟩ | ⟨name, -, rfl⟩
  · rw [hn]
    exact hb entry (hv entry he)
  · rcases List.mem_cons.1 he with rfl | he
    · exact Nat.lt_succ_self _
    · exact Nat.lt_succ_of_lt (hb entry he)

/-! ## Where a slot is mentioned -/

theorem Reads.next_le (h : Reads r vs cs r') : r.next ≤ r'.next := by
  induction h with
  | nil => exact Nat.le_refl _
  | cons hstep _ ih => exact Nat.le_trans hstep.next_le ih

theorem Reads.bounded (h : Reads r vs cs r') (hb : r.Bounded) : r'.Bounded := by
  induction h with
  | nil => exact hb
  | cons hstep _ ih => exact ih (hstep.bounded hb)

/-- A declared slot that is not visible is not mentioned any more. -/
theorem Reads.not_mentioned (h : Reads r vs cs r') (hs : slot < r.next)
    (hidden : ∀ entry ∈ r.visible, entry.2 ≠ slot) : ∀ v ∈ vs, v.slot? ≠ some slot := by
  induction h with
  | nil => exact fun v hv => absurd hv List.not_mem_nil
  | @cons r r₁ _ v vs _ _ hstep _ ih =>
    have hnow : v.slot? ≠ some slot := by
      intro hv
      rcases hstep.slots with ⟨hold, -, -⟩ | ⟨name, hd, -⟩
      · obtain ⟨-, entry, he, heq⟩ := hold slot hv
        exact hidden entry he heq
      · obtain rfl := Option.some.inj (hd.slot_eq.symm.trans hv)
        exact Nat.lt_irrefl _ hs
    have hlater : ∀ entry ∈ r₁.visible, entry.2 ≠ slot := by
      intro entry he
      rcases hstep.slots with ⟨-, -, hv⟩ | ⟨name, -, rfl⟩
      · exact hidden entry (hv entry he)
      · rcases List.mem_cons.1 he with rfl | he
        · exact Nat.ne_of_gt hs
        · exact hidden entry he
    exact List.forall_mem_cons.2 ⟨hnow, ih (Nat.lt_of_lt_of_le hs hstep.next_le) hlater⟩

/-- Nor is one that no scope has around those from which the walk has yet to come out. -/
theorem Reads.not_mentioned_outside (h : Reads r vs cs r') (hs : slot < r.next) (depth : Nat)
    (hidden : ∀ entry ∈ (r.around.drop depth).flatten, entry.2 ≠ slot) :
    ∀ v ∈ Visit.outside depth vs, v.slot? ≠ some slot := by
  induction h generalizing depth with
  | nil => exact fun v hv => absurd hv List.not_mem_nil
  | @cons r r₁ _ v vs _ _ hstep hrest ih =>
    have hs₁ : slot < r₁.next := Nat.lt_of_lt_of_le hs hstep.next_le
    rcases hstep.scopes with ⟨rfl, rfl⟩ | ⟨rfl, scope, rest, ha, rfl⟩ | ⟨he, hl, ha⟩
    · exact ih hs₁ (depth + 1) hidden
    · rw [ha] at hidden
      cases depth with
      | zero => exact hrest.not_mentioned hs₁ hidden
      | succ depth => exact ih hs₁ depth hidden
    · rw [Visit.outside_cons he hl]
      exact ih hs₁ depth (ha ▸ hidden)

/-- A walk does not declare what has been declared. -/
theorem Reads.clause_not_mem (h : Reads r vs cs r') (hs : slot < r.next) :
    Visit.clause slot ∉ vs := by
  induction h with
  | nil => exact List.not_mem_nil
  | @cons r r₁ _ v vs _ _ hstep _ ih =>
    intro hv
    rcases List.mem_cons.1 hv with rfl | hv
    · rcases hstep.slots with ⟨hold, -, -⟩ | ⟨name, hd, -⟩
      · exact (hold slot rfl).1 rfl
      · obtain rfl := Option.some.inj hd.slot_eq
        exact Nat.lt_irrefl _ hs
    · exact ih (Nat.lt_of_lt_of_le hs hstep.next_le) hv

theorem Reads.slot_lt (h : Reads r vs cs r') (hb : r.Bounded) :
    ∀ v ∈ vs, ∀ slot ∈ v.slot?, slot < r'.next := by
  induction h with
  | nil => exact fun v hv => absurd hv List.not_mem_nil
  | @cons r r₁ r' v vs _ _ hstep hrest ih =>
    refine List.forall_mem_cons.2 ⟨fun slot hv => ?_, ih (hstep.bounded hb)⟩
    refine Nat.lt_of_lt_of_le ?_ hrest.next_le
    rcases hstep.slots with ⟨hold, hn, -⟩ | ⟨name, hd, rfl⟩
    · obtain ⟨-, entry, he, rfl⟩ := hold slot hv
      exact hn.symm ▸ hb entry he
    · obtain rfl := Option.some.inj (hd.slot_eq.symm.trans hv)
      exact Nat.lt_succ_self _

/-! ## Where a slot is declared -/

/-- Every slot given out is declared at some visit. -/
theorem Reads.exists_declares (h : Reads r vs cs r') (lower : r.next ≤ slot)
    (upper : slot < r'.next) :
    ∃ before v after ds c es r₁ name, vs = before ++ v :: after ∧ cs = ds ++ c ++ es ∧
      Reads r before ds r₁ ∧ r₁.next = slot ∧ Declares r₁ name v c ∧
      Reads (r₁.declare name) after es r' := by
  induction h with
  | nil => exact absurd upper (Nat.not_lt.2 lower)
  | @cons r r₁ r' v vs c cs hstep hrest ih =>
    by_cases now : slot < r₁.next
    · -- The first step declares the slot.
      rcases hstep.slots with ⟨-, hn, -⟩ | ⟨name, hd, rfl⟩
      · omega
      · have hslot : r.next = slot := Nat.le_antisymm lower (Nat.le_of_lt_succ now)
        exact ⟨[], v, vs, [], c, cs, r, name, rfl, rfl, .nil r, hslot, hd, hrest⟩
    · obtain ⟨before, u, after, ds, c', es, r₂, name, rfl, rfl, hbefore, hslot, hd, hafter⟩ :=
        ih (Nat.not_lt.1 now) upper
      refine ⟨v :: before, u, after, c ++ ds, c', es, r₂, name, rfl, ?_, .cons hstep hbefore, hslot,
        hd, hafter⟩
      simp only [List.append_assoc]

/-- The visits declare the slot at one of them, which is the first that mentions it, and mention it
only until the scope of that visit is left. -/
def DeclaresOnce (start : Reading ε) (visits : List Visit) (cues : List Cue) (slot : Nat) : Prop :=
  ∃ before v after ds c es r name, visits = before ++ v :: after ∧ cues = ds ++ c ++ es ∧
    Reads start before ds r ∧ r.next = slot ∧ Declares r name v c ∧
    (∀ u ∈ before, u.slot? ≠ some slot) ∧ Visit.clause slot ∉ after ∧
    ∀ u ∈ Visit.outside 0 after, u.slot? ≠ some slot

/-- After a slot has been declared it is mentioned until the innermost scope is left. -/
theorem Reads.not_mentioned_declared {name : String} (h : Reads (r.declare name) vs cs r')
    (hb : r.Bounded) : ∀ v ∈ Visit.outside 0 vs, v.slot? ≠ some r.next := by
  refine h.not_mentioned_outside (Nat.lt_succ_self _) 0 fun entry he => ?_
  exact Nat.ne_of_lt (hb entry (List.mem_append_right _ he))

/-- **Each slot that a walk declares it declares once.** -/
theorem Reads.declaresOnce (h : Reads r vs cs r') (hb : r.Bounded) (lower : r.next ≤ slot)
    (upper : slot < r'.next) : DeclaresOnce r vs cs slot := by
  obtain ⟨before, v, after, ds, c, es, r₁, name, hvs, hcs, hbefore, rfl, hd, hafter⟩ :=
    h.exists_declares lower upper
  refine ⟨before, v, after, ds, c, es, r₁, name, hvs, hcs, hbefore, rfl, hd, ?_, ?_, ?_⟩
  · exact fun u hu heq => Nat.lt_irrefl _ (hbefore.slot_lt hb u hu _ heq)
  · exact hafter.clause_not_mem (Nat.lt_succ_self _)
  · exact hafter.not_mentioned_declared (hbefore.bounded hb)

/-! ## Names of the text -/

/-- Every cue belongs to some visit. -/
theorem Reads.at_cue {x : Cue} {ds es : List Cue} (h : Reads r vs cs r')
    (hcs : cs = ds ++ x :: es) :
    ∃ us v ws r₁ r₂ ds' c₁ c₂ rest, vs = us ++ v :: ws ∧ ds = ds' ++ c₁ ∧ es = c₂ ++ rest ∧
      Reads r us ds' r₁ ∧ Step r₁ v (c₁ ++ x :: c₂) r₂ ∧ Reads r₂ ws rest r' := by
  induction h generalizing ds with
  | nil => simp at hcs
  | @cons r r₁ r' v vs c cs hstep hrest ih =>
    have later {as : List Cue} (hds : ds = c ++ as) (has : cs = as ++ x :: es) :
        ∃ us u ws r₂ r₃ ds' c₁ c₂ rest, v :: vs = us ++ u :: ws ∧ ds = ds' ++ c₁ ∧
          es = c₂ ++ rest ∧ Reads r us ds' r₂ ∧ Step r₂ u (c₁ ++ x :: c₂) r₃ ∧
          Reads r₃ ws rest r' := by
      obtain ⟨us, u, ws, r₂, r₃, ds', c₁, c₂, rest, rfl, rfl, hc₂, hus, hu, hws⟩ := ih has
      exact ⟨v :: us, u, ws, r₂, r₃, c ++ ds', c₁, c₂, rest, rfl, by rw [hds, List.append_assoc],
        hc₂, .cons hstep hus, hu, hws⟩
    rcases List.append_eq_append_iff.1 hcs with ⟨as, hds, has⟩ | ⟨bs, hc, hes⟩
    · exact later hds has
    · cases bs with
      | nil =>
        have hds : ds = c ++ [] := by simpa using hc.symm
        exact later hds hes.symm
      | cons y bs =>
        obtain ⟨rfl, rfl⟩ := List.cons.inj hes
        subst hc
        exact ⟨[], v, vs, r, r₁, [], ds, bs, cs, rfl, rfl, rfl, .nil r, hstep, hrest⟩

/-- A word is the first cue of its step. -/
theorem Step.first_cue {w : Word} {c₁ c₂ : List Cue} (h : Step r v c r')
    (hc : c = c₁ ++ .word w :: c₂) : c₁ = [] := by
  cases c₁ with
  | nil => rfl
  | cons head rest =>
    have hlater : Cue.word w ∈ c.tail := by simp [hc]
    cases h <;> simp at hlater

/-- What a bare name with a visible local is met as: the local, or the binding that `:=` declares in
its place. -/
theorem Step.met {name : String} {es : List Cue} (h : Step r v (.word (.bare name) :: es) r')
    (hlocal : r.visible.lookup name = some slot) :
    v = .reads (.slot slot) ∨ v = .assigns (.slot slot) ∨
      es.head? = some .bind ∧ ∃ template index, v = .assigns (.binding template index) := by
  have hresolve : r.resolve name = .reads (.slot slot) := Reading.resolve_of_local hlocal
  cases h with
  | name hr => exact .inl (hr.symm.trans hresolve)
  | other hw => exact absurd rfl (hw name)
  | assign hr =>
    rw [hresolve] at hr
    cases hr
    exact .inr (.inl rfl)
  | declare hr =>
    rw [hresolve] at hr
    cases hr
  | bind => exact .inr (.inr ⟨rfl, _, _, rfl⟩)

/-- **A bare name with a visible local is met as the innermost one**, read or assigned. Only where
`:=` follows it, the name is that of a binding. -/
theorem Reads.name_at {name : String} {ds es : List Cue}
    (h : Reads r vs (ds ++ .word (.bare name) :: es) r') :
    ∃ us v ws r₁, vs = us ++ v :: ws ∧ Reads r us ds r₁ ∧
      ∀ slot, r₁.visible.lookup name = some slot →
        v = .reads (.slot slot) ∨ v = .assigns (.slot slot) ∨
          es.head? = some .bind ∧ ∃ template index, v = .assigns (.binding template index) := by
  obtain ⟨us, v, ws, r₁, r₂, ds', c₁, c₂, rest, rfl, rfl, rfl, hus, hstep, -⟩ := h.at_cue rfl
  obtain rfl := hstep.first_cue rfl
  refine ⟨us, v, ws, r₁, rfl, by rwa [List.append_nil], fun slot hlocal => ?_⟩
  rcases hstep.met hlocal with hreads | hassigns | ⟨hhead, hbinding⟩
  · exact .inl hreads
  · exact .inr (.inl hassigns)
  · refine .inr (.inr ⟨?_, hbinding⟩)
    rw [List.head?_append, hhead, Option.some_or]

/-! ## Regions -/

/-- A clause is the first visit that mentions its slot, and the slot is not mentioned after the
scope of the clause. -/
theorem Reads.clause_region (h : Reads r (us ++ .clause slot :: vs) cs r') (hb : r.Bounded) :
    (∀ v ∈ us, v.slot? ≠ some slot) ∧ ∀ v ∈ Visit.outside 0 vs, v.slot? ≠ some slot := by
  obtain ⟨r₁, ds, es, -, hus, hrest⟩ := h.split
  cases hrest with
  | cons hstep hvs =>
    rcases hstep.slots with ⟨hold, -⟩ | ⟨name, hd, rfl⟩
    · exact absurd rfl (hold slot rfl).1
    · obtain rfl := Option.some.inj hd.slot_eq
      refine ⟨fun v hv heq => Nat.lt_irrefl _ (hus.slot_lt hb v hv _ heq), ?_⟩
      exact hvs.not_mentioned_declared (hus.bounded hb)

/-- Where visits leave the scopes that they enter, the scopes around are the same after them. -/
theorem Reads.around_eq (h : Reads r vs cs r') (hn : Visit.Nested vs) : r'.around = r.around := by
  induction hn generalizing r cs r' with
  | nil =>
    cases h
    rfl
  | cons he hl _ ih =>
    cases h with
    | cons hstep hrest =>
      rcases hstep.scopes with ⟨rfl, -⟩ | ⟨rfl, -⟩ | ⟨-, -, ha⟩
      · exact absurd rfl he
      · exact absurd rfl hl
      · rw [ih hrest, ha]
  | append _ _ ihu ihv =>
    obtain ⟨r₁, ds, es, -, hus, hvs⟩ := h.split
    rw [ihv hvs, ihu hus]
  | enclosed _ ih =>
    cases h with
    | cons hstep hrest =>
      obtain rfl := hstep.eq_enter
      obtain ⟨r₁, ds, c, -, hinner, hleave⟩ := hrest.last
      obtain ⟨scope, rest, ha, rfl⟩ := hleave.eq_leave
      rw [ih hinner] at ha
      exact (List.cons.inj ha).2.symm

/-- A slot that is mentioned first in some scope, and is no parameter, is not mentioned after it. -/
theorem Reads.enclosed_region {before inner after : List Visit}
    (h : Reads r (before ++ (Visit.enclosed inner ++ after)) cs r') (hb : r.Bounded)
    (hn : Visit.Nested inner) (lower : r.next ≤ slot)
    (hbefore : ∀ v ∈ before, v.slot? ≠ some slot) (hinner : ∃ v ∈ inner, v.slot? = some slot) :
    ∀ v ∈ after, v.slot? ≠ some slot := by
  obtain ⟨r₁, ds, es, -, hreads, hrest⟩ := h.split
  have hb₁ : r₁.Bounded := hreads.bounded hb
  -- What is declared before the scope is mentioned before it.
  have hfresh : r₁.next ≤ slot := by
    refine Nat.le_of_not_lt fun hlt => ?_
    obtain ⟨us, v, vs, _, _, _, r', name, rfl, _, _, rfl, hd, _⟩ :=
      hreads.exists_declares lower hlt
    exact hbefore v (List.mem_append_right us List.mem_cons_self) hd.slot_eq
  rw [Visit.enclosed, List.cons_append, List.append_assoc] at hrest
  cases hrest with
  | cons hstep hrest =>
    obtain rfl := hstep.eq_enter
    obtain ⟨r₂, ds', es', -, hin, hout⟩ := hrest.split
    have ha : r₂.around = r₁.current :: r₁.around := hin.around_eq hn
    have hdeclared : slot < r₂.next := by
      obtain ⟨v, hv, heq⟩ := hinner
      exact hin.slot_lt hb₁ v hv slot heq
    cases hout with
    | cons hleave hafter =>
      obtain ⟨scope, rest, ha', rfl⟩ := hleave.eq_leave
      obtain ⟨rfl, rfl⟩ := List.cons.inj (ha.symm.trans ha')
      refine hafter.not_mentioned hdeclared fun entry he => ?_
      exact Nat.ne_of_lt (Nat.lt_of_lt_of_le (hb₁ entry he) hfresh)

end TagExpr.Scoping
