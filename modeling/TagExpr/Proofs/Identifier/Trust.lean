import Mathlib.Logic.Relation
import TagExpr.Eval
import TagExpr.Proofs.Compile
import TagExpr.Proofs.Draining.Ways
import TagExpr.Proofs.Eval.Agree

/-!
# Identifiers can be trusted

All mentions of one member in a template file share a number, and under this number the machine
keeps what has been learnt about ways to the member. A compiler gives no number twice, whatever the
files and expressions, so all mentions with one number are of one member
(`Compiler.compile_numbers`). While such expressions run, every identifier has learnt nothing but
what a fresh one would find out: evaluation keeps that, whether it has a value or stops, and so does
reading a stream that was left behind (`Machine.Trusts`). From the first text on, all mentions can
therefore be trusted (`Engine.trusted`).
-/

namespace TagExpr

/-! ## Numbers -/

/-- The member has this number among the members `keys`, which stand in the order of their
numbers. -/
def IdentifierRef.Numbered (keys : List IdentKey) (ref : IdentifierRef) : Prop :=
  keys[ref.id]? = some ref.key

/-- The members that the expression mentions have their numbers, and so have those of every
expression that it can reach. -/
inductive Expression.Numbered (keys : List IdentKey) : Expression → Prop
  | intro {e : Expression} : (∀ ref ∈ e.identifiers, ref.Numbered keys) →
      (∀ callee ∈ e.expressions, callee.Numbered keys) → e.Numbered keys

variable {keys keys' : List IdentKey} {ref : IdentifierRef} {e : Expression}

theorem IdentifierRef.Numbered.mono (numbered : ref.Numbered keys) (more : keys <+: keys') :
    ref.Numbered keys' := by
  obtain ⟨later, rfl⟩ := more
  obtain ⟨within, -⟩ := List.getElem?_eq_some_iff.1 numbered
  exact (List.getElem?_append_left within).trans numbered

theorem Expression.Numbered.mono (numbered : e.Numbered keys) (more : keys <+: keys') :
    e.Numbered keys' := by
  induction numbered with
  | intro refs _ ih => exact .intro (fun ref mem => (refs ref mem).mono more) ih

theorem Expression.Numbered.identifier {ident : Nat} (numbered : e.Numbered keys)
    (found : e.identifiers[ident]? = some ref) : ref.Numbered keys := by
  cases numbered with
  | intro refs _ => exact refs ref (List.mem_of_getElem? found)

theorem Expression.Numbered.callee {target : Nat} {callee : Expression} (numbered : e.Numbered keys)
    (found : e.expressions[target]? = some callee) : callee.Numbered keys := by
  cases numbered with
  | intro _ callees => exact callees callee (List.mem_of_getElem? found)

/-! ### Compiling gives no number twice -/

namespace Compiler

variable {c c' : Compiler} {t t' : Template} {text : String} {offset : Nat}
  {known known' refs : List IdentifierRef}

/-- The compiler has given the numbers of these members, and has numbered the known ones. -/
structure Numbers (keys : List IdentKey) (c : Compiler) (known : List IdentifierRef) : Prop where
  count : c.identifierCount = keys.length
  known : ∀ ref ∈ known, ref.Numbered keys

theorem Numbers.identifier {key : IdentKey} (numbers : c.Numbers keys known)
    (given : c.identifier known key = (ref, known', c')) :
    ∃ keys', keys <+: keys' ∧ c'.Numbers keys' known' ∧ ref.Numbered keys' := by
  unfold Compiler.identifier at given
  split at given
  case h_1 found =>
    cases given
    exact ⟨keys, List.prefix_rfl, numbers, numbers.known _ (List.mem_of_find?_eq_some found)⟩
  case h_2 =>
    cases given
    have more : keys <+: keys ++ [key] := List.prefix_append keys [key]
    have new : IdentifierRef.Numbered (keys ++ [key]) ⟨c.identifierCount, key⟩ := by
      rw [IdentifierRef.Numbered, numbers.count, List.getElem?_concat_length]
    refine ⟨keys ++ [key], more, ⟨?_, List.forall_mem_cons.2 ⟨new, ?_⟩⟩, new⟩
    · rw [List.length_append, ← numbers.count]
      rfl
    · exact fun ref mem => (numbers.known ref mem).mono more

theorem Numbers.identifiers {members : List IdentKey} (numbers : c.Numbers keys known)
    (given : c.identifiers known members = (refs, known', c')) :
    ∃ keys', keys <+: keys' ∧ c'.Numbers keys' known' ∧ ∀ ref ∈ refs, ref.Numbered keys' := by
  induction members generalizing c keys known refs with
  | nil =>
    cases given
    exact ⟨keys, List.prefix_rfl, numbers, nofun⟩
  | cons key members ih =>
    obtain ⟨⟨ref, known₁, c₁⟩, first⟩ : ∃ r, c.identifier known key = r := ⟨_, rfl⟩
    obtain ⟨⟨others, known₂, c₂⟩, rest⟩ : ∃ r, c₁.identifiers known₁ members = r := ⟨_, rfl⟩
    simp only [Compiler.identifiers, first, rest] at given
    cases given
    obtain ⟨keys₁, more₁, numbers₁, numbered⟩ := numbers.identifier first
    obtain ⟨keys₂, more₂, numbers₂, later⟩ := ih numbers₁ rest
    refine ⟨keys₂, more₁.trans more₂, numbers₂, List.forall_mem_cons.2 ⟨?_, later⟩⟩
    exact numbered.mono more₂

theorem identifierCount_program? {n : Node} {program : Nat}
    (found : c.program? n = some (program, c')) : c'.identifierCount = c.identifierCount := by
  unfold Compiler.program? at found
  split at found
  · cases found
    rfl
  · split at found
    · cases found
      rfl
    · cases found

/-- The members of a compiled expression get their numbers after those of the file. -/
theorem compile_identifiers (h : c.compile t text offset = (.ok e, t', c')) :
    ∃ (c₁ : Compiler) (members : List IdentKey), c₁.identifierCount = c.identifierCount ∧
      c₁.identifiers t.identifiers members = (e.identifiers, t'.identifiers, c') := by
  unfold Compiler.compile at h
  split at h
  case h_1 => cases h
  case h_2 p scope _ =>
    split at h
    case h_1 => cases h
    case h_2 program c₁ found =>
      simp only [Prod.mk.injEq, Except.ok.injEq] at h
      obtain ⟨rfl, rfl, rfl⟩ := h
      exact ⟨c₁, p.identifiers, identifierCount_program? found, rfl⟩

end Compiler

/-- The file knows its members by their numbers, and so do the expressions that are finished in
it. -/
structure Template.Numbered (keys : List IdentKey) (t : Template) : Prop where
  known : ∀ ref ∈ t.identifiers, ref.Numbered keys
  finished : ∀ name e, t.scope.expression? name = some e → e.Numbered keys

theorem Template.Numbered.mono {t : Template} (numbered : t.Numbered keys)
    (more : keys <+: keys') : t.Numbered keys' where
  known ref mem := (numbered.known ref mem).mono more
  finished name e there := (numbered.finished name e there).mono more

/-- **A compiler gives no number twice.** A text that it compiles, in whichever file, adds members
behind those that have numbers. -/
theorem Compiler.compile_numbers {c c' : Compiler} {t t' : Template} {text : String} {offset : Nat}
    {r : Except ParseError Expression} (count : c.identifierCount = keys.length)
    (numbered : t.Numbered keys) (h : c.compile t text offset = (r, t', c')) :
    ∃ keys', keys <+: keys' ∧ c'.identifierCount = keys'.length ∧ t'.Numbered keys' ∧
      ∀ e, r = .ok e → e.Numbered keys' := by
  cases r with
  | error e =>
    obtain ⟨rfl, same, -⟩ := compile_error h
    refine ⟨keys, List.prefix_rfl, count, ⟨same ▸ numbered.known, fun name e there => ?_⟩, nofun⟩
    rcases compile_expression? h there with new | old
    · cases new
    · exact numbered.finished name e old
  | ok e =>
    obtain ⟨c₁, members, same, given⟩ := compile_identifiers h
    have before : c₁.Numbers keys t.identifiers := ⟨same.trans count, numbered.known⟩
    obtain ⟨keys', more, ⟨count', known⟩, refs⟩ := before.identifiers given
    have compiled : e.Numbered keys' := by
      refine .intro refs fun callee mem => ?_
      obtain ⟨name, finished⟩ := compile_expressions h callee mem
      exact (numbered.finished name callee finished).mono more
    refine ⟨keys', more, count', ⟨known, fun name e' there => ?_⟩, ?_⟩
    · rcases compile_expression? h there with new | old
      · cases new
        exact compiled
      · exact (numbered.finished name e' old).mono more
    · rintro _ ⟨⟩
      exact compiled

/-! ## Trust -/

/-- What the identifier has learnt is what it would find out. -/
def IdentifierRef.Trusted (ref : IdentifierRef) (h : Host) (m : Machine) : Prop :=
  (m.identifiers.getD ref.id (.fresh ref.key)).SameWays h (.fresh ref.key)

theorem IdentifierRef.trusted_of_fresh (ref : IdentifierRef) (h : Host) {m : Machine}
    (unused : m.identifiers[ref.id]? = none) : ref.Trusted h m := by
  rw [Trusted, Std.HashMap.getD_eq_getD_getElem?, unused]
  exact .refl _

/-- Under every number stands the member that has it, which has learnt what it would find out, and
the bodies of stages are parts of numbered expressions. -/
structure Machine.Trusts (h : Host) (keys : List IdentKey) (m : Machine) : Prop where
  learnt : ∀ (id : Nat) (i : Identifier), m.identifiers[id]? = some i →
    ∃ key, keys[id]? = some key ∧ i.SameWays h (.fresh key)
  stages : ∀ (id : StreamId) (s : Stream), m.streams[id]? = some s →
    ∀ stage ∈ s.kind.stage?, stage.unit.Numbered keys

namespace Machine.Trusts

variable {h : Host} {m m' : Machine}

/-- A machine that has not run yet. -/
theorem of_unused (identifiers : m.identifiers = ∅) (streams : m.streams = #[]) :
    m.Trusts h keys where
  learnt id i known := by
    rw [identifiers, Std.HashMap.getElem?_empty] at known
    cases known
  stages id s known := by
    rw [streams] at known
    cases known

theorem trusted (trusts : m.Trusts h keys) (numbered : ref.Numbered keys) : ref.Trusted h m := by
  cases known : m.identifiers[ref.id]? with
  | none => exact ref.trusted_of_fresh h known
  | some i =>
    obtain ⟨key, found, same⟩ := trusts.learnt ref.id i known
    obtain rfl : ref.key = key := Option.some.inj (numbered.symm.trans found)
    rwa [IdentifierRef.Trusted, Std.HashMap.getD_eq_getD_getElem?, known]

theorem mono (trusts : m.Trusts h keys) (more : keys <+: keys') : m.Trusts h keys' where
  learnt id i known := by
    obtain ⟨key, found, same⟩ := trusts.learnt id i known
    have numbered : IdentifierRef.Numbered keys ⟨id, key⟩ := found
    exact ⟨key, numbered.mono more, same⟩
  stages id s known stage mem := (trusts.stages id s known stage mem).mono more

/-- Nothing depends on the context, the local slots and the host application. -/
theorem of_same (trusts : m.Trusts h keys) (identifiers : m'.identifiers = m.identifiers)
    (streams : m'.streams = m.streams) : m'.Trusts h keys where
  learnt := identifiers ▸ trusts.learnt
  stages := streams ▸ trusts.stages

end Machine.Trusts

/-! ## Steps that keep the trust -/

namespace Eval

variable {h : Host} {α β : Type} {x : Eval α} {f : α → Eval β}

/-- A machine that trusts its identifiers goes on to trust them, also where the step stops. -/
def KeepsTrust (h : Host) (keys : List IdentKey) (x : Eval α) : Prop :=
  ∀ m, m.Trusts h keys → Ends x m (fun _ m' => m'.Trusts h keys) fun _ m' => m'.Trusts h keys

theorem KeepsTrust.bind (hx : x.KeepsTrust h keys) (hf : ∀ a, (f a).KeepsTrust h keys) :
    (x >>= f).KeepsTrust h keys := by
  intro m trusts
  rw [ends_bind]
  exact (hx m trusts).mono (fun a m' trusts' => hf a m' trusts') fun _ _ trusts' => trusts'

/-- A step after which identifiers and streams are what they were. -/
theorem keepsTrust_of_same (same : ∀ m, Ends x m
    (fun _ m' => m'.identifiers = m.identifiers ∧ m'.streams = m.streams)
    fun _ m' => m'.identifiers = m.identifiers ∧ m'.streams = m.streams) :
    x.KeepsTrust h keys :=
  fun m trusts => (same m).mono (fun _ _ h => trusts.of_same h.1 h.2)
    fun _ _ h => trusts.of_same h.1 h.2

theorem keepsTrust_pure (a : α) : KeepsTrust h keys (pure a) :=
  keepsTrust_of_same fun _ => ⟨rfl, rfl⟩

theorem keepsTrust_throw (stop : Stop) : KeepsTrust h keys (throw stop : Eval α) :=
  keepsTrust_of_same fun _ => ⟨rfl, rfl⟩

theorem keepsTrust_ofExcept (r : Except EvalFault α) : KeepsTrust h keys (ofExcept r) := by
  cases r with
  | ok a => exact keepsTrust_pure a
  | error fault => exact keepsTrust_throw _

theorem keepsTrust_context : KeepsTrust h keys context := keepsTrust_of_same fun _ => ⟨rfl, rfl⟩

theorem keepsTrust_modifyContext (change : Context → Context) :
    KeepsTrust h keys (modifyContext change) :=
  keepsTrust_of_same fun _ => ⟨rfl, rfl⟩

theorem keepsTrust_newFrame (slots : List Value) : KeepsTrust h keys (newFrame slots) :=
  keepsTrust_of_same fun _ => ⟨rfl, rfl⟩

theorem keepsTrust_localValue? (frame : FrameId) (slot : Nat) :
    KeepsTrust h keys (localValue? frame slot) :=
  keepsTrust_of_same fun _ => ⟨rfl, rfl⟩

theorem keepsTrust_setLocal (frame : FrameId) (slot : Nat) (v : Value) :
    KeepsTrust h keys (setLocal frame slot v) :=
  keepsTrust_of_same fun _ => ⟨rfl, rfl⟩

theorem KeepsTrust.during (hx : x.KeepsTrust h keys) (enter leave : Context → Context) :
    (Eval.during enter leave x).KeepsTrust h keys := by
  intro m trusts
  have inner := hx { m with context := enter m.context } (trusts.of_same rfl rfl)
  unfold Ends at inner ⊢
  unfold Eval.during
  cases ran : x { m with context := enter m.context } with
  | ok a m' =>
    rw [ran] at inner
    exact inner.of_same rfl rfl
  | error stop m' =>
    rw [ran] at inner
    exact inner.of_same rfl rfl

theorem KeepsTrust.located (hx : x.KeepsTrust h keys) (span : Span) :
    (Eval.located span x).KeepsTrust h keys := by
  intro m trusts
  have inner := hx m trusts
  unfold Ends at inner ⊢
  unfold Eval.located
  cases ran : x m with
  | ok a m' => simpa only [ran] using inner
  | error stop m' =>
    rw [ran] at inner
    cases stop with
    | error e => exact inner
    | exhausted => exact inner

/-! ### Members -/

/-- A numbered member that is asked for learns what it would find out. -/
theorem keepsTrust_member (numbered : ref.Numbered keys) (receiver : Value) (args : List Value) :
    KeepsTrust h keys (member h ref receiver args) := by
  intro m trusts
  -- Only what stands under the number of the member changes.
  refine ⟨fun id i known => ?_, trusts.stages⟩
  rw [Std.HashMap.getElem?_insert] at known
  split at known
  case isTrue same =>
    obtain rfl : ref.id = id := eq_of_beq same
    obtain rfl := Option.some.inj known
    exact ⟨ref.key, numbered, (trusts.trusted numbered).learn receiver args⟩
  case isFalse => exact trusts.learnt id i known

theorem keepsTrust_searchMember (numbered : ref.Numbered keys) (args : List Value)
    (sections : List Section) : KeepsTrust h keys (searchMember h ref args sections) := by
  induction sections with
  | nil => exact keepsTrust_pure _
  | cons s rest ih =>
    refine (keepsTrust_member numbered s.value args).bind fun found => ?_
    cases found with
    | some v => exact keepsTrust_pure v
    | none => exact ih

theorem keepsTrust_resolve (numbered : ref.Numbered keys) (lookup : Lookup) (args : List Value) :
    KeepsTrust h keys (resolve h ref lookup args) :=
  keepsTrust_context.bind fun _ => keepsTrust_searchMember numbered args _

theorem keepsTrust_access (numbered : ref.Numbered keys) (receiver : Value) (args : List Value)
    (safe : Bool) : KeepsTrust h keys (access h ref receiver args safe) := by
  unfold access
  split
  · split
    · exact keepsTrust_pure _
    · exact keepsTrust_throw _
  · exact (keepsTrust_member numbered receiver args).bind fun _ => keepsTrust_pure _

/-! ### Streams -/

theorem keepsTrust_stream? (id : StreamId) : KeepsTrust h keys (stream? id) :=
  keepsTrust_of_same fun _ => ⟨rfl, rfl⟩

/-- What goes on with a stream may rely on its stage. -/
theorem KeepsTrust.ofStream {f : Option Stream → Eval β} (id : StreamId)
    (hf : ∀ s : Option Stream, (∀ found ∈ s, ∀ stage ∈ found.kind.stage?,
      stage.unit.Numbered keys) → (f s).KeepsTrust h keys) :
    (stream? id >>= f).KeepsTrust h keys :=
  fun m trusts => hf _ (fun s known => trusts.stages id s known) m trusts

theorem keepsTrust_newStream {s : Stream}
    (numbered : ∀ stage ∈ s.kind.stage?, stage.unit.Numbered keys) :
    KeepsTrust h keys (newStream s) := by
  intro m trusts
  refine ⟨trusts.learnt, fun id found known => ?_⟩
  simp only [Array.getElem?_push] at known
  split at known
  · cases known
    exact numbered
  · exact trusts.stages id found known

/-- A stream may be changed as long as it does not get another stage. -/
theorem keepsTrust_modifyStream (id : StreamId) {φ : Stream → Stream}
    (same : ∀ s, ∀ stage ∈ (φ s).kind.stage?, stage ∈ s.kind.stage?) :
    KeepsTrust h keys (modifyStream id φ) := by
  intro m trusts
  refine ⟨trusts.learnt, fun other found known stage mem => ?_⟩
  simp only [Array.getElem?_modify] at known
  split at known
  · obtain ⟨s, before, rfl⟩ := Option.map_eq_some_iff.1 known
    exact trusts.stages other s before stage (same s stage mem)
  · exact trusts.stages other found known stage mem

theorem keepsTrust_streamOf (host : Host) (v : Value) : KeepsTrust h keys (streamOf host v) := by
  unfold streamOf
  split
  · exact keepsTrust_pure _
  · exact keepsTrust_newStream nofun

theorem keepsTrust_takePeeked (id : StreamId) : KeepsTrust h keys (takePeeked id) := by
  refine (keepsTrust_stream? id).bind fun s => ?_
  simp only
  split
  · refine (keepsTrust_modifyStream id ?_).bind fun _ => keepsTrust_pure _
    exact fun _ _ mem => mem
  · exact keepsTrust_pure _

theorem keepsTrust_countPulled (id : StreamId) : KeepsTrust h keys (countPulled id) := by
  refine (keepsTrust_stream? id).bind fun _ => ?_
  refine (keepsTrust_modifyStream id ?_).bind fun _ => keepsTrust_pure _
  exact fun _ _ mem => mem

theorem keepsTrust_innerStream? (id : StreamId) : KeepsTrust h keys (innerStream? id) := by
  refine (keepsTrust_stream? id).bind fun s => ?_
  split
  · exact keepsTrust_pure _
  · exact keepsTrust_pure _

theorem keepsTrust_setInner (id : StreamId) (inner : Option StreamId) :
    KeepsTrust h keys (setInner id inner) := by
  refine keepsTrust_modifyStream id fun s stage mem => ?_
  split at mem
  case h_1 kind => simpa [kind, StreamKind.stage?] using mem
  case h_2 => exact mem

end Eval

open Eval

/-- The handlers of annotations keep the trust. -/
def Environment.KeepsTrust (env : Environment) (keys : List IdentKey) : Prop :=
  ∀ name handler, env.annotations.lookup name = some handler →
    ∀ args, (handler args).KeepsTrust env.host keys

/-- What goes on outside the tree at hand keeps the trust. -/
structure Calls.KeepTrust (h : Host) (keys : List IdentKey) (c : Calls) : Prop where
  run : ∀ (e : Expression) frame n, e.Numbered keys → (c.run e frame n).KeepsTrust h keys
  pull : ∀ id, (c.pull id).KeepsTrust h keys
  missing : c.missing.KeepsTrust h keys

namespace Calls.KeepTrust

variable {h : Host} {c : Calls} {stage : Stage} (hc : c.KeepTrust h keys)

include hc

theorem invoke (numbered : e.Numbered keys) (args : List Value) :
    (c.invoke e args).KeepsTrust h keys := by
  refine keepsTrust_context.bind fun context => ?_
  split
  · exact keepsTrust_throw _
  · refine (keepsTrust_newFrame _).bind fun frame => ?_
    exact ((hc.run e frame e.body numbered).during _ _).located _

theorem next (id : StreamId) : (c.next id).KeepsTrust h keys := by
  refine (keepsTrust_takePeeked id).bind fun peeked => ?_
  cases peeked with
  | some v => exact keepsTrust_pure _
  | none => exact hc.pull id

theorem hasNext (id : StreamId) : (c.hasNext id).KeepsTrust h keys := by
  refine (keepsTrust_stream? id).bind fun s => ?_
  split
  · exact keepsTrust_pure _
  · refine (hc.pull id).bind fun v => ?_
    refine (keepsTrust_modifyStream id ?_).bind fun _ => keepsTrust_pure _
    exact fun _ _ mem => mem

theorem collect (id : StreamId) (fuel : Nat) : (c.collect id fuel).KeepsTrust h keys := by
  induction fuel with
  | zero => exact keepsTrust_throw _
  | succ fuel ih =>
    refine (hc.next id).bind fun found => ?_
    cases found with
    | none => exact keepsTrust_pure _
    | some v => exact ih.bind fun _ => keepsTrust_pure _

theorem internal (lookup : Lookup) (name : InternalName) :
    (c.internal lookup name).KeepsTrust h keys := by
  refine keepsTrust_context.bind fun context => ?_
  split
  · exact keepsTrust_pure _
  · cases name with
    | index | isFirst => exact keepsTrust_pure _
    | hasNext =>
      simp only
      split
      · exact keepsTrust_pure _
      · exact (hc.hasNext _).bind fun _ => keepsTrust_pure _

/-! ### Stages -/

variable (numbered : stage.unit.Numbered keys)

include numbered

theorem runStage (item : Value) (index : Nat) :
    (c.runStage stage item index).KeepsTrust h keys := by
  have body := hc.run stage.unit stage.frame stage.body numbered
  unfold Calls.runStage
  split
  · exact (keepsTrust_setLocal _ _ _).bind fun _ => body
  · exact body.during _ _

theorem stageNext (id : StreamId) : (c.stageNext id stage).KeepsTrust h keys := by
  refine (hc.next stage.input).bind fun found => ?_
  cases found with
  | none => exact keepsTrust_pure _
  | some item =>
    exact (keepsTrust_countPulled id).bind fun index =>
      (hc.runStage numbered item index).bind fun _ => keepsTrust_pure _

theorem pullFiltered (id : StreamId) (fuel : Nat) :
    (c.pullFiltered id stage fuel).KeepsTrust h keys := by
  induction fuel with
  | zero => exact keepsTrust_throw _
  | succ fuel ih =>
    refine (hc.stageNext numbered id).bind ?_
    rintro (_ | ⟨item, verdict⟩)
    · exact keepsTrust_pure _
    · simp only
      split
      · exact keepsTrust_pure _
      · exact ih

theorem pullFlat (host : Host) (id : StreamId) (fuel : Nat) :
    (c.pullFlat host id stage fuel).KeepsTrust h keys := by
  induction fuel with
  | zero => exact keepsTrust_throw _
  | succ fuel ih =>
    refine (keepsTrust_innerStream? id).bind ?_
    -- Without an inner stream the stage runs at once, else where the inner stream has ended.
    rintro (_ | inner)
    case' none => refine (keepsTrust_pure none).bind ?_
    case' some => refine (hc.next inner).bind ?_
    all_goals
      rintro (_ | v)
      · refine (keepsTrust_setInner id none).bind fun _ => (hc.stageNext numbered id).bind ?_
        rintro (_ | ⟨item, produced⟩)
        · exact keepsTrust_pure _
        · exact (keepsTrust_streamOf host produced).bind fun next =>
            (keepsTrust_setInner id (some next)).bind fun _ => ih
      · exact keepsTrust_pure _

theorem reduceStage (fuel index : Nat) (last : Value) :
    (c.reduceStage stage fuel index last).KeepsTrust h keys := by
  induction fuel generalizing index last with
  | zero => exact keepsTrust_throw _
  | succ fuel ih =>
    refine (hc.next stage.input).bind fun found => ?_
    cases found with
    | none => exact keepsTrust_pure _
    | some item => exact (hc.runStage numbered item index).bind fun v => ih _ v

theorem firstOfStage (fuel index : Nat) :
    (c.firstOfStage stage fuel index).KeepsTrust h keys := by
  induction fuel generalizing index with
  | zero => exact keepsTrust_throw _
  | succ fuel ih =>
    refine (hc.next stage.input).bind fun found => ?_
    cases found with
    | none => exact keepsTrust_pure _
    | some item =>
      refine (hc.runStage numbered item index).bind fun v => ?_
      split
      · exact ih _
      · exact keepsTrust_pure _

theorem applyStage (fuel : Nat) (op : StreamOp) :
    (c.applyStage fuel stage op).KeepsTrust h keys := by
  have made (s : Stream) (hs : s.kind.stage? = some stage) :
      KeepsTrust h keys (do return Value.stream (← newStream s)) := by
    refine KeepsTrust.bind (keepsTrust_newStream fun found mem => ?_) fun _ => keepsTrust_pure _
    obtain rfl := Option.some.inj (hs.symm.trans mem)
    exact numbered
  cases op with
  | remap | filter | flatRemap => exact made _ rfl
  | reduce => exact hc.reduceStage numbered fuel 0 .null
  | first => exact hc.firstOfStage numbered fuel 0

omit numbered in
/-- A stream that was left behind is read by its own stage. -/
theorem pullStream (host : Host) (fuel : Nat) (id : StreamId) :
    (c.pullStream host fuel id).KeepsTrust h keys := by
  refine KeepsTrust.ofStream id fun s numbered => ?_
  cases s with
  | none => exact keepsTrust_pure _
  | some s =>
    obtain ⟨kind, peeked, pulled⟩ := s
    have stage_numbered := numbered _ rfl
    cases kind with
    | source source =>
      simp only
      split
      · exact keepsTrust_pure _
      · refine (keepsTrust_modifyStream id ?_).bind fun _ => keepsTrust_pure _
        intro s stage mem
        cases mem
    | remap stage =>
      exact (hc.stageNext (stage_numbered stage rfl) id).bind fun _ => keepsTrust_pure _
    | filter stage => exact hc.pullFiltered (stage_numbered stage rfl) id fuel
    | flatRemap stage inner => exact hc.pullFlat (stage_numbered stage rfl) host id fuel

end Calls.KeepTrust

/-! ### Trees -/

theorem keepsTrust_annotate {env : Environment} (handlers : env.KeepsTrust keys) (name : String)
    (args : List Value) : (annotate env name args).KeepsTrust env.host keys := by
  unfold annotate
  split
  case h_1 handler found => exact handlers name handler found args
  case h_2 => exact keepsTrust_pure _

/-- The expression is numbered, and what goes on outside its tree keeps the trust. -/
structure Expression.KeepsTrust (env : Environment) (keys : List IdentKey) (c : Calls)
    (e : Expression) : Prop where
  numbered : e.Numbered keys
  calls : c.KeepTrust env.host keys
  handlers : env.KeepsTrust keys

namespace Node

variable {env : Environment} {c : Calls} {fuel : Nat} {frame : FrameId}

mutual

/-- A tree of a numbered expression keeps the trust if all that goes on outside of it does. -/
theorem keepsTrust (h : e.KeepsTrust env keys c) :
    ∀ n : Node, (n.eval env c fuel e frame).KeepsTrust env.host keys
  | .literal _ => keepsTrust_pure _
  | .regex source => by
    unfold eval
    split
    · exact keepsTrust_pure _
    · exact keepsTrust_throw _
  | .current _ => keepsTrust_context.bind fun _ => keepsTrust_pure _
  | .internal lookup name => h.calls.internal lookup name
  | .localVar slot => by
    refine (keepsTrust_localValue? frame slot).bind fun found => ?_
    cases found with
    | some v => exact keepsTrust_pure v
    | none => exact h.calls.missing
  | .binding _ _ => keepsTrust_context.bind fun _ => keepsTrust_pure _
  | .identifier ident lookup => by
    unfold eval
    split
    case h_1 ref found =>
      exact keepsTrust_resolve (h.numbered.identifier found) lookup _
    case h_2 => exact h.calls.missing
  | .call ident lookup args => by
    refine (keepsTrustList h args).bind fun values => ?_
    split
    case h_1 ref found =>
      exact keepsTrust_resolve (h.numbered.identifier found) lookup _
    case h_2 => exact h.calls.missing
  | .member receiver ident safe => by
    refine (keepsTrust h receiver).bind fun target => ?_
    split
    case h_1 ref found =>
      exact keepsTrust_access (h.numbered.identifier found) _ _ safe
    case h_2 => exact h.calls.missing
  | .method receiver ident args safe => by
    refine (keepsTrust h receiver).bind fun target => ?_
    split
    · exact keepsTrust_pure _
    · refine (keepsTrustList h args).bind fun values => ?_
      split
      case h_1 ref found =>
        exact keepsTrust_access (h.numbered.identifier found) _ _ safe
      case h_2 => exact h.calls.missing
  | .index receiver key safe => by
    refine (keepsTrust h receiver).bind fun target => ?_
    split
    · exact keepsTrust_pure _
    · exact (keepsTrust h key).bind fun _ => keepsTrust_ofExcept _
  | .named target args => by
    refine (keepsTrustList h args).bind fun values => ?_
    split
    case h_1 callee found =>
      exact h.calls.invoke (h.numbered.callee found) values
    case h_2 => exact h.calls.missing
  | .recurse args => (keepsTrustList h args).bind fun values => h.calls.invoke h.numbered values
  | .annotated name args =>
    (keepsTrustList h args).bind fun values => keepsTrust_annotate h.handlers name values
  | .unary _ operand => (keepsTrust h operand).bind fun _ => keepsTrust_ofExcept _
  | .binary op left right => by
    have truth : (do return Value.bool (← eval env c fuel e frame right).isTruthy :
        Eval Value).KeepsTrust env.host keys :=
      (keepsTrust h right).bind fun _ => keepsTrust_pure _
    have chosen (op : BinaryOp) (l : Value) :
        (if Value.selectsRight op l then eval env c fuel e frame right
          else pure l).KeepsTrust env.host keys := by
      split
      · exact keepsTrust h right
      · exact keepsTrust_pure l
    refine (keepsTrust h left).bind fun l => ?_
    split
    · split
      · exact truth
      · exact keepsTrust_pure _
    · split
      · exact keepsTrust_pure _
      · exact truth
    · exact chosen .coalesce l
    · exact chosen .elvis l
    · exact chosen .ifPresent l
    · exact chosen .ifTruthy l
    · exact (keepsTrust h right).bind fun _ => keepsTrust_ofExcept _
  | .ternary condition yes no => by
    refine (keepsTrust h condition).bind fun verdict => ?_
    split
    · exact keepsTrust h yes
    · exact keepsTrust h no
  | .concat parts => (keepsTrustList h parts).bind fun _ => keepsTrust_pure _
  | .list items => (keepsTrustList h items).bind fun _ => keepsTrust_pure _
  | .set items => (keepsTrustList h items).bind fun _ => keepsTrust_pure _
  | .map entries => (keepsTrustEntries h entries).bind fun _ => keepsTrust_pure _
  | .assignLocal slot value =>
    (keepsTrust h value).bind fun _ =>
      (keepsTrust_setLocal _ _ _).bind fun _ => keepsTrust_pure _
  | .assignBinding template slot value =>
    (keepsTrust h value).bind fun _ => keepsTrust_context.bind fun _ =>
      (keepsTrust_ofExcept _).bind fun _ =>
        (keepsTrust_modifyContext _).bind fun _ => keepsTrust_pure _
  | .sequence items => (keepsTrustList h items).bind fun _ => keepsTrust_pure _
  | .stream op source slot body =>
    (keepsTrust h source).bind fun v => (keepsTrust_streamOf env.host v).bind fun _ =>
      h.calls.applyStage h.numbered fuel op

theorem keepsTrustList (h : e.KeepsTrust env keys c) : ∀ ns : List Node,
    (evalList env c fuel e frame ns).KeepsTrust env.host keys
  | [] => keepsTrust_pure _
  | n :: ns =>
    (keepsTrust h n).bind fun _ => (keepsTrustList h ns).bind fun _ => keepsTrust_pure _

theorem keepsTrustEntries (h : e.KeepsTrust env keys c) : ∀ entries : List (Node × Node),
    (evalEntries env c fuel e frame entries).KeepsTrust env.host keys
  | [] => keepsTrust_pure _
  | entry :: entries => (keepsTrustEntry h entry).bind fun _ =>
      (keepsTrustEntries h entries).bind fun _ => keepsTrust_pure _

theorem keepsTrustEntry (h : e.KeepsTrust env keys c) : ∀ entry : Node × Node,
    (evalEntry env c fuel e frame entry).KeepsTrust env.host keys
  | (key, value) =>
    (keepsTrust h key).bind fun _ => (keepsTrust h value).bind fun _ => keepsTrust_pure _

end

end Node

/-! ### Levels -/

section

variable {env : Environment} (handlers : env.KeepsTrust keys)

include handlers

theorem Calls.keepTrust_ofLevels {missing : Eval Value} (quiet : missing.KeepsTrust env.host keys)
    (fuel : Nat) : (ofLevels env missing fuel).KeepTrust env.host keys := by
  induction fuel with
  | zero => exact ⟨fun _ _ _ _ => keepsTrust_throw .exhausted,
      fun _ => keepsTrust_throw .exhausted, quiet⟩
  | succ fuel ih =>
    exact ⟨fun _ _ n numbered => n.keepsTrust ⟨numbered, ih, handlers⟩,
      ih.pullStream env.host fuel, quiet⟩

theorem Calls.keepTrust_full : (full env).KeepTrust env.host keys :=
  keepTrust_ofLevels handlers (keepsTrust_pure _) maxLevels

/-- **Evaluation keeps the trust**, whether it has a value or stops. -/
theorem Expression.keepsTrust_tryEvaluate (numbered : e.Numbered keys) (args : List Value) :
    (e.tryEvaluate env args).KeepsTrust env.host keys :=
  (Calls.keepTrust_full handlers).invoke numbered args

theorem Expression.keepsTrust_evaluate (numbered : e.Numbered keys) (args : List Value) :
    (e.evaluate env args).KeepsTrust env.host keys := by
  intro m trusts
  have inner := e.keepsTrust_tryEvaluate handlers numbered args m trusts
  unfold Ends at inner ⊢
  unfold evaluate isolate
  cases ran : e.tryEvaluate env args m with
  | ok v m' => simpa only [ran] using inner
  | error stop m' =>
    rw [ran] at inner
    cases stop with
    | exhausted => exact inner
    | error error =>
      by_cases halt : error.isHalt
      · simp only [halt, if_true]
        exact inner
      · simp only [halt, Bool.false_eq_true, if_false]
        exact inner.of_same rfl rfl

end

/-! ## The life of a compiler -/

/-- A compiler with the template files that it is used for, the expressions that it has compiled and
the machine that they run on. -/
structure Engine where
  compiler : Compiler := {}
  files : List Template := []
  expressions : List Expression := []
  machine : Machine := {}

/-- The machine after a step, which may have stopped. -/
def Eval.after {α : Type} (x : Eval α) (m : Machine) : Machine :=
  match x m with
  | .ok _ m' => m'
  | .error _ m' => m'

theorem Eval.KeepsTrust.after {α : Type} {h : Host} {m : Machine} {x : Eval α}
    (hx : x.KeepsTrust h keys) (trusts : m.Trusts h keys) : (x.after m).Trusts h keys := by
  have ended := hx m trusts
  unfold Ends at ended
  unfold Eval.after
  cases ran : x m with
  | ok a m' => simpa only [ran] using ended
  | error stop m' => simpa only [ran] using ended

namespace Engine

/-- What an application does with an engine. -/
inductive Step (env : Environment) : Engine → Engine → Prop
  /-- Begins another template file. -/
  | file (s : Engine) (extensions : Extensions) :
    Step env s { s with files := .fresh extensions :: s.files }
  /-- Compiles a text in one of the files, or fails to. -/
  | compile {s : Engine} {i : Nat} {t t' : Template} {text : String} {offset : Nat}
      {r : Except ParseError Expression} {c' : Compiler} : s.files[i]? = some t →
    s.compiler.compile t text offset = (r, t', c') →
    Step env s { s with
      compiler := c', files := s.files.set i t', expressions := r.toOption.toList ++ s.expressions }
  /-- Enters or leaves the scope of a template. -/
  | scope {s : Engine} {i : Nat} {t : Template} {scope : TemplateScope Expression} :
    s.files[i]? = some t → scope.named = t.scope.named →
    Step env s { s with files := s.files.set i { t with scope } }
  /-- Evaluates one of the expressions, which may fail. -/
  | evaluate {s : Engine} {e : Expression} (args : List Value) : e ∈ s.expressions →
    Step env s { s with machine := (e.evaluate env args).after s.machine }
  | tryEvaluate {s : Engine} {e : Expression} (args : List Value) : e ∈ s.expressions →
    Step env s { s with machine := (e.tryEvaluate env args).after s.machine }
  /-- Reads a stream, or asks whether it can be read. -/
  | next (s : Engine) (id : StreamId) :
    Step env s { s with machine := (nextOf env id).after s.machine }
  | hasNext (s : Engine) (id : StreamId) :
    Step env s { s with machine := (hasNextOf env id).after s.machine }
  | collect (s : Engine) (id : StreamId) :
    Step env s { s with machine := (collectOf env id).after s.machine }
  /-- Begins with another context, in which sections and template frames may lie. -/
  | context (s : Engine) (context : Context) : Step env s { s with machine.context := context }

/-- What becomes of an engine when one thing after the other is done with it. -/
abbrev Life (env : Environment) : Engine → Engine → Prop := Relation.ReflTransGen (Step env)

variable {env : Environment} {s s' : Engine}

/-- An expression that has been compiled stays. -/
theorem expressions_of_life (life : Life env s s') (mem : e ∈ s.expressions) :
    e ∈ s'.expressions := by
  induction life with
  | refl => exact mem
  | tail _ step ih =>
    cases step with
    | compile => exact List.mem_append_right _ ih
    | file | scope | evaluate | tryEvaluate | next | hasNext | collect | context => exact ih

/-- All that has been compiled goes by one numbering, and so does the machine. -/
structure Sound (h : Host) (keys : List IdentKey) (s : Engine) : Prop where
  count : s.compiler.identifierCount = keys.length
  files : ∀ t ∈ s.files, t.Numbered keys
  expressions : ∀ e ∈ s.expressions, e.Numbered keys
  machine : s.machine.Trusts h keys

theorem sound_fresh (h : Host) : Sound h [] {} := ⟨rfl, nofun, nofun, .of_unused rfl rfl⟩

/-- What is done with the machine alone leaves the numbering as it is. -/
theorem Sound.run {h : Host} (sound : s.Sound h keys) {α : Type} {x : Eval α}
    (keeps : x.KeepsTrust h keys) :
    ∃ keys', keys <+: keys' ∧ Sound h keys' { s with machine := x.after s.machine } :=
  ⟨keys, List.prefix_rfl, sound.count, sound.files, sound.expressions, keeps.after sound.machine⟩

/-- Whatever is done with a sound engine, it stays sound by a numbering that goes on from the one
before. -/
theorem Step.sound (handlers : ∀ keys, env.KeepsTrust keys) (step : Step env s s')
    (sound : s.Sound env.host keys) : ∃ keys', keys <+: keys' ∧ s'.Sound env.host keys' := by
  have calls := Calls.keepTrust_full (handlers keys)
  cases step with
  | file extensions =>
    refine ⟨keys, List.prefix_rfl, { sound with files := List.forall_mem_cons.2 ⟨?_, sound.files⟩ }⟩
    exact ⟨nofun, nofun⟩
  | @compile i t t' text offset r c' here compiled =>
    have numbered := sound.files t (List.mem_of_getElem? here)
    obtain ⟨keys', more, count, after, result⟩ :=
      Compiler.compile_numbers sound.count numbered compiled
    -- New numbers lie behind all others, so whatever has been numbered keeps its numbers.
    refine ⟨keys', more, count, fun u mem => ?_, fun e mem => ?_, sound.machine.mono more⟩
    · rcases List.mem_or_eq_of_mem_set mem with old | rfl
      · exact (sound.files u old).mono more
      · exact after
    · rcases List.mem_append.1 mem with new | old
      · cases r with
        | error _ => cases new
        | ok e' =>
          obtain rfl := List.mem_singleton.1 new
          exact result _ rfl
      · exact (sound.expressions e old).mono more
  | @scope i t scope here named =>
    have numbered := sound.files t (List.mem_of_getElem? here)
    refine ⟨keys, List.prefix_rfl, { sound with files := fun u mem => ?_ }⟩
    rcases List.mem_or_eq_of_mem_set mem with old | rfl
    · exact sound.files u old
    · refine ⟨numbered.known, fun name e there => numbered.finished name e ?_⟩
      rw [TemplateScope.expression?_eq_some] at there ⊢
      exact (congrArg (List.lookup name) named).symm.trans there
  | evaluate args mem =>
    exact sound.run (Expression.keepsTrust_evaluate (handlers keys) (sound.expressions _ mem) args)
  | tryEvaluate args mem =>
    exact sound.run
      (Expression.keepsTrust_tryEvaluate (handlers keys) (sound.expressions _ mem) args)
  | next id => exact sound.run (calls.next id)
  | hasNext id => exact sound.run (calls.hasNext id)
  | collect id => exact sound.run (calls.collect id _)
  | context context =>
    exact ⟨keys, List.prefix_rfl, { sound with machine := sound.machine.of_same rfl rfl }⟩

theorem exists_sound (handlers : ∀ keys, env.KeepsTrust keys) (life : Life env {} s) :
    ∃ keys, s.Sound env.host keys := by
  induction life with
  | refl => exact ⟨[], sound_fresh env.host⟩
  | tail _ step ih =>
    obtain ⟨keys, sound⟩ := ih
    obtain ⟨keys', -, sound'⟩ := step.sound handlers sound
    exact ⟨keys', sound'⟩

/-- **Identifiers can be trusted.** Whatever has been compiled, evaluated and read before, each
identifier of each compiled expression has learnt nothing but what a fresh one would find out. -/
theorem trusted (handlers : ∀ keys, env.KeepsTrust keys) (life : Life env {} s) :
    ∀ e ∈ s.expressions, ∀ ref ∈ e.identifiers, ref.Trusted env.host s.machine := by
  intro e mem ref mention
  obtain ⟨keys, sound⟩ := exists_sound handlers life
  obtain ⟨ident, found⟩ := List.getElem?_of_mem mention
  exact sound.machine.trusted ((sound.expressions e mem).identifier found)

end Engine

end TagExpr
