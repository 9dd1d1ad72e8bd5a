import TagExpr.Eval.Step
import TagExpr.Proofs.Ends

/-!
# Steps that only look

Most of what evaluation does at one node reads the machine, or changes nothing in it but what
identifiers have learnt and the number of the next host object. Such a step spares the context, the
local slots and the streams.
-/

namespace TagExpr

/-- The machines have the same context, local slots and streams. -/
structure Machine.Spared (m m' : Machine) : Prop where
  context : m'.context = m.context
  frames : m'.frames = m.frames
  streams : m'.streams = m.streams

theorem Machine.Spared.refl (m : Machine) : m.Spared m := ⟨rfl, rfl, rfl⟩

theorem Machine.Spared.trans {m m' m'' : Machine} (h : m.Spared m') (h' : m'.Spared m'') :
    m.Spared m'' :=
  ⟨h'.context.trans h.context, h'.frames.trans h.frames, h'.streams.trans h.streams⟩

namespace Eval

variable {α β : Type} {x : Eval α} {f : α → Eval β}

/-- Context, local slots and streams are left as they are. -/
def Spares (x : Eval α) : Prop := ∀ m, Ends x m (fun _ m' => m.Spared m') fun _ m' => m.Spared m'

theorem spares_pure (a : α) : Spares (pure a) := fun m => .refl m

theorem spares_fail (fault : EvalFault) : Spares (fail fault : Eval α) := fun m => .refl m

theorem Spares.bind (h : x.Spares) (hn : ∀ a, (f a).Spares) : (x >>= f).Spares := by
  intro m
  rw [ends_bind]
  refine (h m).mono ?_ fun _ _ he => he
  intro a m' hm'
  exact (hn a m').mono (fun _ _ => hm'.trans) fun _ _ => hm'.trans

theorem spares_context : Spares context := fun m => .refl m

theorem spares_ofExcept (r : Except EvalFault α) : Spares (ofExcept r) := by
  cases r with
  | ok a => exact spares_pure a
  | error fault => exact spares_fail fault

theorem spares_localValue? (frame : FrameId) (slot : Nat) : Spares (localValue? frame slot) :=
  fun m => .refl m

theorem spares_stream? (id : StreamId) : Spares (stream? id) := fun m => .refl m

theorem spares_member (h : Host) (ref : IdentifierRef) (receiver : Value) (args : List Value) :
    Spares (member h ref receiver args) := fun _ => ⟨rfl, rfl, rfl⟩

theorem spares_searchMember (h : Host) (ref : IdentifierRef) (args : List Value)
    (sections : List Section) : Spares (searchMember h ref args sections) := by
  induction sections with
  | nil => exact spares_pure _
  | cons s rest ih =>
    refine (spares_member h ref s.value args).bind fun found => ?_
    cases found with
    | some v => exact spares_pure v
    | none => exact ih

theorem spares_resolve (h : Host) (ref : IdentifierRef) (lookup : Lookup) (args : List Value) :
    Spares (resolve h ref lookup args) :=
  spares_context.bind fun _ => spares_searchMember h ref args _

theorem spares_access (h : Host) (ref : IdentifierRef) (receiver : Value) (args : List Value)
    (safe : Bool) : Spares (access h ref receiver args safe) := by
  unfold access
  split
  · split
    · exact spares_pure _
    · exact spares_fail _
  · exact (spares_member h ref receiver args).bind fun _ => spares_pure _

end Eval

end TagExpr
