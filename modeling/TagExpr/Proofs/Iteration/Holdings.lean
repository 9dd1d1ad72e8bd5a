import TagExpr.Machine
import TagExpr.Proofs.Eval.Spares
import TagExpr.Proofs.Stream.Elements

/-!
# The streams that values hold

Only who holds a stream can read it. A value holds the streams whose numbers stand in it, and no
operation on values has a result that holds a stream which none of its operands holds. Calls into
the host application could make streams up, so of a host that does not it is said that it is honest
(`Host.Honest`); ways into an honest host stay honest where identifiers have learnt them.
-/

namespace TagExpr

variable {A B : Set StreamId} {h : Host} {v w : Value}

namespace Value

mutual

/-- The numbers of the streams that stand in a value. -/
def streams : Value → List StreamId
  | stream id => [id]
  | list items | set items => streamsOfList items
  | map entries => streamsOfEntries entries
  | object _ _ _ content => streams content
  | null | bool _ | int _ | double _ | str _ | range _ | regex _ | Value.type _ => []
termination_by structural v => v

def streamsOfList : List Value → List StreamId
  | [] => []
  | v :: rest => streams v ++ streamsOfList rest

def streamsOfEntries : List (Value × Value) → List StreamId
  | [] => []
  | entry :: rest => streamsOfEntry entry ++ streamsOfEntries rest

def streamsOfEntry : Value × Value → List StreamId
  | (key, value) => streams key ++ streams value

end

/-- All streams that stand in the value are among these. -/
def Within (A : Set StreamId) (v : Value) : Prop := ∀ id ∈ v.streams, id ∈ A

theorem Within.mono (hv : v.Within A) (le : A ⊆ B) : v.Within B := fun id hid => le (hv id hid)

theorem within_of_streamless (hv : v.streams = []) : v.Within A := by
  intro id hid
  rw [hv] at hid
  exact absurd hid List.not_mem_nil

theorem within_null : null.Within A := within_of_streamless rfl

theorem within_bool (b : Bool) : (bool b).Within A := within_of_streamless rfl

theorem within_stream {id : StreamId} : (stream id).Within A ↔ id ∈ A := by
  simp [Within, streams]

theorem mem_streamsOfList {items : List Value} {id : StreamId} :
    id ∈ streamsOfList items ↔ ∃ v ∈ items, id ∈ v.streams := by
  induction items with
  | nil => simp [streamsOfList]
  | cons v rest ih => simp [streamsOfList, ih]

theorem within_list {items : List Value} : (list items).Within A ↔ ∀ v ∈ items, v.Within A := by
  simp only [Within, streams, mem_streamsOfList]
  exact ⟨fun hall v hv id hid => hall id ⟨v, hv, hid⟩, fun hall id ⟨v, hv, hid⟩ => hall v hv id hid⟩

theorem within_set {items : List Value} : (set items).Within A ↔ ∀ v ∈ items, v.Within A :=
  within_list

theorem mem_streamsOfEntries {entries : List (Value × Value)} {id : StreamId} :
    id ∈ streamsOfEntries entries ↔ ∃ e ∈ entries, id ∈ e.1.streams ∨ id ∈ e.2.streams := by
  induction entries with
  | nil => simp [streamsOfEntries]
  | cons entry rest ih =>
    obtain ⟨key, value⟩ := entry
    simp [streamsOfEntries, streamsOfEntry, ih, or_assoc]

theorem within_map {entries : List (Value × Value)} :
    (map entries).Within A ↔ ∀ e ∈ entries, e.1.Within A ∧ e.2.Within A := by
  simp only [Within, streams, mem_streamsOfEntries]
  constructor
  · intro hall e he
    exact ⟨fun id hid => hall id ⟨e, he, .inl hid⟩, fun id hid => hall id ⟨e, he, .inr hid⟩⟩
  · rintro hall id ⟨e, he, hid | hid⟩
    · exact (hall e he).1 id hid
    · exact (hall e he).2 id hid

theorem within_object {id : ObjectId} {tag : TypeTag} {carrier : String} {content : Value} :
    (object id tag carrier content).Within A ↔ content.Within A := Iff.rfl

/-! ## Maps and sets -/

theorem within_ofItems {items : List Value} (hi : ∀ v ∈ items, v.Within A) :
    (ofItems items).Within A :=
  within_set.2 fun v hv => hi v (mem_of_mem_collectBy hv)

theorem within_ofEntries {entries : List (Value × Value)}
    (he : ∀ e ∈ entries, e.1.Within A ∧ e.2.Within A) : (ofEntries entries).Within A :=
  within_map.2 fun e hmem => he e (mem_of_mem_collectBy hmem)

theorem within_find? {entries : List (Value × Value)} {key : Value}
    (he : (map entries).Within A) (hv : find? entries key = some v) : v.Within A := by
  obtain ⟨e, found, rfl⟩ := Option.map_eq_some_iff.1 hv
  exact (within_map.1 he e (List.mem_of_find?_eq_some found)).2

theorem within_getD {found : Option Value} (hf : ∀ v, found = some v → v.Within A) :
    (found.getD null).Within A := by
  cases found with
  | none => exact within_null
  | some v => exact hf v rfl

/-! ## Operators -/

theorem within_itemAt {items : List Value} {position : Int} (hi : (list items).Within A)
    (hv : itemAt items position = .ok v) : v.Within A :=
  within_list.1 hi v (List.mem_of_getElem? (itemAt_eq_ok_iff.1 hv).2)

/-- Numbers, truth values and texts that are made of other values hold no streams. -/
theorem streams_arithmetic {op : BinaryOp} {operation : IntOperation} {f : Int → Int → Int}
    {g : Double → Double → Double} {left right : Value}
    (hv : arithmetic op operation f g left right = .ok v) : v.streams = [] := by
  unfold arithmetic at hv
  split at hv
  · unfold fitting at hv
    split at hv <;> cases hv
    rfl
  · split at hv <;> cases hv
    rfl

theorem streams_floating {op : BinaryOp} {g : Double → Double → Double} {left right : Value}
    (hv : floating op g left right = .ok v) : v.streams = [] := by
  unfold floating at hv
  split at hv <;> cases hv
  rfl

theorem streams_integral {op : BinaryOp} {f : Int64 → Int64 → Value} {left right : Value}
    (hf : ∀ a b, (f a b).streams = []) (hv : integral op f left right = .ok v) :
    v.streams = [] := by
  unfold integral at hv
  split at hv <;> cases hv
  exact hf _ _

theorem streams_ordered {accept : Ordering → Bool} {left right : Value}
    (hv : ordered accept left right = .ok v) : v.streams = [] := by
  unfold ordered at hv
  split at hv <;> cases hv
  rfl

theorem streams_threeWay {left right : Value} (hv : threeWay left right = .ok v) :
    v.streams = [] := by
  unfold threeWay at hv
  split at hv
  · cases hv; rfl
  · cases hv; rfl
  · cases hv; rfl
  · split at hv <;> cases hv
    rfl

theorem streams_plus {left right : Value} (hv : plus h left right = .ok v) : v.streams = [] := by
  unfold plus at hv
  split at hv
  · cases hv; rfl
  · cases hv; rfl
  · exact streams_arithmetic hv

theorem streams_patternMatch {op : BinaryOp} {left right : Value}
    (hv : patternMatch h op left right = .ok v) : v.streams = [] := by
  unfold patternMatch at hv
  cases found : patternOf op left right with
  | error fault =>
    rw [found] at hv
    cases hv
  | ok pattern =>
    rw [found] at hv
    simp only [Bind.bind, Except.bind] at hv
    split at hv
    · cases hv; rfl
    · cases pattern <;> cases hv
      rfl

theorem within_binary {op : BinaryOp} {left right : Value} (hl : left.Within A)
    (hr : right.Within A) (hv : binary h op left right = .ok v) : v.Within A := by
  have chosen (hop : op = .coalesce ∨ op = .elvis ∨ op = .ifPresent ∨ op = .ifTruthy) :
      v.Within A := by
    rcases binary_eq_left_or_right hop hv with rfl | rfl
    · exact hl
    · exact hr
  cases op with
  | add => exact within_of_streamless (streams_plus hv)
  | sub | mul => exact within_of_streamless (streams_arithmetic hv)
  | div | mod | pow => exact within_of_streamless (streams_floating hv)
  | shiftLeft | shiftRight | shiftRightUnsigned | bitAnd | bitXor | bitOr | range
  | rangeExclusive => exact within_of_streamless (streams_integral (fun _ _ => rfl) hv)
  | eq | ne | and | or =>
    cases hv
    exact within_bool _
  | lt | le | gt | ge => exact within_of_streamless (streams_ordered hv)
  | compare => exact within_of_streamless (streams_threeWay hv)
  | find | wholeMatch => exact within_of_streamless (streams_patternMatch hv)
  | coalesce | elvis | ifPresent | ifTruthy => exact chosen (by simp)

theorem within_unary {op : UnaryOp} {operand : Value} (hv : unary h op operand = .ok v) :
    v.Within A := by
  refine within_of_streamless ?_
  unfold unary at hv
  cases op with
  | not =>
    cases hv
    rfl
  | die => cases hv
  | negate | plus | bitNot =>
    simp only at hv
    split at hv <;> cases hv
    rfl

end Value

/-! ## Honest hosts -/

/-- The member of a host type has no streams in its value but those that it is given. -/
def HostCall.Honest (call : List Value → HostCall) (given : Value) : Prop :=
  ∀ A args, given.Within A → (∀ a ∈ args, a.Within A) →
    ∀ next v next', call args next = .ok v next' → v.Within A

/-- A host type whose members make no streams up. -/
structure HostType.Honest (t : HostType) : Prop where
  fields : ∀ field ∈ t.fields, ∀ A content, content.Within A → (field.2 content).Within A
  methods : ∀ method ∈ t.methods, ∀ text content,
    HostCall.Honest (method.2 text content) content
  staticFields : ∀ field ∈ t.staticFields, field.2.streams = []
  staticMethods : ∀ method ∈ t.staticMethods, ∀ text, HostCall.Honest (method.2 text) .null
  lookup : ∀ get ∈ t.lookup, ∀ A content key v, content.Within A → get content key = some v →
    v.Within A
  iterate : ∀ items ∈ t.iterate, ∀ A content, content.Within A → ∀ v ∈ items content, v.Within A

/-- The types that are known make no streams up. -/
def Host.Honest (h : Host) : Prop := ∀ t ∈ h.types, t.Honest

theorem Host.Honest.type? (honest : h.Honest) {id : Nat} {t : HostType} (ht : h.type? id = some t) :
    t.Honest := honest t (List.mem_of_find?_eq_some ht)

theorem HostType.accept?_eq_some {t : HostType} {carrier : String} {content found : Value}
    (hf : t.accept? carrier content = some found) : found = content := by
  unfold accept? at hf
  split at hf <;> cases hf
  rfl

theorem HostType.Honest.within_lookup? {t : HostType} (honest : t.Honest) {carrier key : String}
    {content : Value} (hc : content.Within A) (hv : t.lookup? carrier content key = some v) :
    v.Within A := by
  unfold HostType.lookup? at hv
  split at hv
  case h_1 get found table accepted =>
    obtain rfl := HostType.accept?_eq_some accepted
    exact honest.lookup get table A found key v hc hv
  case h_2 => cases hv

theorem Value.within_index (honest : h.Honest) {receiver key : Value} (hr : receiver.Within A)
    (hv : receiver.index h key = .ok v) : v.Within A := by
  unfold Value.index at hv
  cases receiver with
  | list items =>
    simp only at hv
    split at hv
    · exact within_itemAt hr hv
    · cases hv
  | map entries =>
    cases hv
    exact within_getD fun v found => within_find? hr found
  | str s =>
    simp only at hv
    split at hv
    case h_1 n position =>
      cases found : itemAt s.toList n.toInt with
      | error fault =>
        rw [found] at hv
        cases hv
      | ok c =>
        rw [found] at hv
        cases hv
        exact within_of_streamless rfl
    case h_2 => cases hv
  | object id tag carrier content =>
    simp only at hv
    split at hv
    case h_1 t ht =>
      split at hv
      · cases hv
        exact within_getD fun v found => (honest.type? ht).within_lookup? (within_object.1 hr) found
      · cases hv
    case h_2 => cases hv
  | _ => cases hv

theorem Value.within_elements (honest : h.Honest) (hv : v.Within A) :
    ∀ x ∈ v.elements h, x.Within A := by
  unfold Value.elements
  split
  · simp
  · exact within_list.1 hv
  · exact within_set.1 hv
  case h_4 entries =>
    intro x hx
    obtain ⟨e, he, rfl⟩ := List.mem_map.1 hx
    obtain ⟨hkey, hvalue⟩ := within_map.1 hv e he
    refine within_ofEntries ?_
    rintro e (_ | ⟨_, _ | ⟨_, ⟨⟩⟩⟩)
    · exact ⟨within_of_streamless rfl, hkey⟩
    · exact ⟨within_of_streamless rfl, hvalue⟩
  case h_5 r =>
    intro x hx
    obtain ⟨n, -, rfl⟩ := List.mem_map.1 hx
    exact within_of_streamless rfl
  case h_6 id tag carrier content =>
    cases items : h.elements? tag carrier content with
    | none => simpa using hv
    | some vs =>
      obtain ⟨t, ht, found⟩ := Option.bind_eq_some_iff.1 items
      unfold HostType.iterate? at found
      split at found
      case h_1 get inner iterates accepted =>
        cases found
        obtain rfl := HostType.accept?_eq_some accepted
        exact (honest.type? ht).iterate get iterates A inner hv
      case h_2 => cases found
  · simpa using hv

/-! ## Members -/

/-- What follows in a chain of steps that may fail. -/
theorem Value.within_of_bind {α : Type} {x : Except EvalFault α} {f : α → Except EvalFault Value}
    (hv : x >>= f = .ok v) (hf : ∀ a, x = .ok a → f a = .ok v → v.Within A) : v.Within A := by
  cases x with
  | error fault => cases hv
  | ok a => exact hf a rfl hv

theorem TextMethod.within_call {s : String} {a b : Value} {m : TextMethod}
    (hv : m.call h s a b = .ok v) : v.Within A := by
  have plain {r : Value} (hr : (Except.ok r : Except EvalFault Value) = .ok v)
      (none : r.streams = []) : v.Within A := by
    cases hr
    exact Value.within_of_streamless none
  cases m with
  | length | isEmpty | toUpperCase | toLowerCase | trim | contains | startsWith | endsWith
  | replace => exact plain hv rfl
  | indexOf =>
    refine plain hv ?_
    cases Text.find? (a.display h).toList s.toList <;> rfl
  | substringFrom => exact Value.within_of_bind hv fun start _ hv => plain hv rfl
  | substring =>
    refine Value.within_of_bind hv fun start _ hv => Value.within_of_bind hv fun stop _ hv => ?_
    split at hv
    · cases hv
    · exact plain hv rfl
  | split =>
    cases hv
    refine Value.within_list.2 fun v hv => ?_
    obtain ⟨part, -, rfl⟩ := List.mem_map.1 hv
    exact Value.within_of_streamless rfl
  | charAt =>
    exact Value.within_of_bind hv fun n _ hv => Value.within_of_bind hv fun c _ hv => plain hv rfl

theorem Builtin.within_call {receiver : Value} {args : List Value} {m : Builtin}
    (hr : receiver.Within A) (hv : m.call h receiver args = .ok v) : v.Within A := by
  have plain {r : Value} (hr : (Except.ok r : Except EvalFault Value) = .ok v)
      (none : r.streams = []) : v.Within A := by
    cases hr
    exact Value.within_of_streamless none
  have place (i : Option Nat) : (Value.found i).streams = [] := by cases i <;> rfl
  cases m with
  | text m =>
    cases receiver with
    | str s => exact TextMethod.within_call hv
    | _ => cases hv
  | list m =>
    cases receiver with
    | list items =>
      cases m with
      | size | isEmpty | contains => exact plain hv rfl
      | get => exact Value.within_of_bind hv fun n _ hv => Value.within_itemAt hr hv
      | indexOf => exact plain hv (place _)
    | _ => cases hv
  | map m =>
    cases receiver with
    | map entries =>
      have parts := Value.within_map.1 hr
      cases m with
      | size | isEmpty | containsKey => exact plain hv rfl
      | get =>
        cases hv
        exact Value.within_getD fun v found => Value.within_find? hr found
      | keySet =>
        cases hv
        refine Value.within_ofItems fun v hv => ?_
        obtain ⟨e, he, rfl⟩ := List.mem_map.1 hv
        exact (parts e he).1
      | values =>
        cases hv
        refine Value.within_list.2 fun v hv => ?_
        obtain ⟨e, he, rfl⟩ := List.mem_map.1 hv
        exact (parts e he).2
    | _ => cases hv
  | set m =>
    cases receiver with
    | set items => cases m <;> exact plain hv rfl
    | _ => cases hv
  | range m =>
    cases receiver with
    | range r => cases m <;> exact plain hv rfl
    | _ => cases hv

theorem exists_mem_of_lookup {α β : Type} [BEq α] [LawfulBEq α] {entries : List (α × β)} {a : α}
    {b : β} (found : entries.lookup a = some b) : ∃ a, (a, b) ∈ entries := by
  obtain ⟨before, after, rfl, -⟩ := List.lookup_eq_some_iff.1 found
  exact ⟨a, by simp⟩

namespace Resolver

/-- The way does not lead to a stream that neither the receiver nor an argument holds. -/
def Honest : Resolver → Prop
  | mapLookup | builtin _ | missing => True
  | hostLookup t => t.Honest
  | field _ get => ∀ A content, content.Within A → (get content).Within A
  | method _ call => ∀ text content, HostCall.Honest (call text content) content
  | staticField v => v.streams = []
  | staticMethod call => ∀ text, HostCall.Honest (call text) .null

/-- Ways into an honest host are honest. -/
theorem honest_find? (honest : h.Honest) {key : IdentKey} {receiver : Value} {arity : Nat}
    {r : Resolver} (hr : find? h key receiver arity = some r) : r.Honest := by
  unfold find? at hr
  split at hr
  · cases hr
    trivial
  · obtain ⟨t, ht, hr⟩ := Option.bind_eq_some_iff.1 hr
    split at hr
    · cases hr
      exact honest.type? ht
    · obtain ⟨get, found, hr⟩ := Option.bind_eq_some_iff.1 hr
      cases hr
      obtain ⟨name, listed⟩ := exists_mem_of_lookup found
      exact (honest.type? ht).fields (name, get) listed
  · obtain ⟨t, ht, hr⟩ := Option.bind_eq_some_iff.1 hr
    obtain ⟨call, found, hr⟩ := Option.bind_eq_some_iff.1 hr
    cases hr
    obtain ⟨name, listed⟩ := exists_mem_of_lookup found
    exact (honest.type? ht).methods (name, call) listed
  · obtain ⟨t, ht, hr⟩ := Option.bind_eq_some_iff.1 hr
    obtain ⟨v, found, hr⟩ := Option.bind_eq_some_iff.1 hr
    cases hr
    obtain ⟨name, listed⟩ := exists_mem_of_lookup found
    exact (honest.type? ht).staticFields (name, v) listed
  · obtain ⟨t, ht, hr⟩ := Option.bind_eq_some_iff.1 hr
    obtain ⟨call, found, hr⟩ := Option.bind_eq_some_iff.1 hr
    cases hr
    obtain ⟨name, listed⟩ := exists_mem_of_lookup found
    exact (honest.type? ht).staticMethods (name, call) listed
  · obtain ⟨m, -, rfl⟩ := Option.map_eq_some_iff.1 hr
    trivial

theorem within_settle {call : List Value → HostCall} {given : Value} {args : List Value}
    (honest : HostCall.Honest call given) (hg : given.Within A) (ha : ∀ a ∈ args, a.Within A)
    {next : ObjectId} (hv : ((settle (call args)).run next).1 = some v) : v.Within A := by
  simp only [settle, StateT.run] at hv
  split at hv
  case h_1 w next' ran =>
    cases hv
    exact honest A args hg ha next v next' ran
  case h_2 =>
    cases hv
    exact Value.within_null

theorem within_follow {name : String} {receiver : Value} {args : List Value} {r : Resolver}
    (honest : r.Honest) (hr : receiver.Within A) (ha : ∀ a ∈ args, a.Within A) {next : ObjectId}
    (hv : ((r.follow h name receiver args).run next).1 = some v) : v.Within A := by
  cases r with
  | mapLookup =>
    cases receiver with
    | map entries => exact Value.within_find? hr hv
    | _ => cases hv
  | hostLookup t =>
    cases receiver with
    | object id tag carrier content => exact honest.within_lookup? (Value.within_object.1 hr) hv
    | _ => cases hv
  | builtin m =>
    simp only [follow] at hv
    split at hv
    case h_1 w ran =>
      cases hv
      exact Builtin.within_call hr ran
    case h_2 =>
      cases hv
      exact Value.within_null
  | field t get =>
    cases receiver with
    | object id tag carrier content =>
      obtain ⟨inner, accepted, rfl⟩ := Option.map_eq_some_iff.1 hv
      obtain rfl := HostType.accept?_eq_some accepted
      exact honest A inner hr
    | _ => cases hv
  | method t call =>
    cases receiver with
    | object id tag carrier content =>
      simp only [follow] at hv
      split at hv
      case h_1 inner accepted =>
        obtain rfl := HostType.accept?_eq_some accepted
        exact within_settle (honest _ inner) hr ha hv
      case h_2 =>
        cases hv
        exact Value.within_null
    | _ => cases hv
  | staticField w =>
    cases receiver with
    | type tag =>
      cases hv
      exact Value.within_of_streamless honest
    | _ => cases hv
  | staticMethod call =>
    cases receiver with
    | type tag => exact within_settle (honest _) Value.within_null ha hv
    | _ => cases hv
  | missing => cases hv

end Resolver

/-- The ways that the identifier has learnt are honest. -/
def Identifier.Honest (i : Identifier) : Prop := ∀ known ∈ i.known, known.2.Honest

theorem Identifier.Honest.resolver {i : Identifier} (hi : i.Honest) (honest : h.Honest)
    (receiver : Value) (args : List Value) :
    (i.resolver h receiver args).1.Honest ∧ (i.resolver h receiver args).2.Honest := by
  unfold Identifier.resolver
  simp only
  split
  case h_1 r found =>
    obtain ⟨shape, known⟩ := exists_mem_of_lookup found
    exact ⟨hi (shape, r) known, hi⟩
  case h_2 =>
    have way : ((Resolver.find? h i.key receiver args.length).getD .missing).Honest := by
      cases found : Resolver.find? h i.key receiver args.length with
      | none => trivial
      | some r => exact Resolver.honest_find? honest found
    exact ⟨way, List.forall_mem_cons.2 ⟨way, hi⟩⟩

/-- The identifiers of the machine have learnt honest ways only. -/
def Machine.Honest (m : Machine) : Prop :=
  ∀ (id : Nat) (i : Identifier), m.identifiers[id]? = some i → i.Honest

/-- A member holds no streams but those that the receiver and the arguments hold. -/
theorem ends_member (honest : h.Honest) {m : Machine} (hm : m.Honest) (ref : IdentifierRef)
    {receiver : Value} {args : List Value} (hr : receiver.Within A) (ha : ∀ a ∈ args, a.Within A) :
    Ends (Eval.member h ref receiver args) m
      (fun found m' => m.Spared m' ∧ m'.Honest ∧ ∀ v, found = some v → v.Within A)
      fun _ _ => False := by
  have known : (m.identifiers.getD ref.id (.fresh ref.key)).Honest := by
    rw [Std.HashMap.getD_eq_getD_getElem?]
    cases found : m.identifiers[ref.id]? with
    | none => exact fun _ h => absurd h List.not_mem_nil
    | some i => exact hm ref.id i found
  obtain ⟨way, learnt⟩ := known.resolver honest receiver args
  refine ⟨⟨rfl, rfl, rfl⟩, ?_, fun v hv => Resolver.within_follow way hr ha hv⟩
  intro id i hi
  simp only [Std.HashMap.getElem?_insert] at hi
  split at hi
  · cases hi
    exact learnt
  · exact hm id i hi

end TagExpr
