import TagExpr.Stack

/-!
# Stacks as lists

A stack is counted from its top. What it holds can just as well be kept in a list with the bottom
first, where a depth is a place that is counted down from the end of the list, if it reaches that
far. `answerList` is a stack of that kind: asked the same (`Request`), it gives the same replies and
holds the same items, through every history. The laws of the operations among each other are read
off the stack itself (`Laws`). Where depths are numbers of 64 bits, one more than a depth may wrap;
nothing is found or changed at a wrong place then (`getElem?_wordPlace?`, `modify_wordPlace?`).
-/

namespace TagExpr

namespace Stack

variable {α : Type u} {σ : Type v}

/-! ## Requests -/

/-- What a stack can be asked for. -/
inductive Request (α : Type u) where
  | push (item : α)
  | pop
  | popMany (count : Nat)
  | peek
  | peekAt (depth : Nat)
  | peekBase (height : Nat)
  /-- Puts `f` of the item at that depth in its place, and shows it. -/
  | modifyAt (depth : Nat) (f : α → α)
  | map (f : α → α)
  | truncate (size : Nat)
  | clear
  /-- Starts over with these items, of which the first lies at the bottom. -/
  | collect (items : List α)
  | size
  | isEmpty
  /-- The items from the top of the stack to its bottom. -/
  | items

/-- What comes back. -/
inductive Reply (α : Type u) where
  | done
  | item (item? : Option α)
  | items (items? : Option (List α))
  | size (size : Nat)
  | truth (b : Bool)

/-- What a stack replies, and what it is then. -/
def answer (s : Stack α) : Request α → Reply α × Stack α
  | .push a => (.item (s.push a).peek?, s.push a)
  | .pop =>
    match s.pop? with
    | none => (.item none, s)
    | some (a, below) => (.item (some a), below)
  | .popMany count =>
    match s.popMany? count with
    | none => (.items none, s)
    | some (items, below) => (.items (some items), below)
  | .peek => (.item s.peek?, s)
  | .peekAt depth => (.item (s.peekAt? depth), s)
  | .peekBase height => (.item (s.peekBase? height), s)
  | .modifyAt depth f => (.item ((s.modifyAt depth f).peekAt? depth), s.modifyAt depth f)
  | .map f => (.done, s.map f)
  | .truncate size => (.done, s.truncate size)
  | .clear => (.done, empty)
  | .collect items => (.done, ofBottomUp items)
  | .size => (.size s.size, s)
  | .isEmpty => (.truth s.isEmpty, s)
  | .items => (.items (some s.toList), s)

/-- The replies to a list of requests, one after the other, and what is there in the end. -/
def answers (answer : σ → Request α → Reply α × σ) (s : σ) :
    List (Request α) → List (Reply α) × σ
  | [] => ([], s)
  | request :: requests =>
    let (reply, s) := answer s request
    let (replies, s) := answers answer s requests
    (reply :: replies, s)

/-! ## The list with the bottom first -/

/-- The smaller number is taken from the larger one. -/
def checkedSub (n k : Nat) : Option Nat := if k ≤ n then some (n - k) else none

/-- The place in a list of that length that lies `depth` places before its last. -/
def place? (length depth : Nat) : Option Nat := checkedSub length (depth + 1)

/-- What such a list replies, and what it is then. -/
def answerList (xs : List α) : Request α → Reply α × List α
  | .push a => (.item (some a), xs ++ [a])
  | .pop => (.item xs.getLast?, xs.dropLast)
  | .popMany count =>
    match checkedSub xs.length count with
    | none => (.items none, xs)
    | some start => (.items (some (xs.drop start)), xs.take start)
  | .peek => (.item xs.getLast?, xs)
  | .peekAt depth => (.item ((place? xs.length depth).bind (xs[·]?)), xs)
  | .peekBase height => (.item xs[height]?, xs)
  | .modifyAt depth f =>
    match place? xs.length depth with
    | none => (.item none, xs)
    | some i => (.item (xs[i]?.map f), xs.modify i f)
  | .map f => (.done, xs.map f)
  | .truncate size => (.done, xs.take size)
  | .clear => (.done, [])
  | .collect items => (.done, items)
  | .size => (.size xs.length, xs)
  | .isEmpty => (.truth xs.isEmpty, xs)
  | .items => (.items (some xs.reverse), xs)

/-! ## Counting from the top and from the bottom -/

@[simp] theorem length_bottomUp (s : Stack α) : s.bottomUp.length = s.size := List.length_reverse

@[simp] theorem bottomUp_push (s : Stack α) (a : α) : (s.push a).bottomUp = s.bottomUp ++ [a] :=
  List.reverse_cons

theorem getLast?_bottomUp (s : Stack α) : s.bottomUp.getLast? = s.peek? := List.getLast?_reverse

theorem peekAt?_isSome {s : Stack α} {depth : Nat} : (s.peekAt? depth).isSome ↔ depth < s.size := by
  simp [peekAt?, size]

theorem peekAt?_eq_none {s : Stack α} {depth : Nat} (small : s.size ≤ depth) :
    s.peekAt? depth = none :=
  List.getElem?_eq_none small

/-- What lies at a depth lies at the height that is counted down from the top. -/
theorem peekAt?_eq_peekBase? {s : Stack α} {depth : Nat} (within : depth < s.size) :
    s.peekAt? depth = s.peekBase? (s.size - 1 - depth) := by
  have down : s.size - 1 - depth < s.toList.length := by unfold size at *; omega
  have up : s.toList.length - 1 - (s.size - 1 - depth) = depth := by unfold size at *; omega
  rw [peekBase?, bottomUp, List.getElem?_reverse down, up]
  rfl

theorem bottomUp_popMany?_some {s below : Stack α} {count : Nat} {items : List α}
    (taken : s.popMany? count = some (items, below)) :
    count ≤ s.size ∧ items = s.bottomUp.drop (s.size - count) ∧
      below.bottomUp = s.bottomUp.take (s.size - count) := by
  unfold popMany? at taken
  split at taken
  · rename_i enough
    cases taken
    exact ⟨enough, List.reverse_take, List.reverse_drop⟩
  · cases taken

theorem bottomUp_truncate (s : Stack α) (size : Nat) :
    (s.truncate size).bottomUp = s.bottomUp.take size := by
  have fewer : min (s.size - (s.size - size)) s.bottomUp.length = min size s.bottomUp.length := by
    rw [length_bottomUp]
    omega
  calc (s.truncate size).bottomUp
      = s.bottomUp.take (s.size - (s.size - size)) := List.reverse_drop
    _ = s.bottomUp.take size := List.take_eq_take_iff.2 fewer

/-- A place that is counted from the other end. -/
theorem reverse_modify (xs : List α) (f : α → α) {i : Nat} (within : i < xs.length) :
    (xs.modify i f).reverse = xs.reverse.modify (xs.length - 1 - i) f := by
  refine List.ext_getElem (by simp) fun j h _ => ?_
  have inside : j < xs.length := by simpa using h
  have same : i = xs.length - 1 - j ↔ xs.length - 1 - i = j := by omega
  simp only [List.getElem_reverse, List.getElem_modify, List.length_modify, same]

theorem bottomUp_modifyAt {s : Stack α} {depth : Nat} (f : α → α) (within : depth < s.size) :
    (s.modifyAt depth f).bottomUp = s.bottomUp.modify (s.size - 1 - depth) f :=
  reverse_modify s.toList f within

/-- A stack that is not that deep stays as it is. -/
theorem modifyAt_of_size_le {s : Stack α} {depth : Nat} (f : α → α) (small : s.size ≤ depth) :
    s.modifyAt depth f = s := by
  unfold modifyAt
  rw [List.modify_eq_self small]

theorem peekAt?_modifyAt_self (s : Stack α) (depth : Nat) (f : α → α) :
    (s.modifyAt depth f).peekAt? depth = (s.peekAt? depth).map f := by
  simp [peekAt?]

theorem peekAt?_modifyAt_ne (s : Stack α) (f : α → α) {depth other : Nat} (ne : other ≠ depth) :
    (s.modifyAt depth f).peekAt? other = s.peekAt? other := by
  simp [peekAt?, List.getElem?_modify_ne, ne.symm]

/-! ## Both answer the same -/

theorem place?_of_lt {length depth : Nat} (within : depth < length) :
    place? length depth = some (length - 1 - depth) := by
  rw [place?, checkedSub, if_pos (Nat.succ_le_of_lt within), Nat.add_comm, Nat.sub_add_eq]

theorem place?_of_le {length depth : Nat} (small : length ≤ depth) : place? length depth = none :=
  if_neg (Nat.not_le.2 (Nat.lt_succ_of_le small))

/-! ### Places in 64 bits -/

/-- A place that is computed in 64 bits, where one more than the greatest depth is zero. -/
def wordPlace? (length depth : UInt64) : Option UInt64 :=
  if depth + 1 ≤ length then some (length - (depth + 1)) else none

/-- **Below the greatest depth, 64 bits make no difference.** -/
theorem wordPlace?_eq (length : UInt64) {depth : UInt64} (bound : depth.toNat < UInt64.size - 1) :
    (wordPlace? length depth).map UInt64.toNat = place? length.toNat depth.toNat := by
  have next : (depth + 1).toNat = depth.toNat + 1 := by
    unfold UInt64.size at bound
    rw [UInt64.toNat_add, UInt64.toNat_one]
    omega
  unfold wordPlace? place? checkedSub
  rw [← next]
  by_cases within : depth + 1 ≤ length
  · rw [if_pos within, if_pos (UInt64.le_iff_toNat_le.1 within), Option.map_some,
      UInt64.toNat_sub_of_le _ _ within]
  · rw [if_neg within, if_neg (mt UInt64.le_iff_toNat_le.2 within), Option.map_none]

/-- At the greatest depth the place is the one behind the last item, where there is none. -/
theorem wordPlace?_greatest (length : UInt64) {depth : UInt64}
    (greatest : depth.toNat = UInt64.size - 1) :
    wordPlace? length depth = some length ∧ place? length.toNat depth.toNat = none := by
  have wraps : depth + 1 = 0 := by
    rw [← UInt64.toNat_inj, UInt64.toNat_add, greatest]
    rfl
  refine ⟨?_, place?_of_le (greatest ▸ Nat.le_sub_one_of_lt length.toNat_lt)⟩
  rw [wordPlace?, wraps, if_pos UInt64.zero_le, UInt64.sub_zero]

section WordPlaces

variable {xs : List α} {length : UInt64}

theorem getElem?_wordPlace? (counted : length.toNat = xs.length) (depth : UInt64) :
    ((wordPlace? length depth).bind fun i => xs[i.toNat]?) =
      (place? xs.length depth.toNat).bind (xs[·]?) := by
  rcases Nat.lt_or_ge depth.toNat (UInt64.size - 1) with bound | most
  · rw [← counted, ← wordPlace?_eq length bound, Option.bind_map]
    rfl
  · obtain ⟨behind, nowhere⟩ :=
      wordPlace?_greatest length (Nat.le_antisymm (Nat.le_sub_one_of_lt depth.toNat_lt) most)
    rw [← counted, behind, nowhere, Option.bind_some, counted]
    exact List.getElem?_eq_none (Nat.le_refl _)

theorem modify_wordPlace? (counted : length.toNat = xs.length) (depth : UInt64) (f : α → α) :
    ((wordPlace? length depth).elim xs fun i => xs.modify i.toNat f) =
      (place? xs.length depth.toNat).elim xs (xs.modify · f) := by
  rcases Nat.lt_or_ge depth.toNat (UInt64.size - 1) with bound | most
  · rw [← counted, ← wordPlace?_eq length bound, Option.elim_map]
    rfl
  · obtain ⟨behind, nowhere⟩ :=
      wordPlace?_greatest length (Nat.le_antisymm (Nat.le_sub_one_of_lt depth.toNat_lt) most)
    rw [← counted, behind, nowhere, Option.elim_some, counted]
    exact List.modify_eq_self (Nat.le_refl _)

end WordPlaces

/-! ### Request by request -/

/-- Asked for one thing, the list gives the reply of the stack, and holds what the stack holds. -/
theorem answerList_bottomUp (s : Stack α) (request : Request α) :
    answerList s.bottomUp request = ((s.answer request).1, (s.answer request).2.bottomUp) := by
  cases request with
  | push a => simp [answerList, answer, peek?]
  | pop =>
    obtain ⟨_ | ⟨a, below⟩⟩ := s <;> simp [answerList, answer, pop?, bottomUp]
  | popMany count =>
    simp only [answerList, answer, checkedSub, length_bottomUp]
    cases taken : s.popMany? count with
    | none => rw [if_neg (Nat.not_le.2 (popMany?_eq_none_iff.1 taken))]
    | some pair =>
      obtain ⟨items, below⟩ := pair
      obtain ⟨enough, rfl, rest⟩ := bottomUp_popMany?_some taken
      rw [if_pos enough, rest]
  | peek => simp only [answerList, answer, getLast?_bottomUp]
  | peekAt depth =>
    simp only [answerList, answer, length_bottomUp]
    rcases Nat.lt_or_ge depth s.size with within | small
    · rw [place?_of_lt within, peekAt?_eq_peekBase? within]
      rfl
    · rw [place?_of_le small, peekAt?_eq_none small]
      rfl
  | peekBase height => rfl
  | modifyAt depth f =>
    simp only [answerList, answer, length_bottomUp, peekAt?_modifyAt_self]
    rcases Nat.lt_or_ge depth s.size with within | small
    · rw [place?_of_lt within, bottomUp_modifyAt f within, peekAt?_eq_peekBase? within]
      rfl
    · rw [place?_of_le small, modifyAt_of_size_le f small, peekAt?_eq_none small]
      rfl
  | map f => simp only [answerList, answer, bottomUp, map, List.map_reverse]
  | truncate size => simp only [answerList, answer, bottomUp_truncate]
  | clear => rfl
  | collect items => simp only [answerList, answer, bottomUp_ofBottomUp]
  | size => simp only [answerList, answer, length_bottomUp]
  | isEmpty => simp only [answerList, answer, bottomUp, isEmpty, List.isEmpty_reverse]
  | items => simp only [answerList, answer, bottomUp, List.reverse_reverse]

/-- And so it is for one request after the other. -/
theorem answers_bottomUp (s : Stack α) (requests : List (Request α)) :
    answers answerList s.bottomUp requests =
      ((answers answer s requests).1, (answers answer s requests).2.bottomUp) := by
  induction requests generalizing s with
  | nil => rfl
  | cons request requests ih => simp only [answers, answerList_bottomUp, ih]

/-! ## Laws -/

/-- Item by item, what lies on top is taken first. -/
theorem answers_pops {s : Stack α} {count : Nat} (enough : count ≤ s.size) :
    answers answer s (.replicate count .pop) =
      ((s.toList.take count).map fun a => .item (some a), ⟨s.toList.drop count⟩) := by
  induction count generalizing s with
  | zero => rfl
  | succ count ih =>
    obtain ⟨_ | ⟨a, below⟩⟩ := s
    · exact absurd enough (Nat.not_succ_le_zero count)
    · simp only [List.replicate_succ, answers, answer, pop?,
        ih (s := ⟨below⟩) (Nat.le_of_succ_le_succ enough), List.take_succ_cons, List.map_cons,
        List.drop_succ_cons]

/-- What is pushed comes to lie above what was there, the last on top. -/
theorem bottomUp_answers_pushes (s : Stack α) (items : List α) :
    (answers answer s (items.map .push)).2.bottomUp = s.bottomUp ++ items := by
  induction items generalizing s with
  | nil => exact (List.append_nil _).symm
  | cons a items ih =>
    calc (answers answer (s.push a) (items.map .push)).2.bottomUp
        = (s.push a).bottomUp ++ items := ih (s.push a)
      _ = s.bottomUp ++ a :: items := by simp

theorem bottomUp_inj {s t : Stack α} : s.bottomUp = t.bottomUp ↔ s = t := by
  obtain ⟨xs⟩ := s
  obtain ⟨ys⟩ := t
  simp [bottomUp]

theorem answer_popMany_of_le {s : Stack α} {count : Nat} (enough : count ≤ s.size) :
    s.answer (.popMany count) =
      (.items (some (s.toList.take count).reverse), ⟨s.toList.drop count⟩) := by
  simp only [answer, popMany?, if_pos enough]

theorem answer_popMany_fails_iff {s : Stack α} {count : Nat} :
    s.answer (.popMany count) = (.items none, s) ↔ s.size < count := by
  constructor
  · intro fails
    refine Nat.lt_of_not_le fun enough => ?_
    rw [answer_popMany_of_le enough] at fails
    cases fails
  · intro short
    simp only [answer, popMany?_eq_none_iff.2 short]

/-- These items can be taken at once, and leave this stack. -/
structure Takes (s : Stack α) (items : List α) (below : Stack α) : Prop where
  reply : s.answer (.popMany items.length) = (.items (some items), below)
  /-- They are the topmost ones, in the order in which they were pushed. -/
  topmost : s.bottomUp = below.bottomUp ++ items
  /-- As many pops give them the other way round, and leave the same stack. -/
  pops : answers answer s (.replicate items.length .pop) =
    (items.reverse.map (.item ∘ some), below)
  /-- Pushed again, they restore what was there. -/
  restored : (answers answer below (items.map .push)).2 = s

theorem exists_takes {s : Stack α} {count : Nat} (enough : count ≤ s.size) :
    ∃ items below, items.length = count ∧ s.Takes items below := by
  have long : (s.toList.take count).reverse.length = count :=
    List.length_reverse.trans (List.length_take_of_le enough)
  have whole : s.bottomUp =
      bottomUp ⟨s.toList.drop count⟩ ++ (s.toList.take count).reverse := by
    rw [bottomUp, bottomUp, ← List.reverse_append, List.take_append_drop]
  refine ⟨_, ⟨s.toList.drop count⟩, long, ?_⟩
  exact
    { reply := by rw [long, answer_popMany_of_le enough]
      topmost := whole
      pops := by
        rw [long, List.reverse_reverse, answers_pops enough]
        rfl
      restored := by rw [← bottomUp_inj, bottomUp_answers_pushes, ← whole] }

/-- How the operations of a stack go together. -/
structure Laws (s : Stack α) : Prop where
  /-- From top to bottom it is the contents reversed. -/
  items : s.toList = s.bottomUp.reverse
  peekAt_isSome : ∀ depth, (s.peekAt? depth).isSome ↔ depth < s.size
  /-- A depth is a height that is counted down from the top. -/
  peekAt_eq : ∀ depth < s.size, s.peekAt? depth = s.peekBase? (s.size - 1 - depth)
  /-- To take more than there is fails, and changes nothing. -/
  popMany_fails : ∀ count, s.answer (.popMany count) = (.items none, s) ↔ s.size < count
  popMany_takes : ∀ count ≤ s.size, ∃ items below, items.length = count ∧ s.Takes items below
  /-- Truncation pops what there is too much. -/
  truncate : ∀ size, s.truncate size = (answers answer s (.replicate (s.size - size) .pop)).2
  /-- One item is changed, and no other. -/
  modifyAt : ∀ depth f, (s.modifyAt depth f).size = s.size ∧
    (s.modifyAt depth f).peekAt? depth = (s.peekAt? depth).map f ∧
    ∀ other ≠ depth, (s.modifyAt depth f).peekAt? other = s.peekAt? other

theorem laws (s : Stack α) : s.Laws where
  items := (List.reverse_reverse _).symm
  peekAt_isSome _ := peekAt?_isSome
  peekAt_eq _ within := peekAt?_eq_peekBase? within
  popMany_fails _ := answer_popMany_fails_iff
  popMany_takes _ enough := exists_takes enough
  truncate size := by
    rw [answers_pops (Nat.sub_le _ _)]
    rfl
  modifyAt depth f := by
    refine ⟨List.length_modify .., peekAt?_modifyAt_self s depth f, fun other ne => ?_⟩
    exact peekAt?_modifyAt_ne s f ne

/-- **A stack is a list with the bottom first.** Whatever it is asked for, and in whatever order, it
gives the replies of that list and holds its items; and the laws hold of what it has become. -/
theorem refines_list (s : Stack α) (requests : List (Request α)) :
    answers answerList s.bottomUp requests =
        ((answers answer s requests).1, (answers answer s requests).2.bottomUp) ∧
      (answers answer s requests).2.Laws :=
  ⟨answers_bottomUp s requests, laws _⟩

end Stack

end TagExpr
