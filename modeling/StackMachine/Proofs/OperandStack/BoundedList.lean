import Mathlib.Algebra.Order.Floor.Div
import StackMachine.Proofs.OperandStack

/-!
# The operand stack as a bounded list

Operations on a stack follow one another in any order, those that fail included.  As long as a
growable stack gets the memory it asks for, all replies and the values left are those of a plain
list, which is bounded when the stack is fixed.  Under the list lies an array with a capacity of its
own: it has a place for every value, never shrinks, and is enlarged by half at least when a value
finds it full.
-/

namespace StackMachine

/-- The number of values that a stack may hold, if there is such a bound. -/
def StackConfig.limit? (config : StackConfig) : Option Nat :=
  if config.growable then none else some config.capacity

namespace OperandStack

/-! ## Operations -/

/-- What is done to a stack.  What needs values carries the name it fails under. -/
inductive Operation where
  | push (value : Value)
  | pop (name : String)
  | pop2 (name : String)
  | peek (below : Nat)
  | require (name : String) (needed : Nat)
  | swapTop (name : String)
  | truncate (depth : Nat)
  | clear
deriving DecidableEq, Repr

/-- What an operation answers. -/
inductive Reply where
  | done
  /-- The values taken off, in the order they were pushed. -/
  | taken (values : List Value)
  | seen (value? : Option Value)
  | failed (error : MachineError)
deriving DecidableEq, Repr

/-- What a stack answers when its array cannot be enlarged. -/
def Reply.refusal : Reply :=
  .failed (.outOfMemory "value array")

/-- The name an operation fails under and the number of values it needs, if it needs any. -/
def Operation.need? : Operation → Option (String × Nat)
  | .pop name => some (name, 1)
  | .pop2 name | .swapTop name => some (name, 2)
  | .require name needed => some (name, needed)
  | .push _ | .peek _ | .truncate _ | .clear => none

/-- The reply to an operation and the stack after it. -/
def perform (stack : OperandStack) : Operation → Reply × OperandStack
  | .push value =>
    match stack.push value with
    | .ok after => (.done, after)
    | .error error => (.failed error, stack)
  | .pop name =>
    match stack.pop name with
    | .ok (value, after) => (.taken [value], after)
    | .error fault => (.failed (.runtime fault), stack)
  | .pop2 name =>
    match stack.pop2 name with
    | .ok (left, right, after) => (.taken [left, right], after)
    | .error fault => (.failed (.runtime fault), stack)
  | .peek below => (.seen (stack.peek? below), stack)
  | .require name needed =>
    match stack.require name needed with
    | .ok () => (.done, stack)
    | .error fault => (.failed (.runtime fault), stack)
  | .swapTop name =>
    match stack.swapTop name with
    | .ok after => (.done, after)
    | .error fault => (.failed (.runtime fault), stack)
  | .truncate depth => (.done, stack.truncate depth)
  | .clear => (.done, stack.clear)

/-- The replies to operations and the stack after them. -/
def run (stack : OperandStack) : List Operation → List Reply × OperandStack
  | [] => ([], stack)
  | operation :: rest =>
    let (reply, next) := stack.perform operation
    let (replies, last) := next.run rest
    (reply :: replies, last)

/-! ## Plain lists -/

/-- The outcome of what needs a number of values, which fails on a list of fewer. -/
def needing (name : String) (needed : Nat) (values : List Value) (outcome : Reply × List Value) :
    Reply × List Value :=
  if values.length < needed then
    (.failed (.runtime (.stackUnderflow name needed values.length)), values)
  else outcome

/-- The reply to an operation on a plain list, the bottom value first, and the list after it. -/
def Operation.onList (limit? : Option Nat) (values : List Value) : Operation → Reply × List Value
  | .push value =>
    if limit? = some values.length then
      (.failed (.runtime (.stackOverflow values.length)), values)
    else (.done, values ++ [value])
  | .pop name =>
    needing name 1 values
      (.taken (values.drop (values.length - 1)), values.take (values.length - 1))
  | .pop2 name =>
    needing name 2 values
      (.taken (values.drop (values.length - 2)), values.take (values.length - 2))
  | .peek below => (.seen values.reverse[below]?, values)
  | .require name needed => needing name needed values (.done, values)
  | .swapTop name =>
    needing name 2 values
      (.done, values.take (values.length - 2) ++ (values.drop (values.length - 2)).reverse)
  | .truncate depth => (.done, values.take depth)
  | .clear => (.done, [])

/-- The replies to operations on a plain list and the list after them. -/
def runOnList (limit? : Option Nat) (values : List Value) :
    List Operation → List Reply × List Value
  | [] => ([], values)
  | operation :: rest =>
    let (reply, next) := operation.onList limit? values
    let (replies, last) := runOnList limit? next rest
    (reply :: replies, last)

theorem onList_of_short {operation : Operation} {name : String} {needed : Nat}
    {values : List Value} (needs : operation.need? = some (name, needed))
    (short : values.length < needed) (limit? : Option Nat) :
    operation.onList limit? values =
      (.failed (.runtime (.stackUnderflow name needed values.length)), values) := by
  cases operation with
  | push | peek | truncate | clear => cases needs
  | pop | pop2 | require | swapTop =>
      cases needs
      exact if_pos short

/-- A list falls short of an operation exactly when it has fewer values than that needs. -/
theorem onList_eq_underflow_iff {limit? : Option Nat} {values : List Value}
    {operation : Operation} {name : String} {needed depth : Nat} :
    (operation.onList limit? values).1 =
        .failed (.runtime (.stackUnderflow name needed depth)) ↔
      operation.need? = some (name, needed) ∧ values.length < needed ∧ depth = values.length := by
  constructor
  · intro fails
    cases operation with
    | push value =>
        rw [Operation.onList] at fails
        split at fails <;> cases fails
    | peek | truncate | clear => cases fails
    | pop | pop2 | require | swapTop =>
        rw [Operation.onList, needing] at fails
        split at fails
        · rename_i short
          cases fails
          exact ⟨rfl, short, rfl⟩
        · cases fails
  · rintro ⟨needs, short, rfl⟩
    rw [onList_of_short needs short]

/-- A list overflows exactly when a value is pushed on one as long as its bound. -/
theorem onList_eq_overflow_iff {limit? : Option Nat} {values : List Value}
    {operation : Operation} {capacity : Nat} :
    (operation.onList limit? values).1 = .failed (.runtime (.stackOverflow capacity)) ↔
      (∃ value, operation = .push value) ∧ limit? = some values.length ∧
        capacity = values.length := by
  cases operation with
  | push value =>
      by_cases full : limit? = some values.length <;> simp [Operation.onList, full, eq_comm]
  | peek | truncate | clear => simp [Operation.onList]
  | pop | pop2 | require | swapTop =>
      rw [Operation.onList, needing]
      split <;> simp

/-! ## The parts of an operation -/

variable {stack before after : OperandStack}

theorem toList_append (stack : OperandStack) (value : Value) (capacity : Nat) :
    toList { stack with values := stack.values.append value capacity } =
      stack.toList ++ [value] :=
  ValueArray.toList_append stack.values value capacity

theorem exists_pop (enough : 1 ≤ stack.depth) (name : String) :
    ∃ value after, stack.pop name = .ok (value, after) := by
  obtain ⟨value, top_eq⟩ := List.length_eq_one_iff.mp (length_top enough)
  obtain ⟨rest, stack_eq, -⟩ := stack.trades_top 1
  rw [top_eq] at stack_eq
  obtain ⟨after, popped, -⟩ := exists_pop_of_toList stack_eq name
  exact ⟨value, after, popped⟩

theorem exists_pop2 (enough : 2 ≤ stack.depth) (name : String) :
    ∃ left right after, stack.pop2 name = .ok (left, right, after) := by
  obtain ⟨left, right, top_eq⟩ := List.length_eq_two.mp (length_top enough)
  obtain ⟨rest, stack_eq, -⟩ := stack.trades_top 2
  rw [top_eq] at stack_eq
  obtain ⟨after, popped, -⟩ := exists_pop2_of_toList stack_eq name
  exact ⟨left, right, after, popped⟩

theorem exists_swapTop (enough : 2 ≤ stack.depth) (name : String) :
    ∃ after, stack.swapTop name = .ok after := by
  rw [swapTop, require_eq_ok_iff.mpr enough]
  exact ⟨_, rfl⟩

/-- The value a number of places below the top is as many places behind the last one. -/
theorem peek?_eq (stack : OperandStack) (below : Nat) :
    stack.peek? below = stack.toList.reverse[below]? := by
  rw [toList, ValueArray.toList, List.reverse_reverse, peek?, ValueArray.get?, depth]
  have length := stack.values.size_eq
  split
  · rename_i inside
    rw [if_pos (by omega)]
    congr 1
    omega
  · rename_i outside
    rw [List.getElem?_eq_none (by omega)]

/-- What is traded is the end of the list, and what is left is the list without it. -/
theorem Trades.eq_drop {operands results : List Value}
    (trades : Trades operands results before after) (count : Nat)
    (length : operands.length = count) :
    before.toList.drop (before.toList.length - count) = operands ∧
      after.toList = before.toList.take (before.toList.length - count) ++ results := by
  obtain ⟨rest, before_eq, after_eq⟩ := trades
  simp [before_eq, after_eq, ← length]

/-- An operation that needs more values than there are fails and says how many there are. -/
theorem perform_of_short {operation : Operation} {name : String} {needed : Nat}
    (needs : operation.need? = some (name, needed)) (short : stack.depth < needed) :
    stack.perform operation =
      (.failed (.runtime (.stackUnderflow name needed stack.depth)), stack) := by
  cases operation with
  | push | peek | truncate | clear => cases needs
  | pop =>
      cases needs
      have empty : stack.depth = 0 := Nat.lt_one_iff.mp short
      have none_left : stack.values.last? = none := by
        rw [depth, stack.values.size_eq, List.length_eq_zero_iff] at empty
        rw [ValueArray.last?, empty, List.head?_nil]
      rw [perform, OperandStack.pop, none_left, empty]
  | pop2 | swapTop =>
      cases needs
      simp only [perform, OperandStack.pop2, OperandStack.swapTop, OperandStack.require,
        if_pos short, bind, Except.bind]
  | require =>
      cases needs
      rw [perform, OperandStack.require, if_pos short]

/-! ## Pushes -/

/-- A stack within its room that has kept the room it was set up with. -/
structure Sound (stack : OperandStack) : Prop where
  bounded : stack.Bounded
  reserved : stack.config.capacity ≤ stack.values.capacity

/-- What a push can come to: the stack is at its bound, the array has a place left, or the array is
full and more memory is granted or refused. -/
inductive Pushing (stack : OperandStack) (value : Value) : Except MachineError OperandStack → Prop
  | overflow (full : stack.config.limit? = some stack.depth) :
      Pushing stack value (.error (.runtime (.stackOverflow stack.depth)))
  | spare (free : stack.config.limit? ≠ some stack.depth)
      (room : stack.values.size < stack.values.capacity) :
      Pushing stack value
        (.ok { stack with values := stack.values.append value stack.values.capacity })
  | grown (growable : stack.config.growable = true)
      (full : stack.values.size = stack.values.capacity)
      (granted : ValueArray.grownCapacity stack.values.capacity ≤ ValueArray.maxCapacity) :
      Pushing stack value
        (.ok { stack with
          values := stack.values.append value (ValueArray.grownCapacity stack.values.capacity) })
  | refused (growable : stack.config.growable = true)
      (full : stack.values.size = stack.values.capacity)
      (huge : ValueArray.maxCapacity < ValueArray.grownCapacity stack.values.capacity) :
      Pushing stack value (.error (.outOfMemory "value array"))

theorem limit?_of_growable {config : StackConfig} (growable : config.growable = true) :
    config.limit? = none := by
  rw [StackConfig.limit?, if_pos growable]

theorem limit?_eq_some_iff {config : StackConfig} {limit : Nat} :
    config.limit? = some limit ↔ config.growable = false ∧ config.capacity = limit := by
  cases growable : config.growable <;> simp [StackConfig.limit?, growable]

/-- Below its bound a fixed stack has a place left in its array, which kept what was reserved. -/
theorem Sound.pushing (sound : stack.Sound) (value : Value) :
    Pushing stack value (stack.push value) := by
  by_cases full : stack.config.limit? = some stack.depth
  · obtain ⟨fixed, reached⟩ := limit?_eq_some_iff.mp full
    have overflows :
        (!stack.config.growable && decide (stack.config.capacity ≤ stack.depth)) = true := by
      simp [fixed, reached]
    rw [OperandStack.push, if_pos overflows, reached]
    exact .overflow full
  · have below : stack.config.growable = false → stack.depth < stack.config.capacity := by
      intro fixed
      have distinct : stack.config.capacity ≠ stack.depth :=
        fun reached => full (limit?_eq_some_iff.mpr ⟨fixed, reached⟩)
      exact Nat.lt_of_le_of_ne (sound.bounded.fixed fixed) distinct.symm
    have free :
        ¬ (!stack.config.growable && decide (stack.config.capacity ≤ stack.depth)) = true := by
      simpa using below
    rw [OperandStack.push, if_neg free, ValueArray.push]
    by_cases room : stack.values.size < stack.values.capacity
    · rw [if_pos room]
      exact .spare full room
    · have size_eq : stack.values.size = stack.values.capacity :=
        Nat.le_antisymm sound.bounded.array (Nat.not_lt.mp room)
      -- A fixed stack below its bound would still have room in what was reserved for it.
      have growable : stack.config.growable = true := by
        by_contra fixed
        have less := below (Bool.eq_false_of_not_eq_true fixed)
        exact room (Nat.lt_of_lt_of_le less sound.reserved)
      rw [if_neg room]
      by_cases huge : ValueArray.maxCapacity < ValueArray.grownCapacity stack.values.capacity
      · rw [if_pos huge]
        exact .refused growable size_eq huge
      · rw [if_neg huge]
        exact .grown growable size_eq (Nat.not_lt.mp huge)

/-- Memory is refused to pushes on growable stacks only, and to those that need too much of it. -/
theorem Sound.refused_iff (sound : stack.Sound) {operation : Operation} :
    (stack.perform operation).1 = .refusal ↔
      (∃ value, operation = .push value) ∧ stack.config.growable = true ∧
        stack.values.size = stack.values.capacity ∧
        ValueArray.maxCapacity < ValueArray.grownCapacity stack.values.capacity := by
  cases operation with
  | push value =>
      have pushing := sound.pushing value
      rw [perform]
      generalize stack.push value = result at pushing
      cases pushing with
      | overflow full =>
          have fixed := (limit?_eq_some_iff.mp full).1
          simp [Reply.refusal, fixed]
      | spare free room => simp [Reply.refusal, Nat.ne_of_lt room]
      | grown growable full granted => simp [Reply.refusal, Nat.not_lt.mpr granted]
      | refused growable full huge => simp [Reply.refusal, growable, full, huge]
  | peek | truncate | clear => simp [perform, Reply.refusal]
  | pop | pop2 | require | swapTop =>
      rw [perform, Reply.refusal]
      split <;> simp

/-! ## One operation -/

/-- An operation answers on a stack as on the list of its values, and leaves the same values. -/
def Mirrors (stack : OperandStack) (operation : Operation) : Prop :=
  ((stack.perform operation).1, (stack.perform operation).2.toList) =
    operation.onList stack.config.limit? stack.toList

theorem Sound.mirrors_push (sound : stack.Sound) {value : Value}
    (granted : (stack.perform (.push value)).1 ≠ .refusal) :
    stack.Mirrors (.push value) := by
  have pushing := sound.pushing value
  rw [perform] at granted
  rw [Mirrors, Operation.onList, length_toList, perform]
  generalize stack.push value = result at pushing granted
  cases pushing with
  | overflow full => rw [if_pos full]
  | spare free room =>
      rw [if_neg free, ← stack.toList_append value stack.values.capacity]
  | grown growable full memory =>
      rw [limit?_of_growable growable, if_neg (Option.some_ne_none _).symm,
        ← stack.toList_append value (ValueArray.grownCapacity stack.values.capacity)]
  | refused growable full huge => exact absurd rfl granted

theorem mirrors_of_short {operation : Operation} {name : String} {needed : Nat}
    (needs : operation.need? = some (name, needed)) (short : stack.depth < needed) :
    stack.Mirrors operation := by
  have short_list : stack.toList.length < needed := (length_toList stack).symm ▸ short
  rw [Mirrors, perform_of_short needs short, onList_of_short needs short_list, length_toList]

theorem needing_of_enough {name : String} {needed : Nat} {values : List Value}
    (enough : needed ≤ values.length) (outcome : Reply × List Value) :
    needing name needed values outcome = outcome :=
  if_neg (Nat.not_lt.mpr enough)

theorem mirrors_of_enough {operation : Operation} {name : String} {needed : Nat}
    (needs : operation.need? = some (name, needed)) (enough : needed ≤ stack.depth) :
    stack.Mirrors operation := by
  have enough_list : needed ≤ stack.toList.length := (length_toList stack).symm ▸ enough
  cases operation with
  | push | peek | truncate | clear => cases needs
  | pop =>
      cases needs
      obtain ⟨value, after, popped⟩ := exists_pop enough name
      obtain ⟨values_eq, after_eq⟩ := (trades_of_pop popped).eq_drop 1 rfl
      rw [List.append_nil] at after_eq
      rw [Mirrors, Operation.onList, needing_of_enough enough_list, values_eq, ← after_eq, perform,
        popped]
  | pop2 =>
      cases needs
      obtain ⟨left, right, after, popped⟩ := exists_pop2 enough name
      obtain ⟨values_eq, after_eq⟩ := (trades_of_pop2 popped).eq_drop 2 rfl
      rw [List.append_nil] at after_eq
      rw [Mirrors, Operation.onList, needing_of_enough enough_list, values_eq, ← after_eq, perform,
        popped]
  | require =>
      cases needs
      rw [Mirrors, Operation.onList, needing_of_enough enough_list, perform,
        require_eq_ok_iff.mpr enough]
  | swapTop =>
      cases needs
      obtain ⟨after, swapped⟩ := exists_swapTop enough name
      obtain ⟨left, right, trades⟩ := trades_of_swapTop swapped
      obtain ⟨values_eq, after_eq⟩ := trades.eq_drop 2 rfl
      have exchanged : [left, right].reverse = [right, left] := rfl
      rw [Mirrors, Operation.onList, needing_of_enough enough_list, values_eq, exchanged,
        ← after_eq, perform, swapped]

theorem Sound.mirrors (sound : stack.Sound) {operation : Operation}
    (granted : (stack.perform operation).1 ≠ .refusal) : stack.Mirrors operation := by
  cases needs : operation.need? with
  | some need =>
      obtain ⟨name, needed⟩ := need
      rcases Nat.lt_or_ge stack.depth needed with short | enough
      · exact mirrors_of_short needs short
      · exact mirrors_of_enough needs enough
  | none =>
      cases operation with
      | push value => exact sound.mirrors_push granted
      | peek below => rw [Mirrors, perform, Operation.onList, peek?_eq]
      | truncate depth => rw [Mirrors, perform, Operation.onList, toList_truncate]
      | clear => rw [Mirrors, perform, Operation.onList, toList_clear]
      | pop | pop2 | require | swapTop => cases needs

/-- What an operation can do: it leaves the stack alone, or one of its parts succeeds. -/
inductive Step (stack : OperandStack) : Operation → Reply → OperandStack → Prop
  | kept (operation : Operation) (reply : Reply) : Step stack operation reply stack
  | pushed {value : Value} {after : OperandStack} (pushed : stack.push value = .ok after) :
      Step stack (.push value) .done after
  | popped {name : String} {value : Value} {after : OperandStack}
      (popped : stack.pop name = .ok (value, after)) :
      Step stack (.pop name) (.taken [value]) after
  | popped2 {name : String} {left right : Value} {after : OperandStack}
      (popped : stack.pop2 name = .ok (left, right, after)) :
      Step stack (.pop2 name) (.taken [left, right]) after
  | swapped {name : String} {after : OperandStack} (swapped : stack.swapTop name = .ok after) :
      Step stack (.swapTop name) .done after
  | truncated (depth : Nat) : Step stack (.truncate depth) .done (stack.truncate depth)
  | cleared : Step stack .clear .done stack.clear

theorem step_perform (stack : OperandStack) (operation : Operation) :
    Step stack operation (stack.perform operation).1 (stack.perform operation).2 := by
  cases operation with
  | peek below => exact .kept _ _
  | truncate depth => exact .truncated depth
  | clear => exact .cleared
  | push value =>
      rw [perform]
      split
      · exact .pushed ‹_›
      · exact .kept _ _
  | pop name =>
      rw [perform]
      split
      · exact .popped ‹_›
      · exact .kept _ _
  | pop2 name =>
      rw [perform]
      split
      · exact .popped2 ‹_›
      · exact .kept _ _
  | require name needed =>
      rw [perform]
      split <;> exact .kept _ _
  | swapTop name =>
      rw [perform]
      split
      · exact .swapped ‹_›
      · exact .kept _ _

/-- A failing operation changes nothing. -/
theorem Step.eq_of_failed {operation : Operation} {error : MachineError}
    (step : Step stack operation (.failed error) after) : after = stack := by
  cases step
  rfl

theorem Step.becomes {operation : Operation} {reply : Reply}
    (step : Step stack operation reply after) : stack.Becomes after := by
  cases step with
  | kept => exact .refl stack
  | pushed pushed => exact becomes_of_push pushed
  | popped popped => exact becomes_of_pop popped
  | popped2 popped => exact becomes_of_pop2 popped
  | swapped swapped => exact becomes_of_swapTop swapped
  | truncated depth => exact stack.becomes_truncate depth
  | cleared => exact stack.becomes_truncate 0

/-- A stack finds fault with an operation exactly when the list of its values does. -/
theorem Sound.fault_iff (sound : stack.Sound) {operation : Operation} {fault : RuntimeFault} :
    (stack.perform operation).1 = .failed (.runtime fault) ↔
      (operation.onList stack.config.limit? stack.toList).1 = .failed (.runtime fault) := by
  by_cases refused : (stack.perform operation).1 = .refusal
  · -- Memory is refused to pushes alone, and only where the list has no bound.
    obtain ⟨⟨value, rfl⟩, growable, -⟩ := sound.refused_iff.mp refused
    rw [refused, Operation.onList, limit?_of_growable growable,
      if_neg (Option.some_ne_none _).symm]
    exact ⟨nofun, nofun⟩
  · rw [← sound.mirrors refused]

theorem Sound.overflow_iff (sound : stack.Sound) {operation : Operation} {capacity : Nat} :
    (stack.perform operation).1 = .failed (.runtime (.stackOverflow capacity)) ↔
      (∃ value, operation = .push value) ∧ stack.config.growable = false ∧
        stack.toList.length = stack.config.capacity ∧ capacity = stack.config.capacity := by
  rw [sound.fault_iff, onList_eq_overflow_iff, limit?_eq_some_iff, and_assoc]
  refine and_congr_right fun _ => and_congr_right fun _ => ?_
  rw [eq_comm]
  exact and_congr_right fun reached => by rw [reached]

/-! ## The array below -/

theorem capacity_of_pop {name : String} {value : Value}
    (popped : stack.pop name = .ok (value, after)) :
    after.values.capacity = stack.values.capacity := by
  obtain ⟨-, rfl⟩ := pop_eq_ok_iff.mp popped
  rfl

theorem capacity_of_pop2 {name : String} {left right : Value}
    (popped : stack.pop2 name = .ok (left, right, after)) :
    after.values.capacity = stack.values.capacity := by
  obtain ⟨middle, upper, lower⟩ := exists_pop_of_pop2 popped
  rw [capacity_of_pop lower, capacity_of_pop upper]

theorem capacity_of_swapTop {name : String} (swapped : stack.swapTop name = .ok after) :
    after.values.capacity = stack.values.capacity := by
  obtain ⟨-, -, finished⟩ := bind_eq_ok_iff.mp swapped
  cases finished
  rfl

/-- A push that finds the array full is the only operation that changes its capacity. -/
theorem Sound.capacity_eq_of_step (sound : stack.Sound) {operation : Operation} {reply : Reply}
    (step : Step stack operation reply after)
    (spare : ∀ value, operation = .push value → stack.values.size < stack.values.capacity) :
    after.values.capacity = stack.values.capacity := by
  cases step with
  | kept | truncated | cleared => rfl
  | popped popped => exact capacity_of_pop popped
  | popped2 popped => exact capacity_of_pop2 popped
  | swapped swapped => exact capacity_of_swapTop swapped
  | pushed pushed =>
      rename_i value
      have pushing := sound.pushing value
      rw [pushed] at pushing
      cases pushing with
      | spare free room => rfl
      | grown growable full granted => exact absurd full (Nat.ne_of_lt (spare value rfl))

theorem Sound.capacity_push (sound : stack.Sound) {value : Value}
    (pushed : (stack.perform (.push value)).1 = .done)
    (full : stack.values.size = stack.values.capacity) :
    (stack.perform (.push value)).2.values.capacity =
      ValueArray.grownCapacity stack.values.capacity := by
  have pushing := sound.pushing value
  rw [perform] at pushed ⊢
  generalize stack.push value = result at pushing pushed
  cases pushing with
  | overflow reached => cases pushed
  | spare free room => exact absurd full (Nat.ne_of_lt room)
  | grown growable full granted => rfl
  | refused growable full huge => cases pushed

theorem grownCapacity_eq (capacity : Nat) :
    ValueArray.grownCapacity capacity = max 4 (capacity + capacity ⌈/⌉ 2) := by
  rw [ValueArray.grownCapacity, Nat.ceilDiv_eq_add_pred_div, Nat.max_comm]
  rfl

theorem half_le_grownCapacity (capacity : Nat) :
    3 * capacity ≤ 2 * ValueArray.grownCapacity capacity := by
  rw [ValueArray.grownCapacity]
  omega

theorem Sound.capacity_le_perform (sound : stack.Sound) (operation : Operation) :
    stack.values.capacity ≤ (stack.perform operation).2.values.capacity := by
  by_cases spare : ∀ value, operation = .push value → stack.values.size < stack.values.capacity
  · rw [sound.capacity_eq_of_step (stack.step_perform operation) spare]
  · push Not at spare
    obtain ⟨value, rfl, full⟩ := spare
    have size_eq := Nat.le_antisymm sound.bounded.array full
    cases reply : (stack.perform (.push value)).1 with
    | done =>
        have half := half_le_grownCapacity stack.values.capacity
        rw [sound.capacity_push reply size_eq]
        omega
    | failed error =>
        have step := stack.step_perform (.push value)
        rw [reply] at step
        rw [step.eq_of_failed]
    | taken | seen =>
        rw [perform] at reply
        split at reply <;> cases reply

/-! ## Runs -/

theorem sound_of_create {config : StackConfig} (created : create config = .ok stack) :
    stack.Sound where
  bounded := bounded_of_create created
  reserved := by rw [eq_of_create created]

theorem Sound.perform (sound : stack.Sound) (operation : Operation) :
    (stack.perform operation).2.Sound := by
  have becomes := (stack.step_perform operation).becomes
  refine ⟨becomes.bounded sound.bounded, ?_⟩
  rw [becomes.config]
  exact Nat.le_trans sound.reserved (sound.capacity_le_perform operation)

theorem config_run (stack : OperandStack) (operations : List Operation) :
    (stack.run operations).2.config = stack.config := by
  induction operations generalizing stack with
  | nil => rfl
  | cons operation rest induction =>
      exact (induction _).trans (stack.step_perform operation).becomes.config

theorem Sound.run (sound : stack.Sound) (operations : List Operation) :
    (stack.run operations).2.Sound := by
  induction operations generalizing stack with
  | nil => exact sound
  | cons operation rest induction => exact induction (sound.perform operation)

theorem Sound.capacity_le_run (sound : stack.Sound) (operations : List Operation) :
    stack.values.capacity ≤ (stack.run operations).2.values.capacity := by
  induction operations generalizing stack with
  | nil => exact Nat.le_refl _
  | cons operation rest induction =>
      exact Nat.le_trans (sound.capacity_le_perform operation)
        (induction (sound.perform operation))

/-- No operation of a run on a growable stack is refused memory. -/
def Granted (stack : OperandStack) (operations : List Operation) : Prop :=
  stack.config.growable = true → .refusal ∉ (stack.run operations).1

theorem Sound.mirrors_of_granted (sound : stack.Sound) {operation : Operation}
    {rest : List Operation} (granted : stack.Granted (operation :: rest)) :
    stack.Mirrors operation := by
  apply sound.mirrors
  intro refused
  obtain ⟨-, growable, -⟩ := sound.refused_iff.mp refused
  apply granted growable
  rw [← refused]
  exact List.mem_cons_self

theorem Granted.tail {operation : Operation} {rest : List Operation}
    (granted : stack.Granted (operation :: rest)) :
    (stack.perform operation).2.Granted rest := by
  intro growable refused
  rw [(stack.step_perform operation).becomes.config] at growable
  exact granted growable (List.mem_cons_of_mem _ refused)

/-- A run on a stack answers as on the list of its values, and leaves the same values. -/
theorem Sound.run_eq_runOnList (sound : stack.Sound) {operations : List Operation}
    (granted : stack.Granted operations) :
    ((stack.run operations).1, (stack.run operations).2.toList) =
      runOnList stack.config.limit? stack.toList operations := by
  -- The bound on the list is that of the stack throughout, since no operation changes how it was
  -- set up.
  induction operations generalizing stack with
  | nil => rfl
  | cons operation rest induction =>
      have later := induction (sound.perform operation) granted.tail
      rw [(stack.step_perform operation).becomes.config] at later
      rw [runOnList, ← sound.mirrors_of_granted granted]
      simp only [← later]
      rfl

/-! ## The laws of the stack -/

/-- What holds of a stack whatever was done to it. -/
structure Lawful (stack : OperandStack) : Prop where
  /-- Unless memory is refused, an operation does what it does to the list of the values. -/
  mirrors (operation : Operation) (granted : (stack.perform operation).1 ≠ .refusal) :
    stack.Mirrors operation
  /-- A fixed stack is no longer than its capacity, -/
  bounded (fixed : stack.config.growable = false) : stack.toList.length ≤ stack.config.capacity
  /-- and overflows exactly when a value is pushed on one as long as that. -/
  overflows (operation : Operation) (capacity : Nat) :
    (stack.perform operation).1 = .failed (.runtime (.stackOverflow capacity)) ↔
      (∃ value, operation = .push value) ∧ stack.config.growable = false ∧
        stack.toList.length = stack.config.capacity ∧ capacity = stack.config.capacity
  /-- An operation underflows exactly when it needs more values than there are, and reports them. -/
  underflows (operation : Operation) (name : String) (needed depth : Nat) :
    (stack.perform operation).1 = .failed (.runtime (.stackUnderflow name needed depth)) ↔
      operation.need? = some (name, needed) ∧ stack.toList.length < needed ∧
        depth = stack.toList.length
  /-- Memory is refused to a growable stack exactly when a full array would become too large. -/
  refuses (operation : Operation) :
    (stack.perform operation).1 = .refusal ↔
      (∃ value, operation = .push value) ∧ stack.config.growable = true ∧
        stack.values.size = stack.values.capacity ∧
        ValueArray.maxCapacity < ValueArray.grownCapacity stack.values.capacity
  /-- A failing operation changes nothing, -/
  unchanged (operation : Operation) (error : MachineError)
    (failed : (stack.perform operation).1 = .failed error) : (stack.perform operation).2 = stack
  /-- and none fails halfway: two values that have been counted can be taken off in turn. -/
  whole (name : String) (counted : stack.require name 2 = .ok ()) :
    ∃ left right middle after, stack.pop name = .ok (right, middle) ∧
      middle.pop name = .ok (left, after) ∧ stack.pop2 name = .ok (left, right, after)
  /-- The array has a place for every value, -/
  fits : stack.values.size = stack.toList.length ∧ stack.values.size ≤ stack.values.capacity
  /-- never shrinks, -/
  widens (later : List Operation) :
    stack.values.capacity ≤ (stack.run later).2.values.capacity
  /-- is enlarged by half at least when a value finds it full, -/
  grows (value : Value) (pushed : (stack.perform (.push value)).1 = .done)
    (full : stack.values.size = stack.values.capacity) :
    (stack.perform (.push value)).2.values.capacity =
        max 4 (stack.values.capacity + stack.values.capacity ⌈/⌉ 2) ∧
      3 * stack.values.capacity ≤ 2 * (stack.perform (.push value)).2.values.capacity
  /-- and is of the same capacity after everything else. -/
  keeps (operation : Operation)
    (spare : ∀ value, operation = .push value → stack.values.size < stack.values.capacity) :
    (stack.perform operation).2.values.capacity = stack.values.capacity

theorem Sound.lawful (sound : stack.Sound) : Lawful stack where
  mirrors operation := sound.mirrors
  bounded fixed := by
    rw [length_toList]
    exact sound.bounded.fixed fixed
  overflows operation capacity := sound.overflow_iff
  underflows operation name needed depth := by
    rw [sound.fault_iff, onList_eq_underflow_iff]
  refuses operation := sound.refused_iff
  unchanged operation error failed := by
    have step := stack.step_perform operation
    rw [failed] at step
    exact step.eq_of_failed
  whole name counted := by
    obtain ⟨left, right, after, popped⟩ := exists_pop2 (require_eq_ok_iff.mp counted) name
    obtain ⟨middle, upper, lower⟩ := exists_pop_of_pop2 popped
    exact ⟨left, right, middle, after, upper, lower, popped⟩
  fits := ⟨(length_toList stack).symm, sound.bounded.array⟩
  widens := sound.capacity_le_run
  grows value pushed full := by
    rw [sound.capacity_push pushed full]
    exact ⟨grownCapacity_eq _, half_le_grownCapacity _⟩
  keeps operation := sound.capacity_eq_of_step (stack.step_perform operation)

/-- Whatever was done to a stack since it was set up, the laws hold, and if a growable stack was
refused no memory, all replies and the values left are those of a plain list that was empty. -/
theorem run_mirrors_bounded_list {config : StackConfig} (created : create config = .ok stack)
    (operations : List Operation) :
    (stack.run operations).2.config = config ∧ Lawful (stack.run operations).2 ∧
      (stack.Granted operations →
        ((stack.run operations).1, (stack.run operations).2.toList) =
          runOnList config.limit? [] operations) := by
  have sound := sound_of_create created
  have config_eq : stack.config = config := by rw [eq_of_create created]
  refine ⟨(config_run stack operations).trans config_eq, (sound.run operations).lawful, ?_⟩
  intro granted
  rw [sound.run_eq_runOnList granted, config_eq, toList_of_create created]

/-- A stack that grows from a capacity of one, with operations that fail in between. -/
theorem run_mirrors_bounded_list_growing :
    ∃ stack, create ⟨1, true⟩ = .ok stack ∧
      let operations : List Operation :=
        [.pop2 "add", .push (.int 1), .pop2 "add", .push (.int 2), .swapTop "swap", .peek 1,
          .pop2 "sub", .pop "pop", .truncate 3]
      stack.Granted operations ∧
        (stack.run operations).1 =
          [.failed (.runtime (.stackUnderflow "add" 2 0)), .done,
            .failed (.runtime (.stackUnderflow "add" 2 1)), .done, .done, .seen (some (.int 2)),
            .taken [.int 2, .int 1], .failed (.runtime (.stackUnderflow "pop" 1 0)), .done] ∧
        (stack.run operations).2.values.capacity = 4 ∧
        (stack.run operations).2.config = ⟨1, true⟩ ∧ Lawful (stack.run operations).2 ∧
        ((stack.run operations).1, (stack.run operations).2.toList) =
          runOnList none [] operations := by
  have created : create ⟨1, true⟩ = .ok ⟨{ capacity := 1 }, ⟨1, true⟩⟩ := rfl
  refine ⟨_, created, ?_⟩
  intro operations
  have granted : Granted ⟨{ capacity := 1 }, ⟨1, true⟩⟩ operations := by
    rw [Granted]
    decide +kernel
  obtain ⟨config_eq, lawful, mirrored⟩ := run_mirrors_bounded_list created operations
  exact ⟨granted, rfl, rfl, config_eq, lawful, mirrored granted⟩

end OperandStack

end StackMachine
