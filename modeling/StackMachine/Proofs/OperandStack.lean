import StackMachine.OperandStack
import StackMachine.Proofs.Outcome

/-!
# The operand stack as a list

What each operation on a stack does to the list of its values, the bottom one first.  No operation
makes a stack outgrow its room, so that there is room for a value where one has been taken off.
-/

namespace StackMachine

namespace ValueArray

theorem toList_append (array : ValueArray) (value : Value) (capacity : Nat) :
    (array.append value capacity).toList = array.toList ++ [value] := by
  simp [append, toList]

theorem toList_truncate (array : ValueArray) (count : Nat) :
    (array.truncate count).toList = array.toList.take count := by
  simp only [truncate, toList, List.take_reverse, array.size_eq]

theorem toList_pop (array : ValueArray) : array.pop.toList = array.toList.dropLast := by
  rw [pop, toList_truncate, List.dropLast_eq_take, toList, List.length_reverse, array.size_eq]

theorem last?_eq_getLast? (array : ValueArray) : array.last? = array.toList.getLast? := by
  rw [last?, toList, List.getLast?_reverse]

theorem toList_of_push {array after : ValueArray} {value : Value}
    (pushed : array.push value = .ok after) : after.toList = array.toList ++ [value] := by
  unfold push at pushed
  split at pushed
  · cases pushed
    exact toList_append array value _
  · split at pushed
    · cases pushed
    · cases pushed
      exact toList_append array value _

/-- An array that has taken one more value has a place for it. -/
theorem size_of_push {array after : ValueArray} {value : Value}
    (fits : array.size ≤ array.capacity) (pushed : array.push value = .ok after) :
    after.size = array.size + 1 ∧ after.size ≤ after.capacity := by
  unfold push at pushed
  split at pushed
  · rename_i room
    cases pushed
    exact ⟨rfl, room⟩
  · split at pushed
    · cases pushed
    · cases pushed
      refine ⟨rfl, ?_⟩
      simp only [append, grownCapacity]
      omega

end ValueArray

namespace OperandStack

theorem length_toList (stack : OperandStack) : stack.toList.length = stack.depth := by
  rw [toList, ValueArray.toList, List.length_reverse, depth, stack.values.size_eq]

theorem toList_of_push {stack after : OperandStack} {value : Value}
    (pushed : stack.push value = .ok after) : after.toList = stack.toList ++ [value] := by
  unfold push at pushed
  split at pushed
  · cases pushed
  · split at pushed
    · rename_i values appended
      cases pushed
      exact ValueArray.toList_of_push appended
    · cases pushed

theorem toList_of_pop {stack after : OperandStack} {operation : String} {value : Value}
    (popped : stack.pop operation = .ok (value, after)) :
    stack.toList = after.toList ++ [value] := by
  unfold pop at popped
  split at popped
  · rename_i last top
    cases popped
    rw [ValueArray.last?_eq_getLast?] at top
    show stack.values.toList = stack.values.pop.toList ++ [value]
    rw [ValueArray.toList_pop]
    obtain ⟨front, values_eq⟩ := List.getLast?_eq_some_iff.mp top
    rw [values_eq, List.dropLast_concat]
  · cases popped

/-- The two operands of an operation are taken off one after the other, the right one first. -/
theorem exists_pop_of_pop2 {stack after : OperandStack} {operation : String} {left right : Value}
    (popped : stack.pop2 operation = .ok (left, right, after)) :
    ∃ middle, stack.pop operation = .ok (right, middle) ∧
      middle.pop operation = .ok (left, after) := by
  obtain ⟨_, _, popped⟩ := bind_eq_ok_iff.mp popped
  obtain ⟨⟨first, middle⟩, upper, popped⟩ := bind_eq_ok_iff.mp popped
  obtain ⟨⟨second, last⟩, lower, finished⟩ := bind_eq_ok_iff.mp popped
  cases finished
  exact ⟨middle, upper, lower⟩

theorem toList_of_pop2 {stack after : OperandStack} {operation : String} {left right : Value}
    (popped : stack.pop2 operation = .ok (left, right, after)) :
    stack.toList = after.toList ++ [left, right] := by
  obtain ⟨middle, upper, lower⟩ := exists_pop_of_pop2 popped
  rw [toList_of_pop upper, toList_of_pop lower, List.append_assoc]
  rfl

theorem exists_pop_of_toList {stack : OperandStack} {below : List Value} {value : Value}
    (stack_eq : stack.toList = below ++ [value]) (operation : String) :
    ∃ after, stack.pop operation = .ok (value, after) ∧ after.toList = below := by
  have top : stack.values.last? = some value := by
    rw [ValueArray.last?_eq_getLast?, ← toList, stack_eq, List.getLast?_concat]
  have popped : stack.pop operation = .ok (value, { stack with values := stack.values.pop }) := by
    rw [pop, top]
  have below_eq := toList_of_pop popped
  rw [stack_eq] at below_eq
  exact ⟨_, popped, (List.append_cancel_right below_eq).symm⟩

/-- Two operands on top of a stack can be taken off. -/
theorem exists_pop2_of_toList {stack : OperandStack} {below : List Value} {left right : Value}
    (stack_eq : stack.toList = below ++ [left, right]) (operation : String) :
    ∃ after, stack.pop2 operation = .ok (left, right, after) ∧ after.toList = below := by
  rw [← List.singleton_append, ← List.append_assoc] at stack_eq
  obtain ⟨middle, upper, middle_eq⟩ := exists_pop_of_toList stack_eq operation
  obtain ⟨after, lower, after_eq⟩ := exists_pop_of_toList middle_eq operation
  refine ⟨after, ?_, after_eq⟩
  have enough : ¬ stack.depth < 2 := by
    have depth_eq : stack.depth = (below ++ [left] ++ [right]).length := by
      rw [← stack_eq, length_toList]
    simp [depth_eq]
  rw [pop2, require, if_neg enough]
  simp only [bind, Except.bind, upper, lower]
  rfl

theorem mem_of_swapTop {stack after : OperandStack} {operation : String} {value : Value}
    (swapped : stack.swapTop operation = .ok after) (member : value ∈ after.toList) :
    value ∈ stack.toList := by
  obtain ⟨_, _, finished⟩ := bind_eq_ok_iff.mp swapped
  cases finished
  simp only [toList, ValueArray.toList, List.mem_reverse, ValueArray.swapLast] at member ⊢
  unfold ValueArray.exchange at member
  split at member
  · rename_i first second rest reversed
    rw [reversed]
    simp only [List.mem_cons] at member ⊢
    rcases member with rfl | rfl | inside
    · exact .inr (.inl rfl)
    · exact .inl rfl
    · exact .inr (.inr inside)
  · exact member

theorem toList_truncate (stack : OperandStack) (depth : Nat) :
    (stack.truncate depth).toList = stack.toList.take depth :=
  ValueArray.toList_truncate stack.values depth

@[simp]
theorem toList_clear (stack : OperandStack) : stack.clear.toList = [] := by
  rw [clear, toList_truncate, List.take_zero]

theorem mem_of_mem_top {stack : OperandStack} {count : Nat} {value : Value}
    (member : value ∈ stack.top count) : value ∈ stack.toList := by
  simp only [top, ValueArray.takeLast, List.mem_reverse] at member
  simp only [toList, ValueArray.toList, List.mem_reverse]
  exact List.mem_of_mem_take member

theorem mem_of_peek? {stack : OperandStack} {below : Nat} {value : Value}
    (found : stack.peek? below = some value) : value ∈ stack.toList := by
  unfold peek? at found
  split at found
  · unfold ValueArray.get? at found
    split at found
    · simp only [toList, ValueArray.toList, List.mem_reverse]
      exact List.mem_of_getElem? found
    · cases found
  · cases found

theorem eq_of_create {config : StackConfig} {stack : OperandStack}
    (created : create config = .ok stack) : stack = ⟨{ capacity := config.capacity }, config⟩ := by
  unfold create ValueArray.withCapacity at created
  split at created
  · rename_i values reserved
    split at reserved
    · cases reserved
    · cases reserved
      cases created
      rfl
  · cases created

theorem toList_of_create {config : StackConfig} {stack : OperandStack}
    (created : create config = .ok stack) : stack.toList = [] := by
  rw [eq_of_create created]
  rfl

/-! ## Room -/

/-- A stack within its room: the array has a place for every value, and a fixed stack is no deeper
than its capacity. -/
structure Bounded (stack : OperandStack) : Prop where
  array : stack.values.size ≤ stack.values.capacity
  fixed : stack.config.growable = false → stack.depth ≤ stack.config.capacity

theorem pop_eq_ok_iff {stack after : OperandStack} {operation : String} {value : Value} :
    stack.pop operation = .ok (value, after) ↔
      stack.values.last? = some value ∧ after = stack.truncate (stack.depth - 1) := by
  unfold pop
  split
  · rename_i last top
    rw [top, Except.ok.injEq, Prod.mk.injEq, Option.some_inj]
    exact and_congr_right fun _ => eq_comm
  · rename_i empty
    rw [empty]
    simp

theorem truncate_depth (stack : OperandStack) : stack.truncate stack.depth = stack := by
  obtain ⟨⟨reversed, size, capacity, size_eq⟩, config⟩ := stack
  simp [truncate, depth, ValueArray.truncate]

theorem Bounded.truncate {stack : OperandStack} (bounded : stack.Bounded) (depth : Nat) :
    (stack.truncate depth).Bounded where
  array := Nat.le_trans (Nat.min_le_left _ _) bounded.array
  fixed growable := Nat.le_trans (Nat.min_le_left _ _) (bounded.fixed growable)

/-- What a stack may become: one set up as it was, and within its room as far as it was. -/
structure Becomes (before after : OperandStack) : Prop where
  config : after.config = before.config
  bounded : before.Bounded → after.Bounded

theorem Becomes.refl (stack : OperandStack) : stack.Becomes stack :=
  ⟨rfl, id⟩

theorem Becomes.trans {first second third : OperandStack} (early : first.Becomes second)
    (late : second.Becomes third) : first.Becomes third :=
  ⟨late.config.trans early.config, fun bounded => late.bounded (early.bounded bounded)⟩

theorem becomes_truncate (stack : OperandStack) (depth : Nat) :
    stack.Becomes (stack.truncate depth) :=
  ⟨rfl, fun bounded => bounded.truncate depth⟩

theorem becomes_of_pop {stack after : OperandStack} {operation : String} {value : Value}
    (popped : stack.pop operation = .ok (value, after)) : stack.Becomes after := by
  obtain ⟨_, rfl⟩ := pop_eq_ok_iff.mp popped
  exact stack.becomes_truncate _

theorem becomes_of_pop2 {stack after : OperandStack} {operation : String} {left right : Value}
    (popped : stack.pop2 operation = .ok (left, right, after)) : stack.Becomes after := by
  obtain ⟨middle, upper, lower⟩ := exists_pop_of_pop2 popped
  exact (becomes_of_pop upper).trans (becomes_of_pop lower)

theorem becomes_of_swapTop {stack after : OperandStack} {operation : String}
    (swapped : stack.swapTop operation = .ok after) : stack.Becomes after := by
  obtain ⟨_, _, finished⟩ := bind_eq_ok_iff.mp swapped
  cases finished
  exact ⟨rfl, fun bounded => ⟨bounded.array, bounded.fixed⟩⟩

theorem becomes_of_push {stack after : OperandStack} {value : Value}
    (pushed : stack.push value = .ok after) : stack.Becomes after := by
  unfold push at pushed
  split at pushed
  · cases pushed
  · rename_i room
    split at pushed
    · rename_i values appended
      cases pushed
      refine ⟨rfl, fun bounded => ?_⟩
      obtain ⟨size_eq, fits⟩ := ValueArray.size_of_push bounded.array appended
      refine ⟨fits, fun growable => ?_⟩
      have room : stack.config.growable = false → stack.depth < stack.config.capacity := by
        simpa using room
      exact Nat.le_trans (Nat.le_of_eq size_eq) (room growable)
    · cases pushed

theorem bounded_of_create {config : StackConfig} {stack : OperandStack}
    (created : create config = .ok stack) : stack.Bounded := by
  rw [eq_of_create created]
  exact ⟨Nat.zero_le _, fun _ => Nat.zero_le _⟩

theorem exists_push_eq_ok {stack : OperandStack} (array : stack.values.size < stack.values.capacity)
    (fixed : stack.config.growable = false → stack.depth < stack.config.capacity) (value : Value) :
    ∃ after, stack.push value = .ok after := by
  have room :
      ¬ (!stack.config.growable && decide (stack.config.capacity ≤ stack.depth)) = true := by
    simpa using fixed
  rw [push, if_neg room, ValueArray.push, if_pos array]
  exact ⟨_, rfl⟩

/-- There is room for a value on a stack from which some have been taken off. -/
theorem Bounded.exists_push_truncate {stack : OperandStack} (bounded : stack.Bounded) {depth : Nat}
    (less : depth < stack.depth) (value : Value) :
    ∃ after, (stack.truncate depth).push value = .ok after := by
  have depth_eq : (stack.truncate depth).depth = depth := Nat.min_eq_right (Nat.le_of_lt less)
  refine exists_push_eq_ok ?_ (fun growable => ?_) value
  · exact Nat.lt_of_le_of_lt (Nat.le_of_eq depth_eq) (Nat.lt_of_lt_of_le less bounded.array)
  · rw [depth_eq]
    exact Nat.lt_of_lt_of_le less (bounded.fixed growable)

theorem Bounded.exists_push_of_pop {stack after : OperandStack} {operation : String} {value : Value}
    (bounded : stack.Bounded) (popped : stack.pop operation = .ok (value, after)) (result : Value) :
    ∃ last, after.push result = .ok last := by
  obtain ⟨top, rfl⟩ := pop_eq_ok_iff.mp popped
  have occupied : 0 < stack.depth := by
    rw [depth, stack.values.size_eq]
    exact List.length_pos_of_mem (List.mem_of_head? top)
  exact bounded.exists_push_truncate (Nat.pred_lt_of_lt occupied) result

/-- There is room for the result of an operation that has two operands. -/
theorem Bounded.exists_push_of_pop2 {stack after : OperandStack} {operation : String}
    {left right : Value} (bounded : stack.Bounded)
    (popped : stack.pop2 operation = .ok (left, right, after)) (result : Value) :
    ∃ last, after.push result = .ok last := by
  obtain ⟨middle, upper, lower⟩ := exists_pop_of_pop2 popped
  exact ((becomes_of_pop upper).bounded bounded).exists_push_of_pop lower result

/-! ## Operands and results -/

/-- Values on top of a stack are replaced by others, and those below stay. -/
def Trades (operands results : List Value) (before after : OperandStack) : Prop :=
  ∃ rest, before.toList = rest ++ operands ∧ after.toList = rest ++ results

theorem Trades.push {operands results : List Value} {value : Value}
    {first second third : OperandStack} (trades : Trades operands results first second)
    (pushed : second.push value = .ok third) :
    Trades operands (results ++ [value]) first third := by
  obtain ⟨rest, first_eq, second_eq⟩ := trades
  exact ⟨rest, first_eq, by rw [toList_of_push pushed, second_eq, List.append_assoc]⟩

theorem trades_nil (stack : OperandStack) : Trades [] [] stack stack :=
  ⟨stack.toList, (List.append_nil _).symm, (List.append_nil _).symm⟩

theorem trades_of_pop {stack after : OperandStack} {operation : String} {value : Value}
    (popped : stack.pop operation = .ok (value, after)) : Trades [value] [] stack after :=
  ⟨after.toList, toList_of_pop popped, (List.append_nil _).symm⟩

theorem trades_of_pop2 {stack after : OperandStack} {operation : String} {left right : Value}
    (popped : stack.pop2 operation = .ok (left, right, after)) :
    Trades [left, right] [] stack after :=
  ⟨after.toList, toList_of_pop2 popped, (List.append_nil _).symm⟩

theorem require_eq_ok_iff {stack : OperandStack} {operation : String} {needed : Nat} :
    stack.require operation needed = .ok () ↔ needed ≤ stack.depth := by
  rw [require]
  split
  · simpa using Nat.not_le.mpr ‹_›
  · simpa using Nat.not_lt.mp ‹_›

theorem trades_of_swapTop {stack after : OperandStack} {operation : String}
    (swapped : stack.swapTop operation = .ok after) :
    ∃ left right, Trades [left, right] [right, left] stack after := by
  obtain ⟨_, enough, finished⟩ := bind_eq_ok_iff.mp swapped
  cases finished
  obtain ⟨⟨reversed, size, capacity, rfl⟩, config⟩ := stack
  match reversed, require_eq_ok_iff.mp enough with
  | right :: left :: below, _ =>
      refine ⟨left, right, below.reverse, ?_, ?_⟩ <;>
        simp [toList, ValueArray.toList, ValueArray.swapLast, ValueArray.exchange]

/-- The value on top of a stack that is not empty. -/
theorem exists_toList_eq_append_peek {stack : OperandStack} (enough : 1 ≤ stack.depth) :
    ∃ rest, stack.toList = rest ++ [(stack.peek? 0).getD .nil] := by
  obtain ⟨⟨reversed, size, capacity, rfl⟩, config⟩ := stack
  match reversed, enough with
  | top :: below, _ =>
      exact ⟨below.reverse, by simp [toList, ValueArray.toList, peek?, depth, ValueArray.get?]⟩

theorem length_top {stack : OperandStack} {count : Nat} (enough : count ≤ stack.depth) :
    (stack.top count).length = count := by
  rw [depth, stack.values.size_eq] at enough
  simp [top, ValueArray.takeLast, enough]

theorem trades_top (stack : OperandStack) (count : Nat) :
    Trades (stack.top count) [] stack (stack.truncate (stack.depth - count)) := by
  refine ⟨stack.toList.take (stack.depth - count), ?_, ?_⟩
  · have top_eq : stack.top count = stack.toList.drop (stack.depth - count) := by
      rw [top, ValueArray.takeLast, List.reverse_take, ← stack.values.size_eq]
      rfl
    rw [top_eq, List.take_append_drop]
  · rw [toList_truncate, List.append_nil]

end OperandStack

end StackMachine
