import StackMachine.Proofs.Binary64.Text
import StackMachine.Proofs.Machine.Alike
import StackMachine.Proofs.Machine.Confinement
import StackMachine.Proofs.Machine.Loading

/-!
# Comparisons agree

Equality and order are computed apart: equality takes a shortcut by handle and one by hash, and
order reads the contents of strings.  On two numbers and on two live strings the six instructions
that compare still agree as those of one order do, in which only a NaN has no place.  Any two values
are equal or not, and all pairs but these have no order.
-/

namespace StackMachine

/-! ## Numbers -/

namespace Binary64

theorem isNaN_ofInt (value : Int) : (ofInt value).isNaN = false := by
  have bounded : roundCode (value.natAbs * unitsInOne) 1 ≤ infinityCode := Nat.min_le_right _ _
  have small : infinityCode < signWeight := by decide
  rw [isNaN, ofInt, round, code_ofCode (Nat.lt_of_le_of_lt bounded small)]
  exact decide_eq_false (Nat.not_lt.mpr bounded)

theorem compare?_swap (x y : Binary64) : (compare? x y).map Ordering.swap = compare? y x := by
  rw [compare?, compare?, Bool.or_comm]
  split
  · rfl
  · rw [Option.map_some, ← Std.OrientedCmp.eq_swap]

theorem compare?_eq_none_iff {x y : Binary64} :
    compare? x y = none ↔ (x.isNaN || y.isNaN) = true := by
  rw [compare?]
  split <;> simp_all

end Binary64

namespace Value

/-- Whether a value is a float that is not a number. -/
def isNaN : Value → Bool
  | float value => value.isNaN
  | _ => false

theorem isNaN_toValue (number : Number) : number.toValue.isNaN = number.toFloat.isNaN := by
  cases number with
  | int value => exact (Binary64.isNaN_ofInt value.toInt).symm
  | float value => rfl

theorem number?_eq_some_iff {value : Value} {number : Number} :
    value.number? = some number ↔ value = number.toValue := by
  cases value <;> cases number <;> simp [number?, Number.toValue]

theorem compareNumbers_swap (x y : Number) :
    (compareNumbers x y).map Ordering.swap = compareNumbers y x := by
  cases x with
  | int x =>
      cases y with
      | int y => exact congrArg some Std.OrientedCmp.eq_swap.symm
      | float y => exact Binary64.compare?_swap _ _
  | float x => cases y <;> exact Binary64.compare?_swap _ _

/-- Numbers have an order unless one of them is a NaN. -/
theorem compareNumbers_eq_none_iff {x y : Number} :
    compareNumbers x y = none ↔ (x.toFloat.isNaN || y.toFloat.isNaN) = true := by
  cases x with
  | int x =>
      cases y with
      | int y => simp [compareNumbers, Number.toFloat, Binary64.isNaN_ofInt]
      | float y => exact Binary64.compare?_eq_none_iff
  | float x => cases y <;> exact Binary64.compare?_eq_none_iff

/-! ## Byte strings -/

theorem compareBytes_swap (left right : List UInt8) :
    (compareBytes left right).swap = compareBytes right left := by
  fun_induction compareBytes left right with
  | case1 => rfl
  | case2 => rfl
  | case3 => rfl
  | case4 x left y right induction =>
      rw [compareBytes, Ordering.swap_then, induction, ← Std.OrientedCmp.eq_swap]

theorem compareBytes_eq_eq_iff {left right : List UInt8} :
    compareBytes left right = .eq ↔ left = right := by
  fun_induction compareBytes left right with
  | case1 => simp
  | case2 => simp
  | case3 => simp
  | case4 x left y right induction =>
      rw [Ordering.then_eq_eq, induction, Nat.compare_eq_eq, UInt8.toNat_inj, List.cons.injEq]

/-- Byte strings are in lexicographic order. -/
theorem compareBytes_eq_lt_iff {left right : List UInt8} :
    compareBytes left right = .lt ↔ left < right := by
  fun_induction compareBytes left right with
  | case1 => simp
  | case2 => simp
  | case3 => simp
  | case4 x left y right induction =>
      rw [Ordering.then_eq_lt, induction, Nat.compare_eq_lt, Nat.compare_eq_eq, UInt8.toNat_inj,
        List.cons_lt_cons_iff, UInt8.lt_iff_toNat_lt]

/-! ## Values -/

/-- Two numbers or two live strings. -/
inductive Comparable (heap : StringHeap) (left right : Value) : Prop
  | numbers {x y : Number} (left_eq : left.number? = some x) (right_eq : right.number? = some y)
  | strings {front back : List UInt8} (front_eq : left.string?.bind heap.bytes? = some front)
      (back_eq : right.string?.bind heap.bytes? = some back)

theorem exists_eq_string {heap : StringHeap} {value : Value} {bytes : List UInt8}
    (content : value.string?.bind heap.bytes? = some bytes) :
    ∃ ref, value = .string ref ∧ heap.bytes? ref = some bytes := by
  cases value with
  | string ref => exact ⟨ref, rfl, content⟩
  | _ => cases content

/-- Two values have an order, or are known to have none, and equality agrees with it. -/
structure Ordered (heap : StringHeap) (left right : Value) (order : Option Ordering) : Prop where
  order_eq : ∀ op, left.order heap op right = .ok order
  isEqual_eq : left.isEqual heap right = (order == some .eq)
  none_iff : order = none ↔ (left.isNaN || right.isNaN) = true

theorem ordered_numbers (heap : StringHeap) {left right : Value} {x y : Number}
    (left_eq : left.number? = some x) (right_eq : right.number? = some y) :
    Ordered heap left right (compareNumbers x y) := by
  obtain rfl := number?_eq_some_iff.mp left_eq
  obtain rfl := number?_eq_some_iff.mp right_eq
  refine ⟨fun op => ?_, ?_, ?_⟩
  · cases x <;> cases y <;> rfl
  · cases x <;> cases y <;> rfl
  · rw [compareNumbers_eq_none_iff, isNaN_toValue, isNaN_toValue]

/-- The shortcuts of equality are of no consequence for live strings. -/
theorem ordered_strings {heap : StringHeap} (hashed : heap.Hashed) {left right : Value}
    {front back : List UInt8} (front_eq : left.string?.bind heap.bytes? = some front)
    (back_eq : right.string?.bind heap.bytes? = some back) :
    Ordered heap left right (some (compareBytes front back)) := by
  obtain ⟨first, rfl, first_eq⟩ := exists_eq_string front_eq
  obtain ⟨second, rfl, second_eq⟩ := exists_eq_string back_eq
  refine ⟨fun op => ?_, ?_, by simp [isNaN]⟩
  · simp only [order, first_eq, second_eq]
  · rw [Alike.isEqual_string hashed first_eq second_eq, Bool.eq_iff_iff, beq_iff_eq, beq_iff_eq,
      Option.some_inj, compareBytes_eq_eq_iff]

theorem Comparable.exists_ordered {heap : StringHeap} {left right : Value} (hashed : heap.Hashed)
    (comparable : Comparable heap left right) :
    ∃ order, Ordered heap left right order ∧ Ordered heap right left (order.map Ordering.swap) := by
  cases comparable with
  | numbers left_eq right_eq =>
      refine ⟨_, ordered_numbers heap left_eq right_eq, ?_⟩
      rw [compareNumbers_swap]
      exact ordered_numbers heap right_eq left_eq
  | strings front_eq back_eq =>
      refine ⟨_, ordered_strings hashed front_eq back_eq, ?_⟩
      rw [Option.map_some, compareBytes_swap]
      exact ordered_strings hashed back_eq front_eq

/-- The failure of an instruction that needs an order where there is none. -/
def refusal (op : Opcode) : Value → Value → MachineError
  | string _, string _ => .badArgument (op.mnemonic ++ " on a string that is no longer live")
  | left, right => mismatch op left right

theorem order_of_not_comparable {heap : StringHeap} {left right : Value}
    (incomparable : ¬ Comparable heap left right) (op : Opcode) :
    left.order heap op right = .error (refusal op left right) := by
  rw [order.eq_def]
  split
  · rename_i x y
    split
    · rename_i front back front_eq back_eq
      exact absurd (.strings front_eq back_eq) incomparable
    · rfl
  · rename_i nonstring
    split
    · rename_i x y x_eq y_eq
      exact absurd (.numbers x_eq y_eq) incomparable
    · rw [refusal.eq_def]
      split
      · exact absurd rfl (nonstring _ _ rfl)
      · rfl

end Value

namespace Machine

variable {machine : Machine}

/-! ## The hashes of the strings -/

/-- A change that leaves every string with the hash of its content. -/
def KeepsHashed (before after : Machine) : Prop :=
  before.heap.Hashed → after.heap.Hashed

instance : Routine KeepsHashed where
  refl _ := id
  trans _ _ _ early late hashed := late (early hashed)
  stack _ _ _ := id
  natives _ _ := id
  sink _ _ := id
  pool _ _ := id
  lastError _ _ := id
  stored _ bytes hashed := hashed.store bytes

theorem keepsHashed_collect (machine : Machine) : KeepsHashed machine machine.collect.2 :=
  (machine.collector.evolves_collect machine.roots machine.heap).hashed

theorem within_install_keepsHashed (program : Program) :
    (install program).Within KeepsHashed fun _ => True := by
  intro machine
  exact ((ensures_addConstants_added machine program.strings).mono
    (fun _ _ held => ⟨held.1.hashed, trivial⟩) fun _ _ held => held.1.hashed).bind
      fun _ _ kept => kept

theorem conduct_keepsHashed : Conduct (fun _ => True) KeepsHashed where
  assigned _ _ _ := id
  load image _ := Routine.within_load within_install_keepsHashed image
  loadProgram program _ := Routine.within_loadProgram (within_install_keepsHashed program)
  reset _ := Routine.within_outside _ fun _ => (id : KeepsHashed _ _)
  collect := keepsHashed_collect
  setMode _ _ _ := id
  setThreshold _ _ := id
  runs := id
  step _ _ _ natives := Routine.keeps_stepWith (fun _ _ => id) (fun _ _ _ _ => id)
    keepsHashed_collect natives
  refused converted := converted
  returned _ converted ran hashed := ran (converted hashed)

theorem Reached.hashed (reached : Reached machine) : machine.heap.Hashed := by
  induction reached with
  | created created =>
      obtain ⟨_, _, kept⟩ := Routine.of_create KeepsHashed created
      exact kept StringHeap.hashed_empty
  | served _ served induction => exact conduct_keepsHashed.related_of_served served induction
  | entered _ _ _ induction => exact induction

/-! ## Instructions -/

/-- What an instruction makes of two operands.  It takes them off the stack and pushes the truth
value that it gives, unless it fails, and nothing else of the machine changes. -/
def Answers (machine : Machine) (instruction : Instruction) (left right : Value)
    (outcome : Except MachineError Bool) : Prop :=
  ∀ (invoke : Invoker) (stack : OperandStack) (below : List Value), stack.Bounded →
    stack.toList = below ++ [left, right] →
      ∃ after, after.toList = below ++ (outcome.toOption.map Value.bool).toList ∧
        (execute invoke instruction).apply { machine with stack } =
          some (outcome.map fun _ => .next, { machine with stack := after })

variable {left right : Value} {order : Option Ordering}

theorem apply_popOperands {op : Opcode} {stack after : OperandStack}
    (popped : stack.pop2 op.mnemonic = .ok (left, right, after)) :
    (popOperands op).apply { machine with stack } =
      (.ok (left, right), { machine with stack := after }) := by
  rw [popOperands, Update.apply_get_bind]
  simp only [popped]
  rfl

theorem apply_pushOperand {value : Value} {stack after : OperandStack}
    (pushed : stack.push value = .ok after) :
    (pushOperand value).apply { machine with stack } =
      (.ok (), { machine with stack := after }) := by
  rw [pushOperand, Update.apply_get_bind]
  simp only [pushed]
  rfl

/-- An instruction answers as its operation does, for whose result there is always room. -/
theorem answers_of_binary {instruction : Instruction} {op : Opcode}
    {operation : Value → Value → Update Value} {outcome : Except MachineError Bool}
    (execute_eq : ∀ invoke, execute invoke instruction = liftM (binary op operation))
    (operated : ∀ stack, (operation left right).apply { machine with stack } =
      (outcome.map Value.bool, { machine with stack })) :
    Answers machine instruction left right outcome := by
  intro invoke stack below bounded stack_eq
  obtain ⟨middle, popped, middle_eq⟩ := OperandStack.exists_pop2_of_toList stack_eq op.mnemonic
  rw [execute_eq, apply_lift, binary, Update.apply_bind, apply_popOperands popped]
  simp only [Update.apply_bind, operated]
  cases outcome with
  | error error => exact ⟨middle, middle_eq.trans (List.append_nil below).symm, rfl⟩
  | ok answer =>
      obtain ⟨after, pushed⟩ := bounded.exists_push_of_pop2 popped (.bool answer)
      refine ⟨after, ?_, ?_⟩
      · rw [OperandStack.toList_of_push pushed, middle_eq]
        rfl
      · simp only [Except.map, apply_pushOperand pushed]
        rfl

theorem answers_eq (machine : Machine) (left right : Value) :
    Answers machine .eq left right (.ok (left.isEqual machine.heap right)) :=
  answers_of_binary (fun _ => rfl) fun _ => rfl

theorem answers_neq (machine : Machine) (left right : Value) :
    Answers machine .neq left right (.ok (!left.isEqual machine.heap right)) :=
  answers_of_binary (fun _ => rfl) fun _ => rfl

theorem answers_ordering {instruction : Instruction} {op : Opcode} {wanted : List Ordering}
    (execute_eq : ∀ invoke, execute invoke instruction = liftM (ordering op wanted)) :
    Answers machine instruction left right
      ((left.order machine.heap op right).map fun order => order.any wanted.contains) := by
  refine answers_of_binary execute_eq fun stack => ?_
  rw [Update.apply_get_bind, Update.apply_bind]
  cases left.order machine.heap op right <;> rfl

/-- There are stacks for any two operands, so that an instruction has one answer only. -/
theorem Answers.unique {instruction : Instruction} {answer answer' : Bool}
    (first : Answers machine instruction left right (.ok answer))
    (second : Answers machine instruction left right (.ok answer')) : answer = answer' := by
  let stack : OperandStack := ⟨{ reversed := [right, left], size := 2, capacity := 2 }, {}⟩
  have bounded : stack.Bounded := ⟨Nat.le_refl 2, fun _ => Nat.le_add_left 2 254⟩
  obtain ⟨after, after_eq, ran⟩ := first (invoke 0) stack [] bounded rfl
  obtain ⟨after', after_eq', ran'⟩ := second (invoke 0) stack [] bounded rfl
  have same : after = after' := by
    have ended := (Prod.mk.inj (Option.some.inj (ran.symm.trans ran'))).2
    exact congrArg Machine.stack ended
  rw [same] at after_eq
  have pushed : [Value.bool answer] = [Value.bool answer'] := after_eq.symm.trans after_eq'
  simpa using pushed

/-! ## Coherence -/

/-- The comparisons of two values agree as those of one order do: with the operands exchanged, and
with each other.  At most one of the three relations holds, and one does unless an operand is a
NaN. -/
structure Coheres (machine : Machine) (left right : Value) (less equal greater : Bool) : Prop where
  eq : Answers machine .eq left right (.ok equal) ∧ Answers machine .eq right left (.ok equal)
  neq : Answers machine .neq left right (.ok !equal) ∧ Answers machine .neq right left (.ok !equal)
  lt : Answers machine .lt left right (.ok less) ∧ Answers machine .gt right left (.ok less)
  gt : Answers machine .gt left right (.ok greater) ∧ Answers machine .lt right left (.ok greater)
  le : Answers machine .le left right (.ok (less || equal)) ∧
    Answers machine .ge right left (.ok (less || equal))
  ge : Answers machine .ge left right (.ok (greater || equal)) ∧
    Answers machine .le right left (.ok (greater || equal))
  count : [less, equal, greater].count true = if left.isNaN || right.isNaN then 0 else 1

section Ordered

variable {answer : Bool} (ordered : Value.Ordered machine.heap left right order)

include ordered

theorem answers_eq_of_ordered (answer_eq : (order == some .eq) = answer) :
    Answers machine .eq left right (.ok answer) := by
  rw [← answer_eq, ← ordered.isEqual_eq]
  exact answers_eq machine left right

theorem answers_neq_of_ordered (answer_eq : (order == some .eq) = answer) :
    Answers machine .neq left right (.ok !answer) := by
  rw [← answer_eq, ← ordered.isEqual_eq]
  exact answers_neq machine left right

theorem answers_of_ordered {instruction : Instruction} {op : Opcode} {wanted : List Ordering}
    (execute_eq : ∀ invoke, execute invoke instruction = liftM (ordering op wanted))
    (answer_eq : order.any wanted.contains = answer) :
    Answers machine instruction left right (.ok answer) := by
  have answers : Answers machine instruction left right _ := answers_ordering execute_eq
  rw [ordered.order_eq op] at answers
  rw [← answer_eq]
  exact answers

theorem answers_lt_of_ordered : Answers machine .lt left right (.ok (order == some .lt)) := by
  refine answers_of_ordered ordered (fun _ => rfl) ?_
  rcases order with _ | _ | _ | _ <;> rfl

end Ordered

theorem coheres_of_ordered (first : Value.Ordered machine.heap left right order)
    (second : Value.Ordered machine.heap right left (order.map Ordering.swap)) :
    Coheres machine left right (order == some .lt) (order == some .eq) (order == some .gt) := by
  have unordered : (left.isNaN || right.isNaN) = order.isNone := by
    rw [Bool.eq_iff_iff, Option.isNone_iff_eq_none]
    exact first.none_iff.symm
  -- For a known order both sides of each agreement compute to the same truth value.
  rcases order with _ | _ | _ | _
  all_goals exact
    { eq := ⟨answers_eq_of_ordered first rfl, answers_eq_of_ordered second rfl⟩
      neq := ⟨answers_neq_of_ordered first rfl, answers_neq_of_ordered second rfl⟩
      lt := ⟨answers_of_ordered first (fun _ => rfl) rfl,
        answers_of_ordered second (fun _ => rfl) rfl⟩
      gt := ⟨answers_of_ordered first (fun _ => rfl) rfl,
        answers_of_ordered second (fun _ => rfl) rfl⟩
      le := ⟨answers_of_ordered first (fun _ => rfl) rfl,
        answers_of_ordered second (fun _ => rfl) rfl⟩
      ge := ⟨answers_of_ordered first (fun _ => rfl) rfl,
        answers_of_ordered second (fun _ => rfl) rfl⟩
      count := by
        rw [unordered]
        rfl }

/-! ## Strict orders -/

/-- The values of a kind are in a strict total order. -/
structure StrictlyOrders (machine : Machine) (kind : Value → Prop) : Prop where
  irrefl : ∀ value, kind value → Answers machine .lt value value (.ok false)
  trans : ∀ first second third, kind first → kind second → kind third →
    Answers machine .lt first second (.ok true) → Answers machine .lt second third (.ok true) →
      Answers machine .lt first third (.ok true)
  total : ∀ left right, kind left → kind right → Answers machine .lt left right (.ok true) ∨
    Answers machine .eq left right (.ok true) ∨ Answers machine .lt right left (.ok true)

/-- Values that are ordered by a content of theirs are in a strict order when the contents are. -/
theorem strictlyOrders_of_content {κ : Type} [LT κ] [DecidableLT κ] {content : Value → κ → Prop}
    (transitive : ∀ a b c : κ, a < b → b < c → a < c)
    (plain : ∀ value a, content value a → value.isNaN = false)
    (coherent : ∀ left right a b, content left a → content right b →
      ∃ less equal greater, Coheres machine left right less equal greater)
    (answers : ∀ left right a b, content left a → content right b →
      Answers machine .lt left right (.ok (decide (a < b)))) :
    StrictlyOrders machine fun value => ∃ a, content value a where
  irrefl := by
    rintro value ⟨a, holds⟩
    obtain ⟨less, equal, greater, coheres⟩ := coherent value value a a holds holds
    have same : less = greater := coheres.lt.1.unique coheres.gt.2
    have count := coheres.count
    have smaller := coheres.lt.1
    rw [same] at count smaller
    cases greater with
    | false => exact smaller
    | true => cases equal <;> simp [plain value a holds] at count
  trans := by
    rintro first second third ⟨a, holds⟩ ⟨b, holds'⟩ ⟨c, holds''⟩ early late
    have before := of_decide_eq_true ((answers first second a b holds holds').unique early)
    have after := of_decide_eq_true ((answers second third b c holds' holds'').unique late)
    have answer := answers first third a c holds holds''
    rw [decide_eq_true (transitive a b c before after)] at answer
    exact answer
  total := by
    rintro left right ⟨a, holds⟩ ⟨b, holds'⟩
    obtain ⟨less, equal, greater, coheres⟩ := coherent left right a b holds holds'
    have count := coheres.count
    cases less with
    | true => exact .inl coheres.lt.1
    | false =>
        cases equal with
        | true => exact .inr (.inl coheres.eq.1)
        | false =>
            cases greater with
            | true => exact .inr (.inr coheres.gt.2)
            | false => simp [plain left a holds, plain right b holds'] at count

/-! ## Reachable machines -/

/-- How a machine compares values. -/
structure Coherent (machine : Machine) : Prop where
  /-- Any two values are equal or not, whatever they are. -/
  equality : ∀ left right, ∃ equal, Answers machine .eq left right (.ok equal) ∧
    Answers machine .neq left right (.ok !equal)
  /-- The comparisons of two numbers or two live strings agree with each other. -/
  comparable : ∀ left right, Value.Comparable machine.heap left right →
    ∃ less equal greater, Coheres machine left right less equal greater
  /-- All other values have no order. -/
  incomparable : ∀ left right, ¬ Value.Comparable machine.heap left right →
    ∀ instruction ∈ [Instruction.lt, .gt, .le, .ge],
      Answers machine instruction left right (.error (Value.refusal instruction.opcode left right))
  /-- Integers are ordered numerically. -/
  integers : ∀ x y : Int64, Answers machine .lt (.int x) (.int y) (.ok (decide (x < y))) ∧
    Answers machine .eq (.int x) (.int y) (.ok (decide (x = y)))
  /-- Numbers of which one is a float are compared as floats. -/
  floats : ∀ (x : Number) (y : Binary64),
    Answers machine .lt x.toValue (.float y) (.ok (x.toFloat.compare? y == some .lt)) ∧
      Answers machine .lt (.float y) x.toValue (.ok (y.compare? x.toFloat == some .lt)) ∧
      Answers machine .eq x.toValue (.float y) (.ok (x.toFloat.equal y))
  /-- Live strings are ordered by their bytes, a proper prefix being less, whatever their
  handles. -/
  strings : ∀ left right front back, machine.bytes? left = some front →
    machine.bytes? right = some back →
      Answers machine .lt left right (.ok (decide (front < back))) ∧
        Answers machine .eq left right (.ok (decide (front = back)))
  integers_ordered : StrictlyOrders machine fun value => ∃ x, value = .int x
  strings_ordered : StrictlyOrders machine fun value => ∃ bytes, machine.bytes? value = some bytes

theorem exists_coheres (hashed : machine.heap.Hashed)
    (comparable : Value.Comparable machine.heap left right) :
    ∃ less equal greater, Coheres machine left right less equal greater := by
  obtain ⟨order, first, second⟩ := comparable.exists_ordered hashed
  exact ⟨_, _, _, coheres_of_ordered first second⟩

theorem answers_incomparable (incomparable : ¬ Value.Comparable machine.heap left right)
    {instruction : Instruction} {op : Opcode} {wanted : List Ordering}
    (execute_eq : ∀ invoke, execute invoke instruction = liftM (ordering op wanted)) :
    Answers machine instruction left right (.error (Value.refusal op left right)) := by
  have answers : Answers machine instruction left right _ := answers_ordering execute_eq
  rw [Value.order_of_not_comparable incomparable] at answers
  exact answers

/-- Of two values with an order one is less or both are equal exactly when the order says so. -/
theorem answers_of_ordered_some {order : Ordering} {less equal : Prop} [Decidable less]
    [Decidable equal] (ordered : Value.Ordered machine.heap left right (some order))
    (less_iff : order = .lt ↔ less) (equal_iff : order = .eq ↔ equal) :
    Answers machine .lt left right (.ok (decide less)) ∧
      Answers machine .eq left right (.ok (decide equal)) := by
  rw [← decide_eq_decide.mpr less_iff, ← decide_eq_decide.mpr equal_iff]
  exact ⟨answers_lt_of_ordered ordered, answers_eq_of_ordered ordered rfl⟩

theorem answers_integers (machine : Machine) (x y : Int64) :
    Answers machine .lt (.int x) (.int y) (.ok (decide (x < y))) ∧
      Answers machine .eq (.int x) (.int y) (.ok (decide (x = y))) := by
  have number_eq (value : Int64) : (Value.int value).number? = some (.int value) := rfl
  have ordered : Value.Ordered machine.heap (.int x) (.int y) (some (compare x.toInt y.toInt)) :=
    Value.ordered_numbers machine.heap (number_eq x) (number_eq y)
  refine answers_of_ordered_some ordered ?_ ?_
  · rw [Int64.lt_iff_toInt_lt]
    exact Int.compare_eq_lt
  · rw [← Int64.toInt_inj]
    exact Int.compare_eq_eq

theorem answers_floats (machine : Machine) (x : Number) (y : Binary64) :
    Answers machine .lt x.toValue (.float y) (.ok (x.toFloat.compare? y == some .lt)) ∧
      Answers machine .lt (.float y) x.toValue (.ok (y.compare? x.toFloat == some .lt)) ∧
      Answers machine .eq x.toValue (.float y) (.ok (x.toFloat.equal y)) := by
  have left_eq : x.toValue.number? = some x := Value.number?_eq_some_iff.mpr rfl
  have right_eq : (Value.float y).number? = some (.float y) := rfl
  have first := Value.ordered_numbers machine.heap left_eq right_eq
  have second := Value.ordered_numbers machine.heap right_eq left_eq
  have as_floats : Value.compareNumbers x (.float y) = x.toFloat.compare? y := by cases x <;> rfl
  have as_floats' : Value.compareNumbers (.float y) x = y.compare? x.toFloat := by cases x <;> rfl
  rw [as_floats] at first
  rw [as_floats'] at second
  exact ⟨answers_lt_of_ordered first, answers_lt_of_ordered second, answers_eq_of_ordered first rfl⟩

theorem answers_strings (hashed : machine.heap.Hashed) {front back : List UInt8}
    (front_eq : machine.bytes? left = some front) (back_eq : machine.bytes? right = some back) :
    Answers machine .lt left right (.ok (decide (front < back))) ∧
      Answers machine .eq left right (.ok (decide (front = back))) :=
  answers_of_ordered_some (Value.ordered_strings hashed front_eq back_eq)
    Value.compareBytes_eq_lt_iff Value.compareBytes_eq_eq_iff

/-- Wherever a machine comes, any two values are equal or not, the six comparisons of two numbers or
of two live strings agree with each other, and no other values have an order.  Integers and live
strings are in a strict total order, strings by their bytes. -/
theorem comparisons_cohere (reached : Reached machine) : Coherent machine where
  equality left right := ⟨_, answers_eq machine left right, answers_neq machine left right⟩
  comparable left right := exists_coheres reached.hashed
  incomparable left right incomparable := by
    intro instruction member
    simp only [List.mem_cons, List.not_mem_nil, or_false] at member
    rcases member with rfl | rfl | rfl | rfl
    all_goals exact answers_incomparable incomparable fun _ => rfl
  integers := answers_integers machine
  floats := answers_floats machine
  strings left right front back := answers_strings reached.hashed
  integers_ordered := by
    refine strictlyOrders_of_content (fun _ _ _ => Int64.lt_trans) ?_ ?_ ?_
    · rintro value x rfl
      rfl
    · rintro left right x y rfl rfl
      exact exists_coheres reached.hashed (.numbers rfl rfl)
    · rintro left right x y rfl rfl
      exact (answers_integers machine x y).1
  strings_ordered := by
    refine strictlyOrders_of_content (fun _ _ _ => List.lt_trans) ?_ ?_ ?_
    · intro value bytes content
      obtain ⟨ref, rfl, _⟩ := Value.exists_eq_string content
      rfl
    · exact fun left right front back front_eq back_eq =>
        exists_coheres reached.hashed (.strings front_eq back_eq)
    · exact fun left right front back front_eq back_eq =>
        (answers_strings reached.hashed front_eq back_eq).1

/-- Makes two strings of one content, and a third that goes on after it. -/
def beforeComparison : List (Nat × Request) :=
  [(0, .call (.newString [97])), (0, .call (.newString [97])), (0, .call (.newString [97, 0]))]

theorem comparisons_cohere_across_handles :
    ∃ start machine, create { builtins := false } = .ok start ∧
      serve invoke beforeComparison start = some machine ∧
      [0, 1, 2].map (fun id => machine.heap.bytes? ⟨id⟩) = [some [97], some [97], some [97, 0]] ∧
      Answers machine .eq (.string ⟨0⟩) (.string ⟨1⟩) (.ok true) ∧
      Answers machine .lt (.string ⟨1⟩) (.string ⟨2⟩) (.ok true) ∧
      Coheres machine (.float .nan) (.int 1) false false false ∧
      Answers machine .le (.string ⟨0⟩) (.int 1)
        (.error (mismatch .le (.string ⟨0⟩) (.int 1))) := by
  have ran : ((create { builtins := false }).toOption.bind fun start =>
      (serve invoke beforeComparison start).map fun machine =>
        [0, 1, 2].map fun id => machine.heap.bytes? ⟨id⟩) =
      some [some [97], some [97], some [97, 0]] := by
    decide +kernel
  simp only [Option.bind_eq_some_iff, Option.map_eq_some_iff, toOption_eq_some_iff] at ran
  obtain ⟨start, created, machine, served, contents⟩ := ran
  have coherent := comparisons_cohere ((Reached.created created).of_serve served)
  have held : machine.bytes? (.string ⟨0⟩) = some [97] ∧
      machine.bytes? (.string ⟨1⟩) = some [97] ∧ machine.bytes? (.string ⟨2⟩) = some [97, 0] := by
    simpa [Machine.bytes?, Value.string?] using contents
  obtain ⟨less, equal, greater, coheres⟩ :=
    coherent.comparable (.float .nan) (.int 1) (.numbers rfl rfl)
  have none_holds : [less, equal, greater].count true = 0 := coheres.count
  have apart : ¬ Value.Comparable machine.heap (.string ⟨0⟩) (.int 1) := by
    rintro (⟨left_eq, _⟩ | ⟨_, back_eq⟩)
    · cases left_eq
    · cases back_eq
  refine ⟨start, machine, created, served, contents, (coherent.strings _ _ _ _ held.1 held.2.1).2,
    (coherent.strings _ _ _ _ held.2.1 held.2.2).1, ?_, ?_⟩
  · cases less <;> cases equal <;> cases greater <;> first | exact coheres | cases none_holds
  · exact coherent.incomparable _ _ apart .le (by decide)

end Machine

end StackMachine
