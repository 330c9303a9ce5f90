import StackMachine.Proofs.ContentMap.Alike
import StackMachine.Proofs.Machine.Intact
import StackMachine.Proofs.Outcome

/-!
# Machines that look alike

Two machines look alike when they agree on all that programs and the host can see, strings being
compared by content.  Neither the handles nor the collector, the pool and the sharing of constants
matter.  What a value computes depends on how it looks only, and a machine looks as before when
strings that it does not hold come and go.
-/

namespace StackMachine

variable {heap heap' : StringHeap}

/-! ## Values -/

/-- Values that are strings of one content, or the same. -/
inductive Value.Alike (heap heap' : StringHeap) : Value → Value → Prop
  | string {ref ref' : StringRef} (same : heap.SameContent heap' ref ref') :
      Value.Alike heap heap' (.string ref) (.string ref')
  | plain {value : Value} (none : value.string? = none) : Value.Alike heap heap' value value

namespace Value.Alike

variable {left right left' right' value value' : Value}

theorem symm (alike : Value.Alike heap heap' value value') :
    Value.Alike heap' heap value' value := by
  cases alike with
  | string same => exact .string same.symm
  | plain none => exact .plain none

theorem preserved {later later' : StringHeap} (alike : Value.Alike heap heap' value value')
    (preserved : heap.Preserves later) (preserved' : heap'.Preserves later') :
    Value.Alike later later' value value' := by
  cases alike with
  | string same => exact .string (same.preserved preserved preserved')
  | plain none => exact .plain none

/-- A heap may be replaced by one in which the string has the same content. -/
theorem of_heap {later : StringHeap} (alike : Value.Alike heap heap' value value')
    (kept : ∀ ref, value = .string ref → ∀ bytes, heap.bytes? ref = some bytes →
      later.bytes? ref = some bytes) : Value.Alike later heap' value value' := by
  cases alike with
  | string same =>
      obtain ⟨bytes, content, content'⟩ := same
      exact .string ⟨bytes, kept _ rfl bytes content, content'⟩
  | plain none => exact .plain none

theorem typeName_eq (alike : Value.Alike heap heap' value value') :
    value.typeName = value'.typeName := by
  cases alike <;> rfl

theorem isTruthy_eq (alike : Value.Alike heap heap' value value') :
    value.isTruthy = value'.isTruthy := by
  cases alike <;> rfl

theorem isNil_eq (alike : Value.Alike heap heap' value value') : value.isNil = value'.isNil := by
  cases alike <;> rfl

theorem number?_eq (alike : Value.Alike heap heap' value value') :
    value.number? = value'.number? := by
  cases alike <;> rfl

theorem bytes?_eq (alike : Value.Alike heap heap' value value') :
    value.string?.bind heap.bytes? = value'.string?.bind heap'.bytes? := by
  cases alike with
  | string same =>
      obtain ⟨bytes, content, content'⟩ := same
      exact content.trans content'.symm
  | plain none => rw [none, Option.bind_none, Option.bind_none]

theorem text_eq (alike : Value.Alike heap heap' value value') :
    value.text heap = value'.text heap' := by
  unfold text
  cases alike with
  | string same =>
      obtain ⟨bytes, content, content'⟩ := same
      simp only [content, content']
  | plain none =>
      cases value with
      | string ref => cases none
      | _ => rfl

/-! ### Arithmetic and comparison -/

theorem mismatch_eq (alike : Value.Alike heap heap' left left')
    (alike' : Value.Alike heap heap' right right') (op : Opcode) :
    mismatch op left right = mismatch op left' right' := by
  rw [mismatch, mismatch, alike.typeName_eq, alike'.typeName_eq]

theorem arithmetic_eq (alike : Value.Alike heap heap' left left')
    (alike' : Value.Alike heap heap' right right') (operation : ArithmeticOperation) :
    left.arithmetic operation right = left'.arithmetic operation right' := by
  simp only [arithmetic, alike.number?_eq, alike'.number?_eq, alike.mismatch_eq alike']

theorem divide_eq (alike : Value.Alike heap heap' left left')
    (alike' : Value.Alike heap heap' right right') : left.divide right = left'.divide right' := by
  simp only [divide, alike.number?_eq, alike'.number?_eq, alike.mismatch_eq alike']

/-- Strings of a heap are equal when their contents are, whether or not their handles are. -/
theorem isEqual_string (hashed : heap.Hashed) {front back : StringRef} {bytes bytes' : List UInt8}
    (content : heap.bytes? front = some bytes) (content' : heap.bytes? back = some bytes') :
    (Value.string front).isEqual heap (.string back) = (bytes == bytes') := by
  obtain ⟨string, live, rfl⟩ := Option.map_eq_some_iff.mp content
  obtain ⟨string', live', rfl⟩ := Option.map_eq_some_iff.mp content'
  rw [Bool.eq_iff_iff, beq_iff_eq]
  simp only [isEqual, live, live', Bool.or_eq_true, beq_iff_eq]
  constructor
  · rintro (rfl | same)
    · cases live.symm.trans live'
      rfl
    · rw [same]
  · intro same
    right
    have hash_eq : string.hash = string'.hash := by
      rw [hashed front string live, hashed back string' live', same]
    cases string
    cases string'
    cases same
    cases hash_eq
    rfl

theorem isEqual_eq (hashed : heap.Hashed) (hashed' : heap'.Hashed)
    (alike : Value.Alike heap heap' left left') (alike' : Value.Alike heap heap' right right') :
    left.isEqual heap right = left'.isEqual heap' right' := by
  cases alike with
  | string same =>
      obtain ⟨bytes, content, content'⟩ := same
      cases alike' with
      | string other =>
          obtain ⟨others, other_content, other_content'⟩ := other
          rw [isEqual_string hashed content other_content,
            isEqual_string hashed' content' other_content']
      | plain none =>
          cases right with
          | string ref => cases none
          | _ => rfl
  | plain none =>
      cases alike' with
      | string other =>
          cases left with
          | string ref => cases none
          | _ => rfl
      | plain none' =>
          cases left with
          | string ref => cases none
          | _ =>
              cases right with
              | string ref => cases none'
              | _ => rfl

theorem order_eq (alike : Value.Alike heap heap' left left')
    (alike' : Value.Alike heap heap' right right') (op : Opcode) :
    left.order heap op right = left'.order heap' op right' := by
  have mismatch_eq := alike.mismatch_eq alike' op
  cases alike with
  | string same =>
      obtain ⟨bytes, content, content'⟩ := same
      cases alike' with
      | string other =>
          obtain ⟨others, other_content, other_content'⟩ := other
          simp only [order, content, content', other_content, other_content']
      | plain none =>
          cases right with
          | string ref => cases none
          | _ => rfl
  | plain none =>
      cases alike' with
      | string other =>
          cases left with
          | string ref => cases none
          | _ => rfl
      | plain none' =>
          cases left with
          | string ref => cases none
          | _ =>
              cases right with
              | string ref => cases none'
              | _ => rfl

/-! ### Conversion -/

theorem numberIn?_eq (alike : Value.Alike heap heap' value value') :
    value.numberIn? heap = value'.numberIn? heap' := by
  rw [numberIn?, numberIn?, alike.bytes?_eq]

theorem toInt?_eq (alike : Value.Alike heap heap' value value') :
    value.toInt? heap = value'.toInt? heap' := by
  have number_eq := alike.numberIn?_eq
  cases alike with
  | string same => simp only [toInt?, number_eq]
  | plain none =>
      cases value with
      | string ref => cases none
      | _ => rfl

theorem toFloat?_eq (alike : Value.Alike heap heap' value value') :
    value.toFloat? heap = value'.toFloat? heap' := by
  have number_eq := alike.numberIn?_eq
  cases alike with
  | string same => simp only [toFloat?, number_eq]
  | plain none =>
      cases value with
      | string ref => cases none
      | _ => rfl

theorem toBool?_eq (alike : Value.Alike heap heap' value value') :
    value.toBool? heap = value'.toBool? heap' := by
  cases alike with
  | string same =>
      obtain ⟨bytes, content, content'⟩ := same
      simp only [toBool?, content, content']
  | plain none =>
      cases value with
      | string ref => cases none
      | _ => rfl

end Value.Alike

/-! ## Stacks -/

/-- Stacks of values that look alike, with the same room. -/
structure OperandStack.Alike (heap heap' : StringHeap) (stack stack' : OperandStack) : Prop where
  values : List.Forall₂ (Value.Alike heap heap') stack.values.reversed stack'.values.reversed
  capacity_eq : stack.values.capacity = stack'.values.capacity
  config_eq : stack.config = stack'.config

namespace OperandStack.Alike

variable {stack stack' : OperandStack} {value value' : Value}

theorem size_eq (alike : Alike heap heap' stack stack') :
    stack.values.size = stack'.values.size := by
  rw [stack.values.size_eq, stack'.values.size_eq]
  exact alike.values.length_eq

theorem depth_eq (alike : Alike heap heap' stack stack') : stack.depth = stack'.depth :=
  alike.size_eq

theorem toList (alike : Alike heap heap' stack stack') :
    List.Forall₂ (Value.Alike heap heap') stack.toList stack'.toList :=
  List.rel_reverse alike.values

theorem symm (alike : Alike heap heap' stack stack') : Alike heap' heap stack' stack :=
  ⟨List.Forall₂.flip (alike.values.imp fun _ _ same => same.symm), alike.capacity_eq.symm,
    alike.config_eq.symm⟩

theorem of_heap {later : StringHeap} (alike : Alike heap heap' stack stack')
    (kept : ∀ ref, .string ref ∈ stack.toList → ∀ bytes, heap.bytes? ref = some bytes →
      later.bytes? ref = some bytes) : Alike later heap' stack stack' := by
  refine { alike with values := forall₂_imp_of_mem alike.values fun value member value' same => ?_ }
  refine same.of_heap fun ref value_eq => kept ref ?_
  rw [← value_eq]
  exact List.mem_reverse.mpr member

theorem push (alike : Alike heap heap' stack stack') (same : Value.Alike heap heap' value value') :
    ResultsAgree (Alike heap heap') (stack.push value) (stack'.push value') := by
  have appended (capacity : Nat) : Alike heap heap'
      { stack with values := stack.values.append value capacity }
      { stack' with values := stack'.values.append value' capacity } :=
    ⟨.cons same alike.values, rfl, alike.config_eq⟩
  have overflow_eq : (!stack.config.growable && decide (stack.config.capacity ≤ stack.depth)) =
      (!stack'.config.growable && decide (stack'.config.capacity ≤ stack'.depth)) := by
    rw [alike.config_eq, alike.depth_eq]
  simp only [OperandStack.push, ValueArray.push, overflow_eq, alike.size_eq, alike.capacity_eq]
  split
  · rw [alike.config_eq]
    exact .error _
  · by_cases room : stack'.values.size < stack'.values.capacity
    · simp only [room, if_true]
      exact .ok (appended _)
    · simp only [room, if_false]
      by_cases full : ValueArray.maxCapacity < ValueArray.grownCapacity stack'.values.capacity
      · simp only [full, if_true]
        exact .error _
      · simp only [full, if_false]
        exact .ok (appended _)

theorem require_eq (alike : Alike heap heap' stack stack') (operation : String) (needed : Nat) :
    stack.require operation needed = stack'.require operation needed := by
  rw [require, require, alike.depth_eq]

theorem truncate (alike : Alike heap heap' stack stack') (depth : Nat) :
    Alike heap heap' (stack.truncate depth) (stack'.truncate depth) := by
  refine ⟨?_, alike.capacity_eq, alike.config_eq⟩
  simp only [OperandStack.truncate, ValueArray.truncate, alike.size_eq]
  exact List.forall₂_drop _ alike.values

theorem clear (alike : Alike heap heap' stack stack') :
    Alike heap heap' stack.clear stack'.clear :=
  alike.truncate 0

theorem pop (alike : Alike heap heap' stack stack') (operation : String) :
    ResultsAgree (fun popped popped' => Value.Alike heap heap' popped.1 popped'.1 ∧
      Alike heap heap' popped.2 popped'.2) (stack.pop operation) (stack'.pop operation) := by
  have shrunk : Alike heap heap' { stack with values := stack.values.pop }
      { stack' with values := stack'.values.pop } := by
    have truncated := alike.truncate (stack.values.size - 1)
    nth_rewrite 2 [alike.size_eq] at truncated
    exact truncated
  have values := alike.values
  simp only [OperandStack.pop, ValueArray.last?]
  generalize stack.values.reversed = reversed, stack'.values.reversed = reversed' at values ⊢
  cases values with
  | nil => exact .error _
  | cons top rest => exact .ok ⟨top, shrunk⟩

theorem pop2 (alike : Alike heap heap' stack stack') (operation : String) :
    ResultsAgree (fun popped popped' => Value.Alike heap heap' popped.1 popped'.1 ∧
      Value.Alike heap heap' popped.2.1 popped'.2.1 ∧ Alike heap heap' popped.2.2 popped'.2.2)
      (stack.pop2 operation) (stack'.pop2 operation) := by
  simp only [OperandStack.pop2, alike.require_eq]
  refine ResultsAgree.bind (.refl _) fun _ _ _ => ?_
  refine (alike.pop operation).bind fun upper upper' popped => ?_
  obtain ⟨right, shorter⟩ := popped
  refine (shorter.pop operation).bind fun lower lower' popped => ?_
  obtain ⟨left, shortest⟩ := popped
  exact .ok ⟨left, right, shortest⟩

theorem swapTop (alike : Alike heap heap' stack stack') (operation : String) :
    ResultsAgree (Alike heap heap') (stack.swapTop operation) (stack'.swapTop operation) := by
  simp only [OperandStack.swapTop, alike.require_eq]
  refine ResultsAgree.bind (.refl _) fun _ _ _ => .ok ⟨?_, alike.capacity_eq, alike.config_eq⟩
  have values := alike.values
  simp only [ValueArray.swapLast]
  generalize stack.values.reversed = reversed, stack'.values.reversed = reversed' at values ⊢
  cases values with
  | nil => exact .nil
  | cons first rest =>
      cases rest with
      | nil => exact .cons first .nil
      | cons second rest => exact .cons second (.cons first rest)

theorem top (alike : Alike heap heap' stack stack') (count : Nat) :
    List.Forall₂ (Value.Alike heap heap') (stack.top count) (stack'.top count) :=
  List.rel_reverse (List.forall₂_take count alike.values)

theorem peek (alike : Alike heap heap' stack stack') (below : Nat) :
    Option.Rel (Value.Alike heap heap') (stack.peek? below) (stack'.peek? below) := by
  simp only [peek?, alike.depth_eq, ValueArray.get?, alike.size_eq]
  split
  · split
    · exact forall₂_getElem? alike.values _
    · exact .none
  · exact .none

end OperandStack.Alike

/-! ## Machines -/

namespace Machine

/-- Natives that are the same builtin. -/
def SameBuiltin (entry entry' : NativeEntry) : Prop :=
  entry = entry' ∧ entry.native.Admitted true

/-- Machines that agree on what can be seen of them, strings being compared by content. -/
structure Alike (left right : Machine) : Prop where
  left_tame : left.heap.Tame
  right_tame : right.heap.Tame
  stack : OperandStack.Alike left.heap right.heap left.stack right.stack
  globals : ContentMap.Alike left.heap right.heap (Value.Alike left.heap right.heap) left.globals
    right.globals
  natives : ContentMap.Alike left.heap right.heap SameBuiltin left.natives right.natives
  code_eq : left.program.code = right.program.code
  constants : List.Forall₂ (left.heap.SameContent right.heap) left.program.constants
    right.program.constants
  offset_eq : left.offset = right.offset
  phase_eq : left.phase = right.phase
  sink_eq : left.sink = right.sink
  inNative_eq : left.inNative = right.inNative
  lastError_eq : left.lastError = right.lastError

namespace Alike

variable {left right : Machine}

theorem symm (alike : Alike left right) : Alike right left where
  left_tame := alike.right_tame
  right_tame := alike.left_tame
  stack := alike.stack.symm
  globals := alike.globals.symm fun _ _ same => same.symm
  natives := alike.natives.symm fun _ _ same => ⟨same.1.symm, same.1 ▸ same.2⟩
  code_eq := alike.code_eq.symm
  constants := List.Forall₂.flip (alike.constants.imp fun _ _ same => same.symm)
  offset_eq := alike.offset_eq.symm
  phase_eq := alike.phase_eq.symm
  sink_eq := alike.sink_eq.symm
  inNative_eq := alike.inNative_eq.symm
  lastError_eq := alike.lastError_eq.symm

theorem withStack (alike : Alike left right) {stack stack' : OperandStack}
    (same : OperandStack.Alike left.heap right.heap stack stack') :
    Alike { left with stack } { right with stack := stack' } :=
  { alike with stack := same }

theorem withGlobals (alike : Alike left right) {globals globals' : ContentMap Value}
    (same : ContentMap.Alike left.heap right.heap
      (Value.Alike left.heap right.heap) globals globals') :
    Alike { left with globals } { right with globals := globals' } :=
  { alike with globals := same }

/-- A machine looks as before when the strings that it holds keep their contents. -/
theorem of_left (alike : Alike left right) {heap : StringHeap} {pool : StringPool}
    {collector : Collector} {scratch : List Value} (tame : heap.Tame)
    (kept : ∀ ref ∈ left.held, ∀ bytes, left.heap.bytes? ref = some bytes →
      heap.bytes? ref = some bytes) :
    Alike { left with heap, pool, collector, scratch } right := by
  have value_kept {value value' : Value} (held : ∀ ref, value = .string ref → ref ∈ left.held)
      (same : Value.Alike left.heap right.heap value value') :
      Value.Alike heap right.heap value value' :=
    same.of_heap fun ref value_eq => kept ref (held ref value_eq)
  have key_kept {V : Type} {map : ContentMap V} (held : ∀ ref ∈ map.keys, ref ∈ left.held)
      (entry : StringRef × V) (member : entry ∈ map.entries) : ∀ bytes,
      left.heap.bytes? entry.1 = some bytes → heap.bytes? entry.1 = some bytes :=
    kept entry.1 (held entry.1 (List.mem_map_of_mem member))
  refine
    { alike with
      left_tame := tame
      stack := alike.stack.of_heap fun ref member => kept ref (mem_held_iff.mpr (.inl member))
      globals := alike.globals.of_heap (key_kept fun ref member => ?_)
        fun entry member value' same => value_kept (fun ref value_eq => ?_) same
      natives := alike.natives.of_heap (key_kept fun ref member => ?_) fun _ _ _ same => same
      constants := forall₂_imp_of_mem alike.constants fun ref member ref' same => ?_ }
  · obtain ⟨entry, stored, key_eq⟩ := List.mem_map.mp member
    exact mem_held_iff.mpr (.inr (.inl ⟨entry, stored, .inl key_eq⟩))
  · exact mem_held_iff.mpr (.inr (.inl ⟨entry, member, .inr value_eq⟩))
  · exact mem_held_iff.mpr (.inr (.inr (.inl member)))
  · obtain ⟨bytes, content, content'⟩ := same
    exact ⟨bytes, kept ref (mem_held_iff.mpr (.inr (.inr (.inr member)))) bytes content, content'⟩

theorem of_right (alike : Alike left right) {heap : StringHeap} {pool : StringPool}
    {collector : Collector} {scratch : List Value} (tame : heap.Tame)
    (kept : ∀ ref ∈ right.held, ∀ bytes, right.heap.bytes? ref = some bytes →
      heap.bytes? ref = some bytes) :
    Alike left { right with heap, pool, collector, scratch } :=
  (alike.symm.of_left tame kept).symm

/-- A collection cannot be seen. -/
theorem collect_left (alike : Alike left right) : Alike left.collect.2 right := by
  have evolves := left.collector.evolves_collect left.roots left.heap
  refine alike.of_left (alike.left_tame.of_evolves evolves nofun) fun ref member bytes content => ?_
  exact (Collector.bytes?_collect left.heap (mem_roots_of_mem_held member)).trans content

/-- Neither can what the collector is told. -/
theorem collector_left (alike : Alike left right) (collector : Collector) :
    Alike { left with collector } right :=
  alike.of_left alike.left_tame fun _ _ _ => id

end Alike

end Machine

end StackMachine
