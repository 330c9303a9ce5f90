import Mathlib.Data.List.Basic
import Mathlib.Data.List.Induction
import StackMachine.Builder
import StackMachine.Proofs.Verification

/-!
# Building makes well-formed code

A client asks a builder for instructions, pool entries and labels in any order.  What the code is to
decode to is read off the requests alone: a jump to a label takes its target from the requests that
follow it.  Every request keeps the code equal to the encodings of these instructions, binding
included, which rewrites the target of one jump in the middle of the code.  When an instruction
follows every binding, the program is well formed.
-/

namespace StackMachine

namespace Builder

/-! ## Requests -/

/-- An instruction that refers neither to the pool nor to an offset. -/
structure Bare where
  /-- The instruction. -/
  instruction : Instruction
  poolIndex?_eq_none : instruction.poolIndex? = none
  jumpTarget?_eq_none : instruction.jumpTarget? = none

/-- What an instruction does with a pool string. -/
inductive Use where
  | push
  | store
  | load
  | call (argumentCount : UInt8)

/-- The instruction that makes use of the pool string at an index. -/
def Use.instruction : Use → UInt32 → Instruction
  | push, index => .pushString index
  | store, index => .storeGlobal index
  | load, index => .loadGlobal index
  | call argumentCount, index => .callNative index argumentCount

/-- When a jump to a label is taken. -/
inductive Condition where
  | always
  | onFalse

/-- The jump that is taken on a condition. -/
def Condition.jump : Condition → UInt32 → Instruction
  | always, target => .jump target
  | onFalse, target => .jumpIfFalse target

/-- What a client asks of a builder. Labels go by their numbers in the order in which they are
handed out. -/
inductive Request where
  /-- An instruction. -/
  | emit (bare : Bare)
  /-- An instruction that uses the string of a given content. -/
  | emitNamed (use : Use) (bytes : List UInt8)
  /-- The index of a content. -/
  | intern (bytes : List UInt8)
  /-- A pool entry, whether or not there is one of this content. -/
  | pushString (bytes : List UInt8)
  /-- A jump to a new label. -/
  | jump (condition : Condition)
  /-- A jump to a given offset. -/
  | jumpTo (target : UInt32)
  /-- That a label lead to the current offset. -/
  | bind (label : Nat)

/-- A builder and the labels it has handed out. -/
structure Session where
  /-- The builder. -/
  builder : Builder := {}
  /-- The labels in order. -/
  labels : List Label := []

namespace Session

/-- Serves a request. There is nothing to bind in a label that was not handed out. -/
def perform (session : Session) : Request → Session
  | .emit bare => { session with builder := session.builder.emit bare.instruction }
  | .emitNamed use bytes =>
    { session with builder := session.builder.emitInterned bytes use.instruction }
  | .intern bytes => { session with builder := (session.builder.intern bytes).2 }
  | .pushString bytes => { session with builder := (session.builder.pushString bytes).2 }
  | .jump condition =>
    let (label, builder) := session.builder.emitPending condition.jump
    ⟨builder, session.labels ++ [label]⟩
  | .jumpTo target => { session with builder := session.builder.emit (.jump target) }
  | .bind label =>
    match session.labels[label]? with
    | some label => { session with builder := session.builder.bind label }
    | none => session

/-- Serves requests one after the other, with a new builder. -/
def run (requests : List Request) : Session :=
  requests.foldl perform {}

theorem run_append_singleton (requests : List Request) (request : Request) :
    run (requests ++ [request]) = (run requests).perform request :=
  List.foldl_append

end Session

/-! ## What is asked for -/

namespace Request

/-- The number of bytes of code that a request adds. -/
def codeLength : Request → Nat
  | emit bare => bare.instruction.encodedLength
  | emitNamed use _ => (use.instruction 0).encodedLength
  | jump condition => (condition.jump 0).encodedLength
  | jumpTo target => (Instruction.jump target).encodedLength
  | intern _ | pushString _ | bind _ => 0

/-- The labels that a request at an offset is answered with. A label holds the place after the
opcode of its jump. -/
def labels (offset : Nat) : Request → List Label
  | jump _ => [⟨offset + 1⟩]
  | _ => []

/-- Whether a request binds a label. -/
def binds (label : Nat) : Request → Bool
  | bind other => other == label
  | _ => false

end Request

/-- The number of bytes of code that requests add. -/
def codeLength : List Request → Nat
  | [] => 0
  | request :: rest => request.codeLength + codeLength rest

/-- The offset that a label is bound to by requests that start at a given offset. A label that is
bound again leads to the last offset. -/
def boundTo? (label : Nat) : (offset : Nat) → List Request → Option Nat
  | _, [] => none
  | offset, request :: rest =>
    (boundTo? label (offset + request.codeLength) rest).or
      (if request.binds label then some offset else none)

/-- The instruction that a request asks for, when the next label has a given number and the requests
after it start at a given offset. A jump leads to where its label is bound, or else to zero. -/
def Request.instruction? (pool : List (List UInt8)) (label offset : Nat) (rest : List Request) :
    Request → Option Instruction
  | emit bare => some bare.instruction
  | emitNamed use bytes => some (use.instruction (UInt32.ofNat (pool.idxOf bytes)))
  | jump condition => some (condition.jump (UInt32.ofNat ((boundTo? label offset rest).getD 0)))
  | jumpTo target => some (.jump target)
  | intern _ | pushString _ | bind _ => none

/-- The instructions that requests ask for, the next label having a given number and the requests
starting at a given offset. Strings stand at the first place in the pool with their content. -/
def instructionsFrom (pool : List (List UInt8)) :
    (label offset : Nat) → List Request → List Instruction
  | _, _, [] => []
  | label, offset, request :: rest =>
    (request.instruction? pool label (offset + request.codeLength) rest).toList ++
      instructionsFrom pool (label + (request.labels offset).length) (offset + request.codeLength)
        rest

/-- The labels that requests are answered with. -/
def labelsFrom : (offset : Nat) → List Request → List Label
  | _, [] => []
  | offset, request :: rest =>
    request.labels offset ++ labelsFrom (offset + request.codeLength) rest

/-! ## Lengths and places -/

theorem Use.encodedLength_instruction (use : Use) (index : UInt32) :
    (use.instruction index).encodedLength = (use.instruction 0).encodedLength := by
  cases use <;> rfl

theorem Condition.encodedLength_jump (condition : Condition) (target : UInt32) :
    (condition.jump target).encodedLength = 5 := by
  cases condition <;> rfl

theorem Condition.encode_jump (condition : Condition) (target : UInt32) :
    (condition.jump target).encode =
      (condition.jump 0).opcode.byte :: LittleEndian.bytes 4 target.toNat := by
  cases condition <;> rfl

theorem Request.length_flatMap_encode_instruction? (request : Request) (pool : List (List UInt8))
    (label offset : Nat) (rest : List Request) :
    ((request.instruction? pool label offset rest).toList.flatMap Instruction.encode).length =
      request.codeLength := by
  cases request with
  | emitNamed use bytes =>
      simp [instruction?, codeLength, use.encodedLength_instruction (UInt32.ofNat _)]
  | jump condition => simp [instruction?, codeLength, condition.encodedLength_jump]
  | _ => simp [instruction?, codeLength]

/-- The instructions take up the code that the requests add. -/
theorem length_flatMap_encode_instructionsFrom (pool : List (List UInt8)) (label offset : Nat)
    (requests : List Request) :
    ((instructionsFrom pool label offset requests).flatMap Instruction.encode).length =
      codeLength requests := by
  induction requests generalizing label offset with
  | nil => rfl
  | cons request rest induction =>
      rw [instructionsFrom, List.flatMap_append, List.length_append, induction,
        Request.length_flatMap_encode_instruction?, codeLength]

/-! ## One more request -/

theorem boundTo?_append_bind (label offset : Nat) (requests : List Request) :
    boundTo? label offset (requests ++ [.bind label]) = some (offset + codeLength requests) := by
  induction requests generalizing offset with
  | nil => simp [boundTo?, codeLength, Request.binds]
  | cons request rest induction =>
      rw [List.cons_append, boundTo?, induction, Option.some_or, codeLength, Nat.add_assoc]

theorem boundTo?_append_of_binds_eq_false {label : Nat} {request : Request}
    (other : request.binds label = false) (offset : Nat) (requests : List Request) :
    boundTo? label offset (requests ++ [request]) = boundTo? label offset requests := by
  induction requests generalizing offset with
  | nil => simp [boundTo?, other]
  | cons first rest induction => rw [List.cons_append, boundTo?, boundTo?, induction]

/-- What follows a request matters to a jump only, for the place that its label is bound to. -/
theorem Request.instruction?_append {request last : Request} {label offset : Nat}
    (kept : request.labels offset = [] ∨ last.binds label = false) (pool : List (List UInt8))
    (start : Nat) (rest : List Request) :
    request.instruction? pool label start (rest ++ [last]) =
      request.instruction? pool label start rest := by
  cases request with
  | jump condition =>
      have other := kept.resolve_left (List.cons_ne_nil _ _)
      rw [instruction?, instruction?, boundTo?_append_of_binds_eq_false other]
  | _ => rfl

theorem Request.instruction?_nil (request : Request) (pool : List (List UInt8))
    (label offset : Nat) :
    request.instruction? pool label offset [] = request.instruction? pool 0 0 [] := by
  cases request <;> rfl

/-- Unless it binds one of their labels, a further request leaves the instructions as they are. -/
theorem instructionsFrom_append_singleton {request : Request} {label offset : Nat}
    {requests : List Request} (pool : List (List UInt8))
    (unbound : ∀ bound, request.binds bound = true →
      bound < label ∨ label + (labelsFrom offset requests).length ≤ bound) :
    instructionsFrom pool label offset (requests ++ [request]) =
      instructionsFrom pool label offset requests ++ (request.instruction? pool 0 0 []).toList := by
  induction requests generalizing label offset with
  | nil =>
      rw [List.nil_append, instructionsFrom, instructionsFrom, instructionsFrom, List.append_nil,
        List.nil_append, request.instruction?_nil pool label]
  | cons first rest induction =>
      simp only [labelsFrom, List.length_append] at unbound
      have kept : first.labels offset = [] ∨ request.binds label = false := by
        cases binds : request.binds label with
        | false => exact .inr rfl
        | true =>
            have bounds := unbound label binds
            exact .inl (List.length_eq_zero_iff.mp (by omega))
      have later : ∀ bound, request.binds bound = true →
          bound < label + (first.labels offset).length ∨
            label + (first.labels offset).length +
              (labelsFrom (offset + first.codeLength) rest).length ≤ bound := by
        intro bound binds
        have bounds := unbound bound binds
        omega
      rw [List.cons_append, instructionsFrom, instructionsFrom, Request.instruction?_append kept,
        induction later, List.append_assoc]

/-- Binding the first label changes the target of the first jump alone. -/
theorem instructionsFrom_jump_append_bind (pool : List (List UInt8)) (label offset : Nat)
    (condition : Condition) (rest : List Request) :
    instructionsFrom pool label offset (.jump condition :: rest ++ [.bind label]) =
      condition.jump (UInt32.ofNat (offset + codeLength (.jump condition :: rest))) ::
        instructionsFrom pool (label + 1) (offset + (Request.jump condition).codeLength) rest := by
  have earlier : ∀ bound, (Request.bind label).binds bound = true → bound < label + 1 := by
    intro bound binds
    rw [← eq_of_beq binds]
    exact Nat.lt_succ_self label
  have untouched : instructionsFrom pool (label + 1) (offset + (Request.jump condition).codeLength)
      (rest ++ [.bind label]) = instructionsFrom pool (label + 1) _ rest ++ [] :=
    instructionsFrom_append_singleton pool fun bound binds => .inl (earlier bound binds)
  rw [List.append_nil] at untouched
  rw [List.cons_append, instructionsFrom, Request.instruction?, boundTo?_append_bind,
    codeLength, ← Nat.add_assoc]
  exact congrArg _ untouched

/-- Binding a label changes the target of one jump, the one that was answered with it. -/
theorem exists_instructionsFrom_bind {label offset number : Nat} {requests : List Request}
    {found : Label} (pool : List (List UInt8))
    (handed : (labelsFrom offset requests)[number]? = some found) :
    ∃ front condition target back,
      instructionsFrom pool label offset requests =
          front ++ Condition.jump condition target :: back ∧
        found.position = offset + (front.flatMap Instruction.encode).length + 1 ∧
        instructionsFrom pool label offset (requests ++ [.bind (label + number)]) =
          front ++ condition.jump (UInt32.ofNat (offset + codeLength requests)) :: back := by
  induction requests generalizing label offset number with
  | nil => cases handed
  | cons first rest induction =>
      rw [labelsFrom] at handed
      by_cases here : number < (first.labels offset).length
      · cases first with
        | jump condition =>
            obtain rfl : number = 0 := Nat.lt_one_iff.mp here
            cases handed
            exact ⟨[], condition, _, _, rfl, rfl,
              instructionsFrom_jump_append_bind pool label offset condition rest⟩
        | _ => cases here
      · rw [List.getElem?_append_right (Nat.not_lt.mp here)] at handed
        obtain ⟨later, rfl⟩ := Nat.exists_eq_add_of_le (Nat.not_lt.mp here)
        rw [Nat.add_sub_cancel_left] at handed
        obtain ⟨front, condition, target, back, before_eq, position_eq, after_eq⟩ :=
          @induction (label + (first.labels offset).length) _ _ handed
        have kept : first.labels offset = [] ∨
            (Request.bind (label + ((first.labels offset).length + later))).binds label =
              false := by
          cases answered : first.labels offset with
          | nil => exact .inl rfl
          | cons => exact .inr (beq_eq_false_iff_ne.mpr (by rw [List.length_cons]; omega))
        have length_eq := first.length_flatMap_encode_instruction? pool label
          (offset + first.codeLength) rest
        refine ⟨(first.instruction? pool label (offset + first.codeLength) rest).toList ++ front,
          condition, target, back, ?_, ?_, ?_⟩
        · rw [instructionsFrom, before_eq, List.append_assoc]
        · rw [position_eq, List.flatMap_append, List.length_append, length_eq, Nat.add_assoc offset]
        · rw [List.cons_append, instructionsFrom, Request.instruction?_append kept, ← Nat.add_assoc,
            after_eq, List.append_assoc, codeLength, Nat.add_assoc offset]

/-! ## The pool -/

/-- Every content that requests name is in the pool. -/
def Named (pool : List (List UInt8)) (requests : List Request) : Prop :=
  ∀ use bytes, .emitNamed use bytes ∈ requests → bytes ∈ pool

/-- Contents that are in the pool keep their first places when it grows. -/
theorem instructionsFrom_append_pool {pool : List (List UInt8)} {requests : List Request}
    (named : Named pool requests) (more : List (List UInt8)) (label offset : Nat) :
    instructionsFrom (pool ++ more) label offset requests =
      instructionsFrom pool label offset requests := by
  induction requests generalizing label offset with
  | nil => rfl
  | cons request rest induction =>
      have later := induction fun use bytes member =>
        named use bytes (List.mem_cons_of_mem _ member)
      rw [instructionsFrom, instructionsFrom, later]
      cases request with
      | emitNamed use bytes =>
          have present := named use bytes List.mem_cons_self
          rw [Request.instruction?, Request.instruction?, List.idxOf_append_of_mem present]
      | _ => rfl

/-- What a builder makes of a content: the code stays, the pool grows at its end, and the answer is
the first place of the content. -/
structure Interned (builder : Builder) (bytes : List UInt8) (index : UInt32) (after : Builder) :
    Prop where
  code_eq : after.code = builder.code
  grown : ∃ more, after.strings = builder.strings ++ more
  present : bytes ∈ after.strings
  index_eq : index = UInt32.ofNat (after.strings.idxOf bytes)

theorem interned_intern (builder : Builder) (bytes : List UInt8) :
    Interned builder bytes (builder.intern bytes).1 (builder.intern bytes).2 := by
  cases found : builder.strings.idxOf? bytes with
  | some index =>
      have present : bytes ∈ builder.strings := List.isSome_idxOf?.mp (by rw [found]; rfl)
      have index_eq : builder.strings.idxOf bytes = index := by
        rw [List.idxOf_eq_getD_idxOf?, found, Option.getD_some]
      rw [intern, found]
      exact ⟨rfl, ⟨[], (List.append_nil _).symm⟩, present, by rw [index_eq]⟩
  | none =>
      have absent := List.idxOf?_eq_none_iff.mp found
      have index_eq : (builder.strings ++ [bytes]).idxOf bytes = builder.strings.length := by
        rw [List.idxOf_append_of_notMem absent, List.idxOf_cons_self, Nat.add_zero]
      rw [intern, found]
      refine ⟨rfl, ⟨[bytes], rfl⟩, List.mem_append_right _ List.mem_cons_self, ?_⟩
      rw [pushString, index_eq]

/-! ## Sessions -/

/-- The instructions that requests ask for. -/
def instructions (pool : List (List UInt8)) (requests : List Request) : List Instruction :=
  instructionsFrom pool 0 0 requests

/-- A session in which requests have been served: its code is the encodings of the instructions that
they ask for. -/
structure Serves (session : Session) (requests : List Request) : Prop where
  code_eq : session.builder.code =
    (instructions session.builder.strings requests).flatMap Instruction.encode
  labels_eq : session.labels = labelsFrom 0 requests
  named : Named session.builder.strings requests

theorem serves_empty : Serves {} [] :=
  ⟨rfl, rfl, fun _ _ member => by cases member⟩

theorem Serves.length_code {session : Session} {requests : List Request}
    (serves : Serves session requests) : session.builder.code.length = codeLength requests := by
  rw [serves.code_eq]
  exact length_flatMap_encode_instructionsFrom _ 0 0 requests

theorem labelsFrom_append_singleton (offset : Nat) (requests : List Request) (request : Request) :
    labelsFrom offset (requests ++ [request]) =
      labelsFrom offset requests ++ request.labels (offset + codeLength requests) := by
  induction requests generalizing offset with
  | nil => simp [labelsFrom, codeLength]
  | cons first rest induction =>
      rw [List.cons_append, labelsFrom, labelsFrom, induction, codeLength, Nat.add_assoc,
        List.append_assoc]

/-- A request that binds nothing extends the code by the instruction it asks for. -/
theorem Serves.extend {session after : Session} {requests : List Request} {request : Request}
    (serves : Serves session requests) (binds : ∀ label, request.binds label = false)
    (grown : ∃ more, after.builder.strings = session.builder.strings ++ more)
    (code_eq : after.builder.code = session.builder.code ++
      (request.instruction? after.builder.strings 0 0 []).toList.flatMap Instruction.encode)
    (labels_eq : after.labels = session.labels ++ request.labels session.builder.code.length)
    (named : ∀ use bytes, request = .emitNamed use bytes → bytes ∈ after.builder.strings) :
    Serves after (requests ++ [request]) := by
  obtain ⟨more, strings_eq⟩ := grown
  refine ⟨?_, ?_, fun use bytes member => ?_⟩
  · have appended : instructions after.builder.strings (requests ++ [request]) =
        instructions after.builder.strings requests ++
          (request.instruction? after.builder.strings 0 0 []).toList :=
      instructionsFrom_append_singleton _ fun bound found =>
        absurd ((binds bound).symm.trans found) Bool.false_ne_true
    have kept : instructions (session.builder.strings ++ more) requests =
        instructions session.builder.strings requests :=
      instructionsFrom_append_pool serves.named more 0 0
    rw [appended, List.flatMap_append, code_eq, serves.code_eq, strings_eq, kept]
  · rw [labels_eq, labelsFrom_append_singleton, serves.labels_eq, serves.length_code, Nat.zero_add]
  · rcases List.mem_append.mp member with earlier | last
    · rw [strings_eq]
      exact List.mem_append_left more (serves.named use bytes earlier)
    · exact named use bytes (List.mem_singleton.mp last).symm

theorem labelsFrom_append_bind (offset : Nat) (requests : List Request) (label : Nat) :
    labelsFrom offset (requests ++ [.bind label]) = labelsFrom offset requests := by
  rw [labelsFrom_append_singleton]
  exact List.append_nil _

theorem Named.append_bind {pool : List (List UInt8)} {requests : List Request}
    (named : Named pool requests) (label : Nat) : Named pool (requests ++ [.bind label]) := by
  intro use bytes member
  rcases List.mem_append.mp member with earlier | last
  · exact named use bytes earlier
  · cases List.mem_singleton.mp last

/-- Binding replaces the four bytes at the place that the label holds. -/
theorem code_bind {builder : Builder} {label : Label} {front word back : List UInt8}
    (code_eq : builder.code = front ++ (word ++ back)) (place : label.position = front.length)
    (width : word.length = 4) :
    (builder.bind label).code =
      front ++ (LittleEndian.bytes 4 builder.offset.toNat ++ back) := by
  have taken : builder.code.take label.position = front := by
    rw [code_eq, place, List.take_left]
  have dropped : builder.code.drop (label.position + 4) = back := by
    rw [code_eq, place, ← width, ← List.drop_drop, List.drop_left, List.drop_left]
  rw [bind, taken, dropped, List.append_assoc]

/-- Binding a label directs the one jump that was answered with it. -/
theorem Serves.bind {session : Session} {requests : List Request} {number : Nat} {label : Label}
    (serves : Serves session requests) (handed : session.labels[number]? = some label) :
    Serves { session with builder := session.builder.bind label }
      (requests ++ [.bind number]) := by
  rw [serves.labels_eq] at handed
  obtain ⟨front, condition, target, back, before_eq, position_eq, after_eq⟩ :=
    @exists_instructionsFrom_bind 0 0 number requests label session.builder.strings handed
  rw [Nat.zero_add, Nat.zero_add] at after_eq
  refine ⟨?_, ?_, serves.named.append_bind number⟩
  · have code_eq : session.builder.code =
        (front.flatMap Instruction.encode ++ [(condition.jump 0).opcode.byte]) ++
          (LittleEndian.bytes 4 target.toNat ++ back.flatMap Instruction.encode) := by
      rw [serves.code_eq, instructions, before_eq, List.flatMap_append, List.flatMap_cons,
        condition.encode_jump]
      simp
    have place : label.position =
        (front.flatMap Instruction.encode ++ [(condition.jump 0).opcode.byte]).length := by
      rw [position_eq, List.length_append, Nat.zero_add]
      rfl
    have bound := code_bind code_eq place (LittleEndian.length_bytes 4 _)
    rw [offset, serves.length_code] at bound
    rw [bound, instructions]
    dsimp only [Builder.bind]
    rw [after_eq, List.flatMap_append, List.flatMap_cons, condition.encode_jump]
    simp
  · rw [labelsFrom_append_bind]
    exact serves.labels_eq

/-- A label that was not handed out is no part of the instructions. -/
theorem Serves.bind_unknown {session : Session} {requests : List Request} {number : Nat}
    (serves : Serves session requests) (unknown : session.labels[number]? = none) :
    Serves session (requests ++ [.bind number]) := by
  rw [serves.labels_eq, List.getElem?_eq_none_iff] at unknown
  refine ⟨?_, ?_, serves.named.append_bind number⟩
  · have kept : instructions session.builder.strings (requests ++ [.bind number]) =
        instructions session.builder.strings requests ++ [] := by
      refine instructionsFrom_append_singleton _ fun bound binds => .inr ?_
      rwa [← eq_of_beq binds, Nat.zero_add]
    rw [kept, List.append_nil]
    exact serves.code_eq
  · rw [labelsFrom_append_bind]
    exact serves.labels_eq

/-- Every request keeps the code equal to the instructions asked for. -/
theorem Serves.perform {session : Session} {requests : List Request}
    (serves : Serves session requests) (request : Request) :
    Serves (session.perform request) (requests ++ [request]) := by
  have same : ∃ more, session.builder.strings = session.builder.strings ++ more :=
    ⟨[], (List.append_nil _).symm⟩
  have unlabelled : session.labels = session.labels ++ [] := (List.append_nil _).symm
  have unextended : session.builder.code = session.builder.code ++ [] := (List.append_nil _).symm
  cases request with
  | emit bare =>
      refine serves.extend (fun _ => rfl) same ?_ unlabelled nofun
      exact congrArg _ (List.append_nil _).symm
  | emitNamed use bytes =>
      obtain ⟨code_eq, grown, present, index_eq⟩ := interned_intern session.builder bytes
      refine serves.extend (fun _ => rfl) grown ?_ unlabelled fun _ _ same => ?_
      · simp only [Session.perform, emitInterned, Builder.emit, Request.instruction?, code_eq,
          index_eq, Option.toList_some, List.flatMap_singleton]
      · cases same
        exact present
  | intern bytes =>
      obtain ⟨code_eq, grown, -, -⟩ := interned_intern session.builder bytes
      exact serves.extend (fun _ => rfl) grown (code_eq.trans unextended) unlabelled nofun
  | pushString bytes =>
      exact serves.extend (fun _ => rfl) ⟨[bytes], rfl⟩ unextended unlabelled nofun
  | jump condition =>
      refine serves.extend (fun _ => rfl) same ?_ ?_ nofun
      · exact congrArg _ (List.append_nil _).symm
      · have place : (session.builder.code ++ (condition.jump 0).encode).length - 4 =
            session.builder.code.length + 1 := by
          rw [List.length_append, Instruction.length_encode, condition.encodedLength_jump]
          rfl
        exact congrArg (fun position => session.labels ++ [Label.mk position]) place
  | jumpTo target =>
      refine serves.extend (fun _ => rfl) same ?_ unlabelled nofun
      exact congrArg _ (List.append_nil _).symm
  | bind label =>
      rw [Session.perform]
      cases handed : session.labels[label]? with
      | some found => exact serves.bind handed
      | none => exact serves.bind_unknown handed

/-- However a builder is used, its code is the encodings of the instructions asked for. -/
theorem serves_run (requests : List Request) : Serves (Session.run requests) requests := by
  induction requests using List.reverseRecOn with
  | nil => exact serves_empty
  | append_singleton requests request induction =>
      rw [Session.run_append_singleton]
      exact induction.perform request

/-! ## Where jumps lead -/

theorem codeLength_append (before after : List Request) :
    codeLength (before ++ after) = codeLength before + codeLength after := by
  induction before with
  | nil => exact (Nat.zero_add _).symm
  | cons request before induction =>
      rw [List.cons_append, codeLength, codeLength, induction, Nat.add_assoc]

/-- Where a jump that requests ask for may lead, when they start at a given offset. -/
inductive LeadsTo (offset : Nat) (requests : List Request) : UInt32 → Prop
  | unbound : LeadsTo offset requests 0
  | given (before after : List Request) {target : UInt32}
      (split : requests = before ++ .jumpTo target :: after) : LeadsTo offset requests target
  | bound (before after : List Request) {label : Nat} {target : UInt32}
      (split : requests = before ++ .bind label :: after)
      (target_eq : target = UInt32.ofNat (offset + codeLength before)) :
      LeadsTo offset requests target

theorem exists_split_of_boundTo? {label offset place : Nat} {requests : List Request}
    (found : boundTo? label offset requests = some place) :
    ∃ before after, requests = before ++ .bind label :: after ∧
      place = offset + codeLength before := by
  induction requests generalizing offset with
  | nil => cases found
  | cons request rest induction =>
      rw [boundTo?, Option.or_eq_some_iff] at found
      rcases found with later | ⟨_, here⟩
      · obtain ⟨before, after, rfl, place_eq⟩ := induction later
        exact ⟨request :: before, after, rfl, by rw [place_eq, codeLength, Nat.add_assoc]⟩
      · obtain ⟨binds, place_eq⟩ := Option.ite_none_right_eq_some.mp here
        cases request with
        | bind other =>
            obtain rfl := eq_of_beq binds
            exact ⟨[], rest, rfl, (Option.some.inj place_eq).symm⟩
        | _ => cases binds

/-- Every instruction is asked for by one of the requests, with those after it still to come. -/
theorem exists_request_of_mem {pool : List (List UInt8)} {label offset : Nat}
    {requests : List Request} {instruction : Instruction}
    (member : instruction ∈ instructionsFrom pool label offset requests) :
    ∃ before request after number, requests = before ++ request :: after ∧
      request.instruction? pool number (offset + codeLength (before ++ [request])) after =
        some instruction := by
  induction requests generalizing label offset with
  | nil => cases member
  | cons request rest induction =>
      rcases List.mem_append.mp member with here | later
      · exact ⟨[], request, rest, label, rfl, Option.mem_toList.mp here⟩
      · obtain ⟨before, asked, after, number, split, asked_eq⟩ := induction later
        refine ⟨request :: before, asked, after, number, by rw [split]; rfl, ?_⟩
        rw [← asked_eq, List.cons_append, codeLength, Nat.add_assoc]

/-- A jump leads to where its label is bound, to the offset it was given, or to zero. -/
theorem leadsTo_of_mem {pool : List (List UInt8)} {label offset : Nat} {requests : List Request}
    {instruction : Instruction} {target : UInt32}
    (member : instruction ∈ instructionsFrom pool label offset requests)
    (jumps : instruction.jumpTarget? = some target) : LeadsTo offset requests target := by
  obtain ⟨before, request, after, number, rfl, asked⟩ := exists_request_of_mem member
  cases request with
  | emit bare =>
      cases asked
      cases bare.jumpTarget?_eq_none.symm.trans jumps
  | emitNamed use bytes =>
      cases asked
      cases use <;> cases jumps
  | jump condition =>
      cases asked
      have target_eq : target = UInt32.ofNat ((boundTo? number
          (offset + codeLength (before ++ [.jump condition])) after).getD 0) := by
        cases condition <;> exact (Option.some.inj jumps).symm
      cases found : boundTo? number (offset + codeLength (before ++ [.jump condition])) after with
      | none =>
          rw [target_eq, found]
          exact .unbound
      | some place =>
          obtain ⟨between, rest, rfl, place_eq⟩ := exists_split_of_boundTo? found
          have split : before ++ .jump condition :: (between ++ .bind number :: rest) =
              before ++ [.jump condition] ++ between ++ .bind number :: rest := by simp
          refine .bound _ rest split ?_
          rw [target_eq, found, Option.getD_some, place_eq, codeLength_append _ between,
            Nat.add_assoc]
  | jumpTo given =>
      cases asked
      cases jumps
      exact .given before after rfl
  | intern | pushString | bind => cases asked

/-- The pool operand of an instruction that requests ask for is the place of a content that they
name. -/
theorem lt_of_mem {pool : List (List UInt8)} {label offset : Nat} {requests : List Request}
    {instruction : Instruction} {index : UInt32} (named : Named pool requests)
    (member : instruction ∈ instructionsFrom pool label offset requests)
    (uses : instruction.poolIndex? = some index) : index.toNat < pool.length := by
  obtain ⟨before, request, after, number, rfl, asked⟩ := exists_request_of_mem member
  cases request with
  | emit bare =>
      cases asked
      cases bare.poolIndex?_eq_none.symm.trans uses
  | emitNamed use bytes =>
      cases asked
      have present := List.idxOf_lt_length_iff.mpr
        (named use bytes (List.mem_append_right _ List.mem_cons_self))
      have index_eq : index = UInt32.ofNat (pool.idxOf bytes) := by
        cases use <;> exact (Option.some.inj uses).symm
      rw [index_eq, UInt32.toNat_ofNat']
      exact Nat.lt_of_le_of_lt (Nat.mod_le _ _) present
  | jump condition =>
      cases asked
      cases condition <;> cases uses
  | jumpTo given =>
      cases asked
      cases uses
  | intern | pushString | bind => cases asked

theorem exists_instructionsFrom_append (pool : List (List UInt8)) (label offset : Nat)
    (before after : List Request) :
    ∃ front back, instructionsFrom pool label offset (before ++ after) = front ++ back ∧
      (front.flatMap Instruction.encode).length = codeLength before ∧
      (back.flatMap Instruction.encode).length = codeLength after := by
  induction before generalizing label offset with
  | nil =>
      exact ⟨[], instructionsFrom pool label offset after, rfl, rfl,
        length_flatMap_encode_instructionsFrom pool label offset after⟩
  | cons request before induction =>
      obtain ⟨front, back, split, front_length, back_length⟩ := induction
        (label + (request.labels offset).length) (offset + request.codeLength)
      refine ⟨(request.instruction? pool label (offset + request.codeLength)
        (before ++ after)).toList ++ front, back, ?_, ?_, back_length⟩
      · rw [List.cons_append, instructionsFrom, split, ← List.append_assoc]
      · rw [List.flatMap_append, List.length_append, front_length,
          Request.length_flatMap_encode_instruction?, codeLength]

/-- An instruction starts wherever more code is asked for. -/
theorem codeLength_mem_starts {pool : List (List UInt8)} {before after : List Request}
    (more : 0 < codeLength after) :
    codeLength before ∈
      (Instruction.placed 0 (instructions pool (before ++ after))).map Prod.fst := by
  obtain ⟨front, back, split, front_length, back_length⟩ :=
    exists_instructionsFrom_append pool 0 0 before after
  cases back with
  | nil => exact absurd back_length (Nat.ne_of_lt more)
  | cons instruction back =>
      rw [instructions, split]
      refine List.mem_map.mpr ⟨(codeLength before, instruction), ?_, rfl⟩
      exact Instruction.mem_placed_iff.mpr ⟨front, back, rfl, by rw [front_length, Nat.zero_add]⟩

/-- A client that binds labels only where more code follows, and gives jumps only offsets that it
has been told. -/
structure Followed (requests : List Request) : Prop where
  bound : ∀ before label after, requests = before ++ .bind label :: after →
    ∃ request ∈ after, 0 < request.codeLength
  given : ∀ before target after, requests = before ++ .jumpTo target :: after →
    ∃ earlier, earlier <+: before ∧ target = (Session.run earlier).builder.offset

theorem codeLength_pos {requests : List Request} {request : Request} (member : request ∈ requests)
    (positive : 0 < request.codeLength) : 0 < codeLength requests := by
  obtain ⟨before, after, rfl⟩ := List.append_of_mem member
  rw [codeLength_append, codeLength]
  omega

/-- Every jump leads to the start of an instruction. -/
theorem Followed.target_mem_starts {requests : List Request} (followed : Followed requests)
    (small : codeLength requests < UInt32.size) {pool : List (List UInt8)}
    {instruction : Instruction} {target : UInt32}
    (member : instruction ∈ instructions pool requests)
    (jumps : instruction.jumpTarget? = some target) :
    target.toNat ∈ (Instruction.placed 0 (instructions pool requests)).map Prod.fst := by
  have starts {before after : List Request} (split : requests = before ++ after)
      (more : 0 < codeLength after) (target_eq : target = UInt32.ofNat (codeLength before)) :
      target.toNat ∈ (Instruction.placed 0 (instructions pool requests)).map Prod.fst := by
    subst split
    rw [codeLength_append] at small
    rw [target_eq, UInt32.toNat_ofNat_of_lt' (by omega)]
    exact codeLength_mem_starts more
  cases leadsTo_of_mem member jumps with
  | unbound =>
      have some_code : 0 < codeLength requests := by
        rw [← length_flatMap_encode_instructionsFrom pool 0 0 requests]
        obtain ⟨front, back, split⟩ := List.append_of_mem member
        have positive := instruction.encodedLength_pos
        rw [← instructions, split, List.flatMap_append, List.flatMap_cons, List.length_append,
          List.length_append, Instruction.length_encode]
        omega
      exact starts (List.nil_append requests).symm some_code rfl
  | given before after split =>
      obtain ⟨earlier, ⟨between, rfl⟩, target_eq⟩ := followed.given before target after split
      rw [List.append_assoc] at split
      refine starts split ?_ ?_
      · exact codeLength_pos (List.mem_append_right _ List.mem_cons_self) (Nat.zero_lt_succ _)
      · rw [target_eq, offset, (serves_run earlier).length_code]
  | bound before after split target_eq =>
      obtain ⟨request, inside, positive⟩ := followed.bound before _ after split
      rw [Nat.zero_add] at target_eq
      exact starts split (codeLength_pos (List.mem_cons_of_mem _ inside) positive) target_eq

/-- The code of a program is what requests ask for, and no index or offset in it is too large for
its operand. -/
structure Realizes (program : Program) (requests : List Request) : Prop where
  /-- Decoding gives the instructions in order and reaches the end of the code. -/
  listing : program.listing = ⟨Instruction.placed 0 (instructions program.strings requests), none⟩
  /-- A content that is named is in the pool. -/
  named : Named program.strings requests
  index_exact : ∀ bytes ∈ program.strings,
    (UInt32.ofNat (program.strings.idxOf bytes)).toNat = program.strings.idxOf bytes
  offset_exact : ∀ before, before <+: requests →
    (UInt32.ofNat (codeLength before)).toNat = codeLength before

/-- However a builder is used, its code decodes to the instructions asked for.  The program is well
formed when the client binds labels only where more code follows and tells no jump an offset of its
own. -/
theorem program_run_well_formed (requests : List Request)
    (code_small : (Session.run requests).builder.code.length < UInt32.size)
    (pool_small : (Session.run requests).builder.strings.length < UInt32.size) :
    Realizes (Session.run requests).builder.program requests ∧
      (Followed requests → (Session.run requests).builder.program.verify = .ok ()) := by
  have serves := serves_run requests
  rw [serves.length_code] at code_small
  refine ⟨⟨?_, serves.named, fun bytes present => ?_, ?_⟩, fun followed => ?_⟩
  · rw [Program.listing, Listing.ofCode, program, serves.code_eq, Listing.decodeFrom_flatMap_encode]
  · exact UInt32.toNat_ofNat_of_lt' (Nat.lt_trans (List.idxOf_lt_length_iff.mpr present) pool_small)
  · rintro before ⟨after, rfl⟩
    rw [codeLength_append] at code_small
    exact UInt32.toNat_ofNat_of_lt' (Nat.lt_of_le_of_lt (Nat.le_add_right _ _) code_small)
  · exact Program.verify_eq_ok_iff_comprises.mpr ⟨_, serves.code_eq.symm,
      fun _ member _ uses => lt_of_mem serves.named member uses,
      fun _ member _ jumps => followed.target_mem_starts code_small member jumps⟩

/-- A client with three labels, the first two bound crosswise and the third left open, a pool entry
for a content that is there, and a jump back to an offset asked for before. -/
def crossedRequests : List Request :=
  [.emitNamed .push [97], .jump .onFalse, .pushString [97], .jump .always, .bind 1, .intern [98],
    .emitNamed .load [98], .bind 0, .emitNamed (.call 2) [97], .jump .onFalse, .jumpTo 10]

theorem followed_crossedRequests : Followed crossedRequests := by
  constructor
  · intro before label after split
    -- Both bindings are followed by the last jump.
    have last : Request.jumpTo 10 ∈ after := by
      simp [crossedRequests, List.cons_eq_append_iff] at split
      obtain ⟨_, _, ⟨_, _, rfl⟩ | ⟨_, _, rfl⟩⟩ := split <;> simp
    exact ⟨_, last, Nat.zero_lt_succ _⟩
  · intro before target after split
    simp [crossedRequests, List.cons_eq_append_iff] at split
    obtain ⟨rfl, rfl, _⟩ := split
    exact ⟨crossedRequests.take 2, ⟨_, rfl⟩, by decide⟩

theorem program_run_well_formed_crossedRequests :
    instructions (Session.run crossedRequests).builder.strings crossedRequests =
        [.pushString 0, .jumpIfFalse 20, .jump 15, .loadGlobal 2, .callNative 0 2, .jumpIfFalse 0,
          .jump 10] ∧
      Realizes (Session.run crossedRequests).builder.program crossedRequests ∧
      (Session.run crossedRequests).builder.program.verify = .ok () :=
  have well_formed := program_run_well_formed crossedRequests (by decide) (by decide)
  ⟨by decide, well_formed.1, well_formed.2 followed_crossedRequests⟩

end Builder

end StackMachine
