import StackMachine.Proofs.Machine.Interpreter

/-!
# Calls and natives keep machines intact

Natives act on the machine through its interface alone, so they keep it intact as far as the natives
that they call do.  A builtin makes live results of live arguments.  A native of the host can return
any string it ever got hold of; `vetted` is the way to call natives that gives up when such a string
is gone.
-/

namespace StackMachine

/-! ## Vetted natives -/

instance (heap : StringHeap) (value : Value) : Decidable (value.LiveIn heap) :=
  decidable_of_iff (value.string?.all heap.contains = true) (by
    cases value with
    | string ref => simp [Value.string?, StringHeap.live_iff_contains]
    | _ => simp [Value.string?, Value.LiveIn])

/-- A call of a native, given up when a native of the host returns a string that is gone. -/
def Native.vet : Native → Action Value → Action Value
  | .builtin _, call => call
  | .host _, call => do
    let result ← call
    if result.LiveIn (← getThe Machine).heap then return result else Action.exhausted

namespace Machine

/-- The way to call natives with a given amount of fuel as long as no native of the host returns a
string that is gone. -/
def vetted : (fuel : Nat) → Invoker
  | 0, _, _ => Action.exhausted
  | fuel + 1, entry, arguments =>
    entry.native.vet (runEntry (performWith (vetted fuel) fuel) entry arguments)

variable {onlyBuiltins : Bool} {machine : Machine}

/-! ## Calls of the interface -/

/-- Ways to make calls that keep machines intact. -/
def KeepsIntact (onlyBuiltins : Bool) (perform : (call : Call) → Action call.Reply) : Prop :=
  ∀ (machine : Machine) (call : Call), machine.Intact onlyBuiltins →
    (perform call).Keeps (Follows onlyBuiltins) machine fun _ _ => True

theorem keeps_callNativeWith {invoke : Invoker} (careful : invoke.Careful onlyBuiltins)
    (name : String) (arguments : List Value) (intact : machine.Intact onlyBuiltins) :
    (callNativeWith invoke name arguments).Keeps (Follows onlyBuiltins) machine
      fun _ _ => True := by
  refine keeps_recorded_action (.get_bind ?_)
  cases found : machine.natives.getBytes? machine.heap (Utf8.encode name.toList) with
  | none => exact .throw
  | some entry =>
      obtain ⟨key, stored⟩ :=
        intact.natives_sound.exists_mem_of_getBytes? intact.natives_balanced found
      have admitted := intact.natives_admitted (key, entry) stored
      exact (careful machine entry arguments intact admitted).mono fun _ _ _ _ => trivial

theorem keepsIntact_performWith {invoke : Invoker} (careful : invoke.Careful onlyBuiltins)
    (fuel : Nat) : KeepsIntact onlyBuiltins (performWith invoke fuel) := by
  intro machine call intact
  cases call with
  | load image => exact (keeps_lift_follows (keeps_load image intact)).attempt
  | loadProgram program => exact (keeps_lift_follows (keeps_loadProgram program intact)).attempt
  | reset => exact (keeps_lift_follows keeps_reset).attempt
  | step => exact (keeps_stepWith careful intact).attempt
  | run limit => exact (keeps_runWith careful fuel limit intact).attempt
  | push value => exact (keeps_lift_follows (keeps_push value)).attempt
  | pop => exact .changing extends_pop.follows
  | getGlobal name => exact (keeps_lift_follows (keeps_getGlobal name intact)).attempt
  | setGlobal name value => exact (keeps_lift_follows (keeps_setGlobal name value intact)).attempt
  | newString bytes => exact (keeps_lift_follows (keeps_newString bytes)).attempt
  | intern text => exact (keeps_lift_follows (keeps_intern text)).attempt
  | unregister name =>
      rw [performWith]
      refine .changing ?_
      exact (extends_unregister name).follows
  | callNative name arguments => exact (keeps_callNativeWith careful name arguments intact).attempt
  | collect => exact .changing follows_collect
  | hasNative | setMode | setThreshold | clearError | text | bytes | equal | view =>
      rw [performWith]
      refine .changing (Extends.follows ?_)
      exact extends_of_same rfl rfl rfl rfl rfl

/-! ## Natives -/

variable {perform : (call : Call) → Action call.Reply}

/-- A script keeps a machine intact when the calls it makes do. -/
theorem keeps_script (performs : KeepsIntact false perform) :
    (script : Script) → {machine : Machine} → machine.Intact false →
      (script.run perform).Keeps (Follows false) machine fun _ _ => True
  | .finish result, machine, _ =>
    (keeps_lift_follows (Update.Keeps.ofExcept result)).mono fun _ _ _ _ => trivial
  | .call request next, machine, intact =>
    (performs machine request intact).bind fun reply _ followed _ =>
      keeps_script performs (next reply) (followed intact).1
  | .register name signature native next, machine, intact => by
    have admitted : native.Admitted false := by cases native <;> trivial
    refine (keeps_lift_follows (keeps_register name signature admitted)).attempt.bind
      fun outcome after followed _ => ?_
    exact keeps_script performs (next outcome) (followed intact).1

/-- A native keeps a machine intact, and a builtin makes a live result of live arguments. -/
theorem keeps_runNative (performs : KeepsIntact onlyBuiltins perform)
    {native : Native} (admitted : native.Admitted onlyBuiltins) (arguments : List Value)
    (intact : machine.Intact onlyBuiltins) :
    (runNative perform native arguments).Keeps (Follows onlyBuiltins) machine fun result after =>
      native.Admitted true → (∀ argument ∈ arguments, argument.LiveIn machine.heap) →
        result.LiveIn after.heap := by
  cases native with
  | builtin builtin =>
      exact (keeps_lift_follows (keeps_builtin builtin arguments)).mono fun _ _ _ live _ => live
  | host body =>
      obtain rfl : onlyBuiltins = false := admitted
      refine (keeps_script performs (body arguments) intact).mono fun _ _ _ _ builtin => ?_
      cases builtin

/-- A native runs on converted arguments, and its result is converted. -/
theorem keeps_converting (performs : KeepsIntact onlyBuiltins perform)
    {native : Native} (admitted : native.Admitted onlyBuiltins) (signature : Signature)
    (name : String) (arguments : List Value) (intact : machine.Intact onlyBuiltins) :
    (do
      let converted ← coerceArguments signature name arguments
      modify fun (machine : Machine) => { machine with scratch := machine.scratch ++ converted }
      let result ← runNative perform native converted
      coerceResult signature name result : Action Value).Keeps (Follows onlyBuiltins) machine
        fun result after =>
          native.Admitted true → (∀ argument ∈ arguments, argument.LiveIn machine.heap) →
            result.LiveIn after.heap := by
  refine (keeps_lift_follows (keeps_coerceArguments signature name arguments intact)).bind
    fun converted middle followed lives => ?_
  have scratched : Extends onlyBuiltins middle
      { middle with scratch := middle.scratch ++ converted } :=
    extends_of_same rfl rfl rfl rfl rfl
  have middle_intact := (followed intact).1
  refine (Action.Keeps.modify scratched.follows).bind fun _ started _ changed => ?_
  subst changed
  refine (keeps_runNative performs admitted converted (scratched middle_intact).1).bind
    fun result ended _ live => ?_
  refine (keeps_lift_follows (keeps_coerceResult signature name result)).mono
    fun last after _ last_live builtin arguments_live => ?_
  exact last_live (live builtin (lives arguments_live))

theorem keeps_runEntry (performs : KeepsIntact onlyBuiltins perform)
    {entry : NativeEntry} (admitted : entry.native.Admitted onlyBuiltins) (arguments : List Value)
    (intact : machine.Intact onlyBuiltins) :
    (runEntry perform entry arguments).Keeps (Follows onlyBuiltins) machine fun result after =>
      entry.native.Admitted true → (∀ argument ∈ arguments, argument.LiveIn machine.heap) →
        result.LiveIn after.heap := by
  unfold runEntry
  cases entry.signature with
  | none => exact keeps_runNative performs admitted arguments intact
  | some signature =>
      have restored (after : Machine) : Extends onlyBuiltins after
          { after with scratch := after.scratch.take machine.scratch.length } :=
        extends_of_same rfl rfl rfl rfl rfl
      have converting := keeps_converting performs admitted signature entry.name arguments intact
      refine .get_bind ((converting.afterwards fun after => (restored after).follows).mono
        fun result last _ ended => ?_)
      obtain ⟨after, _, rfl, live⟩ := ended
      exact live

/-! ## Careful natives -/

theorem careful_invoke (fuel : Nat) : (invoke fuel).Careful true := by
  induction fuel with
  | zero => exact fun _ _ _ _ _ => Action.keeps_exhausted
  | succ fuel induction =>
      intro machine entry arguments intact admitted
      have performs := keepsIntact_performWith induction fuel
      exact (keeps_runEntry performs admitted arguments intact).mono
        fun result after _ live => live admitted

/-- A vetted native of the host gives a live result whatever its arguments are. -/
theorem keeps_vet {native : Native} {call : Action Value} {arguments : List Value}
    (kept : call.Keeps (Follows onlyBuiltins) machine fun result after =>
      native.Admitted true → (∀ argument ∈ arguments, argument.LiveIn machine.heap) →
        result.LiveIn after.heap) :
    (native.vet call).Keeps (Follows onlyBuiltins) machine fun result after =>
      (∀ argument ∈ arguments, argument.LiveIn machine.heap) → result.LiveIn after.heap := by
  cases native with
  | builtin builtin => exact kept.mono fun _ _ _ live => live trivial
  | host body =>
      refine kept.bind fun result after _ _ => .get_bind ?_
      by_cases live : result.LiveIn after.heap
      · rw [if_pos live]
        exact .pure fun _ => live
      · rw [if_neg live]
        exact Action.keeps_exhausted

theorem careful_vetted (fuel : Nat) : (vetted fuel).Careful false := by
  induction fuel with
  | zero => exact fun _ _ _ _ _ => Action.keeps_exhausted
  | succ fuel induction =>
      intro machine entry arguments intact admitted
      have performs := keepsIntact_performWith induction fuel
      exact keeps_vet (keeps_runEntry performs admitted arguments intact)

end Machine

end StackMachine
