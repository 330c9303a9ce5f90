import StackMachine.Signature
import StackMachine.Proofs.Outcome

/-!
# The language of signatures

The grammar of signatures is stated apart from the reader: type codes between commas, of which a
star may be the last, and an arrow with the code of the result.  Reading accepts exactly the texts
that follow it once their white space is dropped, and the text that is written for a signature is
one of them, so that signatures are told apart by their texts.
-/

namespace StackMachine

namespace ParameterType

theorem code_of_ofCode? {c : Char} {type : ParameterType} (known : ofCode? c = some type) :
    type.code = c := by
  simpa using List.find?_some known

/-- No type code is a separator, a star, part of an arrow or white space. -/
theorem code_ne (type : ParameterType) :
    type.code ≠ ',' ∧ type.code ≠ '*' ∧ type.code ≠ '-' ∧ Text.isWhiteSpace type.code = false := by
  cases type <;> decide

end ParameterType

namespace Signature

/-! ## The grammar -/

/-- A text lists types by their codes between commas, or a star in the last place. -/
inductive Lists : List Char → List ParameterType → (variadic : Bool) → Prop
  | star : Lists ['*'] [] true
  | last (type : ParameterType) : Lists [type.code] [type] false
  | comma (type : ParameterType) {rest : List Char} {types : List ParameterType} {variadic : Bool}
      (more : Lists rest types variadic) :
      Lists (type.code :: ',' :: rest) (type :: types) variadic

/-- A text spells the parameters of a signature: it lists them, or is empty when there are none. -/
inductive SpellsParameters : List Char → List ParameterType → (variadic : Bool) → Prop
  | none : SpellsParameters [] [] false
  | some {text : List Char} {types : List ParameterType} {variadic : Bool}
      (listed : Lists text types variadic) : SpellsParameters text types variadic

/-- A text without white space spells a signature; without an arrow the result may be anything. -/
inductive Spells : List Char → Signature → Prop
  | plain {front : List Char} {types : List ParameterType} {variadic : Bool}
      (parameters : SpellsParameters front types variadic) : Spells front ⟨types, variadic, .any⟩
  | arrow {front : List Char} {types : List ParameterType} {variadic : Bool}
      (parameters : SpellsParameters front types variadic) (result : ParameterType) :
      Spells (front ++ ['-', '>', result.code]) ⟨types, variadic, result⟩

theorem Lists.not_mem {text : List Char} {types : List ParameterType} {variadic : Bool}
    (listed : Lists text types variadic) :
    ∀ c ∈ text, c ≠ '-' ∧ Text.isWhiteSpace c = false := by
  induction listed with
  | star => exact List.forall_mem_singleton.mpr (by decide)
  | last type => simpa using type.code_ne.2.2
  | comma type more induction =>
      exact List.forall_mem_cons.mpr ⟨type.code_ne.2.2,
        List.forall_mem_cons.mpr ⟨by decide, induction⟩⟩

theorem SpellsParameters.not_mem {text : List Char} {types : List ParameterType} {variadic : Bool}
    (spelled : SpellsParameters text types variadic) :
    ∀ c ∈ text, c ≠ '-' ∧ Text.isWhiteSpace c = false := by
  cases spelled with
  | none => simp
  | some listed => exact listed.not_mem

/-! ## Splitting -/

/-- The text before an arrow that is the first one. -/
theorem splitArrow?_append {front : List Char} (plain : ∀ c ∈ front, c ≠ '-') (after : List Char) :
    splitArrow? (front ++ '-' :: '>' :: after) = some (front, after) := by
  induction front with
  | nil => rfl
  | cons c front induction =>
      obtain ⟨here, later⟩ := List.forall_mem_cons.mp plain
      rw [List.cons_append, splitArrow?, induction later]
      · rfl
      · rintro rest rfl
        exact absurd rfl here

theorem splitArrow?_eq_none {text : List Char} (plain : ∀ c ∈ text, c ≠ '-') :
    splitArrow? text = none := by
  induction text with
  | nil => rfl
  | cons c text induction =>
      obtain ⟨here, later⟩ := List.forall_mem_cons.mp plain
      rw [splitArrow?, induction later]
      · rfl
      · rintro rest rfl
        exact absurd rfl here

theorem eq_of_splitArrow? {text front after : List Char}
    (split : splitArrow? text = some (front, after)) : text = front ++ '-' :: '>' :: after := by
  fun_induction splitArrow? text generalizing front with
  | case1 => cases split
  | case2 rest =>
      cases split
      rfl
  | case3 c rest _ induction =>
      obtain ⟨⟨before, found⟩, inner, same⟩ := Option.map_eq_some_iff.mp split
      cases same
      rw [induction inner, List.cons_append]

theorem splitCommas_ne_nil (text : List Char) : splitCommas text ≠ [] := by
  fun_induction splitCommas text <;> simp

/-- The first part is the whole text, or a comma and the text of the other parts follow it. -/
theorem splitCommas_eq_cons {text part : List Char} {rest : List (List Char)}
    (split : splitCommas text = part :: rest) :
    text = part ∧ rest = [] ∨ ∃ more, text = part ++ ',' :: more ∧ splitCommas more = rest := by
  induction text generalizing part rest with
  | nil =>
      cases split
      exact .inl ⟨rfl, rfl⟩
  | cons c text induction =>
      rw [splitCommas] at split
      split at split
      · rename_i comma
        cases split
        exact .inr ⟨text, by rw [comma]; rfl, rfl⟩
      · cases tail : splitCommas text with
        | nil => exact absurd tail (splitCommas_ne_nil text)
        | cons first others =>
            rw [tail] at split
            cases split
            rcases induction tail with ⟨rfl, rfl⟩ | ⟨more, rfl, others_eq⟩
            · exact .inl ⟨rfl, rfl⟩
            · exact .inr ⟨more, rfl, others_eq⟩

theorem splitCommas_code_cons (type : ParameterType) (rest : List Char) :
    splitCommas (type.code :: ',' :: rest) = [type.code] :: splitCommas rest := by
  rw [splitCommas, if_neg type.code_ne.1, splitCommas, if_pos rfl]

/-! ## Reading -/

theorem readParameters_code_cons (type : ParameterType) (rest : List (List Char)) :
    readParameters ([type.code] :: rest) =
      (readParameters rest).map fun (types, variadic) => (type :: types, variadic) := by
  have solid := type.code_ne.2.1
  rw [readParameters, ParameterType.ofCode?_code]
  · exact fun _ star => solid star
  · exact solid

/-- The parts between commas are read exactly as the parameters that the text lists. -/
theorem readParameters_splitCommas_eq_ok_iff {text : List Char} {types : List ParameterType}
    {variadic : Bool} :
    readParameters (splitCommas text) = .ok (types, variadic) ↔ Lists text types variadic := by
  constructor
  · intro read
    generalize parts : splitCommas text = split at read
    fun_induction readParameters split generalizing text types variadic with
    | case1 => exact absurd parts (splitCommas_ne_nil text)
    | case2 =>
        cases read
        rcases splitCommas_eq_cons parts with ⟨rfl, _⟩ | ⟨more, _, none⟩
        · exact .star
        · exact absurd none (splitCommas_ne_nil more)
    | case3 => cases read
    | case4 => cases read
    | case5 c rest _ _ type known induction =>
        obtain ⟨⟨later, ended⟩, inner, same⟩ := map_eq_ok_iff.mp read
        cases same
        obtain rfl := ParameterType.code_of_ofCode? known
        rcases splitCommas_eq_cons parts with ⟨rfl, rfl⟩ | ⟨more, rfl, more_eq⟩
        · cases inner
          exact .last type
        · exact .comma type (induction more_eq inner)
    | case6 => cases read
  · intro listed
    induction listed with
    | star => rfl
    | last type => cases type <;> rfl
    | comma type more induction =>
        rw [splitCommas_code_cons, readParameters_code_cons, induction]
        rfl

theorem readResult_eq_ok_iff {text : List Char} {type : ParameterType} :
    readResult text = .ok type ↔ text = [type.code] := by
  constructor
  · intro read
    unfold readResult at read
    split at read
    · split at read
      · rename_i known
        cases read
        rw [ParameterType.code_of_ofCode? known]
      · cases read
    · cases read
  · rintro rfl
    rw [readResult, ParameterType.ofCode?_code]

/-- The parameters before an arrow, or those of a text without one. -/
theorem readFront_eq_ok_iff {front : List Char} {types : List ParameterType} {variadic : Bool} :
    readParameters (if front.isEmpty then [] else splitCommas front) = .ok (types, variadic) ↔
      SpellsParameters front types variadic := by
  cases front with
  | nil =>
      constructor
      · intro read
        cases read
        exact .none
      · rintro (_ | listed)
        · rfl
        · cases listed
  | cons c front =>
      rw [List.isEmpty_cons, if_neg Bool.false_ne_true, readParameters_splitCommas_eq_ok_iff]
      constructor
      · exact .some
      · rintro (_ | listed)
        exact listed

theorem readCompact_eq_ok_iff {text : List Char} {signature : Signature} :
    readCompact text = .ok signature ↔ Spells text signature := by
  constructor
  · intro read
    unfold readCompact at read
    split at read
    · rename_i front after arrow
      obtain ⟨result, declared, read⟩ := bind_eq_ok_iff.mp read
      obtain ⟨_, same, read⟩ := bind_eq_ok_iff.mp read
      cases same
      obtain ⟨⟨types, variadic⟩, parameters, finished⟩ := bind_eq_ok_iff.mp read
      cases finished
      rw [eq_of_splitArrow? arrow, readResult_eq_ok_iff.mp declared]
      exact .arrow (readFront_eq_ok_iff.mp parameters) result
    · obtain ⟨_, same, read⟩ := bind_eq_ok_iff.mp read
      cases same
      obtain ⟨⟨types, variadic⟩, parameters, finished⟩ := bind_eq_ok_iff.mp read
      cases finished
      exact .plain (readFront_eq_ok_iff.mp parameters)
  · rintro (spelled | ⟨spelled, result⟩)
    · rename_i types variadic
      have split := splitArrow?_eq_none fun c member => (spelled.not_mem c member).1
      have parameters := readFront_eq_ok_iff.mpr spelled
      simp only [readCompact, split, bind, Except.bind, pure, Except.pure, parameters]
    · rename_i front types variadic
      have split := splitArrow?_append (fun c member => (spelled.not_mem c member).1) [result.code]
      have parameters := readFront_eq_ok_iff.mpr spelled
      have declared := readResult_eq_ok_iff.mpr (rfl : [result.code] = [result.code])
      simp only [readCompact, split, bind, Except.bind, pure, Except.pure, parameters, declared]

theorem read_eq_ok_iff {text : String} {signature : Signature} :
    read text = .ok signature ↔
      Spells (text.toList.filter fun c => !Text.isWhiteSpace c) signature := by
  rw [← readCompact_eq_ok_iff, read]
  split
  · rename_i found compact
    rw [compact, Except.ok.injEq, Except.ok.injEq]
  · rename_i reason compact
    rw [compact]
    exact iff_of_false nofun nofun

/-! ## Writing -/

/-- Written parameters that are at least one list themselves. -/
theorem lists_intercalate (types : List ParameterType) (variadic : Bool)
    (nonempty : types ≠ [] ∨ variadic = true) :
    Lists (List.intercalate [','] (types.map (fun type => [type.code]) ++
      if variadic then [['*']] else [])) types variadic := by
  induction types with
  | nil =>
      obtain rfl : variadic = true := nonempty.resolve_left fun some => some rfl
      exact .star
  | cons type types induction =>
      by_cases more : types ≠ [] ∨ variadic = true
      · have listed := Lists.comma type (induction more)
        obtain ⟨first, others, parts⟩ : ∃ first others,
            types.map (fun type => [type.code]) ++ (if variadic then [['*']] else []) =
              first :: others := by
          refine List.exists_cons_of_ne_nil ?_
          rcases more with some | rfl <;> simp_all
        rw [parts] at listed
        rw [List.map_cons, List.cons_append, parts, List.intercalate_cons_cons]
        exact listed
      · obtain ⟨rfl, rfl⟩ : types = [] ∧ variadic = false := by simpa using more
        exact .last type

theorem spellsParameters_intercalate (signature : Signature) :
    SpellsParameters (List.intercalate [','] signature.parameterTexts) signature.parameters
      signature.variadic := by
  obtain ⟨types, variadic, result⟩ := signature
  by_cases nonempty : types ≠ [] ∨ variadic = true
  · exact .some (lists_intercalate types variadic nonempty)
  · obtain ⟨rfl, rfl⟩ : types = [] ∧ variadic = false := by simpa using nonempty
    exact .none

/-- The text of a signature spells it, and holds no white space. -/
theorem read_text (signature : Signature) : read signature.text = .ok signature := by
  have parameters := spellsParameters_intercalate signature
  have solid : ∀ c ∈ signature.text.toList, Text.isWhiteSpace c = false := by
    intro c member
    rw [text, String.toList_ofList] at member
    rcases List.mem_append.mp member with front | back
    · exact (parameters.not_mem c front).2
    · have marks : ∀ c ∈ ['-', '>', signature.result.code], Text.isWhiteSpace c = false := by
        simpa using ⟨by decide, by decide, signature.result.code_ne.2.2.2⟩
      exact marks c back
  rw [read_eq_ok_iff, List.filter_eq_self.mpr fun c member => by rw [solid c member]; rfl, text,
    String.toList_ofList]
  exact .arrow parameters signature.result

theorem text_injective : Function.Injective text := by
  intro first second same
  have read := read_text first
  rw [same, read_text] at read
  exact (Except.ok.inj read).symm

/-- Reading accepts exactly the texts that spell a signature once their white space is dropped, and
gives the signature that they spell.  The text of any signature reads back to it, so that two texts
are read as one signature exactly when the texts written for what they are read as are equal. -/
theorem read_follows_grammar_and_text :
    (∀ (source : String) (signature : Signature), read source = .ok signature ↔
      Spells (source.toList.filter fun c => !Text.isWhiteSpace c) signature) ∧
    (∀ signature : Signature, read signature.text = .ok signature) ∧
    ∀ (source source' : String) (signature signature' : Signature),
      read source = .ok signature → read source' = .ok signature' →
        (signature = signature' ↔ signature.text = signature'.text) :=
  ⟨fun _ _ => read_eq_ok_iff, read_text, fun _ _ _ _ _ _ => text_injective.eq_iff.symm⟩

theorem read_of_scattered_arrow :
    ∃ signature signature',
      read "s ,\t*\u2003- > a" = .ok signature ∧ read "s,*" = .ok signature' ∧
        signature = signature' ∧ signature.text = signature'.text ∧
        read signature.text = .ok signature := by
  obtain ⟨spelled, written, told_apart⟩ := read_follows_grammar_and_text
  have parameters : SpellsParameters ['s', ',', '*'] [.string] true := .some (.comma .string .star)
  have compact : "s ,\t*\u2003- > a".toList.filter (fun c => !Text.isWhiteSpace c) =
      ['s', ',', '*'] ++ ['-', '>', ParameterType.any.code] := by
    decide +kernel
  have scattered : read "s ,\t*\u2003- > a" = .ok ⟨[.string], true, .any⟩ :=
    (spelled _ _).mpr (compact ▸ .arrow parameters .any)
  have short : read "s,*" = .ok ⟨[.string], true, .any⟩ := (spelled _ _).mpr (.plain parameters)
  exact ⟨_, _, scattered, short, rfl, (told_apart _ _ _ _ scattered short).mp rfl, written _⟩

end Signature

end StackMachine
