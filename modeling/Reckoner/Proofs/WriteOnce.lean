import Reckoner.Proofs.Substitution
import Reckoner.Workbench.Session

/-! Forward declarations over whole sessions. Declarations are made and defined, and parsers run, in any order; a
    parser may be put together at any time from any handles, also within definitions. What a run gives follows from
    the definitions that came first, each for its own handle: later ones change nothing, and runs neither. -/

namespace Reckoner.Parser
variable {ι : Type} {τ : ι → Type} {α : Type}

/-! ### Sessions -/

/-- One thing that is done in a session. Handles are taken and parsers put together without leaving anything behind,
    so that no operations stand for that. -/
inductive Operation (τ : ι → Type) where
  /-- Makes a forward declaration, which is not defined yet. -/
  | declare (i : ι)
  | define (i : ι) (p : Parser τ (τ i))
  | run {α : Type} (p : Parser τ α) (input : String)

/-- The first definition of handle `i` among the operations. -/
def firstDefinition? [DecidableEq ι] (i : ι) : List (Operation τ) → Option (Parser τ (τ i))
  | [] => none
  | .define j p :: operations => if h : j = i then some (h ▸ p) else firstDefinition? i operations
  | .declare _ :: operations | .run _ _ :: operations => firstDefinition? i operations

namespace Definitions
variable [DecidableEq ι] (d : Definitions τ) (operations more : List (Operation τ))

/-- The definitions after an operation. -/
def perform : Operation τ → Definitions τ
  | .declare _ | .run _ _ => d
  | .define i p => d.define i p

/-- The definitions after the operations, one after the other. -/
def after : Definitions τ := operations.foldl perform d

/-- The outcomes of the runs among the operations. -/
def outcomes (d : Definitions τ) : List (Operation τ) → List (Σ α : Type, Outcome α)
  | [] => []
  | .declare i :: operations => (d.perform (.declare i)).outcomes operations
  | .define i p :: operations => (d.perform (.define i p)).outcomes operations
  | .run p input :: operations => ⟨_, p.runWith d input⟩ :: (d.perform (.run p input)).outcomes operations

theorem parser?_after (i : ι) :
    (d.after operations).parser? i = (d.parser? i).or (firstDefinition? i operations) := by
  induction operations generalizing d with
  | nil => simp [after, firstDefinition?]
  | cons operation operations ih =>
    have hcons : d.after (operation :: operations) = (d.perform operation).after operations := rfl
    rw [hcons, ih]
    cases operation with
    | declare _ | run _ _ => rfl
    | define j p =>
      by_cases h : j = i
      · subst h
        have hself : (d.perform (.define j p)).parser? j = some ((d.parser? j).getD p) := d.parser?_define_self j p
        rw [hself]
        cases d.parser? j <;> simp [firstDefinition?]
      · have hother : (d.perform (.define j p)).parser? i = d.parser? i := d.parser?_define_of_ne j p h
        rw [hother]
        simp [firstDefinition?, h]

theorem outcomes_append :
    d.outcomes (operations ++ more) = d.outcomes operations ++ (d.after operations).outcomes more := by
  induction operations generalizing d with
  | nil => rfl
  | cons operation operations ih =>
    cases operation with
    | declare _ | define _ _ => exact ih _
    | run p input => exact congrArg _ (ih _)

/-- A second definition is dropped. -/
theorem define_of_isSome {i : ι} (h : (d.parser? i).isSome) (p : Parser τ (τ i)) : d.define i p = d := by
  obtain ⟨parser?, defined, mem_defined⟩ := d
  obtain ⟨q, hq⟩ := Option.isSome_iff_exists.mp h
  have hparser? : (fun j => (parser? j).or (if h : i = j then some (h ▸ p) else none)) = parser? := by
    funext j
    by_cases hj : i = j
    · subst hj
      rw [show parser? i = some q from hq, Option.some_or]
    · rw [dif_neg hj, Option.or_none]
  simp only [define, hparser?, show parser? i = some q from hq, Option.isSome_some, if_true]

end Definitions

/-! ### What a handle stands for -/

section
variable {d : Definitions τ} {text : List Char} {i : ι} {s : State} {r : Reply (τ i)}

theorem answers_handle {p : Parser τ (τ i)} (hp : d.parser? i = some p) :
    Answers d text (.handle i) s r ↔ Answers d text p s r := by
  refine and_congr_right fun hr => ⟨?_, ?_⟩
  · rintro ⟨depth, hdepth⟩
    cases depth with
    | zero => exact absurd hdepth.symm hr
    | succ depth =>
      simp only [exec_handle, Definitions.environment, hp] at hdepth
      exact ⟨depth, hdepth⟩
  · rintro ⟨depth, hdepth⟩
    refine ⟨depth + 1, ?_⟩
    simpa only [exec_handle, Definitions.environment, hp] using hdepth

/-- A handle without a definition fails where it is, and leaves the state as it is. -/
theorem answers_handle_undefined (hp : d.parser? i = none) : Answers d text (.handle i) s r ↔ r = .noMatch s := by
  constructor
  · rintro ⟨hr, depth, rfl⟩
    cases depth with
    | zero => exact absurd rfl hr
    | succ depth => simp only [exec_handle, Definitions.environment, hp]
  · rintro rfl
    exact ⟨by simp, 1, by simp only [exec_handle, Definitions.environment, hp]⟩

end

/-! ### Whole sessions -/

variable [DecidableEq ι]

/-- What a run in a session leaves is what its parser leaves in which each handle is read as the first definition
    that was given to it before, and these definitions in the same way; a handle that had none fails and leaves the
    state as it is. Another definition of a handle that has one changes nothing at all, and a run changes nothing
    that comes after it. -/
theorem first_definition_counts (before : List (Operation τ)) :
    let d := Definitions.empty.after before
    let first (i : ι) := firstDefinition? i before
    (∀ {α : Type} (p : Parser τ α) (input : String) (later : List (Operation τ)),
      Definitions.empty.outcomes (before ++ .run p input :: later) =
        Definitions.empty.outcomes before ++ ⟨α, p.runWith d input⟩ :: d.outcomes later ∧
      Definitions.empty.outcomes (before ++ later) = Definitions.empty.outcomes before ++ d.outcomes later ∧
      ((p.runWith d input).result ≠ .halted .tooDeep → ∃ level r,
        Answers .empty input.toList (p.spell first level) {} r ∧ p.runWith d input = r.outcome input.toList)) ∧
    (∀ {α : Type} (p : Parser τ α) (text : List Char) (s : State) (r : Reply α),
      Answers d text p s r ↔ ∃ level, Answers .empty text (p.spell first level) s r) ∧
    (∀ (i : ι) (text : List Char) (s : State) (r : Reply (τ i)), Answers d text (.handle i) s r ↔
      match first i with
      | some q => Answers d text q s r
      | none => r = .noMatch s) ∧
    ∀ (i : ι) (q : Parser τ (τ i)), (first i).isSome →
      Definitions.empty.after (before ++ [.define i q]) = d ∧
      ∀ later, Definitions.empty.outcomes (before ++ .define i q :: later) =
        Definitions.empty.outcomes (before ++ later) := by
  intro d first
  have hfirst : d.parser? = first := by
    funext i
    exact Definitions.parser?_after .empty before i
  rw [← hfirst]
  refine ⟨fun p input later => ⟨?_, ?_, exists_spell_of_ends⟩, fun p text s r => answers_iff_spell, ?_, ?_⟩
  · exact Definitions.outcomes_append .empty before _
  · exact Definitions.outcomes_append .empty before later
  · intro i text s r
    cases hi : d.parser? i with
    | some q => exact answers_handle hi
    | none => exact answers_handle_undefined hi
  · intro i q hi
    have hdefine : d.define i q = d := d.define_of_isSome hi q
    refine ⟨?_, fun later => ?_⟩
    · rw [Definitions.after, List.foldl_append]
      exact hdefine
    · rw [Definitions.outcomes_append, Definitions.outcomes_append]
      exact congrArg (fun e => Definitions.empty.outcomes before ++ Definitions.outcomes e later) hdefine

end Reckoner.Parser

namespace Reckoner.Workbench
open Reckoner.Parser

/-! ### Sessions at the workbench -/

namespace Session

/-- What a step of a session does to forward declarations, or runs. -/
def operation? (s : Session) : Action → Option (Operation fun _ : Nat => Value)
  | .bind _ _ => none
  | .forward _ => some (.declare s.declared)
  | .define name recipe => (s.forwards.lookup name).map fun number => .define number (s.parser recipe)
  | .run recipe input => some (.run (s.parser recipe) input)

def operations (s : Session) : List Action → List (Operation fun _ : Nat => Value)
  | [] => []
  | action :: actions => (s.operation? action).toList ++ (s.step action).1.operations actions

theorem definitions_step (s : Session) (action : Action) :
    (s.step action).1.definitions = s.definitions.after (s.operation? action).toList := by
  cases action with
  | bind _ _ | forward _ | run _ _ => rfl
  | define name recipe =>
    cases h : s.forwards.lookup name <;> simp [step, operation?, h, Definitions.after, Definitions.perform]

theorem outcomes_step (s : Session) (action : Action) : s.definitions.outcomes (s.operation? action).toList =
    (s.step action).2.toList.map fun outcome => ⟨Value, outcome⟩ := by
  cases action with
  | bind _ _ | forward _ | run _ _ => rfl
  | define name recipe => cases h : s.forwards.lookup name <;> simp [step, operation?, h, Definitions.outcomes]

/-- The runs of a session have the outcomes that its operations give, so the first definition counts there too. -/
theorem outcomes_operations (s : Session) (actions : List Action) :
    s.definitions.outcomes (s.operations actions) =
      ((s.steps actions).filterMap id).map fun outcome => ⟨Value, outcome⟩ := by
  induction actions generalizing s with
  | nil => rfl
  | cons action actions ih =>
    have hsteps : (s.steps (action :: actions)).filterMap id =
        (s.step action).2.toList ++ ((s.step action).1.steps actions).filterMap id := by
      show List.filterMap id ((s.step action).2 :: (s.step action).1.steps actions) = _
      cases h : (s.step action).2 <;> simp
    rw [operations, Definitions.outcomes_append, ← definitions_step, ih, outcomes_step, hsteps, List.map_append]

end Session
end Reckoner.Workbench
