import Reckoner.Proofs.Substitution

/-! The ways of writing a recursive rule. A rule that refers to itself may be tied once to a handle of its own, it may
    be unfolded by hand, and it may be put together anew whenever it comes to itself. In each case a run goes through
    the body in rounds, one within the other. How many rounds are allowed, and which bound holds for all else in each of
    them, makes no difference once it suffices (`answers_recursive_iff`), so each form is a way of counting rounds. -/

namespace Reckoner.Parser
open Reply Filter

variable {ι : Type} {τ : ι → Type} {α : Type}

/-! ### Rules that refer to themselves -/

/-- The body of a recursive parser with `q` in place of its own handle. -/
def withSelf (body : Parser (Extended α τ) α) (q : Parser τ α) : Parser τ α :=
  body.subst fun
    | none => q
    | some i => .handle i

/-- The rule that is put together anew whenever it comes to itself. The rule as a whole is no finite term; this one
    is put together so many times within itself, and then cut off. -/
def rebuilt (body : Parser (Extended α τ) α) : (level : Nat) → Parser τ α
  | 0 => .leaf fun _ _ => .halted .tooDeep
  | level + 1 => body.withSelf (.lazy fun _ => rebuilt body level)

/-- The definitions, with a handle `none` that is defined as `body`, which may use it. -/
def Definitions.tied (d : Definitions τ) (body : Parser (Extended α τ) α) : Definitions (Extended α τ) where
  parser?
    | none => some body
    | some i => (d.parser? i).map .weaken
  defined := none :: d.defined.map some
  mem_defined
    | none, _ => List.mem_cons_self
    | some i, hi => List.mem_cons_of_mem _ (List.mem_map_of_mem (d.mem_defined i (Option.isSome_map.symm.trans hi)))

/-! ### Unfoldings -/

variable {text : List Char} {depth : Nat}

section
variable (body : Parser (Extended α τ) α) (env : Environment τ) (s : State)

theorem exec_withSelf (q : Parser τ α) :
    exec text depth (body.withSelf q) env s = exec text depth body (env.extend (exec text depth q env)) s := by
  rw [withSelf, exec_subst]
  congr 1
  funext i
  cases i <;> rfl

/-- The rule that is put together `level` times is the recursive one that may unfold as often. -/
theorem exec_rebuilt (level : Nat) : exec text depth (rebuilt body level) env s =
    tie level (fun self => exec text depth body (env.extend self)) s := by
  induction level generalizing s with
  | zero => rfl
  | succ level ih =>
    rw [rebuilt, exec_withSelf, tie_succ]
    congr 2
    funext t
    exact ih t

end

/-- What `body` answers that may unfold `rounds` times within itself, at the bound `depth` for all else in it. -/
def unfolded (d : Definitions τ) (text : List Char) (body : Parser (Extended α τ) α) (rounds depth : Nat) :
    State → Reply α :=
  tie rounds fun self => exec text depth body ((d.environment text depth).extend self)

section
variable {d : Definitions τ} {body : Parser (Extended α τ) α} {s : State} {r : Reply α} {rounds rounds' depth' : Nat}

theorem unfolded_under (hrounds : rounds ≤ rounds') (hdepth : depth ≤ depth') (s : State) :
    (unfolded d text body rounds depth s).Under (unfolded d text body rounds' depth' s) :=
  rounds_under body hdepth (environment_under hdepth) hrounds s

/-- An answer that some rounds at some bound come to is the answer of all that are as many or more. -/
theorem unfolded_eq (hr : r ≠ .halted .tooDeep) (h : unfolded d text body rounds depth s = r)
    (hrounds : rounds ≤ rounds') (hdepth : depth ≤ depth') : unfolded d text body rounds' depth' s = r := by
  subst h
  exact (unfolded_under hrounds hdepth s).eq hr

/-- The rounds and the bound within each of them may be chosen apart from each other. -/
theorem answers_recursive_iff : Answers d text (.recursive body) s r ↔
    r ≠ .halted .tooDeep ∧ ∃ rounds depth, unfolded d text body rounds depth s = r := by
  refine and_congr_right fun hr => ⟨fun ⟨depth, h⟩ => ⟨depth, depth, h⟩, fun ⟨rounds, depth, h⟩ => ?_⟩
  exact ⟨max rounds depth, unfolded_eq hr h (le_max_left _ _) (le_max_right _ _)⟩

theorem answers_withSelf_iff :
    Answers d text (body.withSelf (.recursive body)) s r ↔ Answers d text (.recursive body) s r := by
  -- The unfolding by hand is one round more.
  have hround : ∀ depth, exec text depth (body.withSelf (.recursive body)) (d.environment text depth) s =
      unfolded d text body (depth + 1) depth s := fun _ => exec_withSelf body _ s _
  rw [answers_recursive_iff, Answers]
  refine and_congr_right fun hr => ⟨fun ⟨depth, h⟩ => ⟨_, _, (hround depth).symm.trans h⟩, fun ⟨rounds, depth, h⟩ => ?_⟩
  refine ⟨max rounds depth, (hround _).trans (unfolded_eq hr h ?_ (le_max_right _ _))⟩
  exact (le_max_left rounds depth).trans (Nat.le_succ _)

theorem answers_rebuilt_iff {level : Nat} : Answers d text (rebuilt body level) s r ↔
    r ≠ .halted .tooDeep ∧ ∃ depth, unfolded d text body level depth s = r := by
  simp only [Answers, exec_rebuilt, unfolded]

/-! ### Handles that are defined -/

theorem environment_tied_some (i : ι) (s : State) :
    (d.tied body).environment text depth (some i) s = d.environment text depth i s := by
  induction depth generalizing i s with
  | zero => rfl
  | succ depth ih =>
    cases hp : d.parser? i with
    | none =>
      simp only [Definitions.environment, Definitions.tied, hp]
      rfl
    | some p =>
      simp only [Definitions.environment, Definitions.tied, hp]
      exact congrArg (fun env => exec text depth p env s) (funext fun j => funext (ih j))

/-- The body runs in the same way as between handles whose definitions know nothing of it. -/
theorem environment_tied (depth : Nat) : (d.tied body).environment text depth =
    (d.environment text depth).extend ((d.tied body).environment text depth none) := by
  funext i s
  cases i with
  | none => rfl
  | some i => exact environment_tied_some i s

/-- What the handle of the body answers, where at most `depth` definitions run within each other. -/
def knot (d : Definitions τ) (text : List Char) (body : Parser (Extended α τ) α) (depth : Nat) : State → Reply α :=
  (d.tied body).environment text depth none

theorem exec_body_tied (depth : Nat) (s : State) :
    exec text depth body ((d.tied body).environment text depth) s = knot d text body (depth + 1) s := rfl

theorem knot_succ (depth : Nat) (s : State) : knot d text body (depth + 1) s =
    exec text depth body ((d.environment text depth).extend (knot d text body depth)) s :=
  congrArg (fun env => exec text depth body env s) (environment_tied depth)

theorem knot_under (hdepth : depth ≤ depth') (s : State) :
    (knot d text body depth s).Under (unfolded d text body depth depth' s) := by
  induction depth generalizing s with
  | zero => exact Or.inl rfl
  | succ depth ih =>
    have hle : depth ≤ depth' := Nat.le_of_succ_le hdepth
    rw [knot_succ]
    exact exec_under body hle (Environment.under_extend (ih hle) (environment_under hle)) s

theorem under_knot (rounds depth : Nat) (s : State) :
    (unfolded d text body rounds depth s).Under (knot d text body (depth + rounds) s) := by
  induction rounds generalizing s with
  | zero => exact Or.inl rfl
  | succ rounds ih =>
    have hle : depth ≤ depth + rounds := Nat.le_add_right depth rounds
    rw [← Nat.add_assoc, knot_succ]
    exact exec_under body hle (Environment.under_extend ih (environment_under hle)) s

/-- The body with a handle that is defined as the body itself. -/
theorem answers_tied_iff : Answers (d.tied body) text body s r ↔ Answers d text (.recursive body) s r := by
  rw [answers_recursive_iff]
  refine and_congr_right fun hr => ⟨?_, ?_⟩
  · rintro ⟨depth, h⟩
    rw [exec_body_tied] at h
    subst h
    exact ⟨_, _, (knot_under (Nat.le_refl (depth + 1)) s).eq hr⟩
  · rintro ⟨rounds, depth, h⟩
    -- One round more than are needed, since the body is run by itself first.
    have hmore : unfolded d text body (rounds + 1) depth s = r := unfolded_eq hr h (Nat.le_succ _) (Nat.le_refl _)
    subst hmore
    refine ⟨depth + rounds, ?_⟩
    rw [exec_body_tied]
    exact (under_knot (rounds + 1) depth s).eq hr

end

/-! ### The forms agree -/

/-- A recursive parser, its unfolding by hand, the rule that is put together anew whenever it comes to itself, and the
    body with a handle that is defined as that body come to the same answers, and to none where one of them comes to
    none. The rule that is put together anew does so as soon as it may do this often enough, and each bound on the run
    of a recursive parser is one on how often. -/
theorem recursive_forms_agree (d : Definitions τ) (text : List Char) (body : Parser (Extended α τ) α) (s : State)
    (r : Reply α) :
    (Answers d text (body.withSelf (.recursive body)) s r ↔ Answers d text (.recursive body) s r) ∧
    ((∃ level, Answers d text (rebuilt body level) s r) ↔ Answers d text (.recursive body) s r) ∧
    ((∀ᶠ level in atTop, Answers d text (rebuilt body level) s r) ↔ Answers d text (.recursive body) s r) ∧
    (Answers (d.tied body) text body s r ↔ Answers d text (.recursive body) s r) ∧
    (rebuilt body (d.depth text)).reply d text s = (Parser.recursive body).reply d text s := by
  have hrebuilt : (∃ level, Answers d text (rebuilt body level) s r) ↔ Answers d text (.recursive body) s r := by
    simp only [answers_rebuilt_iff, answers_recursive_iff, exists_and_left]
  refine ⟨answers_withSelf_iff, hrebuilt, ⟨fun h => hrebuilt.mp h.exists, fun h => ?_⟩, answers_tied_iff, ?_⟩
  · obtain ⟨hr, rounds, depth, h⟩ := answers_recursive_iff.mp h
    filter_upwards [eventually_ge_atTop rounds] with level hlevel
    exact answers_rebuilt_iff.mpr ⟨hr, depth, unfolded_eq hr h hlevel (Nat.le_refl _)⟩
  · exact exec_rebuilt body _ s _

end Reckoner.Parser
