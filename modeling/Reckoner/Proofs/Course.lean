import Reckoner.Parser.Run

/-! The course of a run: what it does to the state, one step after the other. Parsers that are put together
    from the primitives look only at the text and at the cursor, so the course follows from where the run
    starts; what was expected or traced before has no part in it. Performing the steps in the state where the
    run starts gives the state in which it ends (`exec_eq_course`). -/

namespace Reckoner.Parser
variable {ι : Type} {τ : ι → Type} {α β : Type}

/-! ### Steps -/

/-- One thing that is done to the state of a parse. -/
inductive Step where
  /-- The cursor moves over `size` bytes. -/
  | advance (size : Nat)
  /-- The cursor is put at `offset`. -/
  | restore (offset : Nat)
  /-- `what` is noted at the cursor. -/
  | expect (what : String)
  /-- `name` is put in place of all that was expected at `offset`. -/
  | relabel (offset : Nat) (name : String)
  /-- An attempt is added to the trace. -/
  | record (attempt : Attempt)
  deriving DecidableEq, Repr

namespace Step

def perform : Step → State → State
  | .advance size, s => { s with offset := s.offset + size }
  | .restore offset, s => s.restore offset
  | .expect what, s => s.expect what
  | .relabel offset name, s => s.relabel offset name
  | .record attempt, s => s.record attempt

/-- Where the step leaves a cursor that was at `x`. -/
def move : Step → Nat → Nat
  | .advance size, x => x + size
  | .restore offset, _ => offset
  | .expect _, x | .relabel _ _, x | .record _, x => x

theorem offset_perform (step : Step) (s : State) : (step.perform s).offset = step.move s.offset := by
  cases step <;> rfl

end Step

/-- The state after the steps. -/
def perform (steps : List Step) (s : State) : State := steps.foldl (fun s step => step.perform s) s

/-- Where the steps leave a cursor that was at `x`. -/
def land (steps : List Step) (x : Nat) : Nat := steps.foldl (fun x step => step.move x) x

section
variable (step : Step) (steps steps' : List Step) (s : State) (x : Nat)

@[simp] theorem perform_nil : perform [] s = s := rfl

@[simp] theorem perform_cons : perform (step :: steps) s = perform steps (step.perform s) := rfl

@[simp] theorem perform_append : perform (steps ++ steps') s = perform steps' (perform steps s) :=
  List.foldl_append

@[simp] theorem land_nil : land [] x = x := rfl

@[simp] theorem land_cons : land (step :: steps) x = land steps (step.move x) := rfl

@[simp] theorem land_append : land (steps ++ steps') x = land steps' (land steps x) := List.foldl_append

@[simp] theorem offset_perform : (perform steps s).offset = land steps s.offset := by
  induction steps generalizing s with
  | nil => rfl
  | cons step steps ih => rw [perform_cons, ih, step.offset_perform, land_cons]

end

/-! ### Courses -/

/-- How a run ends, apart from its state. -/
inductive Ending (α : Type) where
  | matched (value : α)
  | noMatch
  | halted (fault : Fault)
  deriving DecidableEq, Repr

/-- What a run does to the state, in this order, and how it ends. -/
structure Course (α : Type) where
  ending : Ending α
  steps : List Step

namespace Course

/-- The answer of a run with this course that starts in the state `s`. -/
def reply (c : Course α) (s : State) : Reply α :=
  match c.ending with
  | .matched a => .matched a (perform c.steps s)
  | .noMatch => .noMatch (perform c.steps s)
  | .halted f => .halted f

/-- Goes on after a match, from where it left a cursor that was at `x`. -/
def andThen (c : Course α) (x : Nat) (next : α → Nat → Course β) : Course β :=
  match c.ending with
  | .matched a => ⟨(next a (land c.steps x)).ending, c.steps ++ (next a (land c.steps x)).steps⟩
  | .noMatch => ⟨.noMatch, c.steps⟩
  | .halted f => ⟨.halted f, c.steps⟩

/-- Goes on after a failure. -/
def orElse (c next : Course α) : Course α :=
  match c.ending with
  | .matched a => ⟨.matched a, c.steps⟩
  | .noMatch => ⟨next.ending, c.steps ++ next.steps⟩
  | .halted f => ⟨.halted f, c.steps⟩

def map (f : α → β) (c : Course α) : Course β := c.andThen 0 fun a _ => ⟨.matched (f a), []⟩

/-- The step, and then the rest. -/
def after (c : Course α) (step : Step) : Course α := ⟨c.ending, step :: c.steps⟩

/-- Puts the cursor back to `x` after a failure. -/
def backTo (c : Course α) (x : Nat) : Course α := c.orElse ⟨.noMatch, [.restore x]⟩

/-- The course of the rule `name` from `x`, when that of its body is `c`. -/
def label (c : Course α) (name : String) (x : Nat) : Course α :=
  match c.ending with
  | .matched a => ⟨.matched a, c.steps ++ [.record (.matched name x (land c.steps x))]⟩
  | .noMatch => ⟨.noMatch, c.steps ++ [.record (.failed name x), .relabel x name]⟩
  | .halted f => ⟨.halted f, c.steps⟩

/-- The course of a match of `expected` at `x`. -/
def literal (expected : String) (text : List Char) (x : Nat) : Course String :=
  match Text.dropBytes? text x with
  | none => ⟨.halted .badOffset, []⟩
  | some rest =>
    if expected.toList.isPrefixOf rest then
      match Text.dropBytes? text (x + Text.byteLength expected.toList) with
      | none => ⟨.halted .badOffset, []⟩
      | some _ => ⟨.matched expected, [.advance (Text.byteLength expected.toList)]⟩
    else ⟨.noMatch, [.expect s!"'{expected}'"]⟩

section
variable (c next : Course α) (s : State)

theorem andThen_reply (f : α → Nat → Course β) :
    (c.andThen s.offset f).reply s = (c.reply s).andThen fun a t => (f a t.offset).reply t := by
  obtain ⟨ending, steps⟩ := c
  cases ending with
  | matched a =>
    simp only [reply, andThen, Reply.andThen_matched, offset_perform]
    cases (f a (land steps s.offset)).ending <;> simp
  | noMatch | halted _ => rfl

theorem orElse_reply : (c.orElse next).reply s = (c.reply s).orElse fun t => next.reply t := by
  obtain ⟨ending, steps⟩ := c
  cases ending with
  | noMatch =>
    simp only [reply, orElse, Reply.orElse_noMatch]
    cases next.ending <;> simp
  | matched _ | halted _ => rfl

theorem map_reply (f : α → β) : (c.map f).reply s = (c.reply s).map f := by
  obtain ⟨ending, steps⟩ := c
  cases ending <;> simp [reply, map, andThen]

theorem after_reply (step : Step) : (c.after step).reply s = c.reply (step.perform s) := rfl

theorem backTo_reply (x : Nat) : (c.backTo x).reply s = (c.reply s).restore x := c.orElse_reply _ s

theorem label_reply (name : String) : (c.label name s.offset).reply s = (c.reply s).label name s.offset := by
  obtain ⟨ending, steps⟩ := c
  cases ending <;> simp [reply, label, Reply.label, Step.perform]

theorem literal_reply (expected : String) (text : List Char) :
    (literal expected text s.offset).reply s = matchLiteral expected text s := by
  unfold literal matchLiteral State.rest? State.advance?
  cases Text.dropBytes? text s.offset with
  | none => rfl
  | some rest =>
    by_cases h : expected.toList.isPrefixOf rest
    · cases hdrop : Text.dropBytes? text (s.offset + Text.byteLength expected.toList) <;>
        simp [h, reply, Step.perform]
    · simp [h, reply, Step.perform]

end

end Course

/-! ### Courses of parsers -/

/-- What the handles of a parser do, given where the cursor is. -/
abbrev CourseEnvironment (τ : ι → Type) := (i : ι) → Nat → Course (τ i)

/-- The environment in the body of a recursive parser that does `self`. -/
def CourseEnvironment.extend (self : Nat → Course α) (env : CourseEnvironment τ) :
    CourseEnvironment (Extended α τ)
  | none => self
  | some i => env i

/-- The recursive course given by `unfold`, cut off after `depth` unfoldings. -/
def unroll : Nat → ((Nat → Course α) → Nat → Course α) → Nat → Course α
  | 0, _, _ => ⟨.halted .tooDeep, []⟩
  | depth + 1, unfold, x => unfold (unroll depth unfold) x

/-- What `p` does from `x`. Of a leaf nothing is known but what it answers when nothing was expected or traced
    before. -/
def course (text : List Char) (depth : Nat) :
    {ι : Type} → {τ : ι → Type} → {α : Type} → Parser τ α → CourseEnvironment τ → Nat → Course α
  | _, _, _, .literal expected, _, x => .literal expected text x
  | _, _, _, .pure value, _, _ => ⟨.matched value, []⟩
  | _, _, _, .fail, _, _ => ⟨.noMatch, []⟩
  | _, _, _, .leaf action, _, x =>
    match action text { offset := x } with
    | .matched a t => ⟨.matched a, [.restore t.offset]⟩
    | .noMatch t => ⟨.noMatch, [.restore t.offset]⟩
    | .halted f => ⟨.halted f, []⟩
  | _, _, _, .chain p step, env, x =>
    (course text depth p env x).andThen x fun a y => (course text depth (step a) env y).backTo x
  | _, _, _, .map p f, env, x => (course text depth p env x).map f
  | _, _, _, .or p q, env, x =>
    (course text depth p env x).orElse ((course text depth q env x).after (.restore x))
  | _, _, _, .label p name, env, x => (course text depth p env x).label name x
  | _, _, _, .lazy make, env, x => course text depth (make ()) env x
  | _, τ, _, @Parser.handle _ .(τ) i, env, x => env i x
  | _, _, _, .recursive body, env, x => unroll depth (fun self => course text depth body (env.extend self)) x
  | _, _, _, .weaken p, env, x => course text depth p (fun i => env (some i)) x

/-- What handles do whose parsers are those of `d`, of which at most `depth` run within each other. -/
def Definitions.courses (d : Definitions τ) (text : List Char) : Nat → CourseEnvironment τ
  | 0, _, _ => ⟨.halted .tooDeep, []⟩
  | depth + 1, i, x =>
    match d.parser? i with
    | none => ⟨.noMatch, []⟩
    | some p => course text depth p (d.courses text depth) x

/-! ### Parsers without leaves -/

/-- The parser has no leaves, so it is put together from the primitives alone. -/
def LeafFree : {ι : Type} → {τ : ι → Type} → {α : Type} → Parser τ α → Prop
  | _, _, _, .literal _ | _, _, _, .pure _ | _, _, _, .fail => True
  | _, _, _, .leaf _ => False
  | _, _, _, .chain p step => LeafFree p ∧ ∀ a, LeafFree (step a)
  | _, _, _, .map p _ => LeafFree p
  | _, _, _, .or p q => LeafFree p ∧ LeafFree q
  | _, _, _, .label p _ => LeafFree p
  | _, _, _, .lazy make => LeafFree (make ())
  | _, τ, _, @Parser.handle _ .(τ) _ => True
  | _, _, _, .recursive body => LeafFree body
  | _, _, _, .weaken p => LeafFree p

/-- So have the parsers that define handles. -/
def Definitions.LeafFree (d : Definitions τ) : Prop := ∀ i p, d.parser? i = some p → Parser.LeafFree p

theorem Definitions.leafFree_empty : (Definitions.empty : Definitions τ).LeafFree := fun _ _ h => by cases h

/-! ### Runs follow their courses -/

section
variable {text : List Char} {depth : Nat}

theorem tie_eq_unroll {unfold : (State → Reply α) → State → Reply α}
    {unfold' : (Nat → Course α) → Nat → Course α}
    (h : ∀ (self : State → Reply α) (self' : Nat → Course α), (∀ s, self s = (self' s.offset).reply s) →
      ∀ s, unfold self s = (unfold' self' s.offset).reply s) :
    ∀ (k : Nat) (s : State), tie k unfold s = (unroll k unfold' s.offset).reply s
  | 0, _ => rfl
  | k + 1, s => h _ _ (tie_eq_unroll h k) s

theorem LeafFree.exec_eq_course {p : Parser τ α} (hp : LeafFree p) {env : Environment τ}
    {env' : CourseEnvironment τ} (henv : ∀ i s, env i s = (env' i s.offset).reply s) (s : State) :
    exec text depth p env s = (course text depth p env' s.offset).reply s := by
  induction p generalizing s with
  | literal expected => exact (Course.literal_reply s expected text).symm
  | pure _ | fail => rfl
  | leaf _ => exact hp.elim
  | chain p f ihp ihf =>
    simp only [exec_chain, course, Course.andThen_reply, Course.backTo_reply, ihp hp.1 henv, ihf _ (hp.2 _) henv]
  | map p f ih => rw [exec_map, course, Course.map_reply, ih hp henv]
  | or p q ihp ihq =>
    simp only [exec_or, course, Course.orElse_reply, Course.after_reply, ihp hp.1 henv, ihq hp.2 henv]
    rfl
  | label p name ih => rw [exec_label, course, Course.label_reply, ih hp henv]
  | lazy make ih => exact ih () hp henv s
  | handle i => exact henv i s
  | recursive body ih =>
    -- Both are cut off after as many unfoldings, so they are compared one unfolding at a time.
    refine tie_eq_unroll (fun self self' hself t => ih hp (fun i u => ?_) t) depth s
    cases i with
    | none => exact hself u
    | some i => exact henv i u
  | weaken p ih => exact ih hp (fun i => henv (some i)) s

theorem environment_eq_courses {d : Definitions τ} (hd : d.LeafFree) (i : ι) (s : State) :
    d.environment text depth i s = (d.courses text depth i s.offset).reply s := by
  induction depth generalizing i s with
  | zero => rfl
  | succ depth ih =>
    simp only [Definitions.environment, Definitions.courses]
    cases hp : d.parser? i with
    | none => rfl
    | some p => exact (hd i p hp).exec_eq_course ih s

/-- A parser without leaves answers what its course says, whatever was expected or traced before. -/
theorem exec_eq_course {p : Parser τ α} {d : Definitions τ} (hp : LeafFree p) (hd : d.LeafFree) (s : State) :
    exec text depth p (d.environment text depth) s =
      (course text depth p (d.courses text depth) s.offset).reply s :=
  hp.exec_eq_course (environment_eq_courses hd) s

end

end Reckoner.Parser
