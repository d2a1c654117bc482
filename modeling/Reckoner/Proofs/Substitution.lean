import Reckoner.Proofs.Bound

/-! Parsers in place of handles. A parser in which other parsers stand for its handles runs as it does when the
    handles mean what those run. Putting definitions in for handles level by level gives parsers without handles,
    and a parser that refers to definitions comes to an answer when these do, at some level. -/

namespace Reckoner.Parser
open Reply

variable {ι κ : Type} {τ : ι → Type} {σ : κ → Type} {α β : Type} {text : List Char} {depth : Nat}

/-! ### Substitution -/

/-- What stands for the handles in the body of a recursive parser: its own handle stays. -/
def extendWith (parsers : (i : ι) → Parser σ (τ i)) : (i : Option ι) → Parser (Extended β σ) (Extended β τ i)
  | none => .handle none
  | some i => (parsers i).weaken

/-- The parser with `parsers` in place of its handles. -/
def subst : {ι : Type} → {τ : ι → Type} → {α : Type} → Parser τ α → {κ : Type} → {σ : κ → Type} →
    ((i : ι) → Parser σ (τ i)) → Parser σ α
  | _, _, _, .literal text, _, _, _ => .literal text
  | _, _, _, .pure value, _, _, _ => .pure value
  | _, _, _, .fail, _, _, _ => .fail
  | _, _, _, .leaf action, _, _, _ => .leaf action
  | _, _, _, .chain p step, _, _, parsers => .chain (p.subst parsers) fun a => (step a).subst parsers
  | _, _, _, .map p f, _, _, parsers => .map (p.subst parsers) f
  | _, _, _, .or p q, _, _, parsers => .or (p.subst parsers) (q.subst parsers)
  | _, _, _, .label p name, _, _, parsers => .label (p.subst parsers) name
  | _, _, _, .lazy make, _, _, parsers => .lazy fun _ => (make ()).subst parsers
  | _, τ, _, @Parser.handle _ .(τ) i, _, _, parsers => parsers i
  | _, _, _, .recursive body, _, _, parsers => .recursive (body.subst (extendWith parsers))
  | _, _, _, .weaken p, _, _, parsers => p.subst fun i => parsers (some i)

theorem exec_extendWith (parsers : (i : ι) → Parser σ (τ i)) (env : Environment σ) (self : State → Reply β) :
    (fun i => exec text depth (extendWith parsers i) (env.extend self)) =
      Environment.extend self fun i => exec text depth (parsers i) env := by
  funext i
  cases i <;> rfl

/-- The parser runs as it does when its handles mean what is put in their place. -/
theorem exec_subst (p : Parser τ α) (parsers : (i : ι) → Parser σ (τ i)) (env : Environment σ) (s : State) :
    exec text depth (p.subst parsers) env s = exec text depth p (fun i => exec text depth (parsers i) env) s := by
  induction p generalizing κ s with
  | literal _ | pure _ | fail | leaf _ | handle _ => rfl
  | chain p f ihp ihf =>
    simp only [subst, exec_chain]
    rw [ihp]
    simp only [ihf]
  | map p f ih =>
    simp only [subst, exec_map]
    rw [ih]
  | or p q ihp ihq =>
    simp only [subst, exec_or]
    rw [ihp]
    simp only [ihq]
  | label p name ih =>
    simp only [subst, exec_label]
    rw [ih]
  | lazy make ih => exact ih () parsers env s
  | weaken p ih => exact ih (fun i => parsers (some i)) env s
  | recursive body ih =>
    have hbody : (fun self => exec text depth (body.subst (extendWith parsers)) (env.extend self)) =
        fun self => exec text depth body (Environment.extend self fun i => exec text depth (parsers i) env) := by
      funext self t
      rw [ih, exec_extendWith]
    simp only [subst, exec_recursive]
    rw [hbody]

/-! ### Definitions in place of handles -/

/-- The parsers that stand for handles when each handle is replaced by its definition, `level` times one within the
    other, and below that by a parser that is cut off. A handle without a definition is replaced by one that never
    matches. -/
def spelled (definition? : (i : ι) → Option (Parser τ (τ i))) : (level : Nat) → (i : ι) → Closed (τ i)
  | 0, _ => .leaf fun _ _ => .halted .tooDeep
  | level + 1, i =>
    match definition? i with
    | none => .fail
    | some p => p.subst (spelled definition? level)

/-- The parser with definitions in place of its handles, `level` times one within the other. -/
def spell (p : Parser τ α) (definition? : (i : ι) → Option (Parser τ (τ i))) (level : Nat) : Closed α :=
  p.subst (spelled definition? level)

section
variable {d : Definitions τ} {p : Parser τ α} {s : State} {r : Reply α} {level : Nat}

/-- A run in which the handles mean their definitions, put in for them `level` times. -/
theorem exec_spell (env : Environment fun i : Empty => nomatch i) : exec text depth (p.spell d.parser? level) env s =
    exec text depth p (fun i => exec text depth (spelled d.parser? level i) env) s := exec_subst p _ env s

theorem environment_under_spelled (env : Environment fun i : Empty => nomatch i) (hlevel : level ≤ depth) (i : ι)
    (s : State) :
    (d.environment text level i s).Under (exec text depth (spelled d.parser? level i) env s) := by
  induction level generalizing i s with
  | zero => exact Or.inl rfl
  | succ level ih =>
    simp only [Definitions.environment, spelled]
    cases hp : d.parser? i with
    | none => exact .refl _
    | some p =>
      simp only [exec_subst]
      exact exec_under p (Nat.le_of_succ_le hlevel) (ih (Nat.le_of_succ_le hlevel)) s

theorem spelled_under_environment (env : Environment fun i : Empty => nomatch i) (i : ι) (s : State) :
    (exec text depth (spelled d.parser? level i) env s).Under (d.environment text (depth + level) i s) := by
  induction level generalizing i s with
  | zero => exact Or.inl rfl
  | succ level ih =>
    simp only [Definitions.environment, spelled]
    cases hp : d.parser? i with
    | none => exact .refl _
    | some p =>
      simp only [exec_subst]
      exact exec_under p (Nat.le_add_right depth level) ih s

/-- A parser that refers to definitions comes to an answer when it does with these put in for the handles, often
    enough. -/
theorem answers_iff_spell :
    Answers d text p s r ↔ ∃ level, Answers .empty text (p.spell d.parser? level) s r := by
  constructor
  · rintro ⟨hr, depth, rfl⟩
    refine ⟨depth, hr, depth, ?_⟩
    rw [exec_spell]
    exact (exec_under p (Nat.le_refl depth) (environment_under_spelled _ (Nat.le_refl depth)) s).eq hr
  · rintro ⟨level, hr, depth, rfl⟩
    refine ⟨hr, depth + level, ?_⟩
    rw [exec_spell] at hr ⊢
    exact (exec_under p (Nat.le_add_right depth level) (spelled_under_environment _) s).eq hr

/-- What a run leaves that is not cut off. -/
theorem exists_spell_of_ends {input : String} (hends : (p.runWith d input).result ≠ .halted .tooDeep) :
    ∃ level r, Answers .empty input.toList (p.spell d.parser? level) {} r ∧
      p.runWith d input = r.outcome input.toList := by
  have hanswers : Answers d input.toList p {} (p.reply d input.toList {}) := by
    refine ⟨fun hcut => hends ?_, _, rfl⟩
    rw [runWith, hcut]
    rfl
  obtain ⟨level, hlevel⟩ := answers_iff_spell.mp hanswers
  exact ⟨level, _, hlevel, rfl⟩

end

end Reckoner.Parser
