import Reckoner.Proofs.Bound
import Reckoner.Proofs.Recursion

/-! Parsers put together from the rules of arithmetic, over words and expressions of any kind. All of them
    come to an end when what they are put together from does: recursion leads onward in them, whatever the
    words are. The rules of arithmetic themselves are among them, and end within a bound that the length of
    the text gives. -/

namespace Reckoner.Arithmetic
open Reckoner.Parser

variable {ι : Type} {τ : ι → Type} {α : Type} {text : List Char} {depth o : Nat}

/-! ### Assemblies -/

/-- A way to put a parser together from the rules. What stands in parentheses is an assembly again, or a
    parser that is given later and stands nowhere else. -/
inductive Assembly : Type → Type 1 where
  | number : Assembly Float
  | factor : Assembly Float
  | factorOver (enclosed : Assembly Float) : Assembly Float
  | tail (operators : List Operator) (symbols : ∀ operator ∈ operators, operator.symbol ≠ "")
    (operand : Assembly Float) : Assembly Fold
  | term (first : Assembly Float) (rest : Assembly Fold) : Assembly Float
  | expr (first : Assembly Float) (rest : Assembly Fold) : Assembly Float

namespace Assembly

/-- The assembled parser over numbers and spaces, with `inside` in the parentheses that are left open. -/
def parser (number : Parser τ Float) (space : Parser τ String) (inside : Parser τ Float) :
    {α : Type} → Assembly α → Parser τ α
  | _, .number => number
  | _, .factor => Arithmetic.factorOver inside number space
  | _, .factorOver enclosed => Arithmetic.factorOver (enclosed.parser number space inside) number space
  | _, .tail operators _ operand => Arithmetic.tail operators space (operand.parser number space inside)
  | _, .term first rest => termOver (first.parser number space inside) (rest.parser number space inside)
  | _, .expr first rest => exprOver (first.parser number space inside) (rest.parser number space inside)

/-- The assembled parser with itself in the parentheses that are left open. -/
def tied (number : Parser τ Float) (space : Parser τ String) (a : Assembly Float) : Parser τ Float :=
  .recursive (a.parser number.weaken space.weaken .self)

/-! The rules of arithmetic. -/

def termTail : Assembly Fold := .tail factorOperators (by decide) .factor

def exprTail : Assembly Fold := .tail termOperators (by decide) (.term .factor termTail)

def expression : Assembly Float := .expr (.term .factor termTail) exprTail

/-- The rules of arithmetic are assemblies, with the expression in the parentheses. -/
theorem parser_expression (number : Parser τ Float) (space : Parser τ String) :
    expression.parser number space (expression.tied number space) =
      (Rules.tied factorOperators termOperators number space).expr := rfl

/-! ### Recursion in assemblies -/

section
variable {env : ObservedEnvironment τ} {number inside : Parser τ Float} {space : Parser τ String}

theorem steady (hdepth : Text.byteLength text < depth) (hnumber : Steady text depth env o number)
    (hspace : Steady text depth env o space) (hinside : SteadyPast text depth env o inside) (a : Assembly α) :
    Steady text depth env o (a.parser number space inside) := by
  induction a with
  | number => exact hnumber
  | factor => exact steady_factorOver hdepth hinside hnumber hspace
  | factorOver enclosed ih => exact steady_factorOver hdepth ih.past hnumber hspace
  | tail operators symbols operand ih => exact steady_tail hdepth symbols hspace ih
  | term first rest ihfirst ihrest => exact steady_chained ihfirst ihrest
  | expr first rest ihfirst ihrest =>
    exact fun active x hx hactive => (steady_chained ihfirst ihrest active x hx hactive).label "expression"

theorem steady_tied (hdepth : Text.byteLength text < depth) (hnumber : Steady text depth env o number)
    (hspace : Steady text depth env o space) (a : Assembly Float) :
    Steady text depth env o (a.tied number space) := by
  refine Steady.recursive hdepth fun self x hx hself active hactive => ?_
  exact a.steady hdepth (hnumber.mono hx).weaken (hspace.mono hx).weaken hself active x (Nat.le_refl x) hactive

end

/-! ### Assemblies over other words

What an assembly does with numbers and spaces does not depend on how these are made: it is the same when they
are replaced by leaves that give their answers. -/

section
variable {l : Filter Nat} {env : Environment τ} {envs : Nat → Environment τ}
  {number number' operand operand' inside inside' : Parser τ Float} {space space' : Parser τ String}

theorem approximates_tail (operators : List Operator) (hl : ∀ᶠ n in l, depth ≤ n)
    (hspace : Approximates l text depth env envs space space')
    (hoperand : Approximates l text depth env envs operand operand') :
    Approximates l text depth env envs (Arithmetic.tail operators space operand)
      (Arithmetic.tail operators space' operand') := by
  refine Approximates.recursive hl fun self selfs hself => Approximates.any (List.rel_append ?_ ?_)
  · rw [List.forall₂_map_left_iff, List.forall₂_map_right_iff, List.forall₂_same]
    intro operator _
    have hbinary : Approximates l text depth (env.extend self) (fun n => (envs n).extend (selfs n))
        (binary operator.symbol space.weaken operand.weaken)
        (binary operator.symbol space'.weaken operand'.weaken) :=
      ((hspace.weaken.keepRight (.literal _)).keepRight hspace.weaken).keepRight hoperand.weaken
    exact (hbinary.seq (.self hself)).map _
  · exact .cons (fun s => Reply.Below.refl _) .nil

theorem approximates_factorOver (hl : ∀ᶠ n in l, depth ≤ n)
    (hinside : Approximates l text depth env envs inside inside')
    (hnumber : Approximates l text depth env envs number number')
    (hspace : Approximates l text depth env envs space space') :
    Approximates l text depth env envs (Arithmetic.factorOver inside number space)
      (Arithmetic.factorOver inside' number' space') := by
  refine Approximates.recursive hl fun self selfs hself => (Approximates.any ?_).label _
  refine .cons ?_ (.cons ?_ (.cons hnumber.weaken .nil))
  · have hopen : Approximates l text depth (env.extend self) (fun n => (envs n).extend (selfs n))
        (((Parser.literal "(").keepRight space.weaken).keepRight inside.weaken)
        (((Parser.literal "(").keepRight space'.weaken).keepRight inside'.weaken) :=
      ((Approximates.literal "(").keepRight hspace.weaken).keepRight hinside.weaken
    exact (hopen.keepLeft hspace.weaken).keepLeft (.literal ")")
  · exact ((Approximates.literal "-").keepRight (.self hself)).map _

theorem approximates (hl : ∀ᶠ n in l, depth ≤ n) (hnumber : Approximates l text depth env envs number number')
    (hspace : Approximates l text depth env envs space space')
    (hinside : Approximates l text depth env envs inside inside') (a : Assembly α) :
    Approximates l text depth env envs (a.parser number space inside) (a.parser number' space' inside') := by
  induction a with
  | number => exact hnumber
  | factor => exact approximates_factorOver hl hinside hnumber hspace
  | factorOver enclosed ih => exact approximates_factorOver hl ih hnumber hspace
  | tail operators symbols operand ih => exact approximates_tail operators hl hspace ih
  | term first rest ihfirst ihrest => exact (ihfirst.seq ihrest).map _
  | expr first rest ihfirst ihrest => exact ((ihfirst.seq ihrest).map _).label "expression"

theorem approximates_tied (hl : ∀ᶠ n in l, depth ≤ n)
    (hnumber : Approximates l text depth env envs number number')
    (hspace : Approximates l text depth env envs space space') (a : Assembly Float) :
    Approximates l text depth env envs (a.tied number space) (a.tied number' space') :=
  Approximates.recursive hl fun _ _ hself => a.approximates hl hnumber.weaken hspace.weaken (.self hself)

end

end Assembly

/-! ### The rules of arithmetic -/

theorem steady_rule {env : ObservedEnvironment τ} (hdepth : Text.byteLength text < depth) (rule : Rule) :
    Steady text depth env o (rule.parser : Parser τ rule.Value) := by
  have hassembly : ∀ {α : Type} (a : Assembly α),
      Steady text depth env o (a.parser number spaces (Assembly.expression.tied number spaces)) :=
    Assembly.steady hdepth (steady_number hdepth) (steady_spaces hdepth)
      (Assembly.steady_tied hdepth (steady_number hdepth) (steady_spaces hdepth) _).past
  cases rule with
  | digit => exact steady_digit
  | spaces => exact steady_spaces hdepth
  | number => exact steady_number hdepth
  | factor => exact hassembly .factor
  | termTail => exact hassembly .termTail
  | term => exact hassembly (.term .factor .termTail)
  | exprTail => exact hassembly .exprTail
  | expr => exact hassembly .expression

/-- No rule goes deeper than the text is long. -/
theorem exec_rule_ne_tooDeep {env : Environment τ} (hdepth : Text.byteLength text < depth) (rule : Rule) (s : State) :
    exec text depth (rule.parser : Parser τ rule.Value) env s ≠ .halted .tooDeep :=
  (steady_rule hdepth rule).ne_tooDeep s

/-! ### The result -/

/-- A parser of one's own that gives the answer `f s` in the state `s`. -/
def leafParser (f : State → Reply α) : Parser τ α := .leaf fun _ => f

/-- From every state `p` comes to the answer that `f` gives, and no match moves the cursor back. -/
structure EndsWith (d : Definitions τ) (text : List Char) (p : Parser τ α) (f : State → Reply α) : Prop where
  answers : ∀ s, Answers d text p s (f s)
  not_back : ∀ s a t, f s = .matched a t → s.offset ≤ t.offset

section
variable {d : Definitions τ}

theorem EndsWith.approximates {p : Parser τ α} {f : State → Reply α} (h : EndsWith d text p f) :
    Approximates Filter.atTop text depth (d.environment text 0) (fun n => d.environment text n) (leafParser f) p :=
  fun s => (h.answers s).below

theorem EndsWith.steady {env : ObservedEnvironment τ} {p : Parser τ α} {f : State → Reply α}
    (h : EndsWith d text p f) : Steady text depth env o (leafParser f) := fun _ _ _ _ =>
  Guarded.leaf (fun s => (h.answers s).1) h.not_back

/-- In the run of `p` recursion leads onward, and `q` comes to the answer of that run. -/
def EndsAs (d : Definitions τ) (text : List Char) (p q : Parser τ α) (s : State) : Prop :=
  let run := observe text (Text.byteLength text + 1) p (d.observed text 0) [] s
  (∀ m ∈ run.moments, m.Onward) ∧ Answers d text q s run.reply

theorem endsAs {p q : Parser τ α} (hsteady : Steady text (Text.byteLength text + 1) (d.observed text 0) 0 p)
    (h : Approximates Filter.atTop text (Text.byteLength text + 1) (d.environment text 0)
      (fun n => d.environment text n) p q) (s : State) : EndsAs d text p q s := by
  have hguarded := hsteady [] s.offset (Nat.zero_le _) (by simp) s rfl
  refine ⟨hguarded.onward, ?_⟩
  have hbelow := h s
  have hreply : (observe text (Text.byteLength text + 1) p (d.observed text 0) [] s).reply =
      exec text (Text.byteLength text + 1) p (d.environment text 0) s :=
    observe_reply p (fun i active t => observed_reply d i active t) [] s
  rw [← hreply] at hbelow
  exact answers_of_below hbelow hguarded.ends

/-- Nor does a larger bound change what the rule answers. -/
theorem exec_rule_eq (hdepth : Text.byteLength text < depth) (rule : Rule) (s : State) :
    exec text depth rule.parser (d.environment text depth) s =
      exec text (Text.byteLength text + 1) rule.parser (d.environment text (Text.byteLength text + 1)) s := by
  have hl : ∀ᶠ n in Filter.principal {depth}, Text.byteLength text + 1 ≤ n :=
    Filter.eventually_principal.mpr fun n hn => hn ▸ hdepth
  exact (Approximates.refl rule.parser hl (environment_below d hl) s).eq
    (exec_rule_ne_tooDeep (Nat.lt_succ_self _) rule s)

/-- The rules of arithmetic are words and expressions that assemblies may be put together from. -/
theorem endsWith_rule (rule : Rule) : EndsWith d text rule.parser fun s =>
    exec text (Text.byteLength text + 1) rule.parser (d.environment text (Text.byteLength text + 1)) s where
  answers s := ⟨exec_rule_ne_tooDeep (Nat.lt_succ_self _) rule s, _, rfl⟩
  not_back s a t h := by
    have hsteady : Steady text (Text.byteLength text + 1) (d.observed text (Text.byteLength text + 1)) 0
        rule.parser := steady_rule (Nat.lt_succ_self _) rule
    refine (hsteady [] s.offset (Nat.zero_le _) (by simp) s rfl).matched a t ?_
    rw [observe_reply rule.parser (fun i active t => observed_reply d i active t), h]

/-- Recursion leads onward in the rules of arithmetic. They end, whatever the text and the state are, and every
    bound that is larger than the text is long gives the same answer. Parsers assembled from the rules over
    numbers and spaces of any other kind end too, and recursion leads onward in them, when numbers and spaces
    end and never move the cursor back; so they do with an expression of any other kind in parentheses. -/
theorem recursion_onward (d : Definitions τ) (text : List Char) (s : State) :
    (∀ (rule : Rule) (depth : Nat), Text.byteLength text < depth →
      let run := observe text depth rule.parser (d.observed text depth) [] s
      (∀ m ∈ run.moments, m.Onward) ∧
        run.reply = exec text depth rule.parser (d.environment text depth) s ∧
        run.reply = exec text (Text.byteLength text + 1) rule.parser
          (d.environment text (Text.byteLength text + 1)) s ∧
        run.reply ≠ .halted .tooDeep) ∧
      ∀ {number : Parser τ Float} {space : Parser τ String} {n : State → Reply Float} {b : State → Reply String},
        EndsWith d text number n → EndsWith d text space b → ∀ {α : Type} (a : Assembly α),
        (∀ e : Assembly Float,
          EndsAs d text (a.parser (leafParser n) (leafParser b) (e.tied (leafParser n) (leafParser b)))
            (a.parser number space (e.tied number space)) s) ∧
        ∀ {inside : Parser τ Float} {e : State → Reply Float}, EndsWith d text inside e →
          EndsAs d text (a.parser (leafParser n) (leafParser b) (leafParser e)) (a.parser number space inside)
            s := by
  have hlength : Text.byteLength text < Text.byteLength text + 1 := Nat.lt_succ_self _
  have hatTop := Filter.eventually_ge_atTop (Text.byteLength text + 1)
  refine ⟨fun rule depth hdepth => ?_, fun {number space n b} hnumber hspace {α} a => ⟨fun e => ?_, ?_⟩⟩
  · have hsteady : Steady text depth (d.observed text depth) 0 rule.parser := steady_rule hdepth rule
    have hguarded := hsteady [] s.offset (Nat.zero_le _) (by simp) s rfl
    have hreply : (observe text depth rule.parser (d.observed text depth) [] s).reply =
        exec text depth rule.parser (d.environment text depth) s :=
      observe_reply rule.parser (fun i active t => observed_reply d i active t) [] s
    exact ⟨hguarded.onward, hreply, hreply.trans (exec_rule_eq hdepth rule s), hguarded.ends⟩
  · refine endsAs (a.steady hlength hnumber.steady hspace.steady ?_) ?_ s
    · exact (e.steady_tied hlength hnumber.steady hspace.steady).past
    · exact a.approximates hatTop hnumber.approximates hspace.approximates
        (e.approximates_tied hatTop hnumber.approximates hspace.approximates)
  · intro inside e hinside
    refine endsAs (a.steady hlength hnumber.steady hspace.steady hinside.steady.past) ?_ s
    exact a.approximates hatTop hnumber.approximates hspace.approximates hinside.approximates

/-- The expression as it is assembled from its own words, seen as if they were of another kind. -/
theorem recursion_onward_own_words :
    let d : Definitions fun i : Empty => nomatch i := .empty
    let text := ['-', '(', '1', ')']
    let n := exec text (Text.byteLength text + 1) number (d.environment text (Text.byteLength text + 1))
    let b := exec text (Text.byteLength text + 1) spaces (d.environment text (Text.byteLength text + 1))
    EndsWith d text number n ∧ EndsWith d text spaces b ∧
      EndsAs d text (Assembly.expression.parser (leafParser n) (leafParser b)
        (Assembly.expression.tied (leafParser n) (leafParser b))) expr {} := by
  intro d text n b
  have hends := ((recursion_onward d text {}).2 (endsWith_rule .number) (endsWith_rule .spaces)
    .expression).1 .expression
  rw [Assembly.parser_expression Rule.number.parser Rule.spaces.parser] at hends
  exact ⟨endsWith_rule .number, endsWith_rule .spaces, hends⟩

end

end Reckoner.Arithmetic
