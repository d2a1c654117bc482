import Reckoner.Arithmetic.Rules
import Reckoner.Proofs.Guarded

/-! Recursion in the rules of arithmetic. Every handle is called behind a literal: a factor behind its minus
    sign, an expression behind its parenthesis, the rest of a tail behind an operator, more spaces behind a
    space and more digits behind a digit. So every call is made further on in the text than the one before,
    and no rule goes deeper than the text is long. -/

namespace Reckoner.Parser
variable {ι : Type} {τ : ι → Type} {α β : Type} {text : List Char} {depth o : Nat}
  {env : ObservedEnvironment τ}

/-! ### Recursive parsers -/

/-- From every place that is not before `o`, the runs of `p` are guarded and do not move the cursor back on a
    match. -/
def Steady (text : List Char) (depth : Nat) (env : ObservedEnvironment τ) (o : Nat) (p : Parser τ α) : Prop :=
  ∀ active x, o ≤ x → (∀ y ∈ active, y ≤ x) → Guarded text depth env p active x (x ≤ ·)

/-- The cursor has moved on from `x` to `y`, and so there was something left at `x`. -/
def Past (text : List Char) (x y : Nat) : Prop := x < y ∧ x < Text.byteLength text

/-- The same from every place past `o`, when no parser is running that was entered there. -/
def SteadyPast (text : List Char) (depth : Nat) (env : ObservedEnvironment τ) (o : Nat) (p : Parser τ α) :
    Prop :=
  ∀ active x, Past text o x → (∀ y ∈ active, y < x) → Guarded text depth env p active x (x ≤ ·)

section
variable {p : Parser τ α} {active : List Nat} {x y : Nat}

theorem Past.of_le {z : Nat} (h : Past text y z) (hxy : x ≤ y) : Past text x z := by
  unfold Past at *
  omega

theorem Past.trans_le {z : Nat} (h : Past text x y) (hyz : y ≤ z) : Past text x z := by
  unfold Past at *
  omega

theorem Steady.mono (h : Steady text depth env o p) (hx : o ≤ x) : Steady text depth env x p :=
  fun active y hy => h active y (Nat.le_trans hx hy)

theorem Steady.weaken {self : List Nat → State → Observed β} (h : Steady text depth env o p) :
    Steady text depth (env.extend self) o p.weaken := h

theorem Steady.past (h : Steady text depth env o p) : SteadyPast text depth env o p :=
  fun active x hx hactive => h active x (Nat.le_of_lt hx.1) fun y hy => Nat.le_of_lt (hactive y hy)

/-- In a run that started at `x`, somewhere in its course. -/
theorem Steady.from_le (h : Steady text depth env o p) (hx : o ≤ x) (hactive : ∀ y ∈ active, y ≤ x)
    (hxy : x ≤ y) : Guarded text depth env p active y (x ≤ ·) :=
  (h active y (Nat.le_trans hx hxy) fun z hz => Nat.le_trans (hactive z hz) hxy).mono fun _ =>
    Nat.le_trans hxy

/-- In a run that started at `x` and has moved on. -/
theorem SteadyPast.from_past (h : SteadyPast text depth env o p) (hx : o ≤ x) (hactive : ∀ y ∈ active, y ≤ x)
    (hxy : Past text x y) : Guarded text depth env p active y (Past text x) :=
  (h active y (hxy.of_le hx) fun z hz => Nat.lt_of_le_of_lt (hactive z hz) hxy.1).mono fun _ => hxy.trans_le

theorem Guarded.not_back (h : Guarded text depth env p active x (Past text x)) :
    Guarded text depth env p active x (x ≤ ·) := h.mono fun _ hy => Nat.le_of_lt hy.1

/-- A literal that is not empty moves the cursor on. -/
theorem guarded_literal {expected : String} (hne : expected ≠ "") (hxy : x ≤ y) :
    Guarded text depth env (.literal expected) active y (Past text x) :=
  (Guarded.literal hne).mono fun _ hz => Past.of_le hz hxy

end

/-- Entering a recursive parser, by induction on the bound: what is left of the text is shorter at each call. -/
theorem enter_guarded {unfold : (List Nat → State → Observed α) → List Nat → State → Observed α}
    (h : ∀ (self : List Nat → State → Observed α) (active : List Nat) (s : State), o ≤ s.offset →
      (∀ y ∈ active, y ≤ s.offset) →
      (∀ active t, Past text s.offset t.offset → (∀ y ∈ active, y < t.offset) →
        (self active t).Guarded (t.offset ≤ ·)) →
      (unfold self active s).Guarded (s.offset ≤ ·)) :
    ∀ (k : Nat) (active : List Nat) (s : State), o ≤ s.offset → Text.byteLength text - s.offset < k →
      (∀ y ∈ active, y ≤ s.offset) → (enter k unfold active s).Guarded (s.offset ≤ ·)
  | 0, _, _, _, hk, _ => absurd hk (Nat.not_lt_zero _)
  | k + 1, active, s, ho, hk, hactive => by
    refine (h _ _ s ho (fun y hy => ?_) fun active' t ⟨hst, hs⟩ hactive' => ?_).after hactive
    · rcases List.mem_cons.mp hy with rfl | hy
      · exact Nat.le_refl _
      · exact hactive y hy
    · refine Observed.Guarded.after ?_ hactive'
      exact enter_guarded h k active' t (by omega) (by omega) fun y hy => Nat.le_of_lt (hactive' y hy)

theorem Steady.recursive {body : Parser (Extended α τ) α} (hdepth : Text.byteLength text < depth)
    (h : ∀ (self : List Nat → State → Observed α) (x : Nat), o ≤ x →
      SteadyPast text depth (env.extend self) x .self → ∀ active, (∀ y ∈ active, y ≤ x) →
      Guarded text depth (env.extend self) body active x (x ≤ ·)) :
    Steady text depth env o (.recursive body) := by
  rintro active x hx hactive s rfl
  have hleft : Text.byteLength text - s.offset < depth := by omega
  refine enter_guarded (fun self active t ht hactive' hself => ?_) depth active s hx hleft hactive
  refine h self t.offset ht ?_ active hactive' t rfl
  rintro active' y hy hactive'' u rfl
  exact hself active' u hy hactive''

/-- A repetition of a parser that consumes something. -/
theorem steady_many {p : Parser τ α} (hdepth : Text.byteLength text < depth)
    (hp : ∀ active x, Guarded text depth env p active x (Past text x)) : Steady text depth env o p.many := by
  refine Steady.recursive hdepth fun self x hx hself active hactive => Guarded.or ?_ ?_
  · have hmore : Guarded text depth (env.extend self) p.weaken active x (Past text x) := hp active x
    exact (hmore.cons fun y hy => hself.from_past (Nat.le_refl x) hactive hy).not_back
  · exact (Guarded.pure []).mono fun y hy => Nat.le_of_eq hy

/-- A steady parser is not cut off, whatever its handles stand for. -/
theorem Steady.ne_tooDeep {env : Environment τ} {p : Parser τ α}
    (h : Steady text depth (fun i _ s => ⟨env i s, []⟩) 0 p) (s : State) :
    exec text depth p env s ≠ .halted .tooDeep := by
  have hends := (h [] s.offset (Nat.zero_le _) (by simp) s rfl).ends
  have hreply : (observe text depth p (fun i _ s => ⟨env i s, []⟩) [] s).reply = exec text depth p env s :=
    observe_reply p (fun _ _ _ => rfl) [] s
  rwa [hreply] at hends

end Reckoner.Parser

namespace Reckoner.Arithmetic
open Reckoner.Parser

variable {ι : Type} {τ : ι → Type} {α : Type} {text : List Char} {depth o : Nat} {env : ObservedEnvironment τ}

/-! ### Words -/

theorem guarded_digit {active : List Nat} {x : Nat} : Guarded text depth env digit active x (Past text x) := by
  refine Guarded.label (Guarded.any fun p hp => ?_) "digit"
  obtain ⟨d, hd, rfl⟩ := List.mem_map.mp hp
  refine guarded_literal (fun hempty => ?_) (Nat.le_refl x)
  subst hempty
  exact absurd hd (by decide)

theorem steady_digit : Steady text depth env o digit := fun _ _ _ _ =>
  guarded_digit.not_back

theorem steady_blanks (hdepth : Text.byteLength text < depth) :
    Steady text depth env o (Parser.literal " ").many :=
  steady_many hdepth fun _ _ => guarded_literal (by decide) (Nat.le_refl _)

theorem steady_spaces (hdepth : Text.byteLength text < depth) : Steady text depth env o spaces :=
  fun active x hx hactive => (steady_blanks hdepth active x hx hactive).map _

theorem steady_digits (hdepth : Text.byteLength text < depth) : Steady text depth env o digit.many :=
  steady_many hdepth fun _ _ => guarded_digit

theorem steady_number (hdepth : Text.byteLength text < depth) : Steady text depth env o number := by
  intro active x hx hactive
  have hmany : Steady text depth env o digit.many := steady_digits hdepth
  have hdigits : Guarded text depth env (digit.many1.map String.join) active x (Past text x) :=
    (guarded_digit.cons fun y hy => hmany.past.from_past hx hactive hy).map _
  refine Guarded.label (hdigits.chain fun digits y hy => ?_) "number"
  cases Decimal.read? digits with
  | some value => exact (Guarded.pure value).mono fun z hz => hz ▸ Nat.le_of_lt hy.1
  | none => exact Guarded.fail

/-! ### Operators and their operands -/

section
variable {number operand inside : Parser τ Float} {space : Parser τ String}

theorem guarded_binary {symbol : String} {active : List Nat} {x : Nat} (hsymbol : symbol ≠ "")
    (hspace : Steady text depth env o space) (hoperand : Steady text depth env o operand) (hx : o ≤ x)
    (hactive : ∀ y ∈ active, y ≤ x) :
    Guarded text depth env (binary symbol space operand) active x (Past text x) :=
  (((hspace.from_le hx hactive (Nat.le_refl x)).keepRight fun _ hy =>
    guarded_literal hsymbol hy).keepRight fun _ hy =>
    hspace.past.from_past hx hactive hy).keepRight fun _ hy => hoperand.past.from_past hx hactive hy

theorem steady_tail {operators : List Operator} (hdepth : Text.byteLength text < depth)
    (hsymbols : ∀ operator ∈ operators, operator.symbol ≠ "") (hspace : Steady text depth env o space)
    (hoperand : Steady text depth env o operand) : Steady text depth env o (tail operators space operand) := by
  refine Steady.recursive hdepth fun self x hx hself active hactive => Guarded.any fun p hp => ?_
  rcases List.mem_append.mp hp with hp | hp
  · obtain ⟨operator, hoperator, rfl⟩ := List.mem_map.mp hp
    have hbinary : Guarded text depth (env.extend self) (binary operator.symbol space.weaken operand.weaken) active
        x (Past text x) := guarded_binary (hsymbols operator hoperator) hspace hoperand hx hactive
    exact ((hbinary.seq fun y hy => hself.from_past (Nat.le_refl x) hactive hy).map _).not_back
  · obtain rfl := List.mem_singleton.mp hp
    exact (Guarded.pure id).mono fun y hy => Nat.le_of_eq hy

theorem steady_chained {first : Parser τ Float} {rest : Parser τ Fold} (hfirst : Steady text depth env o first)
    (hrest : Steady text depth env o rest) : Steady text depth env o (chained first rest) :=
  fun _ x hx hactive =>
    ((hfirst.from_le hx hactive (Nat.le_refl x)).seq fun _ hy => hrest.from_le hx hactive hy).map _

theorem steady_factorOver (hdepth : Text.byteLength text < depth) (hinside : SteadyPast text depth env o inside)
    (hnumber : Steady text depth env o number) (hspace : Steady text depth env o space) :
    Steady text depth env o (factorOver inside number space) := by
  refine Steady.recursive hdepth fun self x hx hself active hactive => Guarded.label (Guarded.any fun p hp => ?_) _
  have hsymbol : ∀ {symbol : String} {y : Nat}, symbol ≠ "" → x ≤ y →
      Guarded text depth (env.extend self) (.literal symbol) active y (Past text x) := guarded_literal
  have hspaces : ∀ y, Past text x y →
      Guarded text depth (env.extend self) space.weaken active y (Past text x) := fun _ =>
    hspace.past.from_past hx hactive
  simp only [List.mem_cons, List.not_mem_nil, or_false] at hp
  rcases hp with rfl | rfl | rfl
  · have hopen := (hsymbol (by decide : "(" ≠ "") (Nat.le_refl x)).keepRight hspaces
    have hexpr := hopen.keepRight (q := inside.weaken) fun _ hy => hinside.from_past hx hactive hy
    exact ((hexpr.keepLeft hspaces).keepLeft fun _ hy => hsymbol (by decide) (Nat.le_of_lt hy.1)).not_back
  · have hminus := hsymbol (by decide : "-" ≠ "") (Nat.le_refl x)
    exact ((hminus.keepRight fun _ hy => hself.from_past (Nat.le_refl x) hactive hy).map _).not_back
  · exact hnumber active x hx hactive

end

end Reckoner.Arithmetic
