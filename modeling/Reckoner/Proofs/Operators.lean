import Reckoner.Proofs.Assembly
import Reckoner.Proofs.Words

/-! How operators and factors are read. A tail takes one step after the other, each an operator with its right
    operand, until none of its operators is followed by an operand; the fold that it yields takes the step
    that was read first before all others. All rules recognize their languages. -/

namespace Reckoner.Arithmetic
open Reckoner.Parser Reckoner.Arithmetic.Derivation
open scoped Computability

variable {ι : Type} {τ : ι → Type} {text : List Char} {depth : Nat} {env : Environment τ}

/-! ### One operator -/

section
variable {operand : Parser τ Float} {symbol : String} {c : Char}

theorem reads_binary_weaken {self : State → Reply Fold} {w : List Char} {r : Option (Float × List Char)}
    (h : Reads text depth env (binary symbol spaces operand) w r) :
    Reads text depth (env.extend self) (binary symbol spaces.weaken operand.weaken) w r := by
  cases r <;> exact h

variable (hdepth : Text.byteLength text < depth)
include hdepth

theorem reads_binary (hsymbol : symbol.toList = [c]) (hc : c ≠ ' ') (before after : Nat) {z : List Char}
    {r : Option (Float × List Char)} (hz : z.head? ≠ some ' ') (h : Reads text depth env operand z r) :
    Reads text depth env (binary symbol spaces operand) (blanks before ++ c :: (blanks after ++ z)) r := by
  have hbefore : (c :: (blanks after ++ z)).head? ≠ some ' ' := by simpa using hc
  have hopen : Reads text depth env (spaces.keepRight (.literal symbol)) (blanks before ++ c :: (blanks after ++ z))
      (some (symbol, blanks after ++ z)) := (reads_spaces hdepth before hbefore).keepRight (Reads.char hsymbol)
  exact (hopen.keepRight (reads_spaces hdepth after hz)).keepRight h

/-- Another character where the operator should stand. -/
theorem reads_binary_none (hsymbol : symbol.toList = [c]) {d : Char} (hd : d ≠ ' ') (hdc : d ≠ c) (before : Nat)
    {z : List Char} : Reads text depth env (binary symbol spaces operand) (blanks before ++ d :: z) none := by
  have hbefore : (d :: z).head? ≠ some ' ' := by simpa using hd
  have hmismatch : Reads text depth env (.literal symbol) (d :: z) none :=
    Reads.char_none hsymbol (by simpa using hdc)
  exact ((reads_spaces hdepth before hbefore).keepRight hmismatch).chain_none.chain_none

theorem recognizes_binary (hsymbol : symbol ≠ "") {L : Language Char} {w : List Char}
    (h : ∀ v : List Char, v.length < w.length → Recognizes text depth env operand L v) :
    Recognizes text depth env (binary symbol spaces operand) (steps {symbol.toList} L) w := by
  have hsymbol' : Recognizes text depth env (spaces.keepRight (.literal symbol))
      (Rule.spaces.language * {symbol.toList}) w :=
    (recognizes_spaces hdepth w).keepRight fun _ _ _ _ => Recognizes.literal symbol
  have hspaces : Recognizes text depth env ((spaces.keepRight (.literal symbol)).keepRight spaces)
      (Rule.spaces.language * {symbol.toList} * Rule.spaces.language) w :=
    hsymbol'.keepRight fun _ u _ _ => recognizes_spaces hdepth u
  refine hspaces.keepRight fun x u hx hw => h u ?_
  obtain ⟨y, hy, _, -, rfl⟩ := Language.mem_mul.mp hx
  obtain ⟨_, -, _, rfl, rfl⟩ := Language.mem_mul.mp hy
  have hpos : 0 < symbol.toList.length := List.length_pos_of_ne_nil (by simpa using hsymbol)
  rw [hw]
  simp only [List.length_append]
  omega

end

/-! ### Tails -/

/-- One step of a tail and what follows it. -/
def further (space : Parser τ String) (operand : Parser τ Float) (operator : Operator) : Parser (Extended Fold τ) Fold :=
  ((binary operator.symbol space.weaken operand.weaken).seq .self).map
    fun (right, fold) value => fold (operator.apply value right)

theorem tail_eq (operators : List Operator) (space : Parser τ String) (operand : Parser τ Float) :
    tail operators space operand = .recursive (.any (operators.map (further space operand) ++ [.pure id])) := rfl

section
variable {operand : Parser τ Float} {operator : Operator} {w : List Char}

theorem reads_further {p : Parser τ Fold} {x : Float} {z u : List Char} {g : Fold}
    (hbinary : Reads text depth env (binary operator.symbol spaces operand) w (some (x, z)))
    (hp : Reads text depth env p z (some (g, u))) :
    Reads text depth (env.extend (exec text depth p env)) (further spaces operand operator) w
      (some (fun y => g (operator.apply y x), u)) :=
  ((reads_binary_weaken hbinary).seq hp.self).map_some rfl

theorem reads_further_none {self : State → Reply Fold}
    (hbinary : Reads text depth env (binary operator.symbol spaces operand) w none) :
    Reads text depth (env.extend self) (further spaces operand operator) w none :=
  (reads_binary_weaken hbinary).chain_none.map _

end

section
variable {operators : List Operator} {operand : Parser τ Float} {w : List Char}
  (hends : ∀ s, exec text depth (tail operators spaces operand) env s ≠ .halted .tooDeep)
include hends

theorem reads_tail_stop (h : ∀ operator ∈ operators,
    Reads text depth env (binary operator.symbol spaces operand) w none) :
    Reads text depth env (tail operators spaces operand) w (some (id, w)) := by
  rw [tail_eq] at hends ⊢
  refine Reads.recursive hends (Reads.any_append (Reads.or_right (Reads.any_none fun p hp => ?_) (Reads.pure id)))
  obtain ⟨operator, hoperator, rfl⟩ := List.mem_map.mp hp
  exact reads_further_none (h operator hoperator)

variable (hdepth : Text.byteLength text < depth)
include hdepth

theorem reads_tail_step {Op : Type} {symbol : Op → Char} {apply : Op → Float → Float → Float}
    (hrank : Ranked symbol apply operators) (operator : Op) (before after : Nat) {x : Float} {g : Fold}
    {z z' u : List Char} (hz : z.head? ≠ some ' ') (hoperand : Reads text depth env operand z (some (x, z')))
    (hrest : Reads text depth env (tail operators spaces operand) z' (some (g, u))) :
    Reads text depth env (tail operators spaces operand) (blanks before ++ symbol operator :: (blanks after ++ z))
      (some (fun y => g (apply operator y x), u)) := by
  have hblank := hrank.symbol_ne_blank operator
  have hbinary : Reads text depth env (binary (tried symbol apply operator).symbol spaces operand)
      (blanks before ++ symbol operator :: (blanks after ++ z)) (some (x, z')) :=
    reads_binary hdepth (toList_symbol_tried operator) hblank before after hz hoperand
  have hsome := reads_further hbinary hrest
  have hmem : tried symbol apply operator ∈ operators := hrank.mem_iff.mpr ⟨operator, rfl⟩
  rw [tail_eq] at hends hsome ⊢
  refine Reads.recursive hends (Reads.any_append (Reads.or_left ?_))
  refine Reads.any_some (List.mem_map_of_mem hmem) hsome fun p hp => ?_
  obtain ⟨_, hother, rfl⟩ := List.mem_map.mp hp
  obtain ⟨other, rfl⟩ := hrank.mem_iff.mp hother
  rcases eq_or_ne operator other with rfl | hne
  · exact Or.inr hsome
  · -- Another operator has another symbol.
    have hnone : Reads text depth env (binary (tried symbol apply other).symbol spaces operand)
        (blanks before ++ symbol operator :: (blanks after ++ z)) none :=
      reads_binary_none hdepth (toList_symbol_tried other) hblank (hrank.injective.ne hne) before
    exact Or.inl (reads_further_none hnone)

theorem recognizes_tail (hsymbols : ∀ operator ∈ operators, operator.symbol ≠ "") {L : Language Char}
    (hoperand : ∀ v : List Char, v.length < w.length → Recognizes text depth env operand L v) :
    Recognizes text depth env (tail operators spaces operand) (steps (symbols operators) L)∗ w := by
  induction hlength : w.length using Nat.strong_induction_on generalizing w with
  | h n ih =>
    subst hlength
    refine Recognizes.recursive hends (Recognizes.any fun p hp => ?_)
    rcases List.mem_append.mp hp with hp | hp
    · obtain ⟨operator, hmem, rfl⟩ := List.mem_map.mp hp
      have hbinary : Recognizes text depth env (binary operator.symbol spaces operand)
          (steps (symbols operators) L) w := by
        refine (recognizes_binary hdepth (hsymbols operator hmem) hoperand).mono fun x hx => ?_
        obtain ⟨before, _, rfl, after, y, hy, rfl⟩ := mem_steps.mp hx
        exact mem_steps.mpr ⟨before, _, ⟨operator, hmem, rfl⟩, after, y, hy, rfl⟩
      have hmore : Recognizes text depth (env.extend (exec text depth (tail operators spaces operand) env))
          ((binary operator.symbol spaces.weaken operand.weaken).seq .self)
          (steps (symbols operators) L * (steps (symbols operators) L)∗) w := by
        refine Recognizes.seq (hbinary.imp fun r h => ⟨reads_binary_weaken h.1, h.2⟩) fun x u hx hw => ?_
        have hshorter : u.length < w.length := by
          obtain ⟨before, s, ⟨other, hother, rfl⟩, after, y, -, rfl⟩ := mem_steps.mp hx
          have hpos : 0 < other.symbol.toList.length :=
            List.length_pos_of_ne_nil (by simpa using hsymbols other hother)
          rw [hw]
          simp only [List.length_append]
          omega
        exact (ih u.length hshorter (fun v hv => hoperand v (hv.trans hshorter)) rfl).self
      exact (hmore.map _).mono mul_kstar_le_kstar
    · obtain rfl := List.mem_singleton.mp hp
      exact (Recognizes.pure id).mono one_le_kstar

/-- Where no step starts, every operator stops. -/
theorem reads_tail_stop_of_noStart (hsymbols : ∀ operator ∈ operators, operator.symbol ≠ "") {L : Language Char}
    (hoperand : ∀ v, Recognizes text depth env operand L v) (h : NoStart (steps (symbols operators) L) w) :
    Reads text depth env (tail operators spaces operand) w (some (id, w)) := by
  refine reads_tail_stop hends fun operator hmem => ?_
  obtain ⟨r, hr, hx⟩ := recognizes_binary hdepth (hsymbols operator hmem) fun v (_ : v.length < w.length) => hoperand v
  cases r with
  | none => exact hr
  | some a =>
    obtain ⟨x, hx, hw⟩ := hx a rfl
    obtain ⟨before, _, rfl, after, y, hy, rfl⟩ := mem_steps.mp hx
    exact absurd ⟨a.2, hw.symm⟩ (h _ (mem_steps.mpr ⟨before, _, ⟨operator, hmem, rfl⟩, after, y, hy, rfl⟩))

end

end Reckoner.Arithmetic
