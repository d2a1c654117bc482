import Reckoner.Proofs.Alternatives
import Reckoner.Proofs.Lookahead
import Reckoner.Proofs.Matching
import Reckoner.Proofs.Operators
import Reckoner.Proofs.Sequencing

/-! What alternatives begin with may be matched once. When an alternative fails behind the common beginning, the next
    one begins where the first did, with more noted as expected than before; so it matches the beginning again, with the
    same value and up to the same place, and only what comes behind it decides. A tail looks for the spaces in front of
    an operator once for each operator; it may as well look for them once. -/

namespace Reckoner.Parser
variable {ι : Type} {τ : ι → Type} {α β : Type}

/-! ### Common beginnings -/

namespace SameMatch
variable {text : List Char} {depth : Nat} {env : Environment τ}

theorem any {ps : List (Parser τ α)} (h : ∀ p ∈ ps, SameMatch (exec text depth p env) (exec text depth p env)) :
    SameMatch (exec text depth (.any ps) env) (exec text depth (.any ps) env) :=
  any_induction (P := fun p => SameMatch (exec text depth p env) (exec text depth p env))
    (fun _ _ => Reply.bare_noMatch_congr) (fun _ _ => SameMatch.or) h

variable {p : Parser τ α} (hp : SameMatch (exec text depth p env) (exec text depth p env))
include hp

theorem or_chain {f g : α → Parser τ β} (hf : ∀ a, SameMatch (exec text depth (f a) env) (exec text depth (f a) env))
    (hg : ∀ a, SameMatch (exec text depth (g a) env) (exec text depth (g a) env)) :
    SameMatch (exec text depth (.or (p.chain f) (p.chain g)) env)
      (exec text depth (p.chain fun a => .or (f a) (g a)) env) := by
  intro s t hst
  refine Eq.trans ?_ (hp.chain (fun a => (hf a).or (hg a)) s t hst)
  simp only [exec_or, exec_chain]
  -- The beginning is matched a second time from `s.offset`, in a state with other diagnostics.
  have hagain : ∀ u : State, (exec text depth p env (u.restore s.offset)).bare = (exec text depth p env s).bare :=
    fun u => hp (u.restore s.offset) s rfl
  cases hs : exec text depth p env s with
  | halted fault => rfl
  | noMatch u =>
    obtain ⟨v, hv, hvu⟩ := Reply.exists_of_bare_eq_noMatch ((hagain u).trans (congrArg Reply.bare hs))
    simp only [Reply.andThen_noMatch, Reply.orElse_noMatch, hv]
    exact Reply.bare_noMatch_congr hvu
  | matched a u =>
    simp only [Reply.andThen_matched]
    cases hf' : exec text depth (f a) env u with
    | matched _ _ | halted _ => rfl
    | noMatch v =>
      have hbegin := hagain (v.restore s.offset)
      obtain ⟨w, hw, hwu⟩ := Reply.exists_of_bare_eq_matched (hbegin.trans (congrArg Reply.bare hs))
      simp only [Reply.restore_noMatch, Reply.orElse_noMatch, hw, Reply.andThen_matched]
      exact Reply.bare_restore (hg a w (v.restore u.offset) hwu) rfl

/-- Not of an empty list: the beginning may come to no end. -/
theorem any_chain {fs : List (α → Parser τ β)} (hfs : fs ≠ [])
    (h : ∀ f ∈ fs, ∀ a, SameMatch (exec text depth (f a) env) (exec text depth (f a) env)) :
    SameMatch (exec text depth (.any (fs.map fun f => p.chain f)) env)
      (exec text depth (p.chain fun a => .any (fs.map fun f => f a)) env) := by
  induction fs using List.reverseRecOn with
  | nil => exact absurd rfl hfs
  | append_singleton fs g ih =>
    have hg := h g (by simp)
    have hinit : ∀ f ∈ fs, ∀ a, SameMatch (exec text depth (f a) env) (exec text depth (f a) env) :=
      fun f hf => h f (by simp [hf])
    rcases eq_or_ne fs [] with rfl | hne
    · exact hp.chain hg
    have hall : ∀ a, SameMatch (exec text depth (.any (fs.map fun f => f a)) env)
        (exec text depth (.any (fs.map fun f => f a)) env) := fun a => .any (by simpa using fun f hf => hinit f hf a)
    have hor := ((ih hne hinit).or (hp.chain hg)).trans (hp.or_chain hall hg)
    intro s t hst
    simp only [List.map_append, List.map_singleton, exec_any_concat, exec_chain]
    exact hor s t hst

end SameMatch
end Reckoner.Parser

namespace Reckoner.Arithmetic
open Reckoner.Parser

variable {ι : Type} {τ : ι → Type}

/-! ### Spaces in front of operators -/

section
variable (space : Parser τ String) (operand : Parser τ Float)

/-- One step of a tail and what follows it, behind the spaces in front of the operator. -/
def spacedFurther (operator : Operator) : Parser (Extended Fold τ) Fold :=
  ((((Parser.literal operator.symbol).keepRight space.weaken).keepRight operand.weaken).seq .self).map
    fun (right, fold) value => fold (operator.apply value right)

/-- The operators that follow a first operand, each with its right operand; the spaces in front of an operator are
    looked for once for all operators. -/
def factoredTail (operators : List Operator) : Parser τ Fold :=
  .recursive (.or (space.weaken.keepRight (.any (operators.map (spacedFurther space operand)))) (.pure id))

theorem further_alike (operator : Operator) :
    Alike (further space operand operator) (space.weaken.keepRight (spacedFurther space operand operator)) :=
  fun text depth env s => by
    simp only [further, spacedFurther, binary, seq, keepRight, exec_chain, exec_map, Reply.map, Reply.andThen_assoc,
      Reply.restore_andThen, Reply.restore_restore]
    rfl

variable {space operand} {operators : List Operator}

theorem leafFree_spacedFurther (hspace : LeafFree space) (hoperand : LeafFree operand) (operator : Operator) :
    LeafFree (spacedFurther space operand operator) :=
  ⟨⟨⟨trivial, fun _ => hspace⟩, fun _ => hoperand⟩, fun _ => trivial⟩

theorem leafFree_factoredTail_body (hspace : LeafFree space) (hoperand : LeafFree operand) :
    LeafFree (Parser.or (space.weaken.keepRight (.any (operators.map (spacedFurther space operand)))) (.pure id)) := by
  have hany : LeafFree (.any (operators.map (spacedFurther space operand))) :=
    any_induction trivial (fun _ _ hp hq => ⟨hp, hq⟩)
      (List.forall_mem_map.mpr fun operator _ => leafFree_spacedFurther hspace hoperand operator)
  exact ⟨⟨hspace, fun _ => hany⟩, trivial⟩

/-- The body of a tail begins with the spaces that all of its operators begin with. -/
theorem exec_tail_body_factored (text : List Char) (depth : Nat) (env : Environment (Extended Fold τ)) (s : State) :
    exec text depth (.any (operators.map (further space operand) ++ [.pure id])) env s =
      exec text depth (.or (.any (operators.map fun operator =>
        space.weaken.chain fun _ => spacedFurther space operand operator)) (.pure id)) env s := by
  have hfurther : ∀ operator, exec text depth (further space operand operator) env =
      exec text depth (space.weaken.chain fun _ => spacedFurther space operand operator) env := fun operator =>
    funext (further_alike space operand operator text depth env)
  rw [exec_any_concat, exec_or, exec_or, exec_any, exec_any]
  simp only [List.map_map, Function.comp_def, hfurther]

theorem tail_body_sameMatch {text : List Char} {depth : Nat} {env : Environment (Extended Fold τ)}
    (henv : ∀ i, SameMatch (env i) (env i)) (hoperators : operators ≠ []) (hspace : LeafFree space)
    (hoperand : LeafFree operand) :
    SameMatch (exec text depth (.any (operators.map (further space operand) ++ [.pure id])) env)
      (exec text depth (.or (space.weaken.keepRight (.any (operators.map (spacedFurther space operand)))) (.pure id))
        env) := by
  let behind := operators.map fun operator (_ : String) => spacedFurther space operand operator
  have hbehind : ∀ f ∈ behind, ∀ a, SameMatch (exec text depth (f a) env) (exec text depth (f a) env) :=
    List.forall_mem_map.mpr fun operator _ _ => (leafFree_spacedFurther hspace hoperand operator).sameMatch henv
  have hspaces : LeafFree (space.weaken : Parser (Extended Fold τ) String) := hspace
  have hchain := (hspaces.sameMatch henv).any_chain (by simpa [behind] using hoperators) hbehind
  simp only [behind, List.map_map, Function.comp_def] at hchain
  intro s t hst
  rw [exec_tail_body_factored]
  exact hchain.or (fun _ _ => Reply.bare_matched_congr) s t hst

theorem tail_sameMatch {text : List Char} {depth : Nat} {env : Environment τ} (henv : ∀ i, SameMatch (env i) (env i))
    (hoperators : operators ≠ []) (hspace : LeafFree space) (hoperand : LeafFree operand) :
    SameMatch (exec text depth (tail operators space operand) env)
      (exec text depth (factoredTail space operand operators) env) := by
  refine SameMatch.recursive fun self self' hself => ?_
  exact (tail_body_sameMatch (hself.left.extend henv) hoperators hspace hoperand).trans
    ((leafFree_factoredTail_body hspace hoperand).sameMatch (hself.extend henv))

end

/-- An expression has the terms among its parts, and those the factors. -/
theorem leafFree_term : LeafFree (rules.term : Parser τ Float) := by
  have hexpr : LeafFree (expr : Parser τ Float) := charwise_expr.leafFree
  exact hexpr.1

theorem leafFree_factor : LeafFree (rules.factor : Parser τ Float) := by
  have hterm : LeafFree (rules.term : Parser τ Float) := leafFree_term
  exact hterm.1

/-- Two sequences that begin with the same parser, one as the alternative of the other, match alike with the sequence
    that runs that parser once and has the choice behind it: from every place, whatever was expected before and at every
    bound, they yield the same value and stop at the same place, or fail or halt in the same way. So runs of both over
    any input have the same result, with the same part of the input left. A tail with any operators, spaces and operands
    matches alike with the one that looks for the spaces in front of an operator once for all of them; this is so of both
    tails among the rules of arithmetic. -/
theorem left_factored {α β : Type} {p : Parser τ α} {f g : α → Parser τ β} {d : Definitions τ} (hp : LeafFree p)
    (hf : ∀ a, LeafFree (f a)) (hg : ∀ a, LeafFree (g a)) (hd : d.LeafFree) :
    (∀ text depth, SameMatch (exec text depth (.or (p.chain f) (p.chain g)) (d.environment text depth))
      (exec text depth (p.chain fun a => .or (f a) (g a)) (d.environment text depth))) ∧
    (∀ input, ((Parser.or (p.chain f) (p.chain g)).runWith d input).result =
      ((p.chain fun a => .or (f a) (g a)).runWith d input).result) ∧
    ∀ (text : List Char) (depth : Nat), let run (t : Parser τ Fold) := exec text depth t (d.environment text depth)
      (∀ operators space operand, operators ≠ [] → LeafFree space → LeafFree operand →
        SameMatch (run (tail operators space operand)) (run (factoredTail space operand operators))) ∧
      SameMatch (run rules.termTail) (run (factoredTail spaces rules.factor factorOperators)) ∧
      SameMatch (run rules.exprTail) (run (factoredTail spaces rules.term termOperators)) := by
  have henv : ∀ text depth i, SameMatch (d.environment text depth i) (d.environment text depth i) :=
    fun _ _ i => hd.sameMatch i
  have hor : ∀ text depth, SameMatch (exec text depth (.or (p.chain f) (p.chain g)) (d.environment text depth))
      (exec text depth (p.chain fun a => .or (f a) (g a)) (d.environment text depth)) := fun text depth =>
    (hp.sameMatch (henv text depth)).or_chain (fun a => (hf a).sameMatch (henv text depth))
      fun a => (hg a).sameMatch (henv text depth)
  have htail : ∀ text depth operators space operand, operators ≠ [] → LeafFree space → LeafFree operand →
      SameMatch (exec text depth (tail operators space operand) (d.environment text depth))
        (exec text depth (factoredTail space operand operators) (d.environment text depth)) :=
    fun text depth _ _ _ => tail_sameMatch (henv text depth)
  refine ⟨hor, fun input => Reply.result_outcome_congr (hor _ _ {} {} rfl), fun text depth => ⟨htail text depth, ?_, ?_⟩⟩
  · exact htail text depth factorOperators spaces rules.factor (List.cons_ne_nil _ _) charwise_spaces.leafFree
      leafFree_factor
  · exact htail text depth termOperators spaces rules.term (List.cons_ne_nil _ _) charwise_spaces.leafFree leafFree_term

/-- What comes behind the letter depends on it. -/
theorem left_factored_letter :
    let letter : Closed String := .label (.or (.literal "a") (.literal "b")) "letter"
    let behind (sign : String) (a : String) : Closed String := (Parser.literal sign).keepRight (.literal a)
    let apart : Closed String := .or (letter.chain (behind "+")) (letter.chain (behind "-"))
    let factored : Closed String := letter.chain fun a => .or (behind "+" a) (behind "-" a)
    let run (t : Closed Fold) := exec "  - 7".toList 9 t (Definitions.empty.environment "  - 7".toList 9)
    (factored.run "b-b+").result = .matched "b" "+" ∧ (apart.run "b-b+").result = .matched "b" "+" ∧
      (factored.run "b-a").result = .noMatch ∧ (apart.run "b-a").result = .noMatch ∧
      SameMatch (run (tail termOperators spaces number)) (run (factoredTail spaces number termOperators)) := by
  intro letter behind apart factored run
  have hletter : LeafFree letter := ⟨trivial, trivial⟩
  have hbehind : ∀ sign a, LeafFree (behind sign a) := fun _ _ => ⟨trivial, fun _ => trivial⟩
  obtain ⟨-, hrun, htails⟩ := left_factored hletter (hbehind "+") (hbehind "-") Definitions.leafFree_empty
  obtain ⟨htail, -, -⟩ := htails "  - 7".toList 9
  have hmatched : (factored.run "b-b+").result = .matched "b" "+" := rfl
  have hfailed : (factored.run "b-a").result = .noMatch := rfl
  exact ⟨hmatched, (hrun "b-b+").trans hmatched, hfailed, (hrun "b-a").trans hfailed,
    htail termOperators spaces number (List.cons_ne_nil _ _) charwise_spaces.leafFree charwise_number.leafFree⟩

end Reckoner.Arithmetic
