import Reckoner.Proofs.Viability

/-! What a parse of an expression expects where it got furthest. That depends only on how the longest viable
    beginning of the input ends. What is expected are ways to go on that keep the beginning viable, and every
    character but a space that keeps it viable begins one of them. -/

namespace Reckoner.Arithmetic
open Reckoner.Parser Reckoner.Arithmetic.Derivation

/-! ### How texts end -/

/-- Nothing comes before what is to follow but an opening parenthesis, spaces apart. -/
def AwaitsExpression (v : List Char) : Prop := v = [] ∨ ∃ y n, v = y ++ '(' :: blanks n

/-- A complete operand is last, spaces apart. -/
def EndsWithOperand (v : List Char) : Prop := ∃ y, ∃ f : Factor, ∃ n, v = y ++ f.text ++ blanks n

/-- A sign is last, or a binary operator, after which there may be spaces. -/
def AwaitsFactor (v : List Char) : Prop :=
  (∃ y, v = y ++ ['-'] ∧ ¬ EndsWithOperand y) ∨
    ∃ y c n, EndsWithOperand y ∧ c ∈ operatorSymbols ∧ v = y ++ c :: blanks n

/-- A text as it is expected for itself. -/
def quoted (x : List Char) : String := s!"'{String.ofList x}'"

/-- The texts that an expected alternative stands for: those of a rule, or the one between the quotes. -/
def denoted : String → Language Char
  | "expression" => Rule.expr.language
  | "factor" => Rule.factor.language
  | "digit" => Rule.digit.language
  | what => {x | what = quoted x}

/-! ### Parentheses in trees -/

/-- With each parenthesis that closes, an operand ends. -/
def ParenthesesEnd (w : List Char) : Prop :=
  ∀ y u, w = y ++ ')' :: u → ∃ z, ∃ f : Factor, y ++ [')'] = z ++ f.text

section
variable {v w : List Char}

theorem parenthesesEnd_of_notMem (h : ')' ∉ w) : ParenthesesEnd w := by
  rintro y u rfl
  exact absurd (List.mem_append_right y List.mem_cons_self) h

theorem ParenthesesEnd.append (hv : ParenthesesEnd v) (hw : ParenthesesEnd w) : ParenthesesEnd (v ++ w) := by
  intro y u h
  rcases List.append_eq_append_iff.mp h with ⟨x, rfl, hx⟩ | ⟨x, hx, hw'⟩
  · obtain ⟨z, f, hz⟩ := hw x u hx
    exact ⟨v ++ z, f, by rw [List.append_assoc, hz, List.append_assoc]⟩
  · cases x with
    | nil =>
      obtain ⟨z, f, hz⟩ := hw [] u (by simpa using hw'.symm)
      have hy : y = v := by simpa using hx.symm
      exact ⟨v ++ z, f, by rw [hy, List.append_assoc, ← hz, List.nil_append]⟩
    | cons c x =>
      obtain ⟨rfl, -⟩ := List.cons.inj hw'
      exact hv y x hx

theorem ParenthesesEnd.concat {f : Factor} (h : ParenthesesEnd v) (hf : v ++ [')'] = f.text) :
    ParenthesesEnd (v ++ [')']) := by
  intro y u hy
  rcases u.eq_nil_or_concat with rfl | ⟨u, c, rfl⟩
  · exact ⟨[], f, by rw [← hf, hy, List.nil_append]⟩
  · have hsplit : v = y ++ ')' :: u := by
      have hconcat : v ++ [')'] = y ++ ')' :: u ++ [c] := by simpa using hy
      exact (List.append_inj' hconcat rfl).1
    exact h y u hsplit

theorem notMem_blanks (n : Nat) : ')' ∉ blanks n := fun h => absurd (List.eq_of_mem_replicate h) (by decide)

end

theorem treeClosed_parenthesesEnd : TreeClosed ParenthesesEnd ParenthesesEnd where
  number n := parenthesesEnd_of_notMem fun h => absurd (List.all_eq_true.mp n.all_digits _ h) (by decide)
  negated f hf := by
    have hsign : ParenthesesEnd ['-'] := parenthesesEnd_of_notMem (by decide)
    exact hsign.append hf
  parenthesized before e after he := by
    have hopen : ParenthesesEnd ('(' :: blanks before) := parenthesesEnd_of_notMem (by simp [notMem_blanks])
    have hafter : ParenthesesEnd (blanks after) := parenthesesEnd_of_notMem (notMem_blanks after)
    exact ((hopen.append he).append hafter).concat (f := .parenthesized before e after) rfl
  nil := parenthesesEnd_of_notMem List.not_mem_nil
  snoc _ before c after _ hx hc hy := by
    have hne : ')' ≠ c := by
      rintro rfl
      exact absurd hc (by decide)
    have hoperator : ParenthesesEnd (blanks before ++ c :: blanks after) :=
      parenthesesEnd_of_notMem (by simp [notMem_blanks, hne])
    exact (hx.append hoperator).append hy
  append _ _ hx hy := hx.append hy

/-! ### Spots in viable texts -/

section
variable {v y : List Char} {t s : Scan}

theorem endsWithOperand_of_parenthesis (h : Viable (y ++ [')'])) : EndsWithOperand (y ++ [')']) := by
  obtain ⟨u, e, he⟩ := h
  obtain ⟨z, f, hz⟩ := treeClosed_parenthesesEnd.expr e y u (by rw [he, List.append_assoc, List.singleton_append])
  exact ⟨z, f, 0, by simp [hz, blanks]⟩

theorem endsWithOperand_of_digit {c : Char} (hc : c.isDigit = true) : EndsWithOperand (y ++ [c]) :=
  ⟨y, .number ⟨[c], by simp, by simp [hc]⟩, 0, by simp [Factor.text, blanks]⟩

theorem EndsWithOperand.spaces (h : EndsWithOperand v) (n : Nat) : EndsWithOperand (v ++ blanks n) := by
  obtain ⟨y, f, m, rfl⟩ := h
  exact ⟨y, f, m + n, by rw [List.append_assoc, blanks, blanks, blanks, List.replicate_append_replicate]⟩

/-- What stands last in a text decides where a scan of it is. -/
theorem EndsWithOperand.awaits (h : EndsWithOperand v) (hread : Scan.initial.read v = some t) :
    t.spot.awaits = false := by
  obtain ⟨y, f, n, rfl⟩ := h
  obtain ⟨x, c, hx, hc⟩ := treeClosed_closes.factor f
  obtain ⟨s, hs, hblanks⟩ := Scan.read_append_eq_some hread
  rw [hx, ← List.append_assoc] at hs
  obtain ⟨s', -, hmove⟩ := Scan.read_concat_eq_some hs
  have hspot : s.spot.awaits = false := by
    cases hmove with
    | digit | further | closing | spacing => rfl
    | blank | sign | opening => rcases hc with hc | hc <;> exact absurd hc (by decide)
    | operator _ _ hmem =>
      rcases hc with hc | rfl
      · rw [(operatorSymbols_ne hmem).2] at hc
        cases hc
      · exact absurd hmem (by decide)
  obtain ⟨q, hq, hq'⟩ := passes_blanks n s.spot s.depth hspot
  rw [hq'] at hblanks
  cases hblanks
  exact hq

/-- How a text ends that is scanned up to the spot. -/
inductive Ends : Spot → List Char → Prop where
  | start : Ends .start []
  | opened (y : List Char) (n : Nat) : Ends .opened (y ++ '(' :: blanks n)
  | signed {y : List Char} : ¬ EndsWithOperand y → Ends .signed (y ++ ['-'])
  | operator {y : List Char} {c : Char} (n : Nat) : EndsWithOperand y → c ∈ operatorSymbols →
    Ends .operator (y ++ c :: blanks n)
  | digits {c : Char} (y : List Char) : c.isDigit → Ends .digits (y ++ [c])
  | closed {y : List Char} : EndsWithOperand (y ++ [')']) → Ends .closed (y ++ [')'])
  | spaced {y : List Char} : EndsWithOperand y → Ends .spaced (y ++ [' '])

theorem Ends.endsWithOperand {q : Spot} (h : Ends q v) (hq : q.awaits = false) : EndsWithOperand v := by
  cases h with
  | digits y hc => exact endsWithOperand_of_digit hc
  | closed hv => exact hv
  | spaced hy => exact hy.spaces 1
  | start | opened | signed | operator => cases hq

theorem blanks_concat (n : Nat) : blanks n ++ [' '] = blanks (n + 1) := List.replicate_succ'.symm

theorem ends_of_read (h : Scan.initial.read v = some t) : Ends t.spot v := by
  induction v using List.reverseRecOn generalizing t with
  | nil =>
    cases h
    exact .start
  | append_singleton v c ih =>
    obtain ⟨s, hs, hmove⟩ := Scan.read_concat_eq_some h
    have hends := ih hs
    cases hmove with
    | @blank q d hq =>
      cases hends with
      | opened y n =>
        rw [List.append_assoc, List.cons_append, blanks_concat]
        exact .opened y (n + 1)
      | operator n hy hc =>
        rw [List.append_assoc, List.cons_append, blanks_concat]
        exact .operator (n + 1) hy hc
      | start | signed | digits | closed | spaced => cases hq
    | digit d _ hc | further d hc => exact .digits v hc
    | @sign q d hq =>
      -- After an operand the minus would have been read as an operator.
      refine .signed fun hv => ?_
      have hawaits := hv.awaits hs
      rw [hq] at hawaits
      cases hawaits
    | opening => exact .opened v 0
    | spacing d hq => exact .spaced (hends.endsWithOperand hq)
    | operator d hq hc => exact .operator 0 (hends.endsWithOperand hq) hc
    | closing d hq => exact .closed (endsWithOperand_of_parenthesis (viable_iff_read.mpr ⟨_, h⟩))

theorem AwaitsExpression.spot (h : AwaitsExpression v) (hread : Scan.initial.read v = some t) :
    t.spot = .start ∨ t.spot = .opened := by
  rcases h with rfl | ⟨y, n, rfl⟩
  · cases hread
    exact Or.inl rfl
  · obtain ⟨s, -, hrest⟩ := Scan.read_append_eq_some hread
    obtain ⟨s', hmove, hblanks⟩ := Scan.read_cons_eq_some hrest
    cases hmove with
    | opening d hq =>
      rw [Scan.read_blanks rfl] at hblanks
      cases hblanks
      exact Or.inr rfl
    | digit _ _ hc | further _ hc => exact absurd hc (by decide)
    | operator _ _ hc => exact absurd hc (by decide)

theorem AwaitsFactor.spot (h : AwaitsFactor v) (hread : Scan.initial.read v = some t) :
    t.spot = .signed ∨ t.spot = .operator := by
  rcases h with ⟨y, rfl, hy⟩ | ⟨y, c, n, hy, hc, rfl⟩
  · obtain ⟨s, hs, hmove⟩ := Scan.read_concat_eq_some hread
    cases hmove with
    | sign => exact Or.inl rfl
    | operator d hq hc => exact absurd ((ends_of_read hs).endsWithOperand hq) hy
    | digit _ _ hc | further _ hc => exact absurd hc (by decide)
  · obtain ⟨s, hs, hrest⟩ := Scan.read_append_eq_some hread
    obtain ⟨s', hmove, hblanks⟩ := Scan.read_cons_eq_some hrest
    have hspot : s.spot.awaits = false := hy.awaits hs
    obtain ⟨q, d⟩ := s
    obtain rfl : s' = ⟨.operator, d⟩ := by
      have hstep := Scan.step_eq_some_iff.mpr hmove
      rw [Scan.step_eq_some_iff.mpr (.operator d hspot hc)] at hstep
      exact (Option.some.inj hstep).symm
    rw [Scan.read_blanks rfl] at hblanks
    cases hblanks
    exact Or.inr rfl

end

/-! ### What is expected -/

section
variable {v x : List Char} {t : Scan} {q : Spot}

theorem Ends.lead (h : Ends q v) (hq : q.awaits = false) :
    q.lead = if v.getLast?.any Char.isDigit then ["digit"] else [] := by
  cases h with
  | digits y hc => simp [hc, Spot.lead]
  | closed => simp [Spot.lead]
  | spaced => simp [Spot.lead]
  | start | opened | signed | operator => cases hq

/-- After an operand its last character matters, and whether a parenthesis is open. -/
theorem expected_of_operand (hread : Scan.initial.read v = some t) (hq : t.spot.awaits = false) :
    t.expected = (if v.getLast?.any Char.isDigit then ["digit"] else []) ++ ["' '", "'*'", "'/'", "'+'", "'-'"] ++
      if v.count ')' < v.count '(' then ["')'"] else [] := by
  have hlead := (ends_of_read hread).lead hq
  have hdepth : t.depth = 0 ↔ ¬ v.count ')' < v.count '(' := by
    have hcount := Scan.depth_add_count hread
    simp only [Scan.initial] at hcount
    omega
  simp only [Scan.expected, hlead, hq, continuations, hdepth, Bool.false_eq_true, if_false, ite_not, List.append_assoc]

/-! Alternatives and the texts that they stand for. -/

theorem quoted_injective : Function.Injective quoted := by
  intro x y h
  have hlist := congrArg String.toList h
  simpa [quoted, toString] using hlist

theorem mem_denoted_quoted {y : List Char} : y ∈ denoted (quoted x) ↔ y = x := by
  have hne : quoted x ≠ "expression" ∧ quoted x ≠ "factor" ∧ quoted x ≠ "digit" := by
    refine ⟨fun h => ?_, fun h => ?_, fun h => ?_⟩ <;>
    · have hlist := congrArg String.toList h
      simp [quoted, toString] at hlist
  have hdenoted : denoted (quoted x) = ({y | quoted x = quoted y} : Set (List Char)) := by
    unfold denoted
    split
    · exact absurd ‹_› hne.1
    · exact absurd ‹_› hne.2.1
    · exact absurd ‹_› hne.2.2
    · rfl
  rw [hdenoted]
  exact ⟨fun h => (quoted_injective h).symm, fun h => congrArg quoted h.symm⟩

/-- Where an operand has to follow, what is expected stands for texts of trees. -/
theorem denoted_of_awaits (hq : t.spot.awaits = true) : ∃ what, t.expected = [what] ∧
    (denoted what = Rule.expr.language ∨ denoted what = Rule.factor.language) := by
  obtain ⟨q, d⟩ := t
  cases q with
  | start | opened => exact ⟨"expression", rfl, Or.inl rfl⟩
  | signed | operator => exact ⟨"factor", rfl, Or.inr rfl⟩
  | digits | closed | spaced => cases hq

/-- After an operand it stands for a digit, or for a character at which a scan goes on. -/
theorem mem_expected_iff {what : String} (hq : t.spot.awaits = false) :
    what ∈ t.expected ↔ (what = "digit" ∧ t.spot = .digits) ∨
      ∃ c t', what = quoted [c] ∧ c.isDigit = false ∧ Scan.Move t c t' := by
  obtain ⟨q, d⟩ := t
  have hlead : what ∈ q.lead ↔ what = "digit" ∧ q = .digits := by
    cases q with
    | digits | closed | spaced => simp [Spot.lead]
    | start | opened | signed | operator => cases hq
  have hcontinuations : what ∈ continuations d ↔ ∃ c t', what = quoted [c] ∧ c.isDigit = false ∧ Scan.Move ⟨q, d⟩ c t' := by
    constructor
    · intro h
      have hoperator : ∀ c ∈ operatorSymbols, ∃ c' t', quoted [c] = quoted [c'] ∧ c'.isDigit = false ∧
          Scan.Move ⟨q, d⟩ c' t' :=
        fun c hc => ⟨c, _, rfl, (operatorSymbols_ne hc).2, .operator d hq hc⟩
      simp only [continuations, List.mem_append, List.mem_cons, List.not_mem_nil, or_false] at h
      rcases h with (rfl | rfl | rfl | rfl | rfl) | h
      · exact ⟨' ', _, rfl, rfl, .spacing d hq⟩
      · exact hoperator '*' (by decide)
      · exact hoperator '/' (by decide)
      · exact hoperator '+' (by decide)
      · exact hoperator '-' (by decide)
      · cases d with
        | zero => cases h
        | succ d =>
          obtain rfl : what = "')'" := by simpa using h
          exact ⟨')', _, rfl, rfl, .closing d hq⟩
    · rintro ⟨c, t', rfl, hc, hmove⟩
      cases hmove with
      | blank _ hloose => rw [Scan.awaits_of_loose hloose] at hq; cases hq
      | digit _ _ hdigit | further _ hdigit => rw [hc] at hdigit; cases hdigit
      | sign _ hawaits | opening _ hawaits => rw [hawaits] at hq; cases hq
      | spacing => exact List.mem_append_left _ (by decide)
      | operator _ _ hmem =>
        refine List.mem_append_left _ ?_
        simp only [operatorSymbols, List.mem_cons, List.not_mem_nil, or_false] at hmem
        rcases hmem with rfl | rfl | rfl | rfl <;> decide
      | closing d => exact List.mem_append_right _ (by simp; rfl)
  rw [Scan.expected, if_neg (by simp [hq]), List.mem_append, hlead, hcontinuations]

theorem expected_ne_nil : t.expected ≠ [] := by
  obtain ⟨q, d⟩ := t
  cases q <;> simp [Scan.expected, Spot.lead, Spot.awaits, continuations]

theorem nodup_expected : t.expected.Nodup := by
  obtain ⟨q, d⟩ := t
  by_cases hd : d = 0 <;> cases q <;> simp [Scan.expected, Spot.lead, Spot.awaits, continuations, hd]

/-- What is expected is a way to go on. -/
theorem read_of_mem_expected {what : String} (h : what ∈ t.expected) :
    (∃ x, x ∈ denoted what) ∧ ∀ x ∈ denoted what, ∃ t', t.read x = some t' := by
  cases hq : t.spot.awaits with
  | true =>
    obtain ⟨what', hexpected, hdenoted⟩ := denoted_of_awaits hq
    obtain rfl : what = what' := by simpa [hexpected] using h
    have hpasses : ∀ x ∈ denoted what, Passes true false x := by
      intro x hx
      rcases hdenoted with hdenoted | hdenoted <;> rw [hdenoted] at hx <;> obtain ⟨e, rfl⟩ := hx
      · exact treeClosed_passes.expr e
      · exact treeClosed_passes.factor e
    have hzero : Derives .factor ['0'] := ⟨.number ⟨['0'], by simp, rfl⟩, rfl⟩
    refine ⟨⟨['0'], ?_⟩, fun x hx => ?_⟩
    · rcases hdenoted with hdenoted | hdenoted <;> rw [hdenoted]
      · exact term_le_expr (factor_le_term hzero)
      · exact hzero
    · obtain ⟨q, -, hread⟩ := hpasses x hx t.spot t.depth hq
      exact ⟨_, hread⟩
  | false =>
    rcases (mem_expected_iff hq).mp h with ⟨rfl, hdigits⟩ | ⟨c, t', rfl, -, hmove⟩
    · refine ⟨⟨['0'], '0', rfl, rfl⟩, ?_⟩
      rintro _ ⟨c, hc, rfl⟩
      obtain ⟨q, d⟩ := t
      obtain rfl : q = .digits := hdigits
      exact ⟨_, (Scan.Move.further d hc).read_cons⟩
    · refine ⟨⟨[c], mem_denoted_quoted.mpr rfl⟩, fun x hx => ?_⟩
      rw [mem_denoted_quoted.mp hx]
      exact ⟨_, hmove.read_cons⟩

/-- Every character but a space at which a scan goes on begins something that is expected. -/
theorem exists_expected {c : Char} {t' : Scan} (hc : c ≠ ' ') (hmove : Scan.Move t c t') :
    ∃ what ∈ t.expected, ∃ x, c :: x ∈ denoted what := by
  cases hq : t.spot.awaits with
  | true =>
    obtain ⟨what, hexpected, hdenoted⟩ := denoted_of_awaits hq
    obtain ⟨x, hx⟩ : ∃ x, Derives .factor (c :: x) := by
      cases hmove with
      | digit _ _ hdigit => exact ⟨[], .number ⟨[c], by simp, by simp [hdigit]⟩, rfl⟩
      | sign => exact ⟨['0'], .negated (.number ⟨['0'], by simp, rfl⟩), rfl⟩
      | opening => exact ⟨_, .parenthesized 0 (.mk (.mk (.number ⟨['0'], by simp, rfl⟩) .nil) .nil) 0, by rw [Factor.text]; rfl⟩
      | blank => exact absurd rfl hc
      | further => cases hq
      | spacing _ h | operator _ h | closing _ h => rw [h] at hq; cases hq
    refine ⟨what, by simp [hexpected], x, ?_⟩
    rcases hdenoted with hdenoted | hdenoted <;> rw [hdenoted]
    · exact term_le_expr (factor_le_term hx)
    · exact hx
  | false =>
    cases hdigit : c.isDigit with
    | false =>
      exact ⟨quoted [c], (mem_expected_iff hq).mpr (Or.inr ⟨c, t', rfl, hdigit, hmove⟩), [], mem_denoted_quoted.mpr rfl⟩
    | true =>
      have hspot : t.spot = .digits := by
        cases hmove with
        | further => rfl
        | digit _ h | sign _ h | opening _ h => rw [h] at hq; cases hq
        | blank | spacing => exact absurd rfl hc
        | operator _ _ hmem => rw [(operatorSymbols_ne hmem).2] at hdigit; cases hdigit
        | closing => exact absurd hdigit (by decide)
      exact ⟨"digit", (mem_expected_iff hq).mpr (Or.inl ⟨rfl, hspot⟩), [], c, hdigit, rfl⟩

theorem expected_of_awaitsExpression (hread : Scan.initial.read v = some t) (h : AwaitsExpression v) :
    t.expected = ["expression"] := by
  obtain ⟨q, d⟩ := t
  rcases h.spot hread with rfl | rfl <;> rfl

theorem expected_of_awaitsFactor (hread : Scan.initial.read v = some t) (h : AwaitsFactor v) :
    t.expected = ["factor"] := by
  obtain ⟨q, d⟩ := t
  rcases h.spot hread with rfl | rfl <;> rfl

/-- An operand is last where neither an expression nor a factor has to follow. -/
theorem awaits_eq_false (hread : Scan.initial.read v = some t) (hexpression : ¬ AwaitsExpression v)
    (hfactor : ¬ AwaitsFactor v) : t.spot.awaits = false := by
  obtain ⟨q, d⟩ := t
  cases ends_of_read hread with
  | start => exact absurd (Or.inl rfl) hexpression
  | opened y n => exact absurd (Or.inr ⟨y, n, rfl⟩) hexpression
  | signed hy => exact absurd (Or.inl ⟨_, rfl, hy⟩) hfactor
  | operator n hy hc => exact absurd (Or.inr ⟨_, _, n, hy, hc, rfl⟩) hfactor
  | digits | closed | spaced => rfl

/-- The expectation that a parse reports follows from the longest beginning of the input that is viable: an
    expression where that is empty or where a parenthesis was opened, a factor after a sign or an operator, and
    after an operand a digit, if it ends in one, a space, the operators, and the closing parenthesis, if one is
    open. An evaluation without a match reports the same. There is always something expected, and nothing twice;
    the texts that the alternatives stand for keep the beginning viable, and every character but a space that
    keeps it viable begins one of them. -/
theorem parseExpression_expected (input : String) : ∃ v expected, Longest {x | Viable x} v input.toList ∧
    (parseExpression input).furthest = some ⟨Text.byteLength v, expected⟩ ∧
    (∀ consumption offset expected', evaluate input consumption = .error (.noMatch offset expected') →
      expected' = expected) ∧
    (AwaitsExpression v → expected = ["expression"]) ∧
    (AwaitsFactor v → expected = ["factor"]) ∧
    (¬ AwaitsExpression v → ¬ AwaitsFactor v → EndsWithOperand v ∧
      expected = (if v.getLast?.any Char.isDigit then ["digit"] else []) ++ ["' '", "'*'", "'/'", "'+'", "'-'"] ++
        if v.count ')' < v.count '(' then ["')'"] else []) ∧
    expected ≠ [] ∧ expected.Nodup ∧
    (∀ what ∈ expected, (∃ x, x ∈ denoted what) ∧ ∀ x ∈ denoted what, Viable (v ++ x)) ∧
    ∀ c, c ≠ ' ' → Viable (v ++ [c]) → ∃ what ∈ expected, ∃ x, c :: x ∈ denoted what := by
  obtain ⟨v, u, t, hinput, hread, hstuck, hfurthest⟩ := exists_furthest input
  refine ⟨v, t.expected, hinput ▸ longest_of_stuck hread hstuck, hfurthest, fun consumption offset expected' h => ?_,
    expected_of_awaitsExpression hread, expected_of_awaitsFactor hread, fun hexpression hfactor => ?_,
    expected_ne_nil, nodup_expected, fun what hwhat => ?_, fun c hc hviable => ?_⟩
  · have he := evaluate_noMatch h hfurthest
    rw [Expectation.mk.injEq] at he
    exact he.2.symm
  · have hawaits := awaits_eq_false hread hexpression hfactor
    exact ⟨(ends_of_read hread).endsWithOperand hawaits, expected_of_operand hread hawaits⟩
  · obtain ⟨hsome, hall⟩ := read_of_mem_expected hwhat
    exact ⟨hsome, fun x hx => (viable_append_iff hread).mpr (hall x hx)⟩
  · obtain ⟨t', ht'⟩ := (viable_append_iff hread).mp hviable
    obtain ⟨s, hmove, -⟩ := Scan.read_cons_eq_some ht'
    exact exists_expected hc hmove

end

end Reckoner.Arithmetic
