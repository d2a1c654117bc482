import Reckoner.Proofs.Grammar

/-! Which texts are viable, character by character. It suffices to know what stands last in a text and how many
    of its parentheses are open: a scan that keeps these goes on exactly as long as the text can still become
    an expression. Texts of trees are scanned to their ends; and for each place a scan may be at there is a
    language of completions, each of which is an expression after what was scanned. -/

namespace Reckoner.Arithmetic
open Reckoner.Arithmetic.Derivation
open scoped Computability

/-! ### Scans -/

/-- What stands last in a text. -/
inductive Spot where
  /-- Nothing. -/
  | start
  /-- An opening parenthesis, and any number of spaces. -/
  | opened
  /-- A sign. -/
  | signed
  /-- A binary operator, and any number of spaces. -/
  | operator
  /-- A digit. -/
  | digits
  /-- A closing parenthesis. -/
  | closed
  /-- An operand and at least one space. -/
  | spaced
  deriving DecidableEq, Repr

/-- An operand has to follow. -/
def Spot.awaits : Spot → Bool
  | .start | .opened | .signed | .operator => true
  | .digits | .closed | .spaced => false

/-- Spaces may stand here, and an operand has to follow all the same. -/
def Spot.loose : Spot → Bool
  | .opened | .operator => true
  | _ => false

/-- Where a scan is: what stands last, and how many parentheses are open. -/
structure Scan where
  spot : Spot
  depth : Nat
  deriving DecidableEq, Repr

namespace Scan

/-- Where a text begins. -/
def initial : Scan := ⟨.start, 0⟩

def step : Scan → Char → Option Scan
  | ⟨q, d⟩, c =>
    if q.awaits then
      if c = ' ' then (if q.loose then some ⟨q, d⟩ else none)
      else if c.isDigit then some ⟨.digits, d⟩
      else if c = '-' then some ⟨.signed, d⟩
      else if c = '(' then some ⟨.opened, d + 1⟩
      else none
    else if c = ' ' then some ⟨.spaced, d⟩
    else if c.isDigit then (if q = .digits then some ⟨.digits, d⟩ else none)
    else if c ∈ operatorSymbols then some ⟨.operator, d⟩
    else if c = ')' then
      match d with
      | 0 => none
      | d + 1 => some ⟨.closed, d⟩
    else none

/-- The ways in which a scan goes on. -/
inductive Move : Scan → Char → Scan → Prop where
  | blank {q : Spot} (d : Nat) : q.loose → Move ⟨q, d⟩ ' ' ⟨q, d⟩
  | digit {q : Spot} {c : Char} (d : Nat) : q.awaits → c.isDigit → Move ⟨q, d⟩ c ⟨.digits, d⟩
  | sign {q : Spot} (d : Nat) : q.awaits → Move ⟨q, d⟩ '-' ⟨.signed, d⟩
  | opening {q : Spot} (d : Nat) : q.awaits → Move ⟨q, d⟩ '(' ⟨.opened, d + 1⟩
  | spacing {q : Spot} (d : Nat) : q.awaits = false → Move ⟨q, d⟩ ' ' ⟨.spaced, d⟩
  | further {c : Char} (d : Nat) : c.isDigit → Move ⟨.digits, d⟩ c ⟨.digits, d⟩
  | operator {q : Spot} {c : Char} (d : Nat) : q.awaits = false → c ∈ operatorSymbols → Move ⟨q, d⟩ c ⟨.operator, d⟩
  | closing {q : Spot} (d : Nat) : q.awaits = false → Move ⟨q, d + 1⟩ ')' ⟨.closed, d⟩

theorem awaits_of_loose {q : Spot} (h : q.loose) : q.awaits := by
  cases q <;> first | rfl | cases h

theorem step_eq_some_iff {s t : Scan} {c : Char} : s.step c = some t ↔ Move s c t := by
  constructor
  · obtain ⟨q, d⟩ := s
    intro h
    simp only [step] at h
    cases hq : q.awaits with
    | true =>
      simp only [hq, if_true] at h
      split_ifs at h with hblank hloose hdigit hminus hopen <;> cases h
      · exact hblank ▸ .blank d hloose
      · exact .digit d hq hdigit
      · exact hminus ▸ .sign d hq
      · exact hopen ▸ .opening d hq
    | false =>
      simp only [hq, Bool.false_eq_true, if_false] at h
      split_ifs at h with hblank hdigit hdigits hsymbol hclose
      · cases h
        exact hblank ▸ .spacing d hq
      · cases h
        exact hdigits ▸ .further d hdigit
      · cases h
        exact .operator d hq hsymbol
      · cases d with
        | zero => cases h
        | succ d =>
          cases h
          exact hclose ▸ .closing d hq
  · intro h
    cases h with
    | blank d hq => simp [step, awaits_of_loose hq, hq]
    | digit d hq hc => simp [step, hq, hc, isDigit_ne_blank hc]
    | sign d hq => simp [step, hq]
    | opening d hq => simp [step, hq]
    | spacing d hq => simp [step, hq]
    | further d hc => simp [step, Spot.awaits, hc, isDigit_ne_blank hc]
    | operator d hq hc => simp [step, hq, hc, operatorSymbols_ne hc]
    | closing d hq => simp [step, hq, operatorSymbols]

theorem step_eq_none_iff {s : Scan} {c : Char} : s.step c = none ↔ ∀ t, ¬ Move s c t := by
  simp only [← step_eq_some_iff, ← Option.not_isSome_iff_eq_none, Option.isSome_iff_exists, not_exists]

theorem step_eq_none {q : Spot} {d : Nat} {c : Char} (hq : q.awaits = false) (hblank : c ≠ ' ')
    (hdigit : q = .digits → c.isDigit = false) (hsymbol : c ∉ operatorSymbols) (hclose : c = ')' → d = 0) :
    step ⟨q, d⟩ c = none := by
  refine step_eq_none_iff.mpr fun t hmove => ?_
  cases hmove with
  | blank | spacing => exact hblank rfl
  | digit _ hawaits | sign _ hawaits | opening _ hawaits => rw [hq] at hawaits; cases hawaits
  | further _ hc => rw [hdigit rfl] at hc; cases hc
  | operator _ _ hc => exact hsymbol hc
  | closing => exact absurd (hclose rfl) (Nat.succ_ne_zero _)

/-- Where a scan is after a word, if it gets through. -/
def read (s : Scan) (v : List Char) : Option Scan := v.foldlM step s

section
variable {s t t' : Scan} {c : Char} {v w : List Char}

@[simp] theorem read_nil : s.read [] = some s := rfl

theorem read_cons : s.read (c :: v) = (s.step c).bind fun t => t.read v := List.foldlM_cons

theorem read_append : s.read (v ++ w) = (s.read v).bind fun t => t.read w := List.foldlM_append

theorem Move.read_cons (h : Move s c t) : s.read (c :: v) = t.read v := by
  rw [Scan.read_cons, step_eq_some_iff.mpr h, Option.bind_some]

theorem read_cons_eq_some (h : s.read (c :: v) = some t') : ∃ t, Move s c t ∧ t.read v = some t' := by
  rw [Scan.read_cons, Option.bind_eq_some_iff] at h
  exact h.imp fun t ht => ⟨step_eq_some_iff.mp ht.1, ht.2⟩

theorem read_append_eq_some (h : s.read (v ++ w) = some t') : ∃ t, s.read v = some t ∧ t.read w = some t' := by
  rwa [read_append, Option.bind_eq_some_iff] at h

theorem read_concat_eq_some (h : s.read (v ++ [c]) = some t') : ∃ t, s.read v = some t ∧ Move t c t' := by
  obtain ⟨t, hv, hc⟩ := read_append_eq_some h
  obtain ⟨t'', hmove, hnil⟩ := read_cons_eq_some hc
  cases hnil
  exact ⟨t, hv, hmove⟩

theorem Move.depth_add_count (h : Move s c t) : s.depth + [c].count '(' = t.depth + [c].count ')' := by
  have hother : c ≠ '(' → c ≠ ')' → [c].count '(' = [c].count ')' := by
    intro hopen hclose
    rw [List.count_singleton, List.count_singleton, if_neg (by simpa using hopen), if_neg (by simpa using hclose)]
  cases h with
  | digit d _ hc | further d hc =>
    exact congrArg (d + ·) (hother (by rintro rfl; cases hc) (by rintro rfl; cases hc))
  | operator d _ hc =>
    exact congrArg (d + ·) (hother (by rintro rfl; simp [operatorSymbols] at hc)
      (by rintro rfl; simp [operatorSymbols] at hc))
  | blank | sign | opening | spacing | closing => rfl

/-- Each parenthesis changes how many are open. -/
theorem depth_add_count (h : s.read v = some t) : s.depth + v.count '(' = t.depth + v.count ')' := by
  induction v generalizing s with
  | nil =>
    cases h
    rfl
  | cons c v ih =>
    obtain ⟨s', hmove, hv⟩ := read_cons_eq_some h
    have hfirst := hmove.depth_add_count
    have hrest := ih hv
    rw [← List.singleton_append, List.count_append, List.count_append]
    omega

end
end Scan

/-! ### Trees are scanned to their ends -/

/-- Scans get through `x` and have as many parentheses open after it; `before` and `after` say whether an operand
    has to follow. -/
def Passes (before after : Bool) (x : List Char) : Prop :=
  ∀ q d, q.awaits = before → ∃ q', q'.awaits = after ∧ (Scan.mk q d).read x = some ⟨q', d⟩

section
variable {a b e : Bool} {x y : List Char}

theorem Passes.append (hx : Passes a b x) (hy : Passes b e y) : Passes a e (x ++ y) := by
  intro q d hq
  obtain ⟨q', hq', hread⟩ := hx q d hq
  obtain ⟨q'', hq'', hread'⟩ := hy q' d hq'
  exact ⟨q'', hq'', by rw [Scan.read_append, hread, Option.bind_some, hread']⟩

theorem passes_nil : Passes a a [] := fun q _ hq => ⟨q, hq, rfl⟩

theorem Scan.read_blanks {q : Spot} (hq : q.loose) (d n : Nat) : (Scan.mk q d).read (blanks n) = some ⟨q, d⟩ := by
  induction n with
  | zero => rfl
  | succ n ih => rw [blanks_succ, (Scan.Move.blank d hq).read_cons, ih]

theorem Scan.read_spacing {q : Spot} (hq : q.awaits = false) (d n : Nat) :
    (Scan.mk q d).read (blanks (n + 1)) = some ⟨.spaced, d⟩ := by
  induction n generalizing q with
  | zero => exact (Scan.Move.spacing d hq).read_cons
  | succ n ih => rw [blanks_succ, (Scan.Move.spacing d hq).read_cons, ih rfl]

theorem passes_blanks : (n : Nat) → Passes false false (blanks n)
  | 0 => passes_nil
  | n + 1 => fun _ d hq => ⟨.spaced, rfl, Scan.read_spacing hq d n⟩

theorem passes_operator {c : Char} (hc : c ∈ operatorSymbols) (before after : Nat) :
    Passes false true (blanks before ++ c :: blanks after) := by
  refine (passes_blanks before).append fun q d hq => ⟨.operator, rfl, ?_⟩
  rw [(Scan.Move.operator d hq hc).read_cons, Scan.read_blanks rfl]

theorem Scan.read_digits {digits : List Char} (hdigits : digits.all Char.isDigit = true) (d : Nat) :
    (Scan.mk .digits d).read digits = some ⟨.digits, d⟩ := by
  induction digits with
  | nil => rfl
  | cons c digits ih =>
    rw [List.all_cons, Bool.and_eq_true] at hdigits
    rw [(Scan.Move.further d hdigits.1).read_cons, ih hdigits.2]

end

theorem treeClosed_passes : TreeClosed (Passes true false) (Passes false false) where
  number n := by
    intro q d hq
    obtain ⟨c, x, hx, hc⟩ := n.digits_head
    have hall : x.all Char.isDigit = true := by
      have hdigits := n.all_digits
      rw [hx, List.all_cons, Bool.and_eq_true] at hdigits
      exact hdigits.2
    rw [hx, (Scan.Move.digit d hq hc).read_cons]
    exact ⟨.digits, rfl, Scan.read_digits hall d⟩
  negated f hf := by
    intro q d hq
    rw [Factor.text, (Scan.Move.sign d hq).read_cons]
    exact hf .signed d rfl
  parenthesized before e after he := by
    intro q d hq
    obtain ⟨q', hq', hread⟩ := he .opened (d + 1) rfl
    obtain ⟨q'', hq'', hafter⟩ := passes_blanks after q' (d + 1) hq'
    refine ⟨.closed, rfl, ?_⟩
    simp only [Factor.text, List.cons_append, (Scan.Move.opening d hq).read_cons, Scan.read_append,
      Scan.read_blanks (q := .opened) rfl, hread, hafter, Option.bind_some, (Scan.Move.closing d hq'').read_cons,
      Scan.read_nil]
  nil := passes_nil
  snoc _ before _ after _ hx hc hy := (hx.append (passes_operator hc before after)).append hy
  append _ _ hx hy := hx.append hy

/-! ### Completions -/

/-- What may follow an expression that stands in so many open parentheses. -/
def enclosings : Nat → Language Char
  | 0 => 1
  | d + 1 => Rule.spaces.language * {[')']} * (Rule.termTail.language * Rule.exprTail.language * enclosings d)

/-- What may follow an operand that stands in so many open parentheses. -/
def closings (d : Nat) : Language Char := Rule.termTail.language * Rule.exprTail.language * enclosings d

def digitRuns : Language Char := {x | x.all Char.isDigit = true}

/-- What makes an expression of a text when it follows where the scan of the text ended. -/
def Scan.completions : Scan → Language Char
  | ⟨.start, d⟩ | ⟨.signed, d⟩ => Rule.factor.language * closings d
  | ⟨.opened, d⟩ | ⟨.operator, d⟩ => Rule.spaces.language * (Rule.factor.language * closings d)
  | ⟨.digits, d⟩ => digitRuns * closings d
  | ⟨.closed, d⟩ => closings d
  | ⟨.spaced, d⟩ => {y | ∀ n, blanks n ++ y ∈ closings d}

section
variable {x y : List Char} {d : Nat}

theorem mem_closings : y ∈ closings d ↔
    ∃ t r z, Derives .termTail t ∧ Derives .exprTail r ∧ z ∈ enclosings d ∧ y = t ++ (r ++ z) := by
  constructor
  · intro h
    obtain ⟨_, htails, z, hz, rfl⟩ := Language.mem_mul.mp h
    obtain ⟨t, ht, r, hr, rfl⟩ := Language.mem_mul.mp htails
    exact ⟨t, r, z, ht, hr, hz, List.append_assoc ..⟩
  · rintro ⟨t, r, z, ht, hr, hz, rfl⟩
    rw [← List.append_assoc]
    exact Language.append_mem_mul (Language.append_mem_mul ht hr) hz

theorem operator_mem_closings {c : Char} (hc : c ∈ operatorSymbols) (before after : Nat) (hx : Derives .factor x)
    (hy : y ∈ closings d) : blanks before ++ c :: (blanks after ++ (x ++ y)) ∈ closings d := by
  obtain ⟨f, rfl⟩ := hx
  obtain ⟨t, r, z, ht, hr, hz, rfl⟩ := mem_closings.mp hy
  have hcases : (∃ operator : FactorOperator, operator.symbol = c) ∨
      ∃ operator : TermOperator, operator.symbol = c := by
    simp only [operatorSymbols, List.mem_cons, List.not_mem_nil, or_false] at hc
    rcases hc with rfl | rfl | rfl | rfl
    · exact Or.inl ⟨.times, rfl⟩
    · exact Or.inl ⟨.over, rfl⟩
    · exact Or.inr ⟨.plus, rfl⟩
    · exact Or.inr ⟨.minus, rfl⟩
  rcases hcases with ⟨operator, rfl⟩ | ⟨operator, rfl⟩
  · have hsteps := append_mem_kstar (mem_factorSteps.mpr ⟨before, operator, after, f, rfl⟩) (language_termTail.le ht)
    exact mem_closings.mpr ⟨_, r, z, language_termTail.ge hsteps, hr, hz, by simp⟩
  · obtain ⟨t', ht'⟩ := derives_term ⟨f, rfl⟩ ht
    have hsteps := append_mem_kstar (mem_termSteps.mpr ⟨before, operator, after, t', rfl⟩) (language_exprTail.le hr)
    exact mem_closings.mpr ⟨[], _, z, ⟨.nil, rfl⟩, language_exprTail.ge hsteps, hz, by simp [ht']⟩

theorem parenthesis_mem_closings (n : Nat) (hy : y ∈ closings d) : blanks n ++ ')' :: y ∈ closings (d + 1) := by
  have hclose : blanks n ++ [')'] ++ y ∈ enclosings (d + 1) :=
    Language.append_mem_mul (Language.append_mem_mul ⟨n, rfl⟩ rfl) hy
  exact mem_closings.mpr ⟨[], [], _, ⟨.nil, rfl⟩, ⟨.nil, rfl⟩, hclose, by simp⟩

/-- An operand, and what may follow it, completes a text after which one has to follow. -/
theorem mem_completions_of_awaits {q : Spot} (hq : q.awaits = true) (hx : Derives .factor x) (hy : y ∈ closings d) :
    x ++ y ∈ Scan.completions ⟨q, d⟩ := by
  have hoperand : x ++ y ∈ Rule.factor.language * closings d := Language.append_mem_mul hx hy
  have hspaces : x ++ y ∈ Rule.spaces.language * (Rule.factor.language * closings d) :=
    Language.append_mem_mul (a := []) ⟨0, rfl⟩ hoperand
  cases q with
  | start | signed => exact hoperand
  | opened | operator => exact hspaces
  | digits | closed | spaced => cases hq

theorem mem_completions_of_not_awaits {q : Spot} (hq : q.awaits = false) (hy : ∀ n, blanks n ++ y ∈ closings d) :
    y ∈ Scan.completions ⟨q, d⟩ := by
  cases q with
  | digits => exact Language.append_mem_mul (l := digitRuns) (a := []) rfl (hy 0)
  | closed => exact hy 0
  | spaced => exact hy
  | start | signed | opened | operator => cases hq

theorem Scan.Move.completions {s t : Scan} {c : Char} (h : Move s c t) (hy : y ∈ t.completions) :
    c :: y ∈ s.completions := by
  cases h with
  | @blank q d hq =>
    have hspaces : ∀ {y : List Char}, y ∈ Rule.spaces.language * (Rule.factor.language * closings d) →
        ' ' :: y ∈ Rule.spaces.language * (Rule.factor.language * closings d) := by
      intro y hy
      obtain ⟨_, ⟨n, rfl⟩, z, hz, rfl⟩ := Language.mem_mul.mp hy
      exact Language.append_mem_mul (a := blanks (n + 1)) ⟨n + 1, rfl⟩ hz
    cases q with
    | opened | operator => exact hspaces hy
    | start | signed | digits | closed | spaced => cases hq
  | digit d hq hc =>
    obtain ⟨x, hx, z, hz, rfl⟩ := Language.mem_mul.mp hy
    have hnumber : Derives .factor (c :: x) :=
      ⟨.number ⟨c :: x, by simp, by rw [List.all_cons, hc, hx]; rfl⟩, rfl⟩
    exact mem_completions_of_awaits hq hnumber hz
  | sign d hq =>
    obtain ⟨_, ⟨f, rfl⟩, z, hz, rfl⟩ := Language.mem_mul.mp hy
    exact mem_completions_of_awaits hq (x := '-' :: f.text) ⟨.negated f, rfl⟩ hz
  | opening d hq =>
    obtain ⟨_, ⟨before, rfl⟩, _, hrest, rfl⟩ := Language.mem_mul.mp hy
    obtain ⟨x, hx, _, hclosing, rfl⟩ := Language.mem_mul.mp hrest
    -- What closes the parenthesis comes after the rest of the expression inside; all before it is one factor.
    obtain ⟨t, r, _, ht, hr, henclosing, rfl⟩ := mem_closings.mp hclosing
    obtain ⟨_, hclose, z, hz, rfl⟩ := Language.mem_mul.mp henclosing
    obtain ⟨_, ⟨after, rfl⟩, _, rfl, rfl⟩ := Language.mem_mul.mp hclose
    obtain ⟨e, he⟩ := derives_expr (derives_term hx ht) hr
    have hfactor := mem_completions_of_awaits hq ⟨.parenthesized before e after, rfl⟩ hz
    simpa [Factor.text, he] using hfactor
  | spacing d hq =>
    have hspaced : ∀ n, blanks n ++ ' ' :: y ∈ closings d := by
      intro n
      have hblanks := hy (n + 1)
      rwa [blanks, List.replicate_succ', List.append_assoc] at hblanks
    exact mem_completions_of_not_awaits hq hspaced
  | further d hc =>
    obtain ⟨x, hx, z, hz, rfl⟩ := Language.mem_mul.mp hy
    have hall : (c :: x).all Char.isDigit = true := by
      rw [List.all_cons, hc]
      exact hx
    exact Language.append_mem_mul (l := digitRuns) (a := c :: x) hall hz
  | operator d hq hc =>
    obtain ⟨_, ⟨after, rfl⟩, _, hrest, rfl⟩ := Language.mem_mul.mp hy
    obtain ⟨x, hx, z, hz, rfl⟩ := Language.mem_mul.mp hrest
    exact mem_completions_of_not_awaits hq fun n => operator_mem_closings hc n after hx hz
  | closing d hq => exact mem_completions_of_not_awaits hq fun n => parenthesis_mem_closings n hy

theorem exists_mem_closings (d : Nat) : ∃ y, y ∈ closings d := by
  induction d with
  | zero => exact ⟨[], mem_closings.mpr ⟨[], [], [], ⟨.nil, rfl⟩, ⟨.nil, rfl⟩, rfl, rfl⟩⟩
  | succ d ih => exact ih.imp' (')' :: ·) fun y hy => parenthesis_mem_closings 0 hy

/-- Every text that is scanned can be completed. -/
theorem Scan.exists_mem_completions (s : Scan) : ∃ y, y ∈ s.completions := by
  obtain ⟨q, d⟩ := s
  obtain ⟨y, hy⟩ := exists_mem_closings d
  have hzero : Derives .factor ['0'] := ⟨.number ⟨['0'], by simp, rfl⟩, rfl⟩
  cases hq : q.awaits with
  | true => exact ⟨_, mem_completions_of_awaits hq hzero hy⟩
  | false =>
    -- No spot tells operators apart, so any of them will do.
    have hoperator : '*' :: (['0'] ++ y) ∈ Scan.completions ⟨q, d⟩ :=
      (Move.operator d hq (by decide)).completions
        (mem_completions_of_awaits (q := .operator) rfl hzero hy)
    exact ⟨_, hoperator⟩

theorem Scan.read_completions {s t : Scan} {v : List Char} (h : s.read v = some t) (hy : y ∈ t.completions) :
    v ++ y ∈ s.completions := by
  induction v generalizing s with
  | nil =>
    cases h
    exact hy
  | cons c v ih =>
    obtain ⟨s', hmove, hv⟩ := read_cons_eq_some h
    exact hmove.completions (ih hv)

theorem derives_of_mem_completions (h : x ∈ Scan.initial.completions) : Derives .expr x := by
  obtain ⟨x, hx, _, hy, rfl⟩ := Language.mem_mul.mp h
  obtain ⟨t, r, _, ht, hr, rfl, rfl⟩ := mem_closings.mp hy
  have he := derives_expr (derives_term hx ht) hr
  simpa using he

end

/-- A text is viable as long as a scan gets through. -/
theorem viable_iff_read {v : List Char} : Viable v ↔ ∃ t, Scan.initial.read v = some t := by
  constructor
  · rintro ⟨u, e, he⟩
    obtain ⟨q, -, hread⟩ := treeClosed_passes.expr e .start 0 rfl
    rw [he] at hread
    exact (Scan.read_append_eq_some hread).imp fun t ht => ht.1
  · rintro ⟨t, ht⟩
    obtain ⟨y, hy⟩ := t.exists_mem_completions
    exact ⟨y, derives_of_mem_completions (Scan.read_completions ht hy)⟩

end Reckoner.Arithmetic
