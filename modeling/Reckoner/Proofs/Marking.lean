import Reckoner.Proofs.Longest
import Reckoner.Proofs.Stops

/-! What the rules of arithmetic mark. A rule that fails leaves the mark of the place where a scan of the same
    words gets stuck, however many alternatives were tried in between: those that got less far are dropped, and
    the names of the rules that fail where they started take the place of what was tried in them. A rule that
    matches may have got further than it matched, when an operand was missing; otherwise the scan is still
    under way where the match ends, and what was tried there is in the mark for what comes next. -/

namespace Reckoner.Arithmetic
open Reckoner.Parser Reckoner.Arithmetic.Derivation

variable {ι : Type} {τ : ι → Type} {text : List Char} {depth : Nat} {env : Environment τ} {w u v : List Char}
  {e f g : WithOne Mark}

/-! ### Words -/

theorem runs_literal {expected : String} {c : Char} (hc : expected.toList = [c]) (w : List Char) :
    ∃ r f, Runs text depth env (.literal expected) w r f ∧ Mark.Behind w f := by
  by_cases hw : w.head? = some c
  · obtain ⟨u, rfl⟩ := List.head?_eq_some_iff.mp hw
    exact ⟨_, 1, Runs.char hc, Mark.behind_one⟩
  · exact ⟨none, _, Runs.char_none hc hw, Mark.behind_coe.mpr (Nat.le_refl _)⟩

theorem runs_digitTexts {r : Option (String × List Char)} (h : Reads text depth env digit w r) :
    ∃ f, Runs text depth env (.any (digitTexts.map .literal)) w r f ∧ Mark.Behind w f := by
  refine Runs.any_behind h.of_label fun p hp => ?_
  obtain ⟨d, hd, rfl⟩ := List.mem_map.mp hp
  obtain ⟨c, -, rfl⟩ := mem_digitTexts.mp hd
  exact runs_literal (String.toList_singleton c) w

theorem runs_digit {c : Char} (hc : c.isDigit = true) :
    ∃ f, Runs text depth env digit (c :: u) (some (String.singleton c, u)) f ∧ Mark.Behind (c :: u) f := by
  have hreads : Reads text depth env digit (c :: u) (some (String.singleton c, u)) := reads_digit hc
  obtain ⟨f, hf, hbehind⟩ := runs_digitTexts hreads
  exact ⟨f, hf.label_some "digit", hbehind⟩

theorem runs_digit_none (hw : ∀ c, w.head? = some c → c.isDigit = false) :
    Runs text depth env digit w none (Mark.named w "digit") := by
  have hreads : Reads text depth env digit w none := reads_digit_none hw
  obtain ⟨f, hf, hbehind⟩ := runs_digitTexts hreads
  rw [← hbehind.mul_of_replaces (m := Mark.named w "digit") (Nat.le_refl _) rfl]
  exact hf.label_none "digit"

theorem runs_number_none (hw : ∀ c, w.head? = some c → c.isDigit = false) :
    Runs text depth env number w none (Mark.named w "number") := by
  rw [← Mark.behind_named.mul_of_replaces (w := w) (m := Mark.named w "number") (Nat.le_refl _) rfl]
  have hmany : Runs text depth env digit.many1 w none (Mark.named w "digit") :=
    (runs_digit_none hw).chain_none.map _
  exact (hmany.map String.join).chain_none.label_none "number"

section
variable (hdepth : Text.byteLength text < depth)
include hdepth

theorem runs_digits {digits : List Char} (hdigits : digits.all Char.isDigit = true)
    (hu : ∀ c, u.head? = some c → c.isDigit = false) :
    Runs text depth env digit.many (digits ++ u) (some (digits.map String.singleton, u)) (Mark.named u "digit") := by
  have hends : ∀ s, exec text depth digit.many env s ≠ .halted .tooDeep := (steady_digits hdepth).ne_tooDeep
  induction digits with
  | nil => exact Runs.many_nil hends (runs_digit_none hu)
  | cons c digits ih =>
    rw [List.all_cons, Bool.and_eq_true] at hdigits
    obtain ⟨f, hf, hbehind⟩ : ∃ f, Runs text depth env digit (c :: (digits ++ u))
        (some (String.singleton c, digits ++ u)) f ∧ Mark.Behind (c :: (digits ++ u)) f := runs_digit hdigits.1
    rw [← hbehind.mul_of_lt (m := Mark.named u "digit") byteLength_lt]
    exact Runs.many_cons hends hf (ih hdigits.2)

theorem runs_number (n : Numeral) (hu : ∀ c, u.head? = some c → c.isDigit = false) :
    Runs text depth env number (n.digits ++ u) (some (n.value, u)) (Mark.named u "digit") := by
  have hread := read?_digits n
  obtain ⟨digits, hne, hdigits⟩ := n
  obtain ⟨c, rest, rfl⟩ := List.exists_cons_of_ne_nil hne
  have hall := hdigits
  rw [List.all_cons, Bool.and_eq_true] at hall
  obtain ⟨f, hf, hbehind⟩ : ∃ f, Runs text depth env digit (c :: (rest ++ u))
      (some (String.singleton c, rest ++ u)) f ∧ Mark.Behind (c :: (rest ++ u)) f := runs_digit hall.1
  have hmany : Runs text depth env (digit.many1.map String.join) (c :: rest ++ u)
      (some (String.join ((c :: rest).map String.singleton), u)) (Mark.named u "digit") := by
    rw [← hbehind.mul_of_lt (m := Mark.named u "digit") byteLength_lt]
    exact (hf.cons (runs_digits hdepth hall.2 hu)).map String.join
  rw [← mul_one (Mark.named u "digit" : WithOne Mark)]
  refine (hmany.chain ?_).label_some "number"
  rw [hread]
  exact Runs.pure _

theorem runs_spaces (n : Nat) (hu : u.head? ≠ some ' ') :
    Runs text depth env spaces (blanks n ++ u) (some (String.join (List.replicate n " "), u))
      (Mark.noted u ["' '"]) := by
  have hends : ∀ s, exec text depth (Parser.literal " ").many env s ≠ .halted .tooDeep :=
    (steady_blanks hdepth).ne_tooDeep
  have hblanks : Runs text depth env (Parser.literal " ").many (blanks n ++ u) (some (List.replicate n " ", u))
      (Mark.noted u ["' '"]) := by
    induction n with
    | zero => exact Runs.many_nil hends (Runs.char_none rfl hu)
    | succ n ih =>
      rw [← one_mul (Mark.noted u ["' '"] : WithOne Mark)]
      exact Runs.many_cons hends (Runs.char rfl) ih
  exact hblanks.map String.join

/-! ### One operator -/

section
variable {operand : Parser τ Float} {symbol : String} {c : Char} (hsymbol : symbol.toList = [c])
include hsymbol

theorem runs_binary_none (n : Nat) (hu : u.head? ≠ some ' ') (hc : u.head? ≠ some c) :
    Runs text depth env (binary symbol spaces operand) (blanks n ++ u) none
      (Mark.noted u (Mark.merge ["' '"] [s!"'{symbol}'"])) := by
  have hnone : Runs text depth env (spaces.keepRight (.literal symbol)) (blanks n ++ u) none
      (Mark.noted u (Mark.merge ["' '"] [s!"'{symbol}'"])) := by
    rw [← Mark.noted_mul_noted, WithOne.coe_mul]
    exact (runs_spaces hdepth n hu).keepRight (Runs.char_none hsymbol hc)
  exact hnone.chain_none.chain_none

theorem runs_binary_other {c' : Char} (hblank : c' ≠ ' ') (hc : c' ≠ c) (n : Nat) {z : List Char} :
    ∃ e, Runs text depth env (binary symbol spaces operand) (blanks n ++ c' :: z) none e ∧ Mark.Behind (c' :: z) e :=
  ⟨_, runs_binary_none hdepth hsymbol n (by simpa using hblank) (by simpa using hc), Mark.behind_noted⟩

theorem runs_binary (hc : c ≠ ' ') (before after : Nat) {z : List Char} {r : Option (Float × List Char)}
    (hz : z.head? ≠ some ' ') (h : Runs text depth env operand z r f) :
    ∃ e, Runs text depth env (binary symbol spaces operand) (blanks before ++ c :: (blanks after ++ z)) r (e * f) ∧
      Mark.Behind z e := by
  have hbefore : (c :: (blanks after ++ z)).head? ≠ some ' ' := by simpa using hc
  have hopen : Runs text depth env (spaces.keepRight (.literal symbol)) (blanks before ++ c :: (blanks after ++ z))
      (some (symbol, blanks after ++ z)) ((Mark.noted (c :: (blanks after ++ z)) ["' '"] : Mark) * 1) :=
    (runs_spaces hdepth before hbefore).keepRight (Runs.char hsymbol)
  refine ⟨_, (hopen.keepRight (runs_spaces hdepth after hz)).keepRight h, ?_⟩
  rw [mul_one]
  exact (Mark.behind_coe.mpr (Nat.le_of_lt byteLength_lt)).mul Mark.behind_noted

end
end

/-! ### Two operators -/

/-- Two operators that their symbols tell apart. -/
structure Pair (o₁ o₂ : Operator) (c₁ c₂ : Char) : Prop where
  first : o₁.symbol.toList = [c₁]
  second : o₂.symbol.toList = [c₂]
  mem : c₁ ∈ operatorSymbols ∧ c₂ ∈ operatorSymbols
  ne : c₁ ≠ c₂

/-- What is expected where neither operator stands. -/
def attempts (o₁ o₂ : Operator) : List String :=
  Mark.merge (Mark.merge ["' '"] [s!"'{o₁.symbol}'"]) (Mark.merge ["' '"] [s!"'{o₂.symbol}'"])

section
variable {operand : Parser τ Float} {o₁ o₂ : Operator} {c₁ c₂ : Char}

theorem runs_further {p : Parser τ Fold} {operator : Operator} {x : Float} {z : List Char} {k : Fold}
    (hbinary : Runs text depth env (binary operator.symbol spaces operand) w (some (x, z)) f)
    (hp : Runs text depth env p z (some (k, u)) g) :
    Runs text depth (env.extend (exec text depth p env)) (further spaces operand operator) w
      (some (fun y => k (operator.apply y x), u)) (f * g) := by
  have hbinary' : Runs text depth (env.extend (exec text depth p env))
      (binary operator.symbol spaces.weaken operand.weaken) w (some (x, z)) f :=
    ⟨reads_binary_weaken hbinary.reads, hbinary.leaves⟩
  exact (hbinary'.seq hp.self).map_some rfl

theorem runs_further_none {self : State → Reply Fold} {operator : Operator}
    (hbinary : Runs text depth env (binary operator.symbol spaces operand) w none f) :
    Runs text depth (env.extend self) (further spaces operand operator) w none f := by
  have hbinary' : Runs text depth (env.extend self)
      (binary operator.symbol spaces.weaken operand.weaken) w none f :=
    ⟨reads_binary_weaken hbinary.reads, hbinary.leaves⟩
  exact hbinary'.chain_none.map _

variable (hends : ∀ s, exec text depth (tail [o₁, o₂] spaces operand) env s ≠ .halted .tooDeep)
include hends

theorem runs_tail_stop (h₁ : Runs text depth env (binary o₁.symbol spaces operand) w none f)
    (h₂ : Runs text depth env (binary o₂.symbol spaces operand) w none g) :
    Runs text depth env (tail [o₁, o₂] spaces operand) w (some (id, w)) (f * g) := by
  rw [tail_eq] at hends ⊢
  have hpair : Runs text depth (env.extend (exec text depth (.recursive
      (.any ([o₁, o₂].map (further spaces operand) ++ [.pure id]))) env))
      (.or (further spaces operand o₁) (further spaces operand o₂)) w none (f * g) :=
    (runs_further_none h₁).or_right (runs_further_none h₂)
  rw [← mul_one (f * g)]
  exact Runs.recursive hends (Runs.any_append (hpair.or_right (Runs.pure id)))

section
variable {x : Float} {z : List Char} {k : Fold}

theorem runs_tail_first (h₁ : Runs text depth env (binary o₁.symbol spaces operand) w (some (x, z)) f)
    (hrest : Runs text depth env (tail [o₁, o₂] spaces operand) z (some (k, u)) g) :
    Runs text depth env (tail [o₁, o₂] spaces operand) w (some (fun y => k (o₁.apply y x), u)) (f * g) := by
  have hsome := runs_further h₁ hrest
  rw [tail_eq] at hends hsome ⊢
  exact Runs.recursive hends (Runs.any_append hsome.or_left.or_left)

theorem runs_tail_second (h₁ : Runs text depth env (binary o₁.symbol spaces operand) w none e)
    (h₂ : Runs text depth env (binary o₂.symbol spaces operand) w (some (x, z)) f)
    (hrest : Runs text depth env (tail [o₁, o₂] spaces operand) z (some (k, u)) g) :
    Runs text depth env (tail [o₁, o₂] spaces operand) w (some (fun y => k (o₂.apply y x), u)) (e * (f * g)) := by
  have hsome := runs_further h₂ hrest
  rw [tail_eq] at hends hsome ⊢
  exact Runs.recursive hends (Runs.any_append ((runs_further_none h₁).or_right hsome).or_left)

end

variable (hpair : Pair o₁ o₂ c₁ c₂) (hdepth : Text.byteLength text < depth)
include hpair hdepth

theorem runs_tail_absent (n : Nat) (hu : u.head? ≠ some ' ') (h₁ : u.head? ≠ some c₁) (h₂ : u.head? ≠ some c₂) :
    Runs text depth env (tail [o₁, o₂] spaces operand) (blanks n ++ u) (some (id, blanks n ++ u))
      (Mark.noted u (attempts o₁ o₂)) := by
  rw [attempts, ← Mark.noted_mul_noted, WithOne.coe_mul]
  exact runs_tail_stop hends (runs_binary_none hdepth hpair.first n hu h₁) (runs_binary_none hdepth hpair.second n hu h₂)

section
variable {c : Char} (hc : c = c₁ ∨ c = c₂) (before after : Nat) {z : List Char} (hz : z.head? ≠ some ' ')
include hc hz

/-- An operator stands there, but its operand is missing. -/
theorem runs_tail_stuck (h : Runs text depth env operand z none f) :
    ∃ e e', Runs text depth env (tail [o₁, o₂] spaces operand) (blanks before ++ c :: (blanks after ++ z))
      (some (id, blanks before ++ c :: (blanks after ++ z))) (e * f * e') ∧ Mark.Behind z e ∧
      Mark.Behind (c :: (blanks after ++ z)) e' := by
  have hne₁ : c₁ ≠ ' ' := (operatorSymbols_ne hpair.mem.1).1
  have hne₂ : c₂ ≠ ' ' := (operatorSymbols_ne hpair.mem.2).1
  rcases hc with rfl | rfl
  · obtain ⟨e, he, hbehind⟩ := runs_binary hdepth hpair.first hne₁ before after hz h
    obtain ⟨e', hother, hbehind'⟩ := runs_binary_other hdepth hpair.second hne₁ hpair.ne before
    exact ⟨e, e', runs_tail_stop hends he hother, hbehind, hbehind'⟩
  · obtain ⟨e, he, hbehind⟩ := runs_binary hdepth hpair.second hne₂ before after hz h
    obtain ⟨e', hother, hbehind'⟩ := runs_binary_other hdepth hpair.first hne₂ hpair.ne.symm before
    have htail := runs_tail_stop hends hother he
    rw [← mul_assoc, ← mul_one (_ * f)] at htail
    exact ⟨e' * e, 1, htail, (hbehind'.mono (Nat.le_of_lt byteLength_lt)).mul hbehind, Mark.behind_one⟩

theorem runs_tail_step {x : Float} {z' : List Char} {k : Fold} (h : Runs text depth env operand z (some (x, z')) f)
    (hrest : Runs text depth env (tail [o₁, o₂] spaces operand) z' (some (k, u)) g) :
    ∃ e k', Runs text depth env (tail [o₁, o₂] spaces operand) (blanks before ++ c :: (blanks after ++ z))
      (some (k', u)) (e * (f * g)) ∧ Mark.Behind z e := by
  have hne₁ : c₁ ≠ ' ' := (operatorSymbols_ne hpair.mem.1).1
  have hne₂ : c₂ ≠ ' ' := (operatorSymbols_ne hpair.mem.2).1
  rcases hc with rfl | rfl
  · obtain ⟨e, he, hbehind⟩ := runs_binary hdepth hpair.first hne₁ before after hz h
    have htail := runs_tail_first hends he hrest
    rw [mul_assoc] at htail
    exact ⟨e, _, htail, hbehind⟩
  · obtain ⟨e, he, hbehind⟩ := runs_binary hdepth hpair.second hne₂ before after hz h
    obtain ⟨e', hother, hbehind'⟩ := runs_binary_other hdepth hpair.first hne₂ hpair.ne.symm before
    have htail := runs_tail_second hends hother he hrest
    rw [mul_assoc, ← mul_assoc] at htail
    exact ⟨e' * e, _, htail, (hbehind'.mono (Nat.le_of_lt byteLength_lt)).mul hbehind⟩

end
end

/-! ### What is ahead after a match -/

/-- The scan that began as `s` where `w` was left is under way where `u` is left, in the same parentheses, after an
    operand. A space is expected there at once, and then `m` has come to stand for the alternatives. -/
structure Underway (alternatives : List String) (symbols : List Char) (s : Scan) (w : List Char) (q : Spot)
    (u : List Char) (m : Mark) : Prop where
  after : q.awaits = false
  head : u.head? ≠ some ' '
  digit : q = .digits → ∀ c, u.head? = some c → c.isDigit = false
  symbol : ∀ c ∈ symbols, u.head? ≠ some c
  shorter : Text.byteLength u < Text.byteLength w
  stop : stop s w = stop ⟨q, s.depth⟩ u
  noted : m * Mark.noted u ["' '"] = q.mark u alternatives
  exact : alternatives ≠ ["' '"] → m = q.mark u alternatives

/-- What is ahead after a match that began where `w` was left, where a scan is `s`. The mark is that of the match. -/
inductive Ahead (alternatives : List String) (symbols : List Char) (s : Scan) (w : List Char) :
    List Char → WithOne Mark → Prop where
  /-- One of the symbols, whose operand is missing. -/
  | stuck {n : Nat} {c : Char} {z : List Char} : c ∈ symbols → (stop s w).left < Text.byteLength (c :: z) →
    Text.byteLength (c :: z) ≤ Text.byteLength w → Ahead alternatives symbols s w (blanks n ++ c :: z) (stop s w)
  /-- Something else, which the scan has not seen yet. -/
  | free {n : Nat} {q : Spot} {u : List Char} {m : Mark} : Underway alternatives symbols s w q u m →
    Ahead alternatives symbols s w (blanks n ++ u) m

/-- Where `w` is left, `p` either fails with the mark of the place where the scan gets stuck, or matches so that what
    is ahead is known. -/
def Follows (text : List Char) (depth : Nat) (env : Environment τ) (p : Parser τ Float) (alternatives : List String)
    (symbols : List Char) (s : Scan) (w : List Char) : Prop :=
  Runs text depth env p w none (stop s w) ∨
    ∃ x v f, Runs text depth env p w (some (x, v)) f ∧ Ahead alternatives symbols s w v f

section
variable {l : List String} {symbols : List Char} {s s' : Scan} {w' : List Char} {q : Spot} {m : Mark}

theorem Underway.behind (h : Underway l symbols s w q u m) : Mark.Behind u m := by
  rw [Mark.behind_coe]
  have hleft := congrArg Mark.left h.noted
  rw [Mark.left_mul, Mark.left_noted, Spot.left_mark] at hleft
  omega

/-- Where no parenthesis closes that is open, and none of the operators follows, the scan is stuck. -/
theorem Underway.stuck (h : Underway l operatorSymbols s w q u m) (hclose : u.head? = some ')' → s.depth = 0) :
    Arithmetic.stop s w = Scan.mark ⟨q, s.depth⟩ u := by
  refine h.stop.trans (stop_of_stuck fun c hc => Scan.step_eq_none h.after ?_ ?_ ?_ ?_)
  · exact fun hblank => h.head (hblank ▸ hc)
  · exact fun hdigits => h.digit hdigits c hc
  · exact fun hmem => h.symbol c hmem hc
  · exact fun hclosing => hclose (hclosing ▸ hc)

/-- Where the parenthesis is missing that should close, it is added to the alternatives. -/
theorem Underway.mul_parenthesis {d : Nat} (h : Underway (continuations 0) operatorSymbols ⟨.start, d + 1⟩ w q u m)
    (hclose : u.head? ≠ some ')') :
    m * Mark.noted u ["' '"] * Mark.noted u ["')'"] = Arithmetic.stop ⟨.start, d + 1⟩ w := by
  have hmerge : Mark.merge (continuations 0) ["')'"] = continuations (d + 1) := by simp [Mark.merge, continuations]
  rw [h.noted, Spot.mark_mul_noted h.after (by decide), hmerge, h.stuck fun hhead => absurd hhead hclose]
  simp [Scan.mark, h.after]

theorem Ahead.behind_mul (he : Mark.Behind w e) (h : Ahead l symbols s w v f) : Ahead l symbols s w v (e * f) := by
  cases h with
  | stuck hc hlt hle =>
    rw [he.mul_of_lt (hlt.trans_le hle)]
    exact .stuck hc hlt hle
  | @free n q u m h =>
    cases e with
    | one => exact (one_mul (m : WithOne Mark)).symm ▸ .free h
    | coe m' =>
      have hlt : Text.byteLength u < m'.left := h.shorter.trans_le (Mark.behind_coe.mp he)
      rw [← WithOne.coe_mul]
      exact .free { h with
        noted := by rw [mul_assoc, h.noted, Spot.mul_mark hlt]
        exact := fun hl => by rw [h.exact hl, Spot.mul_mark hlt] }

theorem Ahead.congr (h : Ahead l symbols s w v f) (hstop : stop s w = stop s' w')
    (hle : Text.byteLength w ≤ Text.byteLength w') (hdepth : s.depth = s'.depth) : Ahead l symbols s' w' v f := by
  cases h with
  | stuck hc hlt hle' =>
    rw [hstop] at hlt ⊢
    exact .stuck hc hlt (hle'.trans hle)
  | free h =>
    exact .free { h with shorter := h.shorter.trans_le hle, stop := by rw [← hstop, h.stop, hdepth] }

theorem Ahead.left_stop_lt (h : Ahead l symbols s w v f) : (stop s w).left < Text.byteLength w := by
  cases h with
  | stuck _ hlt hle => exact hlt.trans_le hle
  | free h =>
    rw [h.stop]
    exact (left_stop_le _ _).trans_lt h.shorter

end

/-! ### Operands and operators -/

section
variable {operand : Parser τ Float} {o₁ o₂ : Operator} {c₁ c₂ : Char} {l : List String} {symbols : List Char}
  {d : Nat} {q : Spot} {m : Mark} {s : Scan}

theorem merge_space_attempts : Mark.merge ["' '"] (attempts o₁ o₂) = attempts o₁ o₂ := by
  have hspace : Mark.merge ["' '"] ["' '"] = ["' '"] := rfl
  simp only [attempts, ← Mark.merge_assoc, hspace]

theorem space_mem_attempts : "' '" ∈ attempts o₁ o₂ := by
  simp only [attempts, Mark.mem_merge, List.mem_cons, true_or]

theorem Underway.mul_attempts (h : Underway l symbols s w q u m) (hdigit : "digit" ∉ attempts o₁ o₂) :
    m * Mark.noted u (attempts o₁ o₂) = q.mark u (Mark.merge l (attempts o₁ o₂)) := by
  rw [← merge_space_attempts, ← Mark.noted_mul_noted, ← mul_assoc, h.noted, merge_space_attempts,
    Spot.mark_mul_noted h.after hdigit]

theorem Underway.absent (h : Underway l symbols s w q u m) (hdigit : "digit" ∉ attempts o₁ o₂)
    (h₁ : u.head? ≠ some c₁) (h₂ : u.head? ≠ some c₂) :
    Underway (Mark.merge l (attempts o₁ o₂)) (symbols ++ [c₁, c₂]) s w q u (m * Mark.noted u (attempts o₁ o₂)) where
  after := h.after
  head := h.head
  digit := h.digit
  symbol c hc := by
    simp only [List.mem_append, List.mem_cons, List.not_mem_nil, or_false] at hc
    rcases hc with hc | rfl | rfl
    · exact h.symbol c hc
    · exact h₁
    · exact h₂
  shorter := h.shorter
  stop := h.stop
  noted := by
    have hspace : Mark.merge (Mark.merge l (attempts o₁ o₂)) ["' '"] = Mark.merge l (attempts o₁ o₂) := by
      refine Mark.merge_of_subset fun x hx => ?_
      rw [List.mem_singleton.mp hx]
      exact Mark.mem_merge.mpr (Or.inr space_mem_attempts)
    rw [h.mul_attempts hdigit, Spot.mark_mul_noted h.after (by decide), hspace]
  exact _ := h.mul_attempts hdigit

/-- Where an operator follows, the scan waits for its operand from there on. -/
theorem Underway.stop_operand {c : Char} {n : Nat} {z z' : List Char}
    (h : Underway l symbols ⟨.signed, d⟩ z q (c :: (blanks n ++ z')) m) (hmem : c ∈ operatorSymbols)
    (hz' : z'.head? ≠ some ' ') : Arithmetic.stop ⟨.signed, d⟩ z = Arithmetic.stop ⟨.signed, d⟩ z' := by
  rw [h.stop, (Scan.Move.operator d h.after hmem).stop, stop_blanks rfl]
  exact stop_eq_of_lead rfl rfl rfl hz'

variable (hends : ∀ s, exec text depth (tail [o₁, o₂] spaces operand) env s ≠ .halted .tooDeep)
  (hpair : Pair o₁ o₂ c₁ c₂) (hdepth : Text.byteLength text < depth) (hdigit : "digit" ∉ attempts o₁ o₂)
  (hsymbols : ∀ c ∈ symbols, c ∈ operatorSymbols ∧ c ≠ c₁ ∧ c ≠ c₂)
include hends hpair hdepth hdigit hsymbols

/-- By induction on what is left when the operand starts: after each step of the tail the same is known as after
    the first operand. -/
theorem ahead_tail {z : List Char}
    (hoperand : ∀ z', Text.byteLength z' < Text.byteLength z →
      Follows text depth env operand l symbols ⟨.signed, d⟩ z')
    (h : Ahead l symbols ⟨.signed, d⟩ z v f) :
    ∃ k v' f', Runs text depth env (tail [o₁, o₂] spaces operand) v (some (k, v')) f' ∧
      Ahead (Mark.merge l (attempts o₁ o₂)) (symbols ++ [c₁, c₂]) ⟨.signed, d⟩ z v' (f * f') := by
  induction hbytes : Text.byteLength z using Nat.strong_induction_on generalizing z v f with
  | h n ih =>
    subst hbytes
    cases h with
    | @stuck n c y hc hlt hle =>
      -- The symbol that stands there belongs to the operand's own operators, so these two fail at once.
      obtain ⟨hmem, hne₁, hne₂⟩ := hsymbols c hc
      refine ⟨id, _, _, runs_tail_absent hends hpair hdepth n (u := c :: y) ?_ ?_ ?_, ?_⟩
      · simpa using (operatorSymbols_ne hmem).1
      · simpa using hne₁
      · simpa using hne₂
      · rw [Mark.behind_noted.mul_of_gt hlt]
        exact .stuck (List.mem_append_left _ hc) hlt hle
    | @free n q u m h =>
      by_cases hoperator : ∃ c u', u = c :: u' ∧ (c = c₁ ∨ c = c₂)
      · -- Its operand may fail, or match and leave the tail to go on after it.
        obtain ⟨c, u', rfl, hc⟩ := hoperator
        obtain ⟨after, z', rfl, hz'⟩ := exists_blanks u'
        have hmem : c ∈ operatorSymbols := by
          rcases hc with rfl | rfl
          · exact hpair.mem.1
          · exact hpair.mem.2
        have hstop : stop ⟨.signed, d⟩ z = stop ⟨.signed, d⟩ z' := h.stop_operand hmem hz'
        have hshorter : Text.byteLength z' < Text.byteLength z := byteLength_lt.trans h.shorter
        have hm : Mark.Behind z' m := h.behind.mono (Nat.le_of_lt byteLength_lt)
        rcases hoperand z' hshorter with hnone | ⟨x, v', f', hrun, hahead⟩
        · obtain ⟨e, e', htail, he, he'⟩ := runs_tail_stuck hends hpair hdepth hc n after hz' hnone
          have hlt : (stop ⟨.signed, d⟩ z').left < Text.byteLength (c :: (blanks after ++ z')) :=
            (left_stop_le _ _).trans_lt byteLength_lt
          have hmark : (m : WithOne Mark) * (e * (stop ⟨.signed, d⟩ z' : Mark) * e') = (stop ⟨.signed, d⟩ z' : Mark) := by
            rw [behind_mul_stop he rfl, he'.mul_of_gt hlt, behind_mul_stop hm rfl]
          refine ⟨id, _, _, htail, ?_⟩
          rw [hmark, ← hstop]
          rw [← hstop] at hlt
          exact .stuck (List.mem_append_right _ (by simpa using hc)) hlt (Nat.le_of_lt h.shorter)
        · obtain ⟨k, v'', f'', htail, hahead'⟩ :=
            ih (Text.byteLength z') hshorter (fun y hy => hoperand y (hy.trans hshorter)) hahead rfl
          obtain ⟨e, k', hstep, he⟩ := runs_tail_step hends hpair hdepth hc n after hz' hrun htail
          refine ⟨k', v'', _, hstep, ?_⟩
          rw [← mul_assoc]
          exact (hahead'.behind_mul (hm.mul he)).congr hstop.symm (Nat.le_of_lt hshorter) rfl
      · have h₁ : u.head? ≠ some c₁ := fun hhead => by
          obtain ⟨u', rfl⟩ := List.head?_eq_some_iff.mp hhead
          exact hoperator ⟨c₁, u', rfl, Or.inl rfl⟩
        have h₂ : u.head? ≠ some c₂ := fun hhead => by
          obtain ⟨u', rfl⟩ := List.head?_eq_some_iff.mp hhead
          exact hoperator ⟨c₂, u', rfl, Or.inr rfl⟩
        refine ⟨id, _, _, runs_tail_absent hends hpair hdepth n h.head h₁ h₂, ?_⟩
        rw [← WithOne.coe_mul]
        exact .free (h.absent hdigit h₁ h₂)

theorem follows_chained (hoperand : ∀ z, Text.byteLength z ≤ Text.byteLength w →
      Follows text depth env operand l symbols ⟨.signed, d⟩ z) :
    Follows text depth env (chained operand (tail [o₁, o₂] spaces operand)) (Mark.merge l (attempts o₁ o₂))
      (symbols ++ [c₁, c₂]) ⟨.signed, d⟩ w := by
  rcases hoperand w (Nat.le_refl _) with hnone | ⟨x, v, f, hrun, hahead⟩
  · exact Or.inl (hnone.chain_none.map _)
  · obtain ⟨k, v', f', htail, hahead'⟩ :=
      ahead_tail hends hpair hdepth hdigit hsymbols (fun z hz => hoperand z (Nat.le_of_lt hz)) hahead
    exact Or.inr ⟨_, v', _, (hrun.seq htail).map_some rfl, hahead'⟩

end

/-! ### Factors -/

/-- After an operand that ends where `y` is left, nothing but what belongs to its end is expected there. -/
theorem Ahead.operand {s : Scan} {q : Spot} {y : List Char} {m : Mark} (hq : q.awaits = false)
    (hdigit : q = .digits → ∀ c, y.head? = some c → c.isDigit = false)
    (hm : m * Mark.noted y [] = q.mark y []) (hstop : stop s w = stop ⟨q, s.depth⟩ y)
    (hshorter : Text.byteLength y < Text.byteLength w) : Ahead ["' '"] [] s w y m := by
  obtain ⟨n, u, rfl, hu⟩ := exists_blanks y
  cases n with
  | zero =>
    have hspace : Mark.merge [] ["' '"] = ["' '"] := rfl
    exact .free (n := 0) {
      after := hq
      head := hu
      digit := hdigit
      symbol := fun c hc => absurd hc List.not_mem_nil
      shorter := hshorter
      stop := hstop
      noted := by
        have hnoted : m * Mark.noted u ["' '"] = m * Mark.noted u [] * Mark.noted u ["' '"] := by
          rw [mul_assoc, Mark.noted_mul_noted, hspace]
        rw [hnoted, show m * Mark.noted u [] = q.mark u [] from hm, Spot.mark_mul_noted hq (by decide), hspace]
      exact := fun h => absurd rfl h }
  | succ n =>
    have hbehind : Text.byteLength u < m.left := by
      have hleft := congrArg Mark.left hm
      rw [Mark.left_mul, Mark.left_noted, Spot.left_mark] at hleft
      exact (byteLength_lt (c := ' ') (x := blanks n)).trans_le (min_eq_right_iff.mp hleft)
    exact .free (q := .spaced) {
      after := rfl
      head := hu
      digit := fun h => nomatch h
      symbol := fun c hc => absurd hc List.not_mem_nil
      shorter := (byteLength_lt (c := ' ') (x := blanks n)).trans hshorter
      stop := hstop.trans (stop_spacing hq)
      noted := Mark.mul_of_gt hbehind
      exact := fun h => absurd rfl h }

/-- The alternatives of a factor. -/
def parenthesized : Parser (Extended Float τ) Float :=
  ((((Parser.literal "(").keepRight spaces.weaken).keepRight (Assembly.expression.tied number spaces).weaken).keepLeft
    spaces.weaken).keepLeft (.literal ")")

def negated : Parser (Extended Float τ) Float := ((Parser.literal "-").keepRight .self).map (- ·)

theorem runs_parenthesized_none {self : State → Reply Float} (hw : w.head? ≠ some '(') :
    Runs text depth (env.extend self) parenthesized w none (Mark.noted w ["'('"]) :=
  (Runs.char_none rfl hw).chain_none.chain_none.chain_none.chain_none

theorem runs_negated_none {self : State → Reply Float} (hw : w.head? ≠ some '-') :
    Runs text depth (env.extend self) negated w none (Mark.noted w ["'-'"]) := (Runs.char_none rfl hw).chain_none.map _

variable (hdepth : Text.byteLength text < depth)
include hdepth

theorem runs_factor_none (hdigit : ∀ c, w.head? = some c → c.isDigit = false)
    (h₁ : Runs text depth (env.extend (exec text depth rules.factor env)) parenthesized w none f)
    (h₂ : Runs text depth (env.extend (exec text depth rules.factor env)) negated w none g) :
    Runs text depth env rules.factor w none (f * g * Mark.named w "factor") := by
  have hnumber : (Mark.named w "number" : WithOne Mark) * Mark.named w "factor" = Mark.named w "factor" :=
    Mark.behind_named.mul_of_replaces (Nat.le_refl _) rfl
  rw [← hnumber, ← mul_assoc]
  exact Runs.recursive (exec_rule_ne_tooDeep hdepth .factor)
    (((h₁.or_right h₂).or_right (runs_number_none hdigit).weaken).label_none "factor")

section
variable {d : Nat} {symbols : List Char} {l : List String}

theorem follows_factor_missing (hdigit : ∀ c, w.head? = some c → c.isDigit = false) (hopen : w.head? ≠ some '(')
    (hminus : w.head? ≠ some '-') : Follows text depth env rules.factor ["' '"] [] ⟨.signed, d⟩ w := by
  have hfactor : Runs text depth env rules.factor w none
      (Mark.noted w ["'('"] * Mark.noted w ["'-'"] * Mark.named w "factor" : WithOne Mark) :=
    runs_factor_none hdepth hdigit (runs_parenthesized_none hopen) (runs_negated_none hminus)
  rw [(Mark.behind_noted.mul Mark.behind_noted).mul_of_replaces (m := Mark.named w "factor") (Nat.le_refl _) rfl,
    ← stop_missing hdigit hopen hminus] at hfactor
  exact Or.inl hfactor

theorem follows_factor_number (n : Numeral) (hu : ∀ c, u.head? = some c → c.isDigit = false) :
    Follows text depth env rules.factor ["' '"] [] ⟨.signed, d⟩ (n.digits ++ u) := by
  obtain ⟨c, x, hx, hc⟩ := n.digits_head
  have hhead : ∀ c' : Char, c'.isDigit = false → (n.digits ++ u).head? ≠ some c' := by
    intro c' hc' hhead
    rw [hx, List.cons_append, List.head?_cons, Option.some.injEq] at hhead
    rw [hhead, hc'] at hc
    cases hc
  have hread : (Scan.mk .signed d).read n.digits = some ⟨.digits, d⟩ := by
    have hall := n.all_digits
    rw [hx, List.all_cons, Bool.and_eq_true] at hall
    rw [hx, (Scan.Move.digit d rfl hc).read_cons, Scan.read_digits hall.2]
  have hshorter : Text.byteLength u < Text.byteLength (n.digits ++ u) := by
    rw [hx, List.cons_append]
    exact byteLength_lt
  have hahead : Ahead ["' '"] [] ⟨.signed, d⟩ (n.digits ++ u) u (Mark.named u "digit" : Mark) :=
    .operand (q := .digits) rfl (fun _ => hu) (Mark.mul_of_eq rfl rfl) (stop_append hread) hshorter
  have hfactor : Runs text depth env rules.factor (n.digits ++ u) (some (n.value, u))
      (Mark.noted (n.digits ++ u) ["'('"] * Mark.noted (n.digits ++ u) ["'-'"] * Mark.named u "digit" : WithOne Mark) := by
    refine Runs.recursive (exec_rule_ne_tooDeep hdepth .factor) (.label_some "factor" ?_)
    exact ((runs_parenthesized_none (hhead '(' (by decide))).or_right
      (runs_negated_none (hhead '-' (by decide)))).or_right (runs_number hdepth n hu).weaken
  exact Or.inr ⟨n.value, u, _, hfactor, hahead.behind_mul (Mark.behind_noted.mul Mark.behind_noted)⟩

theorem follows_factor_negated (h : Follows text depth env rules.factor ["' '"] [] ⟨.signed, d⟩ w) :
    Follows text depth env rules.factor ["' '"] [] ⟨.signed, d⟩ ('-' :: w) := by
  have hstop : stop ⟨.signed, d⟩ ('-' :: w) = stop ⟨.signed, d⟩ w := (Scan.Move.sign d rfl).stop
  have hlt : Text.byteLength w < Text.byteLength ('-' :: w) := byteLength_tail_lt
  have hopen : Runs text depth (env.extend (exec text depth rules.factor env)) parenthesized ('-' :: w) none
      (Mark.noted ('-' :: w) ["'('"]) := runs_parenthesized_none (by simp)
  have hbehind : Mark.Behind w (Mark.noted ('-' :: w) ["'('"] : Mark) := Mark.behind_coe.mpr (Nat.le_of_lt hlt)
  rcases h with hnone | ⟨x, v, f, hrun, hahead⟩
  · have hnegated : Runs text depth (env.extend (exec text depth rules.factor env)) negated ('-' :: w) none
        (1 * (stop ⟨.signed, d⟩ w : Mark)) := ((Runs.char rfl).keepRight hnone.self).map _
    have hfactor := runs_factor_none hdepth (by simp) hopen hnegated
    rw [one_mul, behind_mul_stop hbehind rfl, Mark.behind_named.mul_of_gt ((left_stop_le _ _).trans_lt hlt)] at hfactor
    exact Or.inl (hstop ▸ hfactor)
  · have hnegated : Runs text depth (env.extend (exec text depth rules.factor env)) negated ('-' :: w)
        (some (-x, v)) (1 * f) := ((Runs.char rfl).keepRight hrun.self).map_some rfl
    have hfactor := Runs.recursive (exec_rule_ne_tooDeep hdepth .factor)
      (Runs.label_some "factor" (Runs.or_left (hopen.or_right hnegated)))
    rw [one_mul] at hfactor
    exact Or.inr ⟨-x, v, _, hfactor, (hahead.behind_mul hbehind).congr hstop.symm (Nat.le_of_lt hlt) rfl⟩

theorem follows_parenthesized {self : State → Reply Float} {before : Nat} {z : List Char} (hz : z.head? ≠ some ' ')
    (h : Follows text depth env expr (continuations 0) operatorSymbols ⟨.start, d + 1⟩ z) :
    Follows text depth (env.extend self) parenthesized ["' '"] [] ⟨.signed, d⟩ ('(' :: (blanks before ++ z)) := by
  have hstop : stop ⟨.signed, d⟩ ('(' :: (blanks before ++ z)) = stop ⟨.start, d + 1⟩ z := by
    rw [(Scan.Move.opening d rfl).stop, stop_blanks rfl]
    exact stop_eq_of_lead rfl rfl rfl hz
  have hopen : Runs text depth (env.extend self) ((Parser.literal "(").keepRight spaces.weaken)
      ('(' :: (blanks before ++ z)) (some (_, z)) (1 * (Mark.noted z ["' '"] : Mark)) :=
    (Runs.char rfl).keepRight (runs_spaces hdepth before hz).weaken
  rw [one_mul] at hopen
  rcases h with hnone | ⟨x, v, f, hrun, hahead⟩
  · have hinside := hopen.keepRight (hnone.congr (exec_enclosed hdepth)).weaken
    rw [behind_mul_stop Mark.behind_noted rfl, ← hstop] at hinside
    exact Or.inl hinside.chain_none.chain_none
  · have hinside := hopen.keepRight (hrun.congr (exec_enclosed hdepth)).weaken
    replace hahead := hahead.behind_mul (Mark.behind_noted (l := ["' '"]))
    generalize (Mark.noted z ["' '"] : WithOne Mark) * f = g at hinside hahead
    cases hahead with
    | @stuck n c y hc hlt hle =>
      have hne : c ≠ ' ' := (operatorSymbols_ne hc).1
      have hclose : c ≠ ')' := by
        rintro rfl
        exact absurd hc (by decide)
      have hmissing : Runs text depth (env.extend self) (.literal ")") (c :: y) none (Mark.noted (c :: y) ["')'"]) :=
        Runs.char_none (c := ')') rfl (by simpa using hclose)
      have hfail := (hinside.keepLeft (runs_spaces hdepth n (u := c :: y) (by simpa using hne)).weaken).keepLeft_none
        hmissing
      rw [Mark.behind_noted.mul_of_gt hlt, Mark.behind_noted.mul_of_gt hlt, ← hstop] at hfail
      exact Or.inl hfail
    | @free n q u m h =>
      have hspaces := hinside.keepLeft (runs_spaces hdepth n h.head).weaken
      rw [← WithOne.coe_mul] at hspaces
      by_cases hclose : u.head? = some ')'
      · obtain ⟨y, rfl⟩ := List.head?_eq_some_iff.mp hclose
        have hparenthesis : Runs text depth (env.extend self) (.literal ")") (')' :: y) (some (")", y)) 1 :=
          Runs.char rfl
        have hmatch := hspaces.keepLeft hparenthesis
        rw [mul_one, h.noted] at hmatch
        -- All that was tried inside lies before the parenthesis.
        have hahead : Ahead ["' '"] [] ⟨.signed, d⟩ ('(' :: (blanks before ++ z)) y
            (q.mark (')' :: y) (continuations 0) : Mark) := by
          refine .operand (q := .closed) rfl (fun h => nomatch h) (Mark.mul_of_gt byteLength_tail_lt) ?_ ?_
          · rw [hstop, h.stop, (Scan.Move.closing d h.after).stop]
          · exact (byteLength_tail_lt.trans h.shorter).trans byteLength_lt
        exact Or.inr ⟨x, y, _, hmatch, hahead⟩
      · have hmissing : Runs text depth (env.extend self) (.literal ")") u none (Mark.noted u ["')'"]) :=
          Runs.char_none rfl hclose
        have hfail := hspaces.keepLeft_none hmissing
        rw [← WithOne.coe_mul, h.mul_parenthesis hclose, ← hstop] at hfail
        exact Or.inl hfail

theorem follows_factor_parenthesized
    (h : Follows text depth (env.extend (exec text depth rules.factor env)) parenthesized ["' '"] [] ⟨.signed, d⟩
      ('(' :: w)) : Follows text depth env rules.factor ["' '"] [] ⟨.signed, d⟩ ('(' :: w) := by
  rcases h with hnone | ⟨x, v, f, hrun, hahead⟩
  · have hlt := left_stop_lt (w := w) (Scan.Move.opening d (q := .signed) rfl)
    have hfactor := runs_factor_none hdepth (by simp) hnone (runs_negated_none (by simp))
    rw [Mark.behind_noted.mul_of_gt hlt, Mark.behind_named.mul_of_gt hlt] at hfactor
    exact Or.inl hfactor
  · exact Or.inr ⟨x, v, f, Runs.recursive (exec_rule_ne_tooDeep hdepth .factor)
      (Runs.label_some "factor" hrun.or_left.or_left), hahead⟩

/-- By induction on what is left: an operand that begins with a sign is shorter without it. -/
theorem follows_factor (hexpr : ∀ z d, Text.byteLength z < Text.byteLength w →
      Follows text depth env expr (continuations 0) operatorSymbols ⟨.start, d⟩ z) :
    Follows text depth env rules.factor ["' '"] [] ⟨.signed, d⟩ w := by
  induction hbytes : Text.byteLength w using Nat.strong_induction_on generalizing w with
  | h n ih =>
    subst hbytes
    rcases w with _ | ⟨c, w⟩
    · exact follows_factor_missing hdepth (by simp) (by simp) (by simp)
    · have hlt : Text.byteLength w < Text.byteLength (c :: w) := byteLength_tail_lt
      by_cases hdigit : c.isDigit = true
      · obtain ⟨digits, u, hw, hdigits, hu⟩ := exists_digits (c :: w)
        have hne : digits ≠ [] := by
          rintro rfl
          rw [List.nil_append] at hw
          rw [hu c (hw ▸ rfl)] at hdigit
          cases hdigit
        rw [hw]
        exact follows_factor_number hdepth ⟨digits, hne, hdigits⟩ hu
      by_cases hminus : c = '-'
      · subst hminus
        exact follows_factor_negated hdepth (ih _ hlt (fun z d hz => hexpr z d (hz.trans hlt)) rfl)
      by_cases hopen : c = '('
      · subst hopen
        obtain ⟨before, z, rfl, hz⟩ := exists_blanks w
        exact follows_factor_parenthesized hdepth (follows_parenthesized hdepth hz (hexpr z _ byteLength_lt))
      · exact follows_factor_missing hdepth (by simpa using hdigit) (by simpa using hopen) (by simpa using hminus)

end

/-! ### The rules -/

omit hdepth in
theorem pair_factorOperators : Pair ⟨"*", (· * ·)⟩ ⟨"/", (· / ·)⟩ '*' '/' := ⟨rfl, rfl, by decide, by decide⟩

omit hdepth in
theorem pair_termOperators : Pair ⟨"+", (· + ·)⟩ ⟨"-", (· - ·)⟩ '+' '-' := ⟨rfl, rfl, by decide, by decide⟩

theorem follows_term (hfactor : ∀ z, Text.byteLength z ≤ Text.byteLength w →
      Follows text depth env rules.factor ["' '"] [] ⟨.signed, d⟩ z) :
    Follows text depth env rules.term ["' '", "'*'", "'/'"] ['*', '/'] ⟨.signed, d⟩ w := by
  have hterm := follows_chained (exec_rule_ne_tooDeep hdepth .termTail) pair_factorOperators hdepth (by decide)
    (fun c hc => absurd hc List.not_mem_nil) hfactor
  exact hterm

/-- By induction on what is left: what stands in parentheses is shorter. -/
theorem follows_expr (w : List Char) (d : Nat) :
    Follows text depth env expr (continuations 0) operatorSymbols ⟨.start, d⟩ w := by
  induction hbytes : Text.byteLength w using Nat.strong_induction_on generalizing w d with
  | h n ih =>
    subst hbytes
    have hterm : ∀ z, Text.byteLength z ≤ Text.byteLength w →
        Follows text depth env rules.term ["' '", "'*'", "'/'"] ['*', '/'] ⟨.signed, d⟩ z :=
      fun z hz => follows_term hdepth fun z' hz' => follows_factor hdepth fun y d' hy =>
        ih _ (hy.trans_le (hz'.trans hz)) y d' rfl
    have hends : ∀ s, exec text depth rules.exprTail env s ≠ .halted .tooDeep := exec_rule_ne_tooDeep hdepth .exprTail
    have hsymbols : ∀ c ∈ ['*', '/'], c ∈ operatorSymbols ∧ c ≠ '+' ∧ c ≠ '-' := by
      intro c hc
      simp only [List.mem_cons, List.not_mem_nil, or_false] at hc
      rcases hc with rfl | rfl <;> decide
    have hchained := follows_chained hends pair_termOperators hdepth (by decide) hsymbols hterm
    rcases hchained with hnone | ⟨x, v, f, hrun, hahead⟩
    · have hexpr := hnone.label_none "expression"
      rw [← WithOne.coe_mul, ← stop_start] at hexpr
      exact Or.inl hexpr
    · have hstop : stop ⟨.signed, d⟩ w = stop ⟨.start, d⟩ w := by
        rw [stop_start, Mark.mul_of_lt hahead.left_stop_lt]
      exact Or.inr ⟨x, v, f, hrun.label_some "expression", hahead.congr hstop (Nat.le_refl _) rfl⟩

/-- A parse of an expression leaves the mark of the place where a scan gets stuck, whether it matches or not. -/
theorem runs_expr (w : List Char) : ∃ r, Runs text depth env expr w r (stop .initial w) := by
  rcases follows_expr hdepth w 0 with hnone | ⟨x, v, f, hrun, hahead⟩
  · exact ⟨none, hnone⟩
  · refine ⟨some (x, v), ?_⟩
    cases hahead with
    | stuck => exact hrun
    | @free n q u m h =>
      -- Nothing follows an expression outside parentheses but its operators.
      have hstuck : stop .initial w = Scan.mark ⟨q, 0⟩ u := h.stuck fun _ => rfl
      have hmark : q.mark u (continuations 0) = Scan.mark ⟨q, 0⟩ u := by simp [Scan.mark, h.after]
      rw [h.exact (by decide), hmark, ← hstuck] at hrun
      exact hrun

end Reckoner.Arithmetic
