import Reckoner.CommandLine.Report
import Reckoner.Proofs.Viability

/-! One line for each expression. Whatever stands in an expression, it is printed quoted, and a quoted text has no
    control characters. Neither have numbers in digits and what a parse may expect: names of rules, and single
    characters between quotes. So the only newline of a line is the one at its end. -/

namespace Reckoner

/-! ### Texts without control characters -/

namespace Text

/-- Whether `c` is one of the characters of the general category `Cc`. -/
def IsControl (c : Char) : Prop := c.toNat < 0x20 ∨ 0x7f ≤ c.toNat ∧ c.toNat < 0xa0

instance : DecidablePred IsControl := fun _ => inferInstanceAs (Decidable (_ ∨ _))

/-- No control characters are among these. -/
def Clean (w : List Char) : Prop := ∀ c ∈ w, ¬IsControl c

instance : DecidablePred Clean := fun w => List.decidableBAll (fun c => ¬IsControl c) w

section
variable {v w : List Char} {c : Char}

theorem Clean.notMem (h : Clean w) (hc : IsControl c) : c ∉ w := fun hmem => h c hmem hc

theorem Clean.of_subset (h : Clean w) (hvw : v ⊆ w) : Clean v := fun c hc => h c (hvw hc)

@[simp] theorem clean_cons : Clean (c :: w) ↔ ¬IsControl c ∧ Clean w := List.forall_mem_cons

@[simp] theorem clean_append : Clean (v ++ w) ↔ Clean v ∧ Clean w := List.forall_mem_append

theorem clean_replicate (hc : ¬IsControl c) (n : Nat) : Clean (List.replicate n c) := fun _ hd =>
  List.eq_of_mem_replicate hd ▸ hc

theorem clean_intercalate {t : String} {ts : List String} (ht : Clean t.toList) (hts : ∀ u ∈ ts, Clean u.toList) :
    Clean (t.intercalate ts).toList := by
  induction ts with
  | nil => exact fun _ hc => absurd hc List.not_mem_nil
  | cons u ts ih =>
    obtain ⟨hu, hts⟩ := List.forall_mem_cons.mp hts
    cases ts with
    | nil => simpa using hu
    | cons u' ts =>
      simp only [String.intercalate_cons_cons, String.toList_append, clean_append]
      exact ⟨⟨hu, ht⟩, ih hts⟩

/-! ### Numbers -/

theorem mem_toDigits {base n : Nat} (hbase : 1 < base) (h : c ∈ Nat.toDigits base n) :
    ∃ d, d < base ∧ c = d.digitChar := by
  induction n using Nat.strong_induction_on with
  | h n ih =>
    rw [Nat.toDigits_eq_if hbase] at h
    split at h
    · exact ⟨n, ‹n < base›, List.mem_singleton.mp h⟩
    · rcases List.mem_append.mp h with h | h
      · exact ih (n / base) (Nat.div_lt_self (by omega) hbase) h
      · exact ⟨n % base, Nat.mod_lt n (by omega), List.mem_singleton.mp h⟩

theorem clean_toDigits {base : Nat} (hbase : 1 < base) (hbase' : base ≤ 16) (n : Nat) :
    Clean (Nat.toDigits base n) := by
  have hdigits : ∀ d < 16, ¬IsControl d.digitChar := by decide
  intro c hc
  obtain ⟨d, hd, rfl⟩ := mem_toDigits hbase hc
  exact hdigits d (by omega)

theorem clean_toString (n : Nat) : Clean (toString n).toList := by
  rw [Nat.toString_eq_ofList_toDigits, String.toList_ofList]
  exact clean_toDigits (by decide) (by decide) n

/-! ### Quoted texts -/

/-- A control is escaped, if not with a letter of its own then as a character without a printed form. -/
theorem clean_escape (c : Char) : Clean (escape c) := by
  unfold escape
  split_ifs with _ _ _ _ _ _ hx
  any_goals decide
  · exact clean_append.mpr ⟨clean_append.mpr ⟨by decide, clean_toDigits (by decide) (by decide) c.toNat⟩, by decide⟩
  · have hc : ¬IsControl c := fun hc => hx (by simp [isUnprintable_of_control hc])
    exact clean_cons.mpr ⟨hc, by decide⟩

theorem clean_quote (t : String) : Clean (quote t).toList := by
  have hescaped : Clean (t.toList.flatMap escape) := fun d hd => by
    obtain ⟨c, -, hd⟩ := List.mem_flatMap.mp hd
    exact clean_escape c d hd
  simp only [quote, String.toList_ofList, List.cons_append, clean_cons, clean_append]
  exact ⟨by decide, hescaped, by decide⟩

end
end Text

open Text

/-! ### Values -/

namespace Decimal

theorem Scaled.clean_digits (d : Scaled) : Clean d.digits := by
  have hwritten : Clean (Nat.toDigits 10 d.coefficient) := clean_toDigits (by decide) (by decide) _
  have hzeros : ∀ n, Clean (List.replicate n '0') := clean_replicate (by decide)
  have htake := fun n => hwritten.of_subset (List.take_subset n _)
  have hdrop := fun n => hwritten.of_subset (List.drop_subset n _)
  simp only [Scaled.digits]
  split_ifs
  · exact clean_append.mpr ⟨hwritten, hzeros _⟩
  · exact clean_append.mpr ⟨htake _, clean_cons.mpr ⟨by decide, hdrop _⟩⟩
  · simp only [List.cons_append, clean_cons, clean_append]
    exact ⟨by decide, by decide, hzeros _, hwritten⟩

theorem clean_text (x : Float) : Clean (text x).toList := by
  have hsign : ∀ negative, Clean (sign negative) := by decide
  rw [text, String.toList_ofList]
  cases Binary.ofFloat x with
  | finite negative significand exponent =>
    refine clean_append.mpr ⟨hsign negative, ?_⟩
    split_ifs
    · decide
    · exact Scaled.clean_digits _
  | infinite negative => exact clean_append.mpr ⟨hsign negative, by decide⟩
  | undefined => decide

end Decimal

/-! ### Messages -/

namespace Arithmetic

/-- What a parse of an expression may expect: rules by their names, and a space, an operator or a parenthesis. -/
def expectations : List String := ["expression", "factor", "digit", "' '", "'*'", "'/'", "'+'", "'-'", "')'"]

theorem Scan.expected_subset (s : Scan) : s.expected ⊆ expectations := by
  obtain ⟨q, d⟩ := s
  have hlead : q.lead ⊆ expectations := by cases q <;> decide
  have hcontinuations : continuations d ⊆ expectations := by
    unfold continuations
    split <;> decide
  refine List.append_subset.mpr ⟨hlead, ?_⟩
  split
  · exact List.nil_subset _
  · exact hcontinuations

/-- No evaluation without a match reports anything else. -/
theorem evaluate_expected_subset {input : String} {consumption : Consumption} {offset : Nat} {expected : List String}
    (h : evaluate input consumption = .error (.noMatch offset expected)) : expected ⊆ expectations := by
  obtain ⟨v, u, t, -, -, -, hfurthest⟩ := exists_furthest input
  have hexpected : t.expected = expected := congrArg Parser.Expectation.expected (evaluate_noMatch h hfurthest)
  exact hexpected ▸ t.expected_subset

theorem clean_of_mem_expectations : ∀ what ∈ expectations, Clean what.toList := by decide

end Arithmetic

namespace EvalError

theorem clean_describe {expected : List String} (h : ∀ what ∈ expected, Clean what.toList) :
    Clean (describe expected).toList := by
  unfold describe
  split
  · decide
  · exact h _ (List.mem_singleton_self _)
  · simp only [String.toList_append, clean_append]
    have hinit := clean_intercalate (t := ", ") (by decide) fun u hu => h u (List.mem_of_mem_dropLast hu)
    exact ⟨⟨hinit, by decide⟩, h _ (List.getLast_mem _)⟩

theorem clean_message {input : String} {consumption : Consumption} {e : EvalError}
    (h : evaluate input consumption = .error e) : Clean e.message.toList := by
  cases e with
  | noMatch offset expected =>
    have hexpected : Clean (describe expected).toList := clean_describe fun what hwhat =>
      Arithmetic.clean_of_mem_expectations what (Arithmetic.evaluate_expected_subset h hwhat)
    unfold message
    simp only [String.toList_append, clean_append]
    exact ⟨⟨⟨by decide +kernel, hexpected⟩, by decide⟩, clean_toString offset⟩
  | trailingInput offset remaining =>
    unfold message
    simp only [String.toList_append, clean_append]
    exact ⟨⟨⟨by decide +kernel, clean_toString offset⟩, by decide⟩, clean_quote remaining⟩

end EvalError

/-! ### Lines -/

namespace CommandLine

/-- The text of a line is followed by its only newline. -/
def IsLine (body line : String) : Prop := line = body ++ "\n" ∧ line.toList.count '\n' = 1

theorem isLine_of_notMem {body : String} (h : '\n' ∉ body.toList) : IsLine body (body ++ "\n") :=
  ⟨rfl, by simp [List.count_append, List.count_eq_zero.mpr h]⟩

/-- What is printed of an evaluation has the tab in front of what is left, and no other control character. -/
theorem count_result (e : Evaluation) (showRemaining : Bool) {c : Char} (hc : IsControl c) :
    (Decimal.text e.value ++ if showRemaining then "\t" ++ quote e.remaining else "").toList.count c =
      if showRemaining then ['\t'].count c else 0 := by
  have hvalue := List.count_eq_zero.mpr ((Decimal.clean_text e.value).notMem hc)
  have hquoted := List.count_eq_zero.mpr ((clean_quote e.remaining).notMem hc)
  have htab : "\t".toList = ['\t'] := rfl
  rw [String.toList_append, List.count_append, hvalue, Nat.zero_add]
  split_ifs
  · rw [String.toList_append, List.count_append, hquoted, htab, Nat.add_zero]
  · rfl

/-- Each expression has one line, on one of the two streams, and this holds whatever the text of the expression is. With
    a value the line is on standard output and begins with the value; what is left is put behind the only tab, quoted,
    where it is asked for, and otherwise there is no tab at all. Without a value the line is on standard error and has no
    control character but the newline at its end. -/
theorem report_one_line (options : Options) (input : String) (p : Progress) : ∃ body line, IsLine body line ∧
    ((∃ e, evaluate input options.consumption = .ok e ∧
        p.add (report options input) = { p with stdout := p.stdout ++ line } ∧
        body = Decimal.text e.value ++ (if options.showRemaining then "\t" ++ quote e.remaining else "") ∧
        body.toList.count '\t' = if options.showRemaining then 1 else 0) ∨
      (∃ e, evaluate input options.consumption = .error e ∧
        p.add (report options input) = { p with stderr := p.stderr ++ line, failures := p.failures + 1 } ∧
        body = quote input ++ ": " ++ e.message ∧ Clean body.toList)) := by
  have hnewline : IsControl '\n' := by decide
  cases h : evaluate input options.consumption with
  | ok e =>
    let body := Decimal.text e.value ++ if options.showRemaining then "\t" ++ quote e.remaining else ""
    have hline : '\n' ∉ body.toList := by
      rw [← List.count_eq_zero, count_result e _ hnewline]
      split_ifs <;> rfl
    have hreport : report options input = .ok (body ++ "\n") := by
      unfold report
      rw [h]
    refine ⟨body, _, isLine_of_notMem hline, Or.inl ⟨e, rfl, ?_, rfl, count_result e _ (by decide)⟩⟩
    rw [hreport]
    rfl
  | error e =>
    have hbody : Clean (quote input ++ ": " ++ e.message).toList := by
      simp only [String.toList_append, clean_append]
      exact ⟨⟨clean_quote input, by decide⟩, EvalError.clean_message h⟩
    have hreport : report options input = .error (quote input ++ ": " ++ e.message ++ "\n") := by
      unfold report
      rw [h]
    refine ⟨_, _, isLine_of_notMem (hbody.notMem hnewline), Or.inr ⟨e, rfl, ?_, rfl, hbody⟩⟩
    rw [hreport]
    rfl

example : report {} "\t\n" = .error "\"\\t\\n\": no expression found; expected expression at offset 0\n" := by
  decide +kernel

end CommandLine
end Reckoner
