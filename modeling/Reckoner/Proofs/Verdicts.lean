import Reckoner.Proofs.Longest

/-! What an evaluation says of an input. Either the whole input is an expression, or its longest beginning that is
    one ends before the input does, or it begins with none; this decides the answer of an evaluation, with the
    offset and the rest that it reports, whether the whole input has to be an expression or not. -/

namespace Reckoner.Arithmetic
open Reckoner.Parser

variable {input consumed remaining : String} {value : Float}

/-! ### Parses -/

/-- An expression is at the start of the input, and the longest one is taken. -/
theorem parseExpression_of_derives {x : List Char} (hx : Derives .expr x) (hstart : x <+: input.toList) :
    ∃ consumed remaining value, input = consumed ++ remaining ∧
      Longest Rule.expr.language consumed.toList input.toList ∧
      (parseExpression input).result = .matched value remaining := by
  obtain ⟨y, u, value, hinput, hlongest, hresult⟩ := runWith_of_derives .empty .expr input hx hstart
  refine ⟨String.ofList y, String.ofList u, value, ?_, ?_, hresult⟩
  · rw [← String.toList_inj, String.toList_append, String.toList_ofList, String.toList_ofList, hinput]
  · rwa [String.toList_ofList]

theorem parseExpression_of_not_derives (h : ∀ x, Derives .expr x → ¬ x <+: input.toList) :
    (parseExpression input).result = .noMatch := runWith_of_not_derives .empty .expr input h

/-- Where text is left over, the input is no expression itself. -/
theorem Longest.not_derives {L : Language Char} (h : Longest L consumed.toList input.toList)
    (hsplit : input = consumed ++ remaining) (hnonempty : remaining ≠ "") : input.toList ∉ L := by
  intro hinput
  have hlength := h.length_le input.toList hinput (List.prefix_refl _)
  rw [hsplit, String.toList_append, List.length_append] at hlength
  have hnil : remaining.toList = [] := List.length_eq_zero_iff.mp (by omega)
  exact hnonempty (String.toList_eq_nil_iff.mp hnil)

/-! ### Evaluations -/

/-- The records that the parse of the input leaves in the log. -/
def parseRecords (input : String) : List LogRecord := (parseExpression input).trace.map .attempt

theorem evaluateLogged_of_matched (h : (parseExpression input).result = .matched value remaining)
    (consumption : Consumption) : evaluateLogged input consumption =
      (if consumption = .whole ∧ remaining ≠ "" then
          .error (.trailingInput (input.utf8ByteSize - remaining.utf8ByteSize) remaining)
        else .ok ⟨value, remaining⟩,
        parseRecords input ++ [.evaluated input value remaining]) := by
  unfold evaluateLogged parseRecords
  simp only [h]
  split <;> rfl

theorem evaluateLogged_of_noMatch (h : (parseExpression input).result = .noMatch) :
    ∃ offset expected, ∀ consumption, evaluateLogged input consumption =
      (.error (.noMatch offset expected), parseRecords input ++ [.stuck input offset]) := by
  unfold evaluateLogged parseRecords
  simp only [h]
  exact ⟨_, _, fun _ => rfl⟩

/-- What is said of an input. -/
inductive Verdict (input : String) : Prop where
  /-- All of it is an expression. -/
  | spanned (value : Float) (derives : Derives .expr input.toList)
      (evaluates : ∀ consumption, evaluate input consumption = .ok ⟨value, ""⟩)
  /-- The longest expression at its start ends before `remaining`. -/
  | followed (consumed remaining : String) (value : Float) (split : input = consumed ++ remaining)
      (nonempty : remaining ≠ "") (longest : Longest Rule.expr.language consumed.toList input.toList)
      (leading : evaluate input .leading = .ok ⟨value, remaining⟩)
      (whole : evaluate input .whole = .error (.trailingInput consumed.utf8ByteSize remaining))
  /-- No expression is at its start. -/
  | refused (offset : Nat) (expected : List String) (notDerives : ∀ x, Derives .expr x → ¬ x <+: input.toList)
      (evaluates : ∀ consumption, evaluate input consumption = .error (.noMatch offset expected))

theorem verdict (input : String) : Verdict input := by
  by_cases h : ∃ x, Derives .expr x ∧ x <+: input.toList
  · obtain ⟨x, hx, hstart⟩ := h
    obtain ⟨consumed, remaining, value, hsplit, hlongest, hresult⟩ := parseExpression_of_derives hx hstart
    have heval (consumption : Consumption) : evaluate input consumption = _ :=
      congrArg Prod.fst (evaluateLogged_of_matched hresult consumption)
    by_cases hempty : remaining = ""
    · subst hempty
      refine .spanned value ?_ fun consumption => ?_
      · rw [hsplit, String.append_empty]
        exact hlongest.mem
      · simpa using heval consumption
    · have hoffset : input.utf8ByteSize - remaining.utf8ByteSize = consumed.utf8ByteSize := by
        rw [hsplit, String.utf8ByteSize_append, Nat.add_sub_cancel]
      refine .followed consumed remaining value hsplit hempty hlongest (by simpa using heval .leading) ?_
      simpa [hempty, hoffset] using heval .whole
  · have hnone : ∀ x, Derives .expr x → ¬ x <+: input.toList := fun x hx hstart => h ⟨x, hx, hstart⟩
    obtain ⟨offset, expected, heval⟩ := evaluateLogged_of_noMatch (parseExpression_of_not_derives hnone)
    exact .refused offset expected hnone fun consumption => congrArg Prod.fst (heval consumption)

/-! ### When each answer is given -/

theorem evaluate_whole_ok_iff (input : String) :
    (∃ e, evaluate input .whole = .ok e) ↔ Derives .expr input.toList := by
  cases verdict input with
  | spanned value hderives heval => simp [heval, hderives]
  | followed consumed remaining value hsplit hnonempty hlongest hleading hwhole =>
    have hinput : ¬ Derives .expr input.toList := hlongest.not_derives hsplit hnonempty
    simp [hwhole, hinput]
  | refused offset expected hnone heval =>
    have hinput : ¬ Derives .expr input.toList := fun h => hnone _ h (List.prefix_refl _)
    simp [heval, hinput]

theorem evaluate_whole_ok {e : Evaluation} (h : evaluate input .whole = .ok e) :
    e.remaining = "" ∧ evaluate input .leading = .ok e := by
  cases verdict input with
  | spanned value _ heval =>
    rw [heval] at h ⊢
    cases h
    exact ⟨rfl, rfl⟩
  | followed _ _ _ _ _ _ _ hwhole =>
    rw [hwhole] at h
    cases h
  | refused _ _ _ heval =>
    rw [heval] at h
    cases h

theorem evaluate_trailingInput_iff (input : String) :
    (∃ offset remaining, evaluate input .whole = .error (.trailingInput offset remaining)) ↔
      (∃ x, Derives .expr x ∧ x <+: input.toList ∧ x ≠ input.toList) ∧ ¬ Derives .expr input.toList := by
  cases verdict input with
  | spanned value hderives heval => simp [heval, hderives]
  | followed consumed remaining value hsplit hnonempty hlongest hleading hwhole =>
    have hinput : ¬ Derives .expr input.toList := hlongest.not_derives hsplit hnonempty
    have hproper : consumed.toList ≠ input.toList := fun h => hinput (h ▸ hlongest.mem)
    exact ⟨fun _ => ⟨⟨_, hlongest.mem, hlongest.isPrefix, hproper⟩, hinput⟩, fun _ => ⟨_, _, hwhole⟩⟩
  | refused offset expected hnone heval =>
    have hproper : ¬ ∃ x, Derives .expr x ∧ x <+: input.toList ∧ x ≠ input.toList := by
      rintro ⟨x, hx, hstart, -⟩
      exact hnone x hx hstart
    simp [heval, hproper]

theorem evaluate_trailingInput {offset : Nat} (h : evaluate input .whole = .error (.trailingInput offset remaining)) :
    remaining ≠ "" ∧ offset + remaining.utf8ByteSize = input.utf8ByteSize ∧
      (∃ consumed, input = consumed ++ remaining ∧ offset = consumed.utf8ByteSize ∧
        Longest Rule.expr.language consumed.toList input.toList) ∧
      ∃ value, evaluate input .leading = .ok ⟨value, remaining⟩ := by
  cases verdict input with
  | spanned _ _ heval =>
    rw [heval] at h
    cases h
  | followed consumed remaining value hsplit hnonempty hlongest hleading hwhole =>
    rw [hwhole] at h
    cases h
    have hsize : consumed.utf8ByteSize + remaining.utf8ByteSize = input.utf8ByteSize := by
      rw [hsplit, String.utf8ByteSize_append]
    exact ⟨hnonempty, hsize, ⟨consumed, hsplit, rfl, hlongest⟩, value, hleading⟩
  | refused _ _ _ heval =>
    rw [heval] at h
    cases h

theorem evaluate_noMatch_iff (input : String) :
    (∃ offset expected, evaluate input .whole = .error (.noMatch offset expected)) ↔
      ∀ x, Derives .expr x → ¬ x <+: input.toList := by
  cases verdict input with
  | spanned value hderives heval =>
    have hsome : ¬ ∀ x, Derives .expr x → ¬ x <+: input.toList := fun h => h _ hderives (List.prefix_refl _)
    simp only [heval, reduceCtorEq, exists_false, hsome]
  | followed consumed remaining value hsplit hnonempty hlongest hleading hwhole =>
    have hsome : ¬ ∀ x, Derives .expr x → ¬ x <+: input.toList := fun h => h _ hlongest.mem hlongest.isPrefix
    simp only [hwhole, Except.error.injEq, reduceCtorEq, exists_false, hsome]
  | refused offset expected hnone heval => exact ⟨fun _ => hnone, fun _ => ⟨_, _, heval _⟩⟩

theorem evaluate_leading_noMatch {offset : Nat} {expected : List String}
    (h : evaluate input .whole = .error (.noMatch offset expected)) :
    evaluate input .leading = .error (.noMatch offset expected) := by
  cases verdict input with
  | spanned _ _ heval =>
    rw [heval] at h
    cases h
  | followed _ _ _ _ _ _ _ hwhole =>
    rw [hwhole] at h
    cases h
  | refused _ _ _ heval =>
    rw [heval] at h ⊢
    exact h

theorem evaluate_leading_ok_iff (input : String) : (∃ e, evaluate input .leading = .ok e) ↔
    (∃ e, evaluate input .whole = .ok e) ∨
      ∃ offset remaining, evaluate input .whole = .error (.trailingInput offset remaining) := by
  cases verdict input with
  | spanned _ _ heval => simp [heval]
  | followed _ _ _ _ _ _ hleading hwhole => simp [hleading, hwhole]
  | refused _ _ _ heval => simp [heval]

/-- Evaluation of the whole input succeeds when all of it is an expression, and then nothing is left. It reports
    text that is left over when a proper beginning of the input is an expression but not the input itself: the
    longest such beginning ends at the offset, where what is left over begins. It reports that nothing matches
    when no beginning is an expression, and then evaluation of a beginning reports the same. The latter succeeds
    in the first two cases, with the same text left, and in the first with the same value. -/
theorem evaluate_classified (input : String) :
    (((∃ e, evaluate input .whole = .ok e) ↔ Derives .expr input.toList) ∧
      ∀ e, evaluate input .whole = .ok e → e.remaining = "" ∧ evaluate input .leading = .ok e) ∧
    (((∃ offset remaining, evaluate input .whole = .error (.trailingInput offset remaining)) ↔
        (∃ x, Derives .expr x ∧ x <+: input.toList ∧ x ≠ input.toList) ∧ ¬ Derives .expr input.toList) ∧
      ∀ offset remaining, evaluate input .whole = .error (.trailingInput offset remaining) →
        remaining ≠ "" ∧ offset + remaining.utf8ByteSize = input.utf8ByteSize ∧
        (∃ consumed, input = consumed ++ remaining ∧ offset = consumed.utf8ByteSize ∧
          Longest Rule.expr.language consumed.toList input.toList) ∧
        ∃ value, evaluate input .leading = .ok ⟨value, remaining⟩) ∧
    (((∃ offset expected, evaluate input .whole = .error (.noMatch offset expected)) ↔
        ∀ x, Derives .expr x → ¬ x <+: input.toList) ∧
      ∀ offset expected, evaluate input .whole = .error (.noMatch offset expected) →
        evaluate input .leading = .error (.noMatch offset expected)) ∧
    ((∃ e, evaluate input .leading = .ok e) ↔ (∃ e, evaluate input .whole = .ok e) ∨
      ∃ offset remaining, evaluate input .whole = .error (.trailingInput offset remaining)) :=
  ⟨⟨evaluate_whole_ok_iff input, fun _ => evaluate_whole_ok⟩,
    ⟨evaluate_trailingInput_iff input, fun _ _ => evaluate_trailingInput⟩,
    ⟨evaluate_noMatch_iff input, fun _ _ => evaluate_leading_noMatch⟩, evaluate_leading_ok_iff input⟩

end Reckoner.Arithmetic
