import Reckoner.Proofs.Marks
import Reckoner.Proofs.Scanning

/-! Where a scan of what is left of a text gets stuck, and what is to be expected there. That is said by the mark
    that a parse of the same words should leave. Where an operand has to follow, the rule for it is expected, by
    its own name; after an operand there are as many ways to go on as there are ways in which a scan does. -/

namespace Reckoner.Arithmetic
open Reckoner.Parser Reckoner.Arithmetic.Derivation

/-! ### What is expected -/

/-- The rule whose failure is reported where a scan is stuck, if it is one. -/
def Spot.lead : Spot → List String
  | .start | .opened => ["expression"]
  | .signed | .operator => ["factor"]
  | .digits => ["digit"]
  | .closed | .spaced => []

/-- What may follow any operand in so many open parentheses, as it is tried. -/
def continuations (d : Nat) : List String :=
  ["' '", "'*'", "'/'", "'+'", "'-'"] ++ if d = 0 then [] else ["')'"]

namespace Scan

/-- What is expected where a scan is stuck. -/
def expected (s : Scan) : List String :=
  s.spot.lead ++ if s.spot.awaits then [] else continuations s.depth

end Scan

/-- The mark of the rule whose failure is reported where `w` is left, followed by the alternatives. -/
def Spot.mark (q : Spot) (w : List Char) (alternatives : List String) : Mark :=
  ⟨Text.byteLength w, q.lead ++ alternatives, !q.lead.isEmpty⟩

/-- The mark of a scan that is stuck where `w` is left. -/
def Scan.mark (s : Scan) (w : List Char) : Mark :=
  s.spot.mark w (if s.spot.awaits then [] else continuations s.depth)

/-- The mark of the place in `w` where the scan gets stuck. -/
def stop : Scan → List Char → Mark
  | s, [] => s.mark []
  | s, c :: w =>
    match s.step c with
    | some t => stop t w
    | none => s.mark (c :: w)

/-! ### Marks of spots -/

section
variable {q : Spot} {w : List Char} {l k : List String}

theorem Spot.left_mark : (q.mark w l).left = Text.byteLength w := rfl

/-- What is noted after an operand comes last. -/
theorem Spot.mark_mul_noted (hq : q.awaits = false) (hk : "digit" ∉ k) :
    q.mark w l * Mark.noted w k = q.mark w (Mark.merge l k) := by
  have hmerge : Mark.merge (q.lead ++ l) k = q.lead ++ Mark.merge l k := by
    have hlead : ∀ x ∈ k, x ∉ q.lead := by
      intro x hx hlead
      cases q with
      | digits => exact hk (List.mem_singleton.mp hlead ▸ hx)
      | closed | spaced => cases hlead
      | start | opened | signed | operator => cases hq
    have hfilter : k.filter (· ∉ q.lead ++ l) = k.filter (· ∉ l) :=
      List.filter_congr fun x hx => by simp [hlead x hx]
    simp only [Mark.merge, hfilter, List.append_assoc]
  rw [Mark.mul_of_eq (m := q.mark w l) (n := Mark.noted w k) rfl rfl]
  exact congrArg (fun l => Mark.mk _ l _) hmerge

theorem Spot.mul_mark {m : Mark} (hm : Text.byteLength w < m.left) : m * q.mark w l = q.mark w l := Mark.mul_of_gt hm

end

/-! ### Where scans stop -/

section
variable {s t : Scan} {q q' : Spot} {c : Char} {v w : List Char} {d n : Nat}

theorem Scan.Move.stop (h : Scan.Move s c t) : stop s (c :: w) = Arithmetic.stop t w := by
  rw [Arithmetic.stop, Scan.step_eq_some_iff.mpr h]

theorem stop_append (h : s.read v = some t) : stop s (v ++ w) = stop t w := by
  induction v generalizing s with
  | nil =>
    cases h
    rfl
  | cons c v ih =>
    obtain ⟨s', hmove, hv⟩ := Scan.read_cons_eq_some h
    rw [List.cons_append, hmove.stop, ih hv]

theorem stop_of_stuck (h : ∀ c, w.head? = some c → s.step c = none) : stop s w = s.mark w := by
  cases w with
  | nil => rfl
  | cons c w => rw [stop, h c rfl]

/-- A scan gets stuck somewhere, and leaves the mark of that place. -/
theorem exists_stop (s : Scan) (w : List Char) : ∃ v u t, w = v ++ u ∧ s.read v = some t ∧
    (∀ c, u.head? = some c → t.step c = none) ∧ stop s w = t.mark u := by
  induction w generalizing s with
  | nil => exact ⟨[], [], s, rfl, rfl, by simp, rfl⟩
  | cons c w ih =>
    cases hstep : s.step c with
    | none =>
      have hstuck : ∀ c', (c :: w).head? = some c' → s.step c' = none := by
        intro c' hc'
        rwa [← Option.some.inj hc']
      exact ⟨[], c :: w, s, rfl, rfl, hstuck, stop_of_stuck hstuck⟩
    | some t =>
      obtain ⟨v, u, t', rfl, hread, hstuck, hstop⟩ := ih t
      have hmove := Scan.step_eq_some_iff.mp hstep
      exact ⟨c :: v, u, t', rfl, hmove.read_cons.trans hread, hstuck, hmove.stop.trans hstop⟩

theorem left_stop_le (s : Scan) (w : List Char) : (stop s w).left ≤ Text.byteLength w := by
  induction w generalizing s with
  | nil => exact Nat.le_refl _
  | cons c w ih =>
    cases hstep : s.step c with
    | none => simp only [stop, hstep, Scan.mark, Spot.left_mark, Nat.le_refl]
    | some t =>
      have hle := ih t
      simp only [stop, hstep, Text.byteLength_cons]
      omega

theorem left_stop_lt (h : Scan.Move s c t) : (stop s (c :: w)).left < Text.byteLength (c :: w) := by
  have hpos := c.utf8Size_pos
  have hle := left_stop_le t w
  rw [h.stop, Text.byteLength_cons]
  omega

theorem stop_blanks (hq : q.loose) : stop ⟨q, d⟩ (blanks n ++ w) = stop ⟨q, d⟩ w :=
  stop_append (Scan.read_blanks hq d n)

theorem stop_spacing (hq : q.awaits = false) : stop ⟨q, d⟩ (blanks (n + 1) ++ w) = stop ⟨.spaced, d⟩ w :=
  stop_append (Scan.read_spacing hq d n)

/-- Where an operand has to follow, the rule for it is named, whatever was expected at that place before. -/
theorem behind_mul_stop {f : WithOne Mark} (hf : Mark.Behind w f) (hq : q.awaits) :
    f * (stop ⟨q, d⟩ w : Mark) = (stop ⟨q, d⟩ w : Mark) := by
  have hmark : ∀ w, (Scan.mark ⟨q, d⟩ w).replaces = true := by
    intro w
    cases q <;> first | rfl | cases hq
  cases w with
  | nil => exact hf.mul_of_replaces (Nat.le_refl _) (hmark [])
  | cons c w =>
    cases hstep : Scan.step ⟨q, d⟩ c with
    | some t => exact hf.mul_of_lt (left_stop_lt (Scan.step_eq_some_iff.mp hstep))
    | none =>
      have hstop : stop ⟨q, d⟩ (c :: w) = Scan.mark ⟨q, d⟩ (c :: w) := by rw [stop, hstep]
      rw [hstop]
      exact hf.mul_of_replaces (Nat.le_refl _) (hmark _)

/-- Where no factor begins, a factor is expected. -/
theorem stop_missing (hdigit : ∀ c, w.head? = some c → c.isDigit = false) (hopen : w.head? ≠ some '(')
    (hminus : w.head? ≠ some '-') : stop ⟨.signed, d⟩ w = Mark.named w "factor" := by
  refine stop_of_stuck fun c hc => Scan.step_eq_none_iff.mpr fun t hmove => ?_
  cases hmove with
  | blank _ hloose => cases hloose
  | digit _ _ hc' => rw [hdigit c hc] at hc'; cases hc'
  | sign => exact hminus hc
  | opening => exact hopen hc
  | spacing _ hq | operator _ hq | closing _ hq => cases hq

/-! Scans that differ only in what stands before an operand. -/

theorem step_eq_of_awaits (hq : q.awaits) (hq' : q'.awaits) (hc : c ≠ ' ') :
    Scan.step ⟨q, d⟩ c = Scan.step ⟨q', d⟩ c := by
  simp only [Scan.step, hq, hq', if_true, hc, if_false]

theorem stop_eq_of_lead (hq : q.awaits) (hq' : q'.awaits) (hlead : q.lead = q'.lead) (hw : w.head? ≠ some ' ') :
    stop ⟨q, d⟩ w = stop ⟨q', d⟩ w := by
  have hmark : ∀ w, Scan.mark ⟨q, d⟩ w = Scan.mark ⟨q', d⟩ w := by
    intro w
    simp only [Scan.mark, Spot.mark, hlead, hq, hq', if_true]
  cases w with
  | nil => exact hmark []
  | cons c w => rw [stop, stop, step_eq_of_awaits hq hq' (by simpa using hw), hmark]

/-- Where an expression has to follow, this is named in place of the factor that it begins with. -/
theorem stop_start : stop ⟨.start, d⟩ w = stop ⟨.signed, d⟩ w * Mark.named w "expression" := by
  have hmark : ∀ w, Scan.mark ⟨.start, d⟩ w = Scan.mark ⟨.signed, d⟩ w * Mark.named w "expression" := by
    intro w
    exact (Mark.mul_of_replaces (m := Scan.mark ⟨.signed, d⟩ w) (n := Mark.named w "expression") (Nat.le_refl _) rfl).symm
  cases w with
  | nil => exact hmark []
  | cons c w =>
    have hstep : Scan.step ⟨.start, d⟩ c = Scan.step ⟨.signed, d⟩ c := by
      by_cases hc : c = ' '
      · rw [hc]
        rfl
      · exact step_eq_of_awaits rfl rfl hc
    cases hsigned : Scan.step ⟨.signed, d⟩ c with
    | none => rw [stop, stop, hstep, hsigned, hmark]
    | some t =>
      have hlt := left_stop_lt (w := w) (Scan.step_eq_some_iff.mp hsigned)
      rw [Mark.mul_of_lt hlt, stop, stop, hstep, hsigned]

end

/-! ### Where digits and spaces end -/

theorem exists_blanks (w : List Char) : ∃ n u, w = blanks n ++ u ∧ u.head? ≠ some ' ' := by
  induction w with
  | nil => exact ⟨0, [], rfl, by simp⟩
  | cons c w ih =>
    by_cases hc : c = ' '
    · obtain ⟨n, u, rfl, hu⟩ := ih
      exact ⟨n + 1, u, by rw [hc, blanks_succ, List.cons_append], hu⟩
    · exact ⟨0, c :: w, rfl, by simpa using hc⟩

theorem exists_digits (w : List Char) : ∃ digits u, w = digits ++ u ∧ digits.all Char.isDigit = true ∧
    ∀ c, u.head? = some c → c.isDigit = false := by
  refine ⟨w.takeWhile Char.isDigit, w.dropWhile Char.isDigit, List.takeWhile_append_dropWhile.symm,
    List.all_takeWhile, fun c hc => ?_⟩
  have hdrop := List.head?_dropWhile_not Char.isDigit w
  rw [hc] at hdrop
  simpa using hdrop

theorem byteLength_lt {c : Char} {x u : List Char} : Text.byteLength u < Text.byteLength (c :: (x ++ u)) := by
  have hpos := c.utf8Size_pos
  simp only [Text.byteLength_cons, Text.byteLength_append]
  omega

theorem byteLength_tail_lt {c : Char} {u : List Char} : Text.byteLength u < Text.byteLength (c :: u) :=
  byteLength_lt (x := [])

end Reckoner.Arithmetic
