import Reckoner.Proofs.Marking

/-! How far a parse of an expression gets. It expects something exactly where the longest viable beginning of the
    input ends, whether an expression stands at the start of the input or not: nothing is tried beyond, and the
    end is reached although the parse takes the first alternative that matches and gives back what it had when
    an operand is missing. -/

namespace Reckoner.Arithmetic
open Reckoner.Parser Reckoner.Arithmetic.Derivation

/-! ### Viable beginnings -/

section
variable {v w x y : List Char} {t : Scan}

theorem Viable.of_prefix (h : Viable x) (hy : y <+: x) : Viable y := by
  obtain ⟨z, rfl⟩ := hy
  obtain ⟨u, hu⟩ := h
  exact ⟨z ++ u, by rwa [← List.append_assoc]⟩

theorem viable_append_iff (hread : Scan.initial.read v = some t) :
    Viable (v ++ x) ↔ ∃ t', t.read x = some t' := by
  rw [viable_iff_read, Scan.read_append, hread, Option.bind_some]

/-- A scan that is stuck has read the longest viable beginning. -/
theorem longest_of_stuck {u : List Char} (hread : Scan.initial.read v = some t)
    (hstuck : ∀ c, u.head? = some c → t.step c = none) : Longest {x | Viable x} v (v ++ u) where
  mem := viable_iff_read.mpr ⟨t, hread⟩
  isPrefix := List.prefix_append _ _
  length_le y hy hyw := by
    by_contra hlt
    obtain ⟨z, rfl⟩ := List.prefix_of_prefix_length_le (List.prefix_append v u) hyw (by omega)
    cases z with
    | nil => exact hlt (by simp)
    | cons c z =>
      -- A longer one goes on with the character at which the scan is stuck.
      obtain ⟨t', ht'⟩ := (viable_append_iff hread).mp hy
      obtain ⟨s, hmove, -⟩ := Scan.read_cons_eq_some ht'
      have hhead : u.head? = some c := by
        obtain ⟨r, hr⟩ := (List.prefix_append_right_inj v).mp hyw
        rw [← hr]
        rfl
      exact Scan.step_eq_none_iff.mp (hstuck c hhead) s hmove

/-- The beginnings that are viable are those that are not longer than the longest one. -/
theorem Longest.viable_iff (h : Longest {x | Viable x} v w) (hx : x <+: w) :
    Viable x ↔ Text.byteLength x ≤ Text.byteLength v := by
  constructor
  · intro hviable
    obtain ⟨z, rfl⟩ := List.prefix_of_prefix_length_le hx h.isPrefix (h.length_le x hviable hx)
    rw [Text.byteLength_append]
    exact Nat.le_add_right _ _
  · intro hle
    rcases Nat.le_total x.length v.length with hlength | hlength
    · exact Viable.of_prefix h.mem (List.prefix_of_prefix_length_le hx h.isPrefix hlength)
    · obtain ⟨z, rfl⟩ := List.prefix_of_prefix_length_le h.isPrefix hx hlength
      rw [Text.byteLength_append] at hle
      have hnil : z = [] := List.length_eq_zero_iff.mp (by have := Text.length_le_byteLength z; omega)
      rw [hnil, List.append_nil]
      exact h.mem

end

/-! ### Parses -/

/-- A parse expects something where a scan of the input gets stuck. -/
theorem exists_furthest (input : String) : ∃ v u t, input.toList = v ++ u ∧ Scan.initial.read v = some t ∧
    (∀ c, u.head? = some c → t.step c = none) ∧
    (parseExpression input).furthest = some ⟨Text.byteLength v, t.expected⟩ := by
  obtain ⟨v, u, t, hinput, hread, hstuck, hstop⟩ := exists_stop .initial input.toList
  obtain ⟨r, hr⟩ := runs_expr (byteLength_lt_depth _ _) input.toList
  obtain ⟨offset, hfurthest, hoffset⟩ := runWith_furthest hr
  have hbytes : offset = Text.byteLength v := by
    rw [hstop, hinput, Text.byteLength_append] at hoffset
    exact Nat.add_right_cancel hoffset
  refine ⟨v, u, t, hinput, hread, hstuck, ?_⟩
  rw [← hbytes]
  rw [hstop] at hfurthest
  exact hfurthest

/-- What an evaluation reports when nothing matches is what the parse expected furthest. -/
theorem evaluate_noMatch {input : String} {consumption : Consumption} {offset : Nat} {expected : List String}
    {e : Expectation} (h : evaluate input consumption = .error (.noMatch offset expected))
    (he : (parseExpression input).furthest = some e) : e = ⟨offset, expected⟩ := by
  unfold evaluate evaluateLogged at h
  generalize parseExpression input = outcome at h he
  obtain ⟨result, furthest, trace⟩ := outcome
  obtain rfl : furthest = some e := he
  cases result with
  | matched value remaining =>
    dsimp only at h
    split_ifs at h
    cases h
  | noMatch | halted _ =>
    cases h
    rfl

/-- Whether it matches or not, a parse reports an expectation, and that lies at the end of the longest beginning of
    the input that some expression begins with, too; so it is with the offset of an evaluation without a match.
    Up to there the input could still be continued to an expression, and after it no more. -/
theorem parseExpression_furthest (input : String) : ∃ e v, (parseExpression input).furthest = some e ∧
    Longest {x | Viable x} v input.toList ∧ e.offset = Text.byteLength v ∧
    (∀ x, x <+: input.toList → (Viable x ↔ Text.byteLength x ≤ e.offset)) ∧
    ∀ consumption offset expected, evaluate input consumption = .error (.noMatch offset expected) →
      offset = e.offset := by
  obtain ⟨v, u, t, hinput, hread, hstuck, hfurthest⟩ := exists_furthest input
  have hlongest : Longest {x | Viable x} v input.toList := hinput ▸ longest_of_stuck hread hstuck
  refine ⟨_, v, hfurthest, hlongest, rfl, fun x hx => hlongest.viable_iff hx, fun consumption offset expected h => ?_⟩
  rw [evaluate_noMatch h hfurthest]

end Reckoner.Arithmetic
