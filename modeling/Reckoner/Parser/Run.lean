import Reckoner.Parser.Exec

/-! Whole runs: a parser starts at the beginning of an input and leaves a value with the rest of the input,
    or no match. Either way the outcome says what was expected where the run got furthest. -/

namespace Reckoner.Parser
variable {ι : Type} {τ : ι → Type} {α : Type}

/-- The result of a run. -/
inductive Result (α : Type) where
  | matched (value : α) (remaining : String)
  | noMatch
  | halted (fault : Fault)
  deriving DecidableEq, Repr

/-- The message of a run without a match, which has no reason and no place to give. -/
def noMatchMessage : String := "no match"

/-- What a run leaves; `trace` holds the attempts at labelled rules in the order in which they ended. -/
structure Outcome (α : Type) where
  result : Result α
  furthest : Furthest
  trace : List Attempt
  deriving DecidableEq, Repr

/-- The outcome of a run over `text` that ended with the reply. -/
def Reply.outcome (text : List Char) : Reply α → Outcome α
  | .matched a s =>
    match s.rest? text with
    | some rest => ⟨.matched a (String.ofList rest), s.furthest, s.trace.reverse⟩
    | none => ⟨.halted .badOffset, s.furthest, s.trace.reverse⟩
  | .noMatch s => ⟨.noMatch, s.furthest, s.trace.reverse⟩
  | .halted fault => ⟨.halted fault, none, []⟩

/-- The reply of `p` on `text` from the state `s`, where handles have the parsers of `d`. -/
def reply (p : Parser τ α) (d : Definitions τ) (text : List Char) (s : State) : Reply α :=
  exec text (d.depth text) p (d.environment text (d.depth text)) s

/-- Runs `p` on `input`, where handles have the parsers of `d`. -/
def runWith (p : Parser τ α) (d : Definitions τ) (input : String) : Outcome α :=
  (p.reply d input.toList {}).outcome input.toList

/-- Parsers without handles. -/
abbrev Closed (α : Type) := Parser (fun i : Empty => nomatch i) α

/-- Runs `p` on `input`. -/
def run (p : Closed α) (input : String) : Outcome α := p.runWith .empty input

section
variable {p : Parser τ α} {d : Definitions τ} {input remaining : String} {text : List Char} {a : α} {s : State}

@[simp] theorem trace_outcome_matched : ((.matched a s : Reply α).outcome text).trace = s.trace.reverse := by
  unfold Reply.outcome
  cases h : s.rest? text <;> simp only [h]

@[simp] theorem trace_outcome_noMatch : ((.noMatch s : Reply α).outcome text).trace = s.trace.reverse := rfl

theorem reply_of_matched (h : (p.runWith d input).result = .matched a remaining) :
    ∃ t, p.reply d input.toList {} = .matched a t ∧ t.rest? input.toList = some remaining.toList := by
  unfold runWith at h
  cases hreply : p.reply d input.toList {} with
  | matched b t =>
    rw [hreply] at h
    cases hrest : t.rest? input.toList with
    | none =>
      rw [Reply.outcome, hrest] at h
      cases h
    | some w =>
      rw [Reply.outcome, hrest] at h
      cases h
      exact ⟨t, rfl, by rw [hrest, String.toList_ofList]⟩
  | noMatch t | halted fault =>
    rw [hreply] at h
    cases h

/-- The text in front of the cursor. -/
theorem exists_consumed (h : s.rest? input.toList = some remaining.toList) :
    ∃ consumed, input = consumed ++ remaining ∧ consumed.utf8ByteSize = s.offset := by
  obtain ⟨u, hu, hoffset⟩ := Text.eq_append_of_dropBytes? h
  refine ⟨String.ofList u, ?_, ?_⟩
  · rw [← String.toList_inj, String.toList_append, String.toList_ofList, hu]
  · rw [← Text.byteLength_toList, String.toList_ofList, hoffset]

theorem reply_of_noMatch (h : (p.runWith d input).result = .noMatch) :
    ∃ t, p.reply d input.toList {} = .noMatch t := by
  unfold runWith at h
  cases hreply : p.reply d input.toList {} with
  | noMatch t => exact ⟨t, rfl⟩
  | matched b t =>
    rw [hreply, Reply.outcome] at h
    split at h <;> cases h
  | halted fault =>
    rw [hreply] at h
    cases h

end

end Reckoner.Parser
