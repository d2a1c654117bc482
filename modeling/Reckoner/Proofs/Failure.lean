import Reckoner.Proofs.Observed

/-! Where a failure leaves the cursor. A sequence that fails after its first part puts the cursor back, and so
    does a choice before it goes on; all else hands on what it finds. So the cursor is where the parser was
    started, or where a leaf left it that was started at the same place and failed. -/

namespace Reckoner.Parser
variable {ι : Type} {τ : ι → Type} {α β : Type}

namespace Observed

/-- A failure of the run leaves the cursor at `start`, or where a leaf left it that was started there. -/
def FailsAt (start : Nat) (r : Observed α) : Prop :=
  ∀ t, r.reply = .noMatch t → t.offset = start ∨ .leafFailed start t.offset ∈ r.moments

variable {start : Nat} {r : Observed α}

theorem FailsAt.on {f : Reply α → Reply β} (h : r.FailsAt start)
    (hf : ∀ r t, f r = .noMatch t → ∃ u, r = .noMatch u ∧ t.offset = u.offset) : (r.on f).FailsAt start := by
  intro t ht
  obtain ⟨u, hu, hoff⟩ := hf _ t ht
  rw [hoff]
  exact h u hu

/-- What follows a match puts the cursor back when it fails, so that only the first part can leave it. -/
theorem FailsAt.andThen {next : α → State → Observed β} (h : r.FailsAt start) :
    (r.andThen fun a s => (next a s).on (·.restore start)).FailsAt start := by
  intro t ht
  rw [andThen_reply] at ht
  cases hr : r.reply with
  | matched a s =>
    rw [hr, Reply.andThen_matched, on_reply] at ht
    cases hn : (next a s).reply with
    | matched b u => simp [hn] at ht
    | noMatch u =>
      simp only [hn, Reply.restore_noMatch, Reply.noMatch.injEq] at ht
      exact Or.inl (ht ▸ rfl)
    | halted f => simp [hn] at ht
  | noMatch s =>
    rw [hr, Reply.andThen_noMatch, Reply.noMatch.injEq] at ht
    subst ht
    exact (h s hr).imp_right fun hm => mem_andThen.mpr (Or.inl hm)
  | halted f => simp [hr] at ht

/-- What follows a failure decides, since it starts where the first part was started. -/
theorem FailsAt.orElse {next : State → Observed α} (h : ∀ s, (next s).FailsAt start) :
    (r.orElse next).FailsAt start := by
  intro t ht
  rw [orElse_reply] at ht
  cases hr : r.reply with
  | matched a s => simp [hr] at ht
  | noMatch s =>
    rw [hr, Reply.orElse_noMatch] at ht
    exact (h s t ht).imp_right fun hm => mem_orElse.mpr (Or.inr ⟨s, hr, hm⟩)
  | halted f => simp [hr] at ht

theorem FailsAt.after (h : r.FailsAt start) (m : Moment) : (r.after m).FailsAt start := fun t ht =>
  (h t ht).imp_right fun hm => mem_after.mpr (Or.inr hm)

theorem failsAt_leaf (r : Reply α) : (leaf start r).FailsAt start := fun t ht =>
  Or.inr (mem_leaf.mpr ⟨t, ht, rfl⟩)

/-- A run that does not fail where it stands. -/
theorem failsAt_of_offset {r : Reply α} {moments : List Moment}
    (h : ∀ t, r = .noMatch t → t.offset = start) : FailsAt start ⟨r, moments⟩ := fun t ht => Or.inl (h t ht)

end Observed

open Observed

variable {text : List Char} {depth : Nat}

theorem matchLiteral_noMatch_offset {expected : String} {s t : State}
    (h : matchLiteral expected text s = .noMatch t) : t.offset = s.offset := by
  unfold matchLiteral at h
  split at h
  · cases h
  · split at h
    · split at h <;> cases h
    · cases h
      rfl

theorem enter_failsAt {unfold : (List Nat → State → Observed α) → List Nat → State → Observed α}
    (h : ∀ self : List Nat → State → Observed α, (∀ active s, (self active s).FailsAt s.offset) →
      ∀ active s, (unfold self active s).FailsAt s.offset) :
    ∀ (k : Nat) (active : List Nat) (s : State), (enter k unfold active s).FailsAt s.offset
  | 0, _, _ => failsAt_of_offset fun _ ht => by cases ht
  | k + 1, _, s => (h _ (fun active t => (enter_failsAt h k active t).after _) _ s).after _

theorem observe_failsAt (p : Parser τ α) {env : ObservedEnvironment τ}
    (henv : ∀ i active s, (env i active s).FailsAt s.offset) (active : List Nat) (s : State) :
    (observe text depth p env active s).FailsAt s.offset := by
  induction p generalizing active s with
  | literal _ => exact failsAt_of_offset fun _ => matchLiteral_noMatch_offset
  | pure _ => exact failsAt_of_offset fun _ ht => by cases ht
  | fail => exact failsAt_of_offset fun _ ht => by cases ht; rfl
  | leaf _ => exact failsAt_leaf _
  | chain p f ihp _ => exact (ihp henv active s).andThen
  | map p f ih =>
    refine (ih henv active s).on fun r t ht => ?_
    cases r with
    | noMatch u => exact ⟨u, rfl, by cases ht; rfl⟩
    | matched _ _ | halted _ => cases ht
  | or p q _ ihq => exact FailsAt.orElse fun t => ihq henv active (t.restore s.offset)
  | label p name ih =>
    refine (ih henv active s).on fun r t ht => ?_
    cases r with
    | noMatch u => exact ⟨u, rfl, by cases ht; rfl⟩
    | matched _ _ | halted _ => cases ht
  | lazy make ih => exact ih () henv active s
  | handle i => exact henv i active s
  | recursive body ih =>
    refine enter_failsAt (fun self hself active t => ih (fun i active u => ?_) active t) depth active s
    cases i with
    | none => exact hself active u
    | some i => exact henv i active u
  | weaken p ih => exact ih (fun i => henv (some i)) active s

theorem observed_failsAt (d : Definitions τ) (i : ι) (active : List Nat) (s : State) :
    (d.observed text depth i active s).FailsAt s.offset := by
  induction depth generalizing i active s with
  | zero => exact failsAt_of_offset fun _ ht => by cases ht
  | succ depth ih =>
    refine FailsAt.after ?_ _
    cases d.parser? i with
    | none => exact failsAt_of_offset fun _ ht => by cases ht; rfl
    | some p => exact observe_failsAt p ih _ s

/-! ### Leaves that put the cursor back -/

/-- Every leaf in `p`, also in what its steps go on with, puts the cursor back when it fails. -/
def Restoring (text : List Char) : {ι : Type} → {τ : ι → Type} → {α : Type} → Parser τ α → Prop
  | _, _, _, .literal _ | _, _, _, .pure _ | _, _, _, .fail => True
  | _, _, _, .leaf action => ∀ s t, action text s = .noMatch t → t.offset = s.offset
  | _, _, _, .chain p step => Restoring text p ∧ ∀ a, Restoring text (step a)
  | _, _, _, .map p _ => Restoring text p
  | _, _, _, .or p q => Restoring text p ∧ Restoring text q
  | _, _, _, .label p _ => Restoring text p
  | _, _, _, .lazy make => Restoring text (make ())
  | _, τ, _, @Parser.handle _ .(τ) _ => True
  | _, _, _, .recursive body => Restoring text body
  | _, _, _, .weaken p => Restoring text p

/-- Every leaf that failed in the run put the cursor back. -/
def Observed.Restored (r : Observed α) : Prop := ∀ start stop, .leafFailed start stop ∈ r.moments → stop = start

theorem Observed.Restored.after {r : Observed α} {m : Moment} (h : r.Restored)
    (hne : ∀ start stop, m ≠ .leafFailed start stop) : (r.after m).Restored := fun start stop hm => by
  rcases mem_after.mp hm with hm | hm
  · exact absurd hm.symm (hne start stop)
  · exact h start stop hm

theorem enter_restored {unfold : (List Nat → State → Observed α) → List Nat → State → Observed α}
    (h : ∀ self : List Nat → State → Observed α, (∀ active s, (self active s).Restored) →
      ∀ active s, (unfold self active s).Restored) :
    ∀ (k : Nat) (active : List Nat) (s : State), (enter k unfold active s).Restored
  | 0, _, _ => by simp [enter, Restored]
  | k + 1, _, s =>
    (h _ (fun active t => (enter_restored h k active t).after (by simp)) _ s).after (by simp)

theorem Restoring.observe {p : Parser τ α} (hp : Restoring text p) {env : ObservedEnvironment τ}
    (henv : ∀ i active s, (env i active s).Restored) (active : List Nat) (s : State) :
    (observe text depth p env active s).Restored := by
  induction p generalizing active s with
  | literal _ | pure _ | fail => simp [Parser.observe, Restored]
  | leaf action =>
    intro start stop hm
    obtain ⟨t, ht, heq⟩ := mem_leaf.mp hm
    cases heq
    exact hp s t ht
  | chain p f ihp ihf =>
    intro start stop hm
    rcases mem_andThen.mp hm with hm | ⟨a, t, -, hm⟩
    · exact ihp hp.1 henv active s start stop hm
    · exact ihf a (hp.2 a) henv active t start stop hm
  | map p f ih => exact ih hp henv active s
  | or p q ihp ihq =>
    intro start stop hm
    rcases mem_orElse.mp hm with hm | ⟨t, -, hm⟩
    · exact ihp hp.1 henv active s start stop hm
    · exact ihq hp.2 henv active (t.restore s.offset) start stop hm
  | label p name ih => exact ih hp henv active s
  | lazy make ih => exact ih () hp henv active s
  | handle i => exact henv i active s
  | recursive body ih =>
    refine enter_restored (fun self hself active t => ih hp (fun i active u => ?_) active t) depth active s
    cases i with
    | none => exact hself active u
    | some i => exact henv i active u
  | weaken p ih => exact ih hp (fun i => henv (some i)) active s

theorem observed_restored {d : Definitions τ} (hd : ∀ i q, d.parser? i = some q → Restoring text q) (i : ι)
    (active : List Nat) (s : State) : (d.observed text depth i active s).Restored := by
  induction depth generalizing i active s with
  | zero => simp [Definitions.observed, Restored]
  | succ depth ih =>
    refine Restored.after ?_ (by simp)
    cases hq : d.parser? i with
    | none => simp [Restored]
    | some q => exact (hd i q hq).observe ih _ s

/-! ### Failures -/

/-- A failure leaves the cursor where the parser was started, or where a leaf left it that was started there in
    the same run and failed. Where all leaves put the cursor back, so does every failure. -/
theorem failure_offset {p : Parser τ α} {d : Definitions τ} {s t : State}
    (h : exec text depth p (d.environment text depth) s = .noMatch t) :
    (t.offset = s.offset ∨
        .leafFailed s.offset t.offset ∈ (observe text depth p (d.observed text depth) [] s).moments) ∧
      (Restoring text p → (∀ i q, d.parser? i = some q → Restoring text q) → t.offset = s.offset) := by
  have hfails : t.offset = s.offset ∨
      .leafFailed s.offset t.offset ∈ (observe text depth p (d.observed text depth) [] s).moments := by
    refine observe_failsAt p (fun i => observed_failsAt d i) [] s t ?_
    rw [observe_reply p (fun i => observed_reply d i), h]
  refine ⟨hfails, fun hp hd => ?_⟩
  rcases hfails with hoff | hm
  · exact hoff
  · exact hp.observe (fun i => observed_restored hd i) [] s _ _ hm

/-- The first alternative puts the cursor back to 1 after its leaf left it at 4; the second one leaves it at 3. -/
theorem failure_offset_leak :
    let leak : Parser (fun _ : Unit => Unit) Unit := .leaf fun _ s => .noMatch (s.restore (s.offset + 2))
    let d := Definitions.empty.define () ((Parser.or (.chain (.literal "b") fun _ => leak) leak).label "rule")
    ∃ t, exec ['a', 'b', 'c', 'd'] 1 (.handle ()) (d.environment ['a', 'b', 'c', 'd'] 1) { offset := 1 } =
        .noMatch t ∧
      t.offset = 3 ∧ (t.offset = 1 ∨ .leafFailed 1 t.offset ∈
        (observe ['a', 'b', 'c', 'd'] 1 (.handle ()) (d.observed ['a', 'b', 'c', 'd'] 1) [] { offset := 1 }).moments) := by
  refine ⟨_, rfl, rfl, ?_⟩
  exact (failure_offset (s := { offset := 1 }) (p := .handle ()) rfl).1

end Reckoner.Parser
