import Reckoner.Proofs.Labels

/-! Answers compared without diagnostics. Two ways to answer match alike when from the same place, whatever was expected
    and traced before, they yield the same value and leave the cursor at the same place, or fail or halt in the same way.
    What matches alike may stand for one another in sequences and choices, in the bodies of recursive parsers and behind
    handles. A parser without leaves matches alike with itself, since it looks only at the text and at the cursor. -/

namespace Reckoner.Parser
variable {ι : Type} {τ : ι → Type} {α β : Type} {text : List Char} {depth : Nat}

/-! ### Replies -/

namespace Reply
variable {r r' : Reply α} {a : α} {s : State}

theorem exists_of_bare_eq_matched (h : r.bare = (matched a s).bare) : ∃ t, r = .matched a t ∧ t.offset = s.offset := by
  cases r with
  | matched b t =>
    obtain ⟨rfl, hst⟩ := matched.inj h
    have hoffset : t.bare.offset = s.bare.offset := congrArg State.offset hst
    exact ⟨t, rfl, hoffset⟩
  | noMatch _ | halted _ => cases h

theorem exists_of_bare_eq_noMatch (h : r.bare = (noMatch s).bare) : ∃ t, r = .noMatch t ∧ t.offset = s.offset := by
  cases r with
  | noMatch t =>
    have hst : t.bare = s.bare := noMatch.inj h
    have hoffset : t.bare.offset = s.bare.offset := congrArg State.offset hst
    exact ⟨t, rfl, hoffset⟩
  | matched _ _ | halted _ => cases h

theorem eq_of_bare_eq_halted {fault : Fault} (h : r.bare = (halted fault : Reply α).bare) : r = .halted fault := by
  cases r with
  | halted f => exact h
  | matched _ _ | noMatch _ => cases h

theorem bare_matched_congr {t : State} (h : s.offset = t.offset) : (matched a s).bare = (matched a t).bare := by
  simp only [bare, State.bare, h]

theorem bare_noMatch_congr {t : State} (h : s.offset = t.offset) :
    (noMatch s : Reply α).bare = (noMatch t : Reply α).bare := by
  simp only [bare, State.bare, h]

theorem bare_andThen {next next' : α → State → Reply β} (h : r.bare = r'.bare)
    (hnext : ∀ a s t, s.offset = t.offset → (next a s).bare = (next' a t).bare) :
    (r.andThen next).bare = (r'.andThen next').bare := by
  cases r' with
  | matched a t =>
    obtain ⟨s, rfl, hst⟩ := exists_of_bare_eq_matched h
    exact hnext a s t hst
  | noMatch t =>
    obtain ⟨s, rfl, hst⟩ := exists_of_bare_eq_noMatch h
    exact bare_noMatch_congr hst
  | halted f => rw [eq_of_bare_eq_halted h]; rfl

theorem bare_orElse {next next' : State → Reply α} (h : r.bare = r'.bare)
    (hnext : ∀ s t, s.offset = t.offset → (next s).bare = (next' t).bare) :
    (r.orElse next).bare = (r'.orElse next').bare := by
  cases r' with
  | matched a t =>
    obtain ⟨s, rfl, hst⟩ := exists_of_bare_eq_matched h
    exact bare_matched_congr hst
  | noMatch t =>
    obtain ⟨s, rfl, hst⟩ := exists_of_bare_eq_noMatch h
    exact hnext s t hst
  | halted f => rw [eq_of_bare_eq_halted h]; rfl

theorem bare_restore {x y : Nat} (h : r.bare = r'.bare) (hxy : x = y) : (r.restore x).bare = (r'.restore y).bare :=
  bare_orElse h fun _ _ _ => bare_noMatch_congr hxy

theorem bare_label (r : Reply α) (name : String) (start : Nat) : (r.label name start).bare = r.bare := by
  cases r <;> rfl

/-- What is left of the text follows from where the cursor is. -/
theorem result_outcome_congr (h : r.bare = r'.bare) : (r.outcome text).result = (r'.outcome text).result := by
  cases r' with
  | matched a t =>
    obtain ⟨s, rfl, hst⟩ := exists_of_bare_eq_matched h
    simp only [outcome, State.rest?, hst]
    split <;> rfl
  | noMatch t =>
    obtain ⟨s, rfl, -⟩ := exists_of_bare_eq_noMatch h
    rfl
  | halted f => rw [eq_of_bare_eq_halted h]

end Reply

/-! ### Answers that match alike -/

/-- From the same place both answer alike, diagnostics apart. -/
def SameMatch (f g : State → Reply α) : Prop := ∀ s t, s.offset = t.offset → (f s).bare = (g t).bare

namespace SameMatch
variable {f g h : State → Reply α}

theorem symm (hfg : SameMatch f g) : SameMatch g f := fun s t hst => (hfg t s hst.symm).symm

theorem trans (hfg : SameMatch f g) (hgh : SameMatch g h) : SameMatch f h := fun s t hst =>
  (hfg s t hst).trans (hgh t t rfl)

/-- Then what was expected before makes no difference to either of them. -/
theorem left (hfg : SameMatch f g) : SameMatch f f := hfg.trans hfg.symm

section
variable {env env' : Environment τ} {p p' q q' : Parser τ α}

theorem chain {f f' : α → Parser τ β} (hp : SameMatch (exec text depth p env) (exec text depth p' env'))
    (hf : ∀ a, SameMatch (exec text depth (f a) env) (exec text depth (f' a) env')) :
    SameMatch (exec text depth (.chain p f) env) (exec text depth (.chain p' f') env') := fun s t hst =>
  Reply.bare_andThen (hp s t hst) fun a u v huv => Reply.bare_restore (hf a u v huv) hst

theorem map (hp : SameMatch (exec text depth p env) (exec text depth p' env')) (f : α → β) :
    SameMatch (exec text depth (.map p f) env) (exec text depth (.map p' f) env') := fun s t hst =>
  Reply.bare_andThen (hp s t hst) fun _ _ _ huv => Reply.bare_matched_congr huv

theorem or (hp : SameMatch (exec text depth p env) (exec text depth p' env'))
    (hq : SameMatch (exec text depth q env) (exec text depth q' env')) :
    SameMatch (exec text depth (.or p q) env) (exec text depth (.or p' q') env') := fun s t hst =>
  Reply.bare_orElse (hp s t hst) fun _ _ _ => hq _ _ hst

theorem label (hp : SameMatch (exec text depth p env) (exec text depth p' env')) (name : String) :
    SameMatch (exec text depth (.label p name) env) (exec text depth (.label p' name) env') := fun s t hst => by
  rw [exec_label, exec_label, Reply.bare_label, Reply.bare_label]
  exact hp s t hst

/-- Where the bodies match alike as long as their handles do, so do the recursive parsers, round by round. -/
theorem recursive {body body' : Parser (Extended α τ) α}
    (h : ∀ self self' : State → Reply α, SameMatch self self' →
      SameMatch (exec text depth body (env.extend self)) (exec text depth body' (env'.extend self'))) :
    SameMatch (exec text depth (.recursive body) env) (exec text depth (.recursive body') env') := by
  have hrounds : ∀ k, SameMatch (tie k fun self => exec text depth body (env.extend self))
      (tie k fun self => exec text depth body' (env'.extend self)) := by
    intro k
    induction k with
    | zero => exact fun _ _ _ => rfl
    | succ k ih => exact h _ _ ih
  exact hrounds depth

theorem extend {self self' : State → Reply α} (hself : SameMatch self self') (henv : ∀ i, SameMatch (env i) (env' i)) :
    ∀ i, SameMatch (env.extend self i) (env'.extend self' i)
  | none => hself
  | some i => henv i

end
end SameMatch

/-! ### Parsers without leaves -/

/-- A parser without leaves matches alike between handles that do. -/
theorem LeafFree.sameMatch {p : Parser τ α} (hp : LeafFree p) {env env' : Environment τ}
    (henv : ∀ i, SameMatch (env i) (env' i)) : SameMatch (exec text depth p env) (exec text depth p env') := by
  induction p with
  | literal expected =>
    intro s t hst
    rw [exec_literal, exec_literal, ← Course.literal_reply, ← Course.literal_reply, hst]
    exact (Course.SameMoves.refl _).bare_eq hst
  | pure value => exact fun _ _ => Reply.bare_matched_congr
  | fail => exact fun _ _ => Reply.bare_noMatch_congr
  | leaf _ => exact hp.elim
  | chain p f ihp ihf => exact (ihp hp.1 henv).chain fun a => ihf a (hp.2 a) henv
  | map p f ih => exact (ih hp henv).map f
  | or p q ihp ihq => exact (ihp hp.1 henv).or (ihq hp.2 henv)
  | label p name ih => exact (ih hp henv).label name
  | lazy make ih => exact ih () hp henv
  | handle i => exact henv i
  | recursive body ih => exact .recursive fun _ _ hself => ih hp (hself.extend henv)
  | weaken p ih => exact ih hp fun i => henv (some i)

theorem Definitions.LeafFree.sameMatch {d : Definitions τ} (hd : d.LeafFree) (i : ι) :
    SameMatch (d.environment text depth i) (d.environment text depth i) := by
  induction depth generalizing i with
  | zero => exact fun _ _ _ => rfl
  | succ depth ih =>
    intro s t hst
    simp only [Definitions.environment]
    cases hp : d.parser? i with
    | none => exact Reply.bare_noMatch_congr hst
    | some p => exact (hd i p hp).sameMatch ih s t hst

end Reckoner.Parser
