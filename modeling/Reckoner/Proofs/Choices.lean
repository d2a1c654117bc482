import Reckoner.Proofs.Alternatives
import Reckoner.Proofs.Failure
import Reckoner.Proofs.Matching
import Reckoner.Proofs.Sequencing

/-! The laws of choices. They hold of all that a run leaves, the cursor of a failure and the diagnostics included, and
    for alternatives that fail without putting the cursor back: each one is tried with the cursor at the start, and only
    where the last one leaves it shows in the end. So choices may be grouped in any way, and the first of several parsers
    that matches is found by trying them in order. A choice between nothing and a parser is that parser; a choice between
    a parser and nothing also puts the cursor back, which makes no difference where the parser does so itself. -/

namespace Reckoner.Parser
variable {ι : Type} {τ : ι → Type} {α : Type}

theorem Reply.orElse_assoc (r : Reply α) (next last : State → Reply α) :
    (r.orElse next).orElse last = r.orElse fun s => (next s).orElse last := by
  cases r <;> rfl

theorem attempt_append {start : Nat} {s : State} (ps qs : List (State → Reply α)) :
    attempt start (ps ++ qs) s = (attempt start ps s).orElse (attempt start qs) := by
  induction ps generalizing s with
  | nil => rfl
  | cons p ps ih =>
    rw [List.cons_append, attempt, attempt, Reply.orElse_assoc]
    exact congrArg _ (funext fun _ => ih)

/-! ### Parsers that fail in order -/

/-- Each of the parsers fails, one after the other and with the cursor at `start`; from `s` this leads to `t`. -/
inductive FailInOrder (run : Parser τ α → State → Reply α) (start : Nat) : List (Parser τ α) → State → State → Prop where
  | nil (s : State) : FailInOrder run start [] s s
  | cons {p : Parser τ α} {ps : List (Parser τ α)} {s t u : State} (first : run p (s.restore start) = .noMatch t)
    (rest : FailInOrder run start ps t u) : FailInOrder run start (p :: ps) s u

/-- When it fails, the cursor is where it was at the start. -/
def PutsBack (f : State → Reply α) : Prop := ∀ s t, f s = .noMatch t → t.offset = s.offset

section
variable {run : Parser τ α → State → Reply α} {start : Nat} {ps before : List (Parser τ α)} {s t : State}

theorem attempt_eq_noMatch_iff : attempt start (ps.map run) s = .noMatch t ↔ FailInOrder run start ps s t := by
  constructor
  · intro h
    induction ps generalizing s with
    | nil =>
      cases h
      exact .nil _
    | cons p ps ih =>
      rw [List.map_cons, attempt] at h
      cases hp : run p (s.restore start) with
      | noMatch u =>
        rw [hp] at h
        exact .cons hp (ih h)
      | matched _ _ | halted _ =>
        rw [hp] at h
        cases h
  · intro h
    induction h with
    | nil => rfl
    | cons first rest ih => rw [List.map_cons, attempt, first, Reply.orElse_noMatch, ih]

/-- What comes after the first parser that does not fail makes no difference. -/
theorem FailInOrder.attempt_eq {p : Parser τ α} (h : FailInOrder run start before s t)
    (hp : ∀ u, run p (t.restore start) ≠ .noMatch u) (after : List (Parser τ α)) :
    attempt start ((before ++ p :: after).map run) s = run p (t.restore start) := by
  rw [List.map_append, attempt_append, attempt_eq_noMatch_iff.mpr h, Reply.orElse_noMatch, List.map_cons, attempt]
  cases hr : run p (t.restore start) with
  | noMatch u => exact absurd hr (hp u)
  | matched _ _ | halted _ => rfl

/-- An answer other than a failure is that of the first parser that does not fail. -/
theorem exists_first {r : Reply α} (h : attempt start (ps.map run) s = r) (hr : ∀ u, r ≠ .noMatch u) :
    ∃ before p after t, ps = before ++ p :: after ∧ FailInOrder run start before s t ∧ run p (t.restore start) = r := by
  induction ps generalizing s with
  | nil => exact absurd h.symm (hr s)
  | cons p ps ih =>
    rw [List.map_cons, attempt] at h
    cases hp : run p (s.restore start) with
    | noMatch u =>
      rw [hp, Reply.orElse_noMatch] at h
      obtain ⟨before, q, after, t, rfl, hbefore, hq⟩ := ih h
      exact ⟨p :: before, q, after, t, rfl, .cons hp hbefore, hq⟩
    | matched _ _ | halted _ =>
      rw [hp] at h
      exact ⟨[], p, ps, s, rfl, .nil s, hp.trans h⟩

theorem FailInOrder.offset_eq (h : FailInOrder run start ps s t) (hps : ∀ p ∈ ps, PutsBack (run p))
    (hs : s.offset = start) : t.offset = start := by
  induction h with
  | nil => exact hs
  | @cons p ps s t u first rest ih =>
    have ht : t.offset = start := hps p List.mem_cons_self (s.restore start) t first
    exact ih (fun q hq => hps q (List.mem_cons_of_mem _ hq)) ht

end

/-! ### Parsers that are started alone

Where what was expected before makes no difference, what a parser does after others have failed is what it does when it
is started first. -/

section
variable {run : Parser τ α → State → Reply α} {ps : List (Parser τ α)} {s t u : State}

theorem FailInOrder.fails_alone {start : Nat} (h : FailInOrder run start ps t u) (hs : s.offset = start)
    (hps : ∀ p ∈ ps, SameMatch (run p) (run p)) : ∀ p ∈ ps, ∃ v, run p s = .noMatch v := by
  induction h with
  | nil => exact fun p hp => absurd hp List.not_mem_nil
  | @cons p ps t u _ first rest ih =>
    have hsame : (run p s).bare = (Reply.noMatch u : Reply α).bare :=
      (hps p List.mem_cons_self s (t.restore start) hs).trans (congrArg Reply.bare first)
    obtain ⟨v, hv, -⟩ := Reply.exists_of_bare_eq_noMatch hsame
    exact List.forall_mem_cons.mpr ⟨⟨v, hv⟩, ih fun q hq => hps q (List.mem_cons_of_mem _ hq)⟩

theorem exists_failInOrder (h : ∀ p ∈ ps, ∃ v, run p s = .noMatch v) (hps : ∀ p ∈ ps, SameMatch (run p) (run p))
    (t : State) : ∃ u, FailInOrder run s.offset ps t u := by
  induction ps generalizing t with
  | nil => exact ⟨t, .nil t⟩
  | cons p ps ih =>
    obtain ⟨v, hv⟩ := h p List.mem_cons_self
    have hsame : (run p (t.restore s.offset)).bare = (Reply.noMatch v : Reply α).bare :=
      (hps p List.mem_cons_self (t.restore s.offset) s rfl).trans (congrArg Reply.bare hv)
    obtain ⟨w, hw, -⟩ := Reply.exists_of_bare_eq_noMatch hsame
    obtain ⟨u, hu⟩ := ih (fun q hq => h q (List.mem_cons_of_mem _ hq)) (fun q hq => hps q (List.mem_cons_of_mem _ hq)) w
    exact ⟨u, .cons hw hu⟩

end

/-! ### Laws -/

section
variable (p q r : Parser τ α)

theorem or_or : Alike (.or (.or p q) r) (.or p (.or q r)) := fun text depth env s => by
  simp only [exec_or, Reply.orElse_assoc]
  rfl

theorem fail_or : Alike (.or .fail p) p := fun _ _ _ _ => rfl

/-- Nothing as the second part of a choice adds nothing just where the first part puts the cursor back. -/
theorem or_fail_iff {text : List Char} {depth : Nat} {env : Environment τ} {s : State} :
    exec text depth (.or p .fail) env s = exec text depth p env s ↔
      ∀ t, exec text depth p env s = .noMatch t → t.offset = s.offset := Reply.restore_eq_self_iff _ _

end

section
variable {text : List Char} {depth : Nat} {env : Environment τ} {ps xs ys : List (Parser τ α)} {s : State}

theorem exec_any_noMatch_iff {t : State} : exec text depth (.any ps) env s = .noMatch t ↔
    FailInOrder (fun p => exec text depth p env) s.offset ps s t := by
  rw [exec_any]
  exact attempt_eq_noMatch_iff

theorem FailInOrder.exec_any {before : List (Parser τ α)} {p : Parser τ α} {t : State}
    (h : FailInOrder (fun p => exec text depth p env) s.offset before s t)
    (hp : ∀ u, exec text depth p env (t.restore s.offset) ≠ .noMatch u) (after : List (Parser τ α)) :
    exec text depth (.any (before ++ p :: after)) env s = exec text depth p env (t.restore s.offset) := by
  rw [Parser.exec_any]
  exact h.attempt_eq hp after

theorem exec_any_matched_iff {a : α} {t : State} : exec text depth (.any ps) env s = .matched a t ↔
    ∃ before p after u, ps = before ++ p :: after ∧ FailInOrder (fun p => exec text depth p env) s.offset before s u ∧
      exec text depth p env (u.restore s.offset) = .matched a t := by
  constructor
  · intro h
    rw [exec_any] at h
    exact exists_first h fun u => by simp
  · rintro ⟨before, p, after, u, rfl, hbefore, hp⟩
    rw [hbefore.exec_any (by simp [hp]), hp]

/-- The parsers of a list that fails put the cursor back, unless it is empty, just before the next list is tried. -/
theorem exec_any_append (hxs : ∀ x ∈ xs, PutsBack (exec text depth x env)) :
    exec text depth (.any (xs ++ ys)) env s = exec text depth (.or (.any xs) (.any ys)) env s := by
  rw [exec_any, List.map_append, attempt_append, exec_or, exec_any]
  cases h : attempt s.offset (xs.map fun x => exec text depth x env) s with
  | matched _ _ | halted _ => rfl
  | noMatch t =>
    have hoffset : t.offset = s.offset := (attempt_eq_noMatch_iff.mp h).offset_eq hxs rfl
    have hback : t.restore s.offset = t := by rw [← hoffset]; rfl
    rw [Reply.orElse_noMatch, Reply.orElse_noMatch, hback, exec_any, hoffset]

variable (hps : ∀ p ∈ ps, SameMatch (exec text depth p env) (exec text depth p env))
include hps

theorem exists_exec_any_noMatch_iff : (∃ t, exec text depth (.any ps) env s = .noMatch t) ↔
    ∀ p ∈ ps, ∃ t, exec text depth p env s = .noMatch t := by
  simp only [exec_any_noMatch_iff]
  exact ⟨fun ⟨t, ht⟩ => ht.fails_alone rfl hps, fun h => exists_failInOrder h hps s⟩

theorem exists_exec_any_matched_iff {a : α} {x : Nat} :
    (∃ t, exec text depth (.any ps) env s = .matched a t ∧ t.offset = x) ↔
      ∃ before p after, ps = before ++ p :: after ∧ (∀ q ∈ before, ∃ t, exec text depth q env s = .noMatch t) ∧
        ∃ t, exec text depth p env s = .matched a t ∧ t.offset = x := by
  constructor
  · rintro ⟨t, ht, rfl⟩
    obtain ⟨before, p, after, u, rfl, hbefore, hp⟩ := exec_any_matched_iff.mp ht
    have hsame := (hps p (by simp) s (u.restore s.offset) rfl).trans (congrArg Reply.bare hp)
    exact ⟨before, p, after, rfl, hbefore.fails_alone rfl fun q hq => hps q (by simp [hq]),
      Reply.exists_of_bare_eq_matched hsame⟩
  · rintro ⟨before, p, after, rfl, hbefore, t, ht, rfl⟩
    obtain ⟨u, hu⟩ := exists_failInOrder hbefore (fun q hq => hps q (by simp [hq])) s
    have hsame := (hps p (by simp) (u.restore s.offset) s rfl).trans (congrArg Reply.bare ht)
    obtain ⟨v, hv, hoffset⟩ := Reply.exists_of_bare_eq_matched hsame
    exact ⟨v, exec_any_matched_iff.mpr ⟨before, p, after, u, rfl, hu, hv⟩, hoffset⟩

end

/-- Choices obey the laws of a monoid in all that a run leaves: they may be grouped in any way, and nothing before a
    parser adds nothing. The first of `ps` that matches is found by trying them in order, each from the place where the
    first one was tried and with what those before it expected; the list fails when all of them do, and what comes after
    the first one that does not fail is not looked at. Where what was expected before makes no difference, it is the first
    one that matches when it is started alone. The choice of two lists is the choice between the two as long as the
    parsers of the first put the cursor back, and then an empty list adds nothing on either side. -/
theorem choice_lawful (p q r : Parser τ α) (ps xs ys : List (Parser τ α)) :
    Alike (.or (.or p q) r) (.or p (.or q r)) ∧
    Alike (.or .fail p) p ∧
    ∀ (text : List Char) (depth : Nat) (env : Environment τ) (s : State),
      let run (p : Parser τ α) := exec text depth p env
      (∀ a t, run (.any ps) s = .matched a t ↔ ∃ before p after u, ps = before ++ p :: after ∧
        FailInOrder run s.offset before s u ∧ run p (u.restore s.offset) = .matched a t) ∧
      (∀ t, run (.any ps) s = .noMatch t ↔ FailInOrder run s.offset ps s t) ∧
      (∀ before p u, FailInOrder run s.offset before s u → (∀ t, run p (u.restore s.offset) ≠ .noMatch t) →
        ∀ after, run (.any (before ++ p :: after)) s = run p (u.restore s.offset)) ∧
      ((∀ p ∈ ps, SameMatch (run p) (run p)) →
        ((∃ t, run (.any ps) s = .noMatch t) ↔ ∀ p ∈ ps, ∃ t, run p s = .noMatch t) ∧
        ∀ a x, (∃ t, run (.any ps) s = .matched a t ∧ t.offset = x) ↔ ∃ before p after, ps = before ++ p :: after ∧
          (∀ q ∈ before, ∃ t, run q s = .noMatch t) ∧ ∃ t, run p s = .matched a t ∧ t.offset = x) ∧
      ((∀ x ∈ xs, PutsBack (run x)) → run (.any (xs ++ ys)) s = run (.or (.any xs) (.any ys)) s) ∧
      run (.or (.any []) p) s = run p s ∧
      (PutsBack (run p) → run (.or p (.any [])) s = run p s) :=
  ⟨or_or p q r, fail_or p, fun text depth env s => ⟨fun _ _ => exec_any_matched_iff, fun _ => exec_any_noMatch_iff,
    fun _ _ _ hbefore hp => hbefore.exec_any hp,
    fun hps => ⟨exists_exec_any_noMatch_iff hps, fun _ _ => exists_exec_any_matched_iff hps⟩, exec_any_append,
    fail_or p text depth env s, fun hp => (or_fail_iff p).mpr fun t => hp s t⟩⟩

/-- A parser that fails further on than it started. What comes after it starts where it did, with what it expected,
    and matches; nothing after it makes a difference, since it does not put the cursor back. -/
theorem choice_lawful_leak :
    let leak : Parser (fun i : Empty => nomatch i) String :=
      .leaf fun _ s => .noMatch ((s.expect "more").restore (s.offset + 2))
    let run (p : Parser (fun i : Empty => nomatch i) String) := exec ['a', 'b'] 0 p (fun i => nomatch i) {}
    run (.any [leak, .literal "b", .literal "a", leak]) =
        .matched "a" { offset := 1, furthest := some ⟨0, ["more", "'b'"]⟩ } ∧
      run (.any ([.literal "b"] ++ [leak])) = run (.or (.any [.literal "b"]) (.any [leak])) ∧
      run (.or (.any []) leak) = run leak ∧
      run (.or leak (.any [])) ≠ run leak ∧
      run (.or (.literal "b") (.any [])) = run (.literal "b") := by
  intro leak run
  let b : Parser (fun i : Empty => nomatch i) String := .literal "b"
  let a : Parser (fun i : Empty => nomatch i) String := .literal "a"
  have hb : PutsBack fun s => exec ['a', 'b'] 0 b (fun i => nomatch i) s := fun _ _ => matchLiteral_noMatch_offset
  obtain ⟨-, -, hlaws⟩ := choice_lawful b a leak [leak, b, a, leak] [b] [leak]
  obtain ⟨-, -, hfirst, -, happend, -, hend⟩ := hlaws ['a', 'b'] 0 (fun i => nomatch i) {}
  obtain ⟨-, -, hlaws'⟩ := choice_lawful leak b a [] [] []
  obtain ⟨-, -, -, -, -, hbegin, -⟩ := hlaws' ['a', 'b'] 0 (fun i => nomatch i) {}
  have htried : FailInOrder (fun p s => exec ['a', 'b'] 0 p (fun i => nomatch i) s) 0 [leak, b] {}
      { furthest := some ⟨0, ["more", "'b'"]⟩ } := .cons rfl (.cons rfl (.nil _))
  refine ⟨hfirst [leak, b] a _ htried (fun t h => ?_) [leak], happend (by simpa using hb), hbegin, fun h => ?_, hend hb⟩
  · cases h
  · have hoffset : 2 = 0 := (or_fail_iff leak).mp h _ rfl
    cases hoffset

end Reckoner.Parser
