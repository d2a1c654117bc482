import Reckoner.Proofs.Bound
import Reckoner.Proofs.Recursion

/-! Repetition as a loop. A recursive parser that runs something, then itself, and yields a value of its own when the
    first part fails does what a loop does that goes from one state to the next and takes up one value after the
    other, although its recursion puts the values together from the last one backwards. So the repetition of a parser
    is the plain loop over its runs, and where each of these consumes something, the loop comes to an end. -/

namespace Reckoner.Parser
variable {ι : Type} {τ : ι → Type} {α β σ : Type}

/-! ### Loops -/

/-- Runs `round` as often as it matches, each time from the state that it left, and takes its values into `value` one
    after the other. When it fails, the cursor is put back to where that round began, and the loop is at its end. The
    loop is cut off after so many rounds. -/
def loop (round : State → Reply α) (take : σ → α → σ) : Nat → σ → State → Reply σ
  | 0, _, _ => .halted .tooDeep
  | rounds + 1, value, s =>
    match round s with
    | .matched a t => loop round take rounds (take value a) t
    | .noMatch t => .matched value (t.restore s.offset)
    | .halted fault => .halted fault

/-- A round and then `self`, whose value `more` puts together with that of the round; `last` when there is none. -/
def unwind (round : State → Reply α) (more : α → β → β) (last : β) (self : State → Reply β) (s : State) : Reply β :=
  ((round s).andThen fun a t => (self t).map (more a)).orElse fun t => .matched last (t.restore s.offset)

section
variable {round : State → Reply α} {more : α → β → β} {last : β} {self : State → Reply β}

theorem unwind_ne_noMatch (s t : State) : unwind round more last self s ≠ .noMatch t := by
  unfold unwind
  cases (round s).andThen fun a t => (self t).map (more a) <;> simp

/-- Where a round leaves the cursor when it fails makes no difference. -/
theorem unwind_congr {round' : State → Reply α} {s : State}
    (h : (round s).restore s.offset = (round' s).restore s.offset) :
    unwind round more last self s = unwind round' more last self s := by
  unfold unwind
  cases hr : round s <;> cases hr' : round' s <;> simp_all [State.restore]

variable {unfold : (State → Reply β) → State → Reply β}
  (hunfold : ∀ self : State → Reply β, (∀ s t, self s ≠ .noMatch t) → ∀ s, unfold self s = unwind round more last self s)
include hunfold

/-- Such a recursion never fails, so that what follows a round does not undo it. -/
theorem tie_ne_noMatch : ∀ (k : Nat) (s t : State), tie k unfold s ≠ .noMatch t
  | 0, _, _ => by simp
  | k + 1, s, t => by
    rw [tie_succ, hunfold _ (tie_ne_noMatch k)]
    exact unwind_ne_noMatch s t

/-- What the recursion yields is used by `apply` on a value, as the loop uses the values of the rounds. -/
theorem map_tie_eq_loop (apply : β → σ → σ) {take : σ → α → σ} (hlast : ∀ value, apply last value = value)
    (hmore : ∀ a b value, apply (more a b) value = apply b (take value a)) :
    ∀ (k : Nat) (value : σ) (s : State), (tie k unfold s).map (apply · value) = loop round take k value s
  | 0, _, _ => rfl
  | k + 1, value, s => by
    rw [tie_succ, hunfold _ (tie_ne_noMatch hunfold k), unwind, loop]
    cases round s with
    | matched a t =>
      simp only [Reply.andThen_matched]
      rw [← map_tie_eq_loop apply hlast hmore k (take value a) t]
      cases h : tie k unfold t with
      | noMatch u => exact absurd h (tie_ne_noMatch hunfold k t u)
      | matched b u => simp [hmore]
      | halted fault => rfl
    | noMatch t => simp [hlast]
    | halted fault => rfl

end

/-! ### Successive runs -/

/-- Runs that match, each from the state that the one before left, yield the values and lead from the first state to
    the last. -/
inductive Successive (Run : State → Reply α → Prop) : State → List α → State → Prop where
  | none (s : State) : Successive Run s [] s
  | next {s t u : State} {a : α} {values : List α} (first : Run s (.matched a t)) (rest : Successive Run t values u) :
    Successive Run s (a :: values) u

theorem Successive.loop_eq {round : State → Reply α} {take : σ → α → σ} {values : List α} {s t u : State}
    (h : Successive (fun s r => round s = r) s values t) (ht : round t = .noMatch u) {rounds : Nat}
    (hrounds : values.length < rounds) (value : σ) :
    loop round take rounds value s = .matched (values.foldl take value) (u.restore t.offset) := by
  induction h generalizing rounds value with
  | none s =>
    obtain ⟨k, rfl⟩ := Nat.exists_eq_add_of_lt hrounds
    simp [loop, ht]
  | @next s s' t a values first rest ih =>
    obtain ⟨k, rfl⟩ : ∃ k, rounds = k + 1 := Nat.exists_eq_succ_of_ne_zero (Nat.ne_of_gt (Nat.zero_lt_of_lt hrounds))
    simp only [loop, first]
    exact ih ht (Nat.lt_of_succ_lt_succ hrounds) (take value a)

variable {p : Parser τ α} {d : Definitions τ} {text : List Char} {s : State}

/-- Finitely many runs that end are what they are at every bound from some one on. -/
theorem Successive.eventually {values : List α} {t : State} (h : Successive (Answers d text p) s values t) :
    ∀ᶠ n in Filter.atTop,
      Successive (fun s r => exec text n p (d.environment text n) s = r) s values t := by
  induction h with
  | none s => exact Filter.Eventually.of_forall fun _ => .none s
  | next first rest ih =>
    filter_upwards [first.below.resolve_left (by simp), ih] with n hfirst hrest
    exact .next hfirst hrest

/-- When each run consumes something, there is one that fails: what is left of the text gets shorter. -/
theorem exists_successive (s : State)
    (hends : ∀ values t, Successive (Answers d text p) s values t →
      ∃ r, Answers d text p t r ∧ ∀ fault, r ≠ .halted fault)
    (hpast : ∀ t a u, Answers d text p t (.matched a u) → Past text t.offset u.offset) :
    ∃ values t u, Successive (Answers d text p) s values t ∧ Answers d text p t (.noMatch u) := by
  obtain ⟨r, hr, hfault⟩ := hends [] s (.none s)
  cases r with
  | halted fault => exact absurd rfl (hfault fault)
  | noMatch u => exact ⟨[], s, u, .none s, hr⟩
  | matched a t =>
    have hconsumed := hpast s a t hr
    obtain ⟨values, u, v, hvalues, hv⟩ :=
      exists_successive t (fun values u h => hends (a :: values) u (.next hr h)) hpast
    exact ⟨a :: values, u, v, .next hr hvalues, hv⟩
termination_by Text.byteLength text - s.offset
decreasing_by
  unfold Past at hconsumed
  omega

/-! ### Repetitions -/

/-- Puts a value behind those that there are. -/
def push (values : List α) (a : α) : List α := values ++ [a]

theorem foldl_push (values before : List α) : values.foldl push before = before ++ values := by
  induction values generalizing before with
  | nil => simp
  | cons a values ih => simp [push, ih]

section
variable (text : List Char) (depth : Nat) (p : Parser τ α) (env : Environment τ) (s : State)

theorem exec_many_body (self : State → Reply (List α)) :
    exec text depth (.or (p.weaken.cons .self) (.pure [])) (env.extend self) s =
      unwind (exec text depth p env) List.cons [] self s := by
  simp only [Parser.cons, Parser.seq, exec_or, exec_map, exec_chain, exec_weaken, exec_self, exec_pure, unwind]
  cases exec text depth p env s with
  | matched a t =>
    simp only [Reply.andThen_matched]
    cases self t <;> rfl
  | noMatch t | halted fault => rfl

theorem exec_many_ne_noMatch (t : State) : exec text depth p.many env s ≠ .noMatch t :=
  tie_ne_noMatch (fun self _ s => exec_many_body text depth p env s self) depth s t

/-- Behind values that there are already, a repetition is the loop that goes on with them. -/
theorem map_exec_many (values : List α) :
    (exec text depth p.many env s).map (values ++ ·) = loop (exec text depth p env) push depth values s :=
  map_tie_eq_loop (fun self _ s => exec_many_body text depth p env s self)
    (fun more values => values ++ more) (fun values => List.append_nil values)
    (fun a more values => (List.append_assoc values [a] more).symm) depth values s

/-- A repetition is the loop that puts the values of the runs one behind the other. -/
theorem exec_many_eq_loop : exec text depth p.many env s = loop (exec text depth p env) push depth [] s := by
  rw [← map_exec_many]
  cases exec text depth p.many env s <;> rfl

/-- A repetition that has to match once fails as its first run does, and otherwise goes on as the loop. -/
theorem exec_many1_eq_loop : exec text depth p.many1 env s =
    (exec text depth p env s).andThen fun a t => loop (exec text depth p env) push depth [a] t := by
  simp only [Parser.many1, Parser.cons, Parser.seq, exec_map, exec_chain]
  cases exec text depth p env s with
  | matched a t =>
    simp only [Reply.andThen_matched, ← map_exec_many]
    cases h : exec text depth p.many env t with
    | noMatch u => exact absurd h (exec_many_ne_noMatch text depth p env t u)
    | matched _ _ | halted _ => rfl
  | noMatch t | halted fault => rfl

end

/-- A repetition is the loop over the runs of `p`, and one that has to match once makes a run of its own and then the
    loop. Where every run that matches consumes something, and the runs that the loop makes come to an end, both of
    them come to an end too. The repetition matches, with the values of the successive runs up to the first one that
    fails; it leaves the cursor where this one began, wherever that left it, and expects what is expected after all
    of them. The other one fails as the first run does, and otherwise leaves the same. -/
theorem many_successive_runs :
    (∀ depth env t, exec text depth p.many env t = loop (exec text depth p env) push depth [] t ∧
      exec text depth p.many1 env t =
        (exec text depth p env t).andThen fun a u => loop (exec text depth p env) push depth [a] u) ∧
    ((∀ values t, Successive (Answers d text p) s values t →
        ∃ r, Answers d text p t r ∧ ∀ fault, r ≠ .halted fault) →
      (∀ t a u, Answers d text p t (.matched a u) → Past text t.offset u.offset) →
      ∃ values t u, Successive (Answers d text p) s values t ∧ Answers d text p t (.noMatch u) ∧
        Answers d text p.many s (.matched values (u.restore t.offset)) ∧
        (∀ v, Answers d text p s (.noMatch v) → Answers d text p.many1 s (.noMatch v)) ∧
        ∀ a v, Answers d text p s (.matched a v) →
          Answers d text p.many1 s (.matched values (u.restore t.offset))) := by
  refine ⟨fun depth env t => ⟨exec_many_eq_loop text depth p env t, exec_many1_eq_loop text depth p env t⟩,
    fun hends hpast => ?_⟩
  obtain ⟨values, t, u, hvalues, hu⟩ := exists_successive s hends hpast
  -- At some bound all these runs have come to their ends, and the loop has enough rounds for them.
  have hbound : ∀ᶠ n in Filter.atTop, Successive (fun s r => exec text n p (d.environment text n) s = r) s values t ∧
      exec text n p (d.environment text n) t = .noMatch u ∧ values.length < n :=
    hvalues.eventually.and ((hu.below.resolve_left hu.1).and (Filter.eventually_gt_atTop _))
  obtain ⟨n, hsuccessive, hfails, hlength⟩ := hbound.exists
  refine ⟨values, t, u, hvalues, hu, ⟨by simp, n, ?_⟩, fun v hv => ⟨by simp, ?_⟩, fun a v hv => ⟨by simp, n, ?_⟩⟩
  · rw [exec_many_eq_loop, hsuccessive.loop_eq hfails hlength, foldl_push, List.nil_append]
  · obtain ⟨m, hm⟩ := hv.2
    exact ⟨m, by rw [exec_many1_eq_loop, hm, Reply.andThen_noMatch]⟩
  · cases hsuccessive with
    | none => cases hv.unique hu
    | @next _ s' _ b values first rest =>
      have hshorter : values.length < n := Nat.lt_of_succ_lt hlength
      rw [exec_many1_eq_loop, first, Reply.andThen_matched, rest.loop_eq hfails hshorter, foldl_push]
      rfl

/-- A leaf that moves the cursor on whether it matches or not: the run that fails leaves it at 3. -/
theorem many_successive_runs_leak :
    let letter : Closed Char := .leaf fun text s =>
      match s.rest? text with
      | some ('a' :: _) => .matched 'a' (s.restore (s.offset + 1))
      | _ => .noMatch ((s.expect "'a'").restore (s.offset + 1))
    let text := ['a', 'a', 'b']
    (∀ t a u, Answers .empty text letter t (.matched a u) → Past text t.offset u.offset) ∧
      (∃ values t u, Successive (Answers .empty text letter) {} values t ∧
        Answers .empty text letter t (.noMatch u) ∧
        Answers .empty text letter.many {} (.matched values (u.restore t.offset))) ∧
      exec text 0 letter (Definitions.empty.environment text 0) { offset := 2 } =
        .noMatch { offset := 3, furthest := some ⟨2, ["'a'"]⟩ } ∧
      exec text 3 letter.many (Definitions.empty.environment text 3) {} =
        .matched ['a', 'a'] { offset := 2, furthest := some ⟨2, ["'a'"]⟩ } := by
  intro letter text
  have hends : ∀ t, ∃ r, Answers .empty text letter t r ∧ ∀ fault, r ≠ .halted fault := by
    intro t
    refine ⟨exec text 0 letter (Definitions.empty.environment text 0) t, ⟨?_, 0, rfl⟩, fun fault => ?_⟩ <;>
      simp only [letter, exec_leaf] <;> split <;> simp
  have hpast : ∀ t a u, Answers .empty text letter t (.matched a u) → Past text t.offset u.offset := by
    rintro t a u ⟨-, depth, ht⟩
    simp only [letter, exec_leaf] at ht
    split at ht
    · next w hw =>
      obtain ⟨v, htext, hv⟩ := Text.eq_append_of_dropBytes? hw
      cases ht
      refine ⟨Nat.lt_succ_self _, ?_⟩
      rw [htext, Text.byteLength_append, hv, Text.byteLength_cons]
      exact Nat.lt_add_of_pos_right (Nat.add_pos_left (Char.utf8Size_pos _) _)
    · cases ht
  obtain ⟨values, t, u, hvalues, hu, hmany, -⟩ :=
    (many_successive_runs (s := {})).2 (fun _ t _ => hends t) hpast
  exact ⟨hpast, ⟨values, t, u, hvalues, hu, hmany⟩, rfl, rfl⟩

end Reckoner.Parser
