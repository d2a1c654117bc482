import Mathlib.Data.List.Forall2
import Mathlib.Order.Filter.AtTopBot.Basic
import Reckoner.Parser.Run

/-! The bound on recursion. A run that is not cut off for going too deep says all there is to say: a larger
    bound gives the same answer, and so do handles that answer more. Both are cases of one statement, in which
    the larger run is a family of runs that is looked at along a filter: a single run when the filter is
    `𝓟 {n}`, or all runs from some bound on when it is `atTop`. -/

namespace Reckoner.Parser
open Filter

variable {ι : Type} {τ : ι → Type} {α β γ : Type} {l : Filter Nat}

/-! ### Replies -/

namespace Reply

/-- `r` is what the replies `rs` come to along `l`, unless it was cut off. -/
def Below (l : Filter Nat) (r : Reply α) (rs : Nat → Reply α) : Prop :=
  r = .halted .tooDeep ∨ ∀ᶠ n in l, rs n = r

theorem Below.refl (r : Reply α) : Below l r fun _ => r := Or.inr (Eventually.of_forall fun _ => rfl)

theorem Below.congr {r : Reply α} {rs rs' : Nat → Reply α} (h : Below l r rs)
    (heq : ∀ᶠ n in l, rs' n = rs n) : Below l r rs' := by
  rcases h with h | h
  · exact Or.inl h
  · refine Or.inr ?_
    filter_upwards [h, heq] with n hn heqn
    rw [heqn, hn]

theorem Below.andThen {r : Reply α} {rs : Nat → Reply α} {next : α → State → Reply β}
    {nexts : Nat → α → State → Reply β} (h : Below l r rs)
    (hnext : ∀ a s, Below l (next a s) fun n => nexts n a s) :
    Below l (r.andThen next) fun n => (rs n).andThen (nexts n) := by
  rcases h with rfl | h
  · exact Or.inl rfl
  · cases r with
    | matched a s => exact (hnext a s).congr (h.mono fun n hn => by rw [hn, andThen_matched])
    | noMatch s => exact (Below.refl _).congr (h.mono fun n hn => by rw [hn]; rfl)
    | halted f => exact (Below.refl _).congr (h.mono fun n hn => by rw [hn]; rfl)

theorem Below.orElse {r : Reply α} {rs : Nat → Reply α} {next : State → Reply α}
    {nexts : Nat → State → Reply α} (h : Below l r rs) (hnext : ∀ s, Below l (next s) fun n => nexts n s) :
    Below l (r.orElse next) fun n => (rs n).orElse (nexts n) := by
  rcases h with rfl | h
  · exact Or.inl rfl
  · cases r with
    | matched a s => exact (Below.refl _).congr (h.mono fun n hn => by rw [hn]; rfl)
    | noMatch s => exact (hnext s).congr (h.mono fun n hn => by rw [hn, orElse_noMatch])
    | halted f => exact (Below.refl _).congr (h.mono fun n hn => by rw [hn]; rfl)

/-- What is done to a reply keeps the order when it leaves a run that was cut off as it is. -/
theorem Below.on (f : Reply α → Reply β) (hf : f (.halted .tooDeep) = .halted .tooDeep) {r : Reply α}
    {rs : Nat → Reply α} (h : Below l r rs) : Below l (f r) fun n => f (rs n) := by
  rcases h with rfl | h
  · exact Or.inl hf
  · exact Or.inr (h.mono fun n hn => congrArg f hn)

/-- Below a single run: the same answer, unless cut off. -/
theorem Below.eq {r : Reply α} {rs : Nat → Reply α} {n : Nat} (h : Below (𝓟 {n}) r rs)
    (hr : r ≠ .halted .tooDeep) : rs n = r := by
  rcases h with hcut | heq
  · exact absurd hcut hr
  · exact eventually_principal.mp heq n rfl

/-- `r'` is the same answer as `r`, unless that was cut off. -/
def Under (r r' : Reply α) : Prop := r = .halted .tooDeep ∨ r' = r

theorem Under.refl (r : Reply α) : Under r r := Or.inr rfl

theorem Under.eq {r r' : Reply α} (h : Under r r') (hr : r ≠ .halted .tooDeep) : r' = r := h.resolve_left hr

theorem below_principal {r : Reply α} {rs : Nat → Reply α} {n : Nat} : Below (𝓟 {n}) r rs ↔ Under r (rs n) := by
  simp only [Below, Under, eventually_principal, Set.mem_singleton_iff, forall_eq]

end Reply

open Reply

theorem below_tie {unfold : (State → Reply α) → State → Reply α}
    {unfolds : Nat → (State → Reply α) → State → Reply α}
    (h : ∀ (self : State → Reply α) (selfs : Nat → State → Reply α),
      (∀ s, Below l (self s) fun n => selfs n s) → ∀ s, Below l (unfold self s) fun n => unfolds n (selfs n) s) :
    ∀ (k : Nat) (ks : Nat → Nat), (∀ᶠ n in l, k ≤ ks n) →
      ∀ s, Below l (tie k unfold s) fun n => tie (ks n) (unfolds n) s
  | 0, _, _, _ => Or.inl rfl
  | k + 1, ks, hks, s => by
    have ih := below_tie h k (fun n => ks n - 1) (hks.mono fun n hn => by omega)
    refine (h _ _ ih s).congr (hks.mono fun n hn => ?_)
    obtain ⟨m, hm⟩ := Nat.exists_eq_add_of_le' hn
    rw [hm, ← Nat.add_assoc, tie_succ, Nat.add_sub_cancel]

/-! ### Parsers

The parser on the right may differ from the one on the left in its parts, as long as these are related in
the same way. -/

/-- What `p` answers at the bound `depth`, unless it is cut off, is what `q` answers along `l`. -/
def Approximates (l : Filter Nat) (text : List Char) (depth : Nat) (env : Environment τ)
    (envs : Nat → Environment τ) (p q : Parser τ α) : Prop :=
  ∀ s, Below l (exec text depth p env s) fun n => exec text n q (envs n) s

namespace Approximates
variable {text : List Char} {depth : Nat} {env : Environment τ} {envs : Nat → Environment τ}
  {p p' : Parser τ α} {q q' : Parser τ β}

theorem chain {f f' : α → Parser τ β} (hp : Approximates l text depth env envs p p')
    (hf : ∀ a, Approximates l text depth env envs (f a) (f' a)) :
    Approximates l text depth env envs (.chain p f) (.chain p' f') := fun s =>
  (hp s).andThen fun a t => (hf a t).on (·.restore s.offset) rfl

theorem map (f : α → β) (hp : Approximates l text depth env envs p p') :
    Approximates l text depth env envs (.map p f) (.map p' f) := fun s => (hp s).on (·.map f) rfl

theorem or {r r' : Parser τ α} (hp : Approximates l text depth env envs p p')
    (hr : Approximates l text depth env envs r r') :
    Approximates l text depth env envs (.or p r) (.or p' r') := fun s => (hp s).orElse fun _ => hr _

theorem label (name : String) (hp : Approximates l text depth env envs p p') :
    Approximates l text depth env envs (.label p name) (.label p' name) := fun s =>
  (hp s).on (·.label name s.offset) rfl

theorem weaken {self : State → Reply β} {selfs : Nat → State → Reply β}
    (hp : Approximates l text depth env envs p p') :
    Approximates l text depth (env.extend self) (fun n => (envs n).extend (selfs n)) p.weaken p'.weaken :=
  hp

theorem literal (expected : String) :
    Approximates l text depth env envs (.literal expected) (.literal expected) := fun _ => Below.refl _

theorem self {self : State → Reply α} {selfs : Nat → State → Reply α}
    (h : ∀ s, Below l (self s) fun n => selfs n s) :
    Approximates l text depth (env.extend self) (fun n => (envs n).extend (selfs n)) .self .self := h

theorem recursive {body body' : Parser (Extended α τ) α} (hl : ∀ᶠ n in l, depth ≤ n)
    (h : ∀ (self : State → Reply α) (selfs : Nat → State → Reply α),
      (∀ s, Below l (self s) fun n => selfs n s) →
      Approximates l text depth (env.extend self) (fun n => (envs n).extend (selfs n)) body body') :
    Approximates l text depth env envs (.recursive body) (.recursive body') :=
  below_tie h depth id hl

theorem seq (hp : Approximates l text depth env envs p p') (hq : Approximates l text depth env envs q q') :
    Approximates l text depth env envs (p.seq q) (p'.seq q') := hp.chain fun _ => hq.map _

theorem keepLeft (hp : Approximates l text depth env envs p p')
    (hq : Approximates l text depth env envs q q') :
    Approximates l text depth env envs (p.keepLeft q) (p'.keepLeft q') := hp.chain fun _ => hq.map _

theorem keepRight (hp : Approximates l text depth env envs p p')
    (hq : Approximates l text depth env envs q q') :
    Approximates l text depth env envs (p.keepRight q) (p'.keepRight q') := hp.chain fun _ => hq

theorem any {ps ps' : List (Parser τ α)} (h : List.Forall₂ (Approximates l text depth env envs) ps ps') :
    Approximates l text depth env envs (.any ps) (.any ps') := by
  cases h with
  | nil => exact fun s => Below.refl _
  | @cons p p' ps ps' hp hps =>
    show Approximates l text depth env envs (ps.foldl .or p) (ps'.foldl .or p')
    induction hps generalizing p p' with
    | nil => exact hp
    | cons hq _ ih => exact ih (hp.or hq)

/-- A parser whose handles answer more, or that may go deeper, answers the same unless it was cut off. -/
theorem refl (p : Parser τ α) (hl : ∀ᶠ n in l, depth ≤ n)
    (henv : ∀ i s, Below l (env i s) fun n => envs n i s) : Approximates l text depth env envs p p := by
  induction p with
  | literal _ | pure _ | fail | leaf _ => exact fun s => Below.refl _
  | chain p f ihp ihf => exact (ihp henv).chain fun a => ihf a henv
  | map p f ih => exact (ih henv).map f
  | or p q ihp ihq => exact (ihp henv).or (ihq henv)
  | label p name ih => exact (ih henv).label name
  | lazy make ih => exact ih () henv
  | handle i => exact henv i
  | recursive body ih =>
    refine Approximates.recursive hl fun self selfs hself => ih fun i s => ?_
    cases i with
    | none => exact hself s
    | some i => exact henv i s
  | weaken p ih => exact ih fun i => henv (some i)

end Approximates

/-- With a bound that is no smaller, and handles that answer the same as far as they are not cut off. -/
theorem exec_under {text : List Char} {depth depth' : Nat} {env env' : Environment τ} (p : Parser τ α)
    (hle : depth ≤ depth') (henv : ∀ i s, (env i s).Under (env' i s)) (s : State) :
    (exec text depth p env s).Under (exec text depth' p env' s) := by
  have hp : Approximates (𝓟 {depth'}) text depth env (fun _ => env') p p :=
    Approximates.refl p (eventually_principal.mpr fun n hn => hn ▸ hle) fun i s => below_principal.mpr (henv i s)
  exact below_principal.mp (hp s)

theorem tie_under {unfold unfold' : (State → Reply α) → State → Reply α}
    (h : ∀ self self' : State → Reply α, (∀ s, (self s).Under (self' s)) →
      ∀ s, (unfold self s).Under (unfold' self' s)) :
    ∀ (k k' : Nat), k ≤ k' → ∀ s, (tie k unfold s).Under (tie k' unfold' s)
  | 0, _, _, _ => Or.inl rfl
  | k + 1, k' + 1, hk, s => h _ _ (tie_under h k k' (Nat.le_of_succ_le_succ hk)) s

theorem Environment.under_extend {env env' : Environment τ} {self self' : State → Reply α}
    (hself : ∀ s, (self s).Under (self' s)) (henv : ∀ i s, (env i s).Under (env' i s)) :
    ∀ i s, (env.extend self i s).Under (env'.extend self' i s) := by
  intro i
  cases i with
  | none => exact hself
  | some i => exact henv i

/-- The recursion of `body` with more rounds, a larger bound for all else in it, and handles that answer the same as
    far as they are not cut off. -/
theorem rounds_under {text : List Char} {depth depth' rounds rounds' : Nat} {env env' : Environment τ}
    (body : Parser (Extended α τ) α) (hdepth : depth ≤ depth') (henv : ∀ i s, (env i s).Under (env' i s))
    (hrounds : rounds ≤ rounds') (s : State) :
    (tie rounds (fun self => exec text depth body (env.extend self)) s).Under
      (tie rounds' (fun self => exec text depth' body (env'.extend self)) s) :=
  tie_under (fun _ _ hself => exec_under body hdepth (Environment.under_extend hself henv)) rounds rounds' hrounds s

/-! ### Recursion unfolded -/

section
variable {text : List Char} {depth : Nat} {env : Environment τ} {p : Parser τ α} {s : State}

/-- A recursive parser that is not cut off runs as its body does when the handle stands for the parser. -/
theorem exec_recursive_eq {body : Parser (Extended α τ) α}
    (h : exec text depth (.recursive body) env s ≠ .halted .tooDeep) :
    exec text depth (.recursive body) env s =
      exec text depth body (env.extend (exec text depth (.recursive body) env)) s := by
  -- One more unfolding is another run of the same recursion, with a larger bound of its own.
  have hmore : (exec text depth (.recursive body) env s).Under
      (tie (depth + 1) (fun self => exec text depth body (env.extend self)) s) :=
    rounds_under body (Nat.le_refl depth) (fun _ _ => .refl _) (Nat.le_succ depth) s
  exact (hmore.eq h).symm

end

/-! ### Answers of runs that end -/

section
variable {d : Definitions τ} {text : List Char} {p : Parser τ α} {s : State} {r : Reply α}

theorem environment_below (d : Definitions τ) {depth : Nat} (hl : ∀ᶠ n in l, depth ≤ n) (i : ι) (s : State) :
    Below l (d.environment text depth i s) fun n => d.environment text n i s := by
  induction depth generalizing l i s with
  | zero => exact Or.inl rfl
  | succ depth ih =>
    have hbody : Below l (d.environment text (depth + 1) i s) fun n => d.environment text (n - 1 + 1) i s := by
      simp only [Definitions.environment]
      cases d.parser? i with
      | none => exact Below.refl _
      | some p =>
        have hle : ∀ᶠ n in l.map (· - 1), depth ≤ n :=
          eventually_map.mpr (hl.mono fun n hn => Nat.le_sub_one_of_lt hn)
        rcases Approximates.refl p hle (fun i s => ih hle i s) s with hcut | heq
        · exact Or.inl hcut
        · exact Or.inr (eventually_map.mp heq)
    exact hbody.congr (hl.mono fun n hn => by rw [Nat.sub_add_cancel (by omega)])

theorem environment_under {depth depth' : Nat} (hdepth : depth ≤ depth') (i : ι) (s : State) :
    (d.environment text depth i s).Under (d.environment text depth' i s) :=
  below_principal.mp (environment_below d (eventually_principal.mpr fun _ hn => hn ▸ hdepth) i s)

/-- Run in the state `s`, `p` comes to the answer `r` once the bound is large enough. -/
def Answers (d : Definitions τ) (text : List Char) (p : Parser τ α) (s : State) (r : Reply α) : Prop :=
  r ≠ .halted .tooDeep ∧ ∃ depth, exec text depth p (d.environment text depth) s = r

theorem Answers.below (h : Answers d text p s r) :
    Below atTop r fun n => exec text n p (d.environment text n) s := by
  obtain ⟨-, depth, rfl⟩ := h
  exact Approximates.refl p (eventually_ge_atTop depth) (environment_below d (eventually_ge_atTop depth)) s

/-- A run comes to one answer only. -/
theorem Answers.unique {r' : Reply α} (h : Answers d text p s r) (h' : Answers d text p s r') : r' = r := by
  obtain ⟨n, hn, hn'⟩ := ((h.below.resolve_left h.1).and (h'.below.resolve_left h'.1)).exists
  exact hn'.symm.trans hn

theorem answers_of_below (h : Below atTop r fun n => exec text n p (d.environment text n) s)
    (hr : r ≠ .halted .tooDeep) : Answers d text p s r := by
  rcases h with hcut | heq
  · exact absurd hcut hr
  · obtain ⟨depth, hdepth⟩ := heq.exists
    exact ⟨hr, depth, hdepth⟩

end

end Reckoner.Parser
