import Reckoner.Proofs.Bound

/-! What a trace holds. Every attempt in the trace of a run was recorded by a label, which ran its parser from some
    place of the text; alternatives that were given up leave theirs there too. So a property of attempts holds of
    the whole trace when each label records such attempts from every place. In the body of a recursive parser this
    is asked only with the handle standing for the whole parser: what runs within it under the bound is cut off
    earlier, but never answers otherwise. -/

namespace Reckoner.Parser
open Reply

variable {ι : Type} {τ : ι → Type} {α β : Type} {P : Attempt → Prop} {text : List Char} {depth : Nat}

/-! ### States and replies -/

/-- The cursor is between two characters of the text, and each attempt so far has the property. -/
structure State.Sound (P : Attempt → Prop) (text : List Char) (s : State) : Prop where
  between : ∃ rest, s.rest? text = some rest
  trace : ∀ attempt ∈ s.trace, P attempt

/-- A failure may leave the cursor anywhere. -/
def Reply.Sound (P : Attempt → Prop) (text : List Char) : Reply α → Prop
  | .matched _ s => s.Sound P text
  | .noMatch s => ∀ attempt ∈ s.trace, P attempt
  | .halted _ => True

/-- What a label records that started at `start` has the property. -/
def Reply.Records (P : Attempt → Prop) (name : String) (start : Nat) : Reply α → Prop
  | .matched _ s => P (.matched name start s.offset)
  | .noMatch _ => P (.failed name start)
  | .halted _ => True

section
variable {s t : State} {r : Reply α}

theorem State.Sound.restore (hs : s.Sound P text) (ht : ∀ attempt ∈ t.trace, P attempt) :
    (t.restore s.offset).Sound P text := ⟨hs.between, ht⟩

theorem Reply.Sound.andThen {next : α → State → Reply β} (hr : r.Sound P text)
    (hnext : ∀ a t, t.Sound P text → (next a t).Sound P text) : (r.andThen next).Sound P text := by
  cases r with
  | matched a t => exact hnext a t hr
  | noMatch t => exact hr
  | halted f => trivial

theorem Reply.Sound.orElse {next : State → Reply α} (hr : r.Sound P text)
    (hnext : ∀ t, (∀ attempt ∈ t.trace, P attempt) → (next t).Sound P text) : (r.orElse next).Sound P text := by
  cases r with
  | matched a t => exact hr
  | noMatch t => exact hnext t hr
  | halted f => trivial

theorem Reply.Sound.label {name : String} {start : Nat} (hr : r.Sound P text) (hrecords : r.Records P name start) :
    (r.label name start).Sound P text := by
  cases r with
  | matched a t => exact ⟨hr.between, List.forall_mem_cons.mpr ⟨hrecords, hr.trace⟩⟩
  | noMatch t => exact List.forall_mem_cons.mpr ⟨hrecords, hr⟩
  | halted f => trivial

/-- A run that is cut off records nothing. -/
theorem Reply.Records.of_under {name : String} {start : Nat} {r' : Reply α} (h : r.Under r')
    (hrecords : r'.Records P name start) : r.Records P name start := by
  rcases h with rfl | rfl
  · trivial
  · exact hrecords

theorem trace_of_label_matched {name : String} {start : Nat} {a : α} (h : r.label name start = .matched a t) :
    ∃ earlier, t.trace = .matched name start t.offset :: earlier := by
  cases r with
  | matched b s =>
    cases h
    exact ⟨s.trace, rfl⟩
  | noMatch _ | halted _ => cases h

theorem trace_of_label_noMatch {name : String} {start : Nat} (h : r.label name start = .noMatch t) :
    ∃ earlier, t.trace = .failed name start :: earlier := by
  cases r with
  | noMatch s =>
    cases h
    exact ⟨s.trace, rfl⟩
  | matched _ _ | halted _ => cases h

theorem matchLiteral_sound (expected : String) (hs : s.Sound P text) :
    (matchLiteral expected text s).Sound P text := by
  obtain ⟨rest, hrest⟩ := hs.between
  unfold matchLiteral State.advance?
  simp only [hrest]
  split
  · cases hdrop : Text.dropBytes? text (s.offset + Text.byteLength expected.toList) with
    | none => trivial
    | some u => exact ⟨⟨u, hdrop⟩, hs.trace⟩
  · exact hs.trace

end

/-! ### Parsers -/

/-- Wherever they are started, the labels of `p` record attempts with the property. -/
def Tells (P : Attempt → Prop) (text : List Char) (depth : Nat) :
    {ι : Type} → {τ : ι → Type} → {α : Type} → Parser τ α → Environment τ → Prop
  | _, _, _, .literal _, _ | _, _, _, .pure _, _ | _, _, _, .fail, _ => True
  | _, _, _, .leaf _, _ => False
  | _, _, _, .chain p step, env => Tells P text depth p env ∧ ∀ a, Tells P text depth (step a) env
  | _, _, _, .map p _, env => Tells P text depth p env
  | _, _, _, .or p q, env => Tells P text depth p env ∧ Tells P text depth q env
  | _, _, _, .label p name, env => Tells P text depth p env ∧
    ∀ s w, s.rest? text = some w → (exec text depth p env s).Records P name s.offset
  | _, _, _, .lazy make, env => Tells P text depth (make ()) env
  | _, τ, _, @Parser.handle _ .(τ) _, _ => True
  | _, _, _, .recursive body, env => Tells P text depth body (env.extend (exec text depth (.recursive body) env))
  | _, _, _, .weaken p, env => Tells P text depth p fun i => env (some i)

section
variable {env : Environment τ} {p : Parser τ α}

theorem Tells.any {ps : List (Parser τ α)} (h : ∀ p ∈ ps, Tells P text depth p env) :
    Tells P text depth (.any ps) env := any_induction trivial (fun _ _ => And.intro) h

theorem Tells.many (h : Tells P text depth p env) : Tells P text depth p.many env :=
  ⟨⟨h, fun _ => trivial⟩, trivial⟩

theorem Tells.many1 (h : Tells P text depth p env) : Tells P text depth p.many1 env := ⟨h, fun _ => h.many⟩

end

/-! ### Runs -/

/-- The labels record only attempts with the property, and so do the handles; then the whole trace has it. -/
theorem Tells.sound {p : Parser τ α} {env : Environment τ} (hp : Tells P text depth p env) {env' : Environment τ}
    (hunder : ∀ i s, (env' i s).Under (env i s)) (henv : ∀ i s, s.Sound P text → (env' i s).Sound P text)
    {s : State} (hs : s.Sound P text) : (exec text depth p env' s).Sound P text := by
  induction p generalizing s with
  | literal expected => exact matchLiteral_sound expected hs
  | pure value => exact hs
  | fail => exact hs.trace
  | leaf _ => exact hp.elim
  | chain p f ihp ihf =>
    refine (ihp hp.1 hunder henv hs).andThen fun a t ht => ?_
    exact (ihf a (hp.2 a) hunder henv ht).orElse fun u hu => hu
  | map p f ih => exact (ih hp hunder henv hs).andThen fun a t ht => ht
  | or p q ihp ihq =>
    exact (ihp hp.1 hunder henv hs).orElse fun t ht => ihq hp.2 hunder henv (hs.restore ht)
  | label p name ih =>
    obtain ⟨w, hw⟩ := hs.between
    have hsame : (exec text depth p env' s).Under (exec text depth p env s) :=
      exec_under p (Nat.le_refl depth) hunder s
    exact (ih hp.1 hunder henv hs).label (.of_under hsame (hp.2 s w hw))
  | lazy make ih => exact ih () hp hunder henv hs
  | handle i => exact henv i s hs
  | weaken p ih => exact ih hp (fun i => hunder (some i)) (fun i => henv (some i)) hs
  | recursive body ih =>
    have hrounds : ∀ k ≤ depth, ∀ {s : State}, s.Sound P text →
        (tie k (fun self => exec text depth body (env'.extend self)) s).Sound P text := by
      intro k hk
      induction k with
      | zero => exact fun _ => trivial
      | succ k ihk =>
        intro s hs
        have hself : ∀ s, (tie k (fun self => exec text depth body (env'.extend self)) s).Under
            (exec text depth (.recursive body) env s) :=
          rounds_under body (Nat.le_refl depth) hunder (Nat.le_of_succ_le hk)
        refine ih hp (Environment.under_extend hself hunder) (fun i t => ?_) hs
        cases i with
        | none => exact ihk (Nat.le_of_succ_le hk)
        | some i => exact henv i t
    exact hrounds depth (Nat.le_refl _) hs

theorem Tells.of_mem_trace {p : Parser τ α} {d : Definitions τ} {input : String}
    (hp : Tells P input.toList (d.depth input.toList) p (d.environment input.toList (d.depth input.toList)))
    (hd : ∀ i s, s.Sound P input.toList →
      (d.environment input.toList (d.depth input.toList) i s).Sound P input.toList)
    {attempt : Attempt} (h : attempt ∈ (p.runWith d input).trace) : P attempt := by
  have hstart : ({} : State).Sound P input.toList := ⟨⟨_, Text.dropBytes?_zero _⟩, by simp⟩
  have hsound : (p.reply d input.toList {}).Sound P input.toList :=
    hp.sound (fun i s => .refl _) hd hstart
  unfold runWith at h
  cases hreply : p.reply d input.toList {} with
  | matched a t =>
    rw [hreply] at hsound
    rw [hreply, trace_outcome_matched] at h
    exact hsound.trace attempt (List.mem_reverse.mp h)
  | noMatch t =>
    rw [hreply] at hsound
    rw [hreply, trace_outcome_noMatch] at h
    exact hsound attempt (List.mem_reverse.mp h)
  | halted fault =>
    rw [hreply] at h
    cases h

end Reckoner.Parser
