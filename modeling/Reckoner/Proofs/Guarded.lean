import Reckoner.Proofs.Observed

/-! Guarded recursion. A handle may be called only where the cursor has moved on since every parser that is
    still running was entered. Then recursion comes to an end by itself: each call is made further on in the
    text. A run is guarded when all its calls are made so and it is not cut off; the rules below say how runs
    are put together from guarded ones. What they know of a run is where it starts and where a match may
    leave the cursor. -/

namespace Reckoner.Parser
variable {ι : Type} {τ : ι → Type} {α β : Type}

/-- A handle is called past the places where the parsers that are running were entered, and a recursive parser
    is entered no further back. A parser comes back to itself through a handle only, so when both hold in a
    whole run, nothing is entered at a place where it is running already. -/
def Moment.Onward : Moment → Prop
  | .called offset active => ∀ x ∈ active, x < offset
  | .entered offset active => ∀ x ∈ active, x ≤ offset
  | .leafFailed _ _ => True

/-- The run is not cut off, a match leaves the cursor where `Q` allows it, and recursion leads onward. -/
structure Observed.Guarded (r : Observed α) (Q : Nat → Prop) : Prop where
  ends : r.reply ≠ .halted .tooDeep
  matched : ∀ a t, r.reply = .matched a t → Q t.offset
  onward : ∀ m ∈ r.moments, m.Onward

namespace Observed.Guarded
variable {r : Observed α} {Q Q' : Nat → Prop}

theorem mono (h : r.Guarded Q) (hQ : ∀ x, Q x → Q' x) : r.Guarded Q' :=
  ⟨h.ends, fun a t ht => hQ _ (h.matched a t ht), h.onward⟩

theorem andThen {next : α → State → Observed β} (h : r.Guarded Q)
    (hnext : ∀ a t, Q t.offset → (next a t).Guarded Q') : (r.andThen next).Guarded Q' where
  ends := by
    rw [andThen_reply]
    cases hr : r.reply with
    | matched a t => exact (hnext a t (h.matched a t hr)).ends
    | noMatch t => simp
    | halted f =>
      have := h.ends
      rw [hr] at this
      simpa using this
  matched b u hu := by
    rw [andThen_reply] at hu
    cases hr : r.reply with
    | matched a t => exact (hnext a t (h.matched a t hr)).matched b u (by simpa [hr] using hu)
    | noMatch t => simp [hr] at hu
    | halted f => simp [hr] at hu
  onward m hm := by
    rcases mem_andThen.mp hm with hm | ⟨a, t, hr, hm⟩
    · exact h.onward m hm
    · exact (hnext a t (h.matched a t hr)).onward m hm

theorem orElse {next : State → Observed α} (h : r.Guarded Q) (hnext : ∀ t, (next t).Guarded Q) :
    (r.orElse next).Guarded Q where
  ends := by
    rw [orElse_reply]
    cases hr : r.reply with
    | matched a t => simp
    | noMatch t => exact (hnext t).ends
    | halted f =>
      have := h.ends
      rw [hr] at this
      simpa using this
  matched b u hu := by
    rw [orElse_reply] at hu
    cases hr : r.reply with
    | matched a t =>
      rw [hr, Reply.orElse_matched] at hu
      exact h.matched b u (hr.trans hu)
    | noMatch t => exact (hnext t).matched b u (by simpa [hr] using hu)
    | halted f => simp [hr] at hu
  onward m hm := by
    rcases mem_orElse.mp hm with hm | ⟨t, -, hm⟩
    · exact h.onward m hm
    · exact (hnext t).onward m hm

theorem on {f : Reply α → Reply β} (h : r.Guarded Q)
    (hcut : ∀ r, f r = .halted .tooDeep → r = .halted .tooDeep)
    (hmatch : ∀ r b t, f r = .matched b t → ∃ a u, r = .matched a u ∧ t.offset = u.offset) :
    (r.on f).Guarded Q where
  ends hr := h.ends (hcut _ hr)
  matched b t ht := by
    obtain ⟨a, u, hr, hoff⟩ := hmatch _ b t ht
    exact hoff ▸ h.matched a u hr
  onward := h.onward

theorem restore (h : r.Guarded Q) (offset : Nat) : (r.on (·.restore offset)).Guarded Q := by
  refine h.on (fun r hr => ?_) fun r b t ht => ?_
  · cases r <;> simp_all
  · cases r with
    | matched a u => exact ⟨a, u, rfl, by cases ht; rfl⟩
    | noMatch _ | halted _ => cases ht

theorem map (h : r.Guarded Q) (f : α → β) : (r.on (·.map f)).Guarded Q := by
  refine h.on (fun r hr => ?_) fun r b t ht => ?_
  · cases r <;> simp_all
  · cases r with
    | matched a u => exact ⟨a, u, rfl, by cases ht; rfl⟩
    | noMatch _ | halted _ => cases ht

theorem label (h : r.Guarded Q) (name : String) (start : Nat) :
    (r.on (·.label name start)).Guarded Q := by
  refine h.on (fun r hr => ?_) fun r b t ht => ?_
  · cases r <;> simp_all [Reply.label]
  · cases r with
    | matched a u => exact ⟨a, u, rfl, by cases ht; rfl⟩
    | noMatch _ | halted _ => cases ht

theorem after {m : Moment} (h : r.Guarded Q) (hm : m.Onward) : (r.after m).Guarded Q where
  ends := h.ends
  matched := h.matched
  onward m' hm' := by
    rcases mem_after.mp hm' with rfl | hm'
    · exact hm
    · exact h.onward m' hm'

end Observed.Guarded

open Observed

/-! ### Parsers

`x` is where the parser starts, and `active` are the places where the parsers that are running were
entered. -/

/-- The runs of `p` from `x` are guarded and leave the cursor where `Q` allows it. -/
def Guarded (text : List Char) (depth : Nat) (env : ObservedEnvironment τ) (p : Parser τ α)
    (active : List Nat) (x : Nat) (Q : Nat → Prop) : Prop :=
  ∀ s : State, s.offset = x → (observe text depth p env active s).Guarded Q

namespace Guarded
variable {text : List Char} {depth : Nat} {env : ObservedEnvironment τ} {p q : Parser τ α}
  {active : List Nat} {x : Nat} {Q Q' : Nat → Prop}

theorem mono (h : Guarded text depth env p active x Q) (hQ : ∀ y, Q y → Q' y) :
    Guarded text depth env p active x Q' := fun s hs => (h s hs).mono hQ

/-- A literal that is not empty takes the cursor further. -/
theorem literal {expected : String} (hne : expected ≠ "") :
    Guarded text depth env (.literal expected) active x fun y => x < y ∧ x < Text.byteLength text := by
  intro s hs
  have hpos : 0 < Text.byteLength expected.toList := by
    have hlist : expected.toList ≠ [] := by simpa using hne
    have := Text.length_le_byteLength expected.toList
    have := List.length_pos_iff.mpr hlist
    omega
  refine ⟨?_, fun a t ht => ?_, fun m hm => by simp [observe] at hm⟩
  · show matchLiteral expected text s ≠ _
    unfold matchLiteral
    split
    · simp
    · split
      · split <;> simp
      · simp
  · replace ht : matchLiteral expected text s = .matched a t := ht
    unfold matchLiteral at ht
    split at ht
    · cases ht
    · split at ht
      · split at ht
        · cases ht
        · next hadv =>
          cases ht
          obtain ⟨w, hw, rfl⟩ := Option.map_eq_some_iff.mp hadv
          obtain ⟨u, htext, hu⟩ := Text.eq_append_of_dropBytes? hw
          have : Text.byteLength text = Text.byteLength u + Text.byteLength w := by
            rw [htext, Text.byteLength_append]
          simp only
          omega
      · cases ht

theorem pure (value : α) : Guarded text depth env (.pure value) active x (x = ·) := fun s hs =>
  ⟨by simp [observe], fun a t ht => (by cases ht; exact hs.symm), fun m hm => by simp [observe] at hm⟩

theorem fail : Guarded text depth env (.fail : Parser τ α) active x Q := fun _ _ =>
  ⟨by simp [observe], fun _ _ ht => (by cases ht), fun _ hm => by simp [observe] at hm⟩

theorem leaf {action : List Char → State → Reply α} (hends : ∀ s, action text s ≠ .halted .tooDeep)
    (hadv : ∀ s a t, action text s = .matched a t → s.offset ≤ t.offset) :
    Guarded text depth env (.leaf action) active x (x ≤ ·) := fun s hs =>
  ⟨hends s, fun a t ht => hs ▸ hadv s a t ht, fun m hm => by
    obtain ⟨t, -, rfl⟩ := mem_leaf.mp hm
    exact trivial⟩

theorem chain {f : α → Parser τ β} (hp : Guarded text depth env p active x Q)
    (hf : ∀ a y, Q y → Guarded text depth env (f a) active y Q') :
    Guarded text depth env (.chain p f) active x Q' := fun s hs =>
  (hp s hs).andThen fun a t ht => (hf a t.offset ht t rfl).restore _

theorem map (hp : Guarded text depth env p active x Q) (f : α → β) :
    Guarded text depth env (.map p f) active x Q := fun s hs => (hp s hs).map f

theorem or (hp : Guarded text depth env p active x Q) (hq : Guarded text depth env q active x Q) :
    Guarded text depth env (.or p q) active x Q := fun s hs => (hp s hs).orElse fun _ => hq _ hs

theorem label (hp : Guarded text depth env p active x Q) (name : String) :
    Guarded text depth env (.label p name) active x Q := fun s hs => (hp s hs).label name _

theorem seq {q : Parser τ β} (hp : Guarded text depth env p active x Q)
    (hq : ∀ y, Q y → Guarded text depth env q active y Q') :
    Guarded text depth env (p.seq q) active x Q' := hp.chain fun _ y hy => (hq y hy).map _

theorem keepLeft {q : Parser τ β} (hp : Guarded text depth env p active x Q)
    (hq : ∀ y, Q y → Guarded text depth env q active y Q') :
    Guarded text depth env (p.keepLeft q) active x Q' := hp.chain fun _ y hy => (hq y hy).map _

theorem keepRight {q : Parser τ β} (hp : Guarded text depth env p active x Q)
    (hq : ∀ y, Q y → Guarded text depth env q active y Q') :
    Guarded text depth env (p.keepRight q) active x Q' := hp.chain fun _ => hq

theorem cons {q : Parser τ (List α)} (hp : Guarded text depth env p active x Q)
    (hq : ∀ y, Q y → Guarded text depth env q active y Q') :
    Guarded text depth env (p.cons q) active x Q' := (hp.seq hq).map _

theorem any {ps : List (Parser τ α)} (h : ∀ p ∈ ps, Guarded text depth env p active x Q) :
    Guarded text depth env (.any ps) active x Q := any_induction fail (fun _ _ => .or) h

end Guarded

end Reckoner.Parser
