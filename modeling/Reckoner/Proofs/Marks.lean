import Mathlib.Algebra.Group.WithOne.Basic
import Reckoner.Proofs.Reading

/-! What a run adds to what is expected. It does not depend on what was expected before: a run leaves a mark,
    which is combined with the mark of what was done before it, and the marks of parts of a run combine to the
    mark of the whole in any grouping. `Runs` says of a reading also which mark it leaves. -/

namespace Reckoner.Parser

variable {ι : Type} {τ : ι → Type} {α β : Type} {text : List Char} {depth : Nat} {env : Environment τ}

/-! ### Marks -/

/-- What was expected where so many bytes of the text were left. A mark that replaces takes the place of what was
    expected there before; one that does not is added to it. -/
structure Mark where
  left : Nat
  expected : List String
  replaces : Bool
  deriving DecidableEq, Repr

namespace Mark

/-- The alternatives of both lists; those that are in the first are not repeated. -/
def merge (l k : List String) : List String := l ++ k.filter (· ∉ l)

theorem merge_assoc (l k j : List String) : merge (merge l k) j = merge l (merge k j) := by
  have hfilter : j.filter (· ∉ merge l k) = (j.filter (· ∉ k)).filter (· ∉ l) := by
    rw [List.filter_filter]
    refine List.filter_congr fun x _ => ?_
    by_cases hl : x ∈ l <;> by_cases hk : x ∈ k <;> simp [merge, hl, hk]
  show (l ++ k.filter _) ++ j.filter _ = l ++ (k ++ j.filter _).filter _
  rw [hfilter, List.filter_append, List.append_assoc]

theorem merge_of_disjoint {l k : List String} (h : ∀ x ∈ k, x ∉ l) : merge l k = l ++ k := by
  rw [merge, List.filter_eq_self.mpr fun x hx => decide_eq_true (h x hx)]

theorem merge_of_subset {l k : List String} (h : ∀ x ∈ k, x ∈ l) : merge l k = l := by
  have hnil : k.filter (· ∉ l) = [] := List.filter_eq_nil_iff.mpr fun x hx => by simpa using h x hx
  rw [merge, hnil, List.append_nil]

theorem mem_merge {l k : List String} {x : String} : x ∈ merge l k ↔ x ∈ l ∨ x ∈ k := by
  by_cases hx : x ∈ l <;> simp [merge, hx]

/-- The second mark after the first one: what is behind is dropped. -/
instance : Mul Mark where
  mul m n :=
    if m.left < n.left then m
    else if n.left = m.left ∧ n.replaces = false then ⟨m.left, merge m.expected n.expected, m.replaces⟩
    else n

theorem mul_def (m n : Mark) : m * n =
    if m.left < n.left then m
    else if n.left = m.left ∧ n.replaces = false then ⟨m.left, merge m.expected n.expected, m.replaces⟩
    else n := rfl

section
variable {m n : Mark}

theorem mul_of_lt (h : m.left < n.left) : m * n = m := by rw [mul_def, if_pos h]

theorem mul_of_gt (h : n.left < m.left) : m * n = n := by
  rw [mul_def, if_neg (by omega), if_neg fun hn => absurd hn.1 (by omega)]

theorem mul_of_replaces (h : n.left ≤ m.left) (hn : n.replaces = true) : m * n = n := by
  rw [mul_def, if_neg (by omega), if_neg fun hadded => by simp [hn] at hadded]

theorem mul_of_eq (h : n.left = m.left) (hn : n.replaces = false) :
    m * n = ⟨m.left, merge m.expected n.expected, m.replaces⟩ := by
  rw [mul_def, if_neg (by omega), if_pos ⟨h, hn⟩]

theorem left_mul (m n : Mark) : (m * n).left = min m.left n.left := by
  rw [mul_def]
  split_ifs with hlt heq
  · exact (Nat.min_eq_left (Nat.le_of_lt hlt)).symm
  · exact (Nat.min_eq_left (Nat.le_of_eq heq.1.symm)).symm
  · exact (Nat.min_eq_right (Nat.le_of_not_lt hlt)).symm

end

instance : Semigroup Mark where
  mul_assoc m n k := by
    rcases Nat.lt_trichotomy n.left k.left with hnk | hnk | hnk
    · -- `k` is behind `n`, and so it is behind the two together.
      rw [mul_of_lt hnk, mul_of_lt (by rw [left_mul]; omega)]
    · cases hk : k.replaces with
      | true =>
        rw [mul_of_replaces (m := n) (Nat.le_of_eq hnk.symm) hk]
        rcases Nat.lt_or_ge m.left n.left with hmn | hmn
        · rw [mul_of_lt hmn, mul_of_lt (by omega)]
        · rw [mul_of_replaces (by rw [left_mul]; omega) hk, mul_of_replaces (by omega) hk]
      | false =>
        rw [mul_of_eq (m := n) hnk.symm hk]
        rcases Nat.lt_trichotomy m.left n.left with hmn | hmn | hmn
        · rw [mul_of_lt hmn, mul_of_lt (by omega), mul_of_lt (by simpa using hmn)]
        · cases hn : n.replaces with
          | true =>
            rw [mul_of_replaces (Nat.le_of_eq hmn.symm) hn, mul_of_eq hnk.symm hk,
              mul_of_replaces (n := ⟨n.left, merge n.expected k.expected, true⟩) (Nat.le_of_eq hmn.symm) rfl, hn]
          | false =>
            rw [mul_of_eq hmn.symm hn, mul_of_eq (by simpa using hnk.symm.trans hmn.symm) hk,
              mul_of_eq (by simpa using hmn.symm) rfl, merge_assoc]
        · rw [mul_of_gt hmn, mul_of_eq hnk.symm hk, mul_of_gt (by simpa using hmn)]
    · rw [mul_of_gt (m := n) hnk]
      rcases Nat.lt_or_ge k.left m.left with hmk | hmk
      · rw [mul_of_gt (n := k) (by rw [left_mul]; omega), mul_of_gt hmk]
      · rw [mul_of_lt (m := m) (n := n) (by omega)]

/-- The alternatives are added to those where `w` is left. -/
def noted (w : List Char) (alternatives : List String) : Mark := ⟨Text.byteLength w, alternatives, false⟩

/-- A rule fails where `w` is left. -/
def named (w : List Char) (name : String) : Mark := ⟨Text.byteLength w, [name], true⟩

section
variable (w : List Char) (alternatives : List String) (name : String)

@[simp] theorem left_noted : (noted w alternatives).left = Text.byteLength w := rfl

@[simp] theorem left_named : (named w name).left = Text.byteLength w := rfl

end

theorem noted_mul_noted (w : List Char) (l k : List String) : noted w l * noted w k = noted w (merge l k) :=
  mul_of_eq rfl rfl

/-- The mark is nowhere beyond the place where `w` is left. -/
def Behind (w : List Char) (f : WithOne Mark) : Prop := ∀ m : Mark, f = m → Text.byteLength w ≤ m.left

section
variable {w : List Char} {f g : WithOne Mark} {m : Mark}

theorem behind_one : Behind w 1 := fun _ h => absurd h.symm WithOne.coe_ne_one

theorem behind_coe : Behind w m ↔ Text.byteLength w ≤ m.left :=
  ⟨fun h => h m rfl, fun h _ hm => WithOne.coe_inj.mp hm ▸ h⟩

theorem behind_noted {l : List String} : Behind w (noted w l) := behind_coe.mpr (Nat.le_refl _)

theorem behind_named {name : String} : Behind w (named w name) := behind_coe.mpr (Nat.le_refl _)

theorem Behind.mul (hf : Behind w f) (hg : Behind w g) : Behind w (f * g) := by
  cases f with
  | one => rwa [one_mul]
  | coe m =>
    cases g with
    | one => rwa [mul_one]
    | coe n =>
      rw [← WithOne.coe_mul]
      rw [behind_coe] at hf hg ⊢
      rw [left_mul]
      exact le_min hf hg

theorem Behind.mono {u : List Char} (hf : Behind w f) (hu : Text.byteLength u ≤ Text.byteLength w) : Behind u f :=
  fun m hm => hu.trans (hf m hm)

/-- A mark that replaces where `w` is left takes the place of everything behind. -/
theorem Behind.mul_of_replaces (hf : Behind w f) (hleft : m.left ≤ Text.byteLength w) (hm : m.replaces = true) :
    f * m = m := by
  cases f with
  | one => rw [one_mul]
  | coe n => rw [← WithOne.coe_mul, Mark.mul_of_replaces (hleft.trans (behind_coe.mp hf)) hm]

theorem Behind.mul_of_lt (hf : Behind w f) (hleft : m.left < Text.byteLength w) : f * m = m := by
  cases f with
  | one => rw [one_mul]
  | coe n => rw [← WithOne.coe_mul, Mark.mul_of_gt (hleft.trans_le (behind_coe.mp hf))]

theorem Behind.mul_of_gt (hf : Behind w f) (hleft : m.left < Text.byteLength w) : (m : WithOne Mark) * f = m := by
  cases f with
  | one => rw [mul_one]
  | coe n => rw [← WithOne.coe_mul, Mark.mul_of_lt (hleft.trans_le (behind_coe.mp hf))]

end
end Mark

/-! ### Marks of states -/

/-- The mark stands for what was expected furthest in the state. -/
inductive State.Carries (text : List Char) (s : State) : WithOne Mark → Prop where
  | nothing : s.furthest = none → Carries text s 1
  | mark {e : Expectation} {m : Mark} : s.furthest = some e → e.offset + m.left = Text.byteLength text →
    e.expected = m.expected → Carries text s m

def Reply.Carries (text : List Char) (f : WithOne Mark) : Reply α → Prop
  | .matched _ s | .noMatch s => s.Carries text f
  | .halted _ => True

section
variable {s t : State} {f : WithOne Mark} {w : List Char}

theorem State.Carries.congr (h : s.Carries text f) (hfurthest : t.furthest = s.furthest) : t.Carries text f := by
  cases h with
  | nothing hs => exact .nothing (hfurthest.trans hs)
  | mark hs hoffset hexpected => exact .mark (hfurthest.trans hs) hoffset hexpected

theorem State.Carries.expect (h : s.Carries text f) (hrest : s.rest? text = some w) (what : String) :
    (s.expect what).Carries text (f * Mark.noted w [what]) := by
  have hoffset := offset_add_byteLength hrest
  cases h with
  | nothing hs =>
    rw [one_mul]
    refine .mark (e := ⟨s.offset, [what]⟩) ?_ hoffset rfl
    rw [State.expect, hs, Furthest.note_none]
  | @mark e m hs he hexpected =>
    rw [← WithOne.coe_mul]
    -- The cursor is behind the furthest place, at it, or beyond it.
    rcases Nat.lt_trichotomy s.offset e.offset with hlt | heq | hgt
    · rw [Mark.mul_of_lt (by rw [Mark.left_noted]; omega)]
      refine .mark ?_ he hexpected
      rw [State.expect, hs, Furthest.note_of_lt hlt]
    · rw [Mark.mul_of_eq (by rw [Mark.left_noted]; omega) rfl]
      by_cases hmem : what ∈ e.expected
      · refine .mark (e := e) ?_ he ?_
        · rw [State.expect, hs, heq, Furthest.note_of_mem hmem]
        · rw [hexpected] at hmem ⊢
          exact (Mark.merge_of_subset (by simpa [Mark.noted] using hmem)).symm
      · refine .mark (e := ⟨e.offset, e.expected ++ [what]⟩) ?_ he ?_
        · rw [State.expect, hs, heq, Furthest.note_of_notMem hmem]
        · rw [hexpected] at hmem ⊢
          exact (Mark.merge_of_disjoint (by simpa [Mark.noted] using hmem)).symm
    · rw [Mark.mul_of_gt (by rw [Mark.left_noted]; omega)]
      refine .mark (e := ⟨s.offset, [what]⟩) ?_ hoffset rfl
      rw [State.expect, hs, Furthest.note_of_gt hgt]

theorem State.Carries.relabel (h : t.Carries text f) (hrest : s.rest? text = some w) (name : String) :
    (t.relabel s.offset name).Carries text (f * Mark.named w name) := by
  have hoffset := offset_add_byteLength hrest
  cases h with
  | nothing ht =>
    rw [one_mul]
    refine .mark (e := ⟨s.offset, [name]⟩) ?_ hoffset rfl
    rw [State.relabel, ht, Furthest.relabel_none]
  | @mark e m ht he hexpected =>
    rw [← WithOne.coe_mul]
    rcases Nat.lt_or_ge s.offset e.offset with hlt | hge
    · rw [Mark.mul_of_lt (by rw [Mark.left_named]; omega)]
      refine .mark ?_ he hexpected
      rw [State.relabel, ht, Furthest.relabel_of_lt hlt]
    · rw [Mark.mul_of_replaces (by rw [Mark.left_named]; omega) rfl]
      refine .mark (e := ⟨s.offset, [name]⟩) ?_ hoffset rfl
      rw [State.relabel, ht, Furthest.relabel_of_le hge]

theorem Reply.Carries.restore {r : Reply α} (h : r.Carries text f) (offset : Nat) :
    (r.restore offset).Carries text f := by
  cases r with
  | matched _ _ | halted _ => exact h
  | noMatch t => exact State.Carries.congr h rfl

theorem Reply.Carries.map {r : Reply α} (h : r.Carries text f) (g : α → β) : (r.map g).Carries text f := by
  cases r <;> exact h

end

/-! ### Runs and their marks -/

/-- Wherever `w` is left of the text, `p` reads it as `r` says, and leaves the mark `f`. -/
structure Runs (text : List Char) (depth : Nat) (env : Environment τ) (p : Parser τ α) (w : List Char)
    (r : Option (α × List Char)) (f : WithOne Mark) : Prop where
  reads : Reads text depth env p w r
  leaves : ∀ s g, s.rest? text = some w → s.Carries text g → (exec text depth p env s).Carries text (g * f)

namespace Runs
variable {p q : Parser τ α} {w w' u : List Char} {a : α} {r : Option (α × List Char)} {f g h : WithOne Mark}
  {s : State}

theorem matched (hp : Runs text depth env p w (some (a, u)) f) (hs : s.rest? text = some w)
    (hg : s.Carries text g) :
    ∃ t, exec text depth p env s = .matched a t ∧ t.rest? text = some u ∧ t.Carries text (g * f) := by
  obtain ⟨t, ht, hrest⟩ := hp.reads s hs
  have hleaves := hp.leaves s g hs hg
  rw [ht] at hleaves
  exact ⟨t, ht, hrest, hleaves⟩

theorem noMatch (hp : Runs text depth env p w none f) (hs : s.rest? text = some w) (hg : s.Carries text g) :
    ∃ t, exec text depth p env s = .noMatch t ∧ t.Carries text (g * f) := by
  obtain ⟨t, ht⟩ := hp.reads s hs
  have hleaves := hp.leaves s g hs hg
  rw [ht] at hleaves
  exact ⟨t, ht, hleaves⟩

section
variable {expected : String} {c : Char} (hc : expected.toList = [c])
include hc

theorem char : Runs text depth env (.literal expected) (c :: u) (some (expected, u)) 1 where
  reads := Reads.char hc
  leaves s g hs hg := by
    have hrest : s.rest? text = some (expected.toList ++ u) := by rw [hs, hc, List.singleton_append]
    have hstart : expected.toList.isPrefixOf (expected.toList ++ u) = true :=
      List.isPrefixOf_iff_prefix.mpr (List.prefix_append _ _)
    obtain ⟨t, ht, -⟩ := rest?_advance hrest
    have hfurthest : t.furthest = s.furthest := by
      obtain ⟨v, -, rfl⟩ := Option.map_eq_some_iff.mp ht
      rfl
    have hexec : matchLiteral expected text s = .matched expected t := by
      simp only [matchLiteral, hrest, hstart, ht, if_true]
    rw [exec_literal, hexec, mul_one]
    exact hg.congr hfurthest

theorem char_none (hw : w.head? ≠ some c) :
    Runs text depth env (.literal expected) w none (Mark.noted w [s!"'{expected}'"]) where
  reads := Reads.char_none hc hw
  leaves s g hs hg := by
    have hstart : expected.toList.isPrefixOf w = false := by
      rw [← Bool.not_eq_true, List.isPrefixOf_iff_prefix, hc]
      rintro ⟨u, rfl⟩
      exact hw rfl
    have hexec : matchLiteral expected text s = .noMatch (s.expect s!"'{expected}'") := by
      simp only [matchLiteral, hs, hstart, Bool.false_eq_true, if_false]
    rw [exec_literal, hexec]
    exact hg.expect hs _

end

theorem pure (value : α) : Runs text depth env (.pure value) w (some (value, w)) 1 :=
  ⟨Reads.pure value, fun s g _ hg => by rwa [mul_one]⟩

theorem fail : Runs text depth env (.fail : Parser τ α) w none 1 :=
  ⟨Reads.fail, fun s g _ hg => by rwa [mul_one]⟩

theorem chain {step : α → Parser τ β} {r : Option (β × List Char)} (hp : Runs text depth env p w (some (a, w')) f)
    (hstep : Runs text depth env (step a) w' r g) : Runs text depth env (.chain p step) w r (f * g) where
  reads := hp.reads.chain hstep.reads
  leaves s h hs hh := by
    obtain ⟨t, ht, hrest, hcarries⟩ := hp.matched hs hh
    rw [exec_chain, ht, Reply.andThen_matched, ← mul_assoc]
    exact (hstep.leaves t _ hrest hcarries).restore _

theorem chain_none {step : α → Parser τ β} (hp : Runs text depth env p w none f) :
    Runs text depth env (.chain p step) w none f where
  reads := hp.reads.chain_none
  leaves s h hs hh := by
    obtain ⟨t, ht, hcarries⟩ := hp.noMatch hs hh
    rw [exec_chain, ht, Reply.andThen_noMatch]
    exact hcarries

theorem map (hp : Runs text depth env p w r f) (k : α → β) :
    Runs text depth env (.map p k) w (r.map fun a => (k a.1, a.2)) f :=
  ⟨hp.reads.map k, fun s g hs hg => (hp.leaves s g hs hg).map k⟩

theorem map_some {k : α → β} {b : β} (hp : Runs text depth env p w (some (a, u)) f) (hb : k a = b) :
    Runs text depth env (.map p k) w (some (b, u)) f := hb ▸ hp.map k

theorem or_left (hp : Runs text depth env p w (some (a, u)) f) :
    Runs text depth env (.or p q) w (some (a, u)) f where
  reads := hp.reads.or_left
  leaves s h hs hh := by
    obtain ⟨t, ht, -, hcarries⟩ := hp.matched hs hh
    rw [exec_or, ht, Reply.orElse_matched]
    exact hcarries

theorem or_right (hp : Runs text depth env p w none f) (hq : Runs text depth env q w r g) :
    Runs text depth env (.or p q) w r (f * g) where
  reads := hp.reads.or_right hq.reads
  leaves s h hs hh := by
    obtain ⟨t, ht, hcarries⟩ := hp.noMatch hs hh
    rw [exec_or, ht, Reply.orElse_noMatch, ← mul_assoc]
    exact hq.leaves _ _ (rest?_restore hs t) (hcarries.congr rfl)

theorem label_some (name : String) (hp : Runs text depth env p w (some (a, u)) f) :
    Runs text depth env (.label p name) w (some (a, u)) f where
  reads := hp.reads.label name
  leaves s h hs hh := by
    obtain ⟨t, ht, -, hcarries⟩ := hp.matched hs hh
    rw [exec_label, ht]
    exact hcarries.congr rfl

theorem label_none (name : String) (hp : Runs text depth env p w none f) :
    Runs text depth env (.label p name) w none (f * Mark.named w name) where
  reads := hp.reads.label name
  leaves s h hs hh := by
    obtain ⟨t, ht, hcarries⟩ := hp.noMatch hs hh
    rw [exec_label, ht, ← mul_assoc]
    exact (hcarries.congr rfl : (t.record (.failed name s.offset)).Carries text (h * f)).relabel hs name

theorem congr {κ : Type} {σ : κ → Type} {env' : Environment σ} {q : Parser σ α} (hp : Runs text depth env p w r f)
    (hexec : ∀ s, exec text depth q env' s = exec text depth p env s) : Runs text depth env' q w r f :=
  ⟨hp.reads.congr hexec, fun s g hs hg => hexec s ▸ hp.leaves s g hs hg⟩

theorem weaken {self : State → Reply β} (hp : Runs text depth env p w r f) :
    Runs text depth (env.extend self) p.weaken w r f := ⟨hp.reads.weaken, hp.leaves⟩

/-- In the body of a recursive parser its handle runs as the whole parser does. -/
theorem self (hp : Runs text depth env p w r f) :
    Runs text depth (env.extend (exec text depth p env)) .self w r f := ⟨hp.reads.self, hp.leaves⟩

theorem recursive {body : Parser (Extended α τ) α}
    (hends : ∀ s, exec text depth (.recursive body) env s ≠ .halted .tooDeep)
    (h : Runs text depth (env.extend (exec text depth (.recursive body) env)) body w r f) :
    Runs text depth env (.recursive body) w r f := h.congr fun s => exec_recursive_eq (hends s)

theorem seq {q : Parser τ β} {b : β} (hp : Runs text depth env p w (some (a, w')) f)
    (hq : Runs text depth env q w' (some (b, u)) g) :
    Runs text depth env (p.seq q) w (some ((a, b), u)) (f * g) := hp.chain (hq.map _)

theorem keepLeft {q : Parser τ β} {b : β} (hp : Runs text depth env p w (some (a, w')) f)
    (hq : Runs text depth env q w' (some (b, u)) g) :
    Runs text depth env (p.keepLeft q) w (some (a, u)) (f * g) := hp.chain (hq.map _)

theorem keepLeft_none {q : Parser τ β} (hp : Runs text depth env p w (some (a, w')) f)
    (hq : Runs text depth env q w' none g) : Runs text depth env (p.keepLeft q) w none (f * g) := hp.chain (hq.map _)

theorem keepRight {q : Parser τ β} {r : Option (β × List Char)} (hp : Runs text depth env p w (some (a, w')) f)
    (hq : Runs text depth env q w' r g) : Runs text depth env (p.keepRight q) w r (f * g) := hp.chain hq

theorem cons {q : Parser τ (List α)} {as : List α} (hp : Runs text depth env p w (some (a, w')) f)
    (hq : Runs text depth env q w' (some (as, u)) g) :
    Runs text depth env (p.cons q) w (some (a :: as, u)) (f * g) := (hp.seq hq).map _

theorem any_append {ps : List (Parser τ α)} (h : Runs text depth env (.or (.any ps) q) w r f) :
    Runs text depth env (.any (ps ++ [q])) w r f := h.congr fun s => exec_any_concat text depth env s ps q

theorem or_behind {r' : Option (α × List Char)} (hp : Runs text depth env p w r f) (hf : Mark.Behind w f)
    (hq : Runs text depth env q w r' g) (hg : Mark.Behind w g) :
    ∃ r f, Runs text depth env (.or p q) w r f ∧ Mark.Behind w f := by
  rcases r with _ | ⟨a, u⟩
  · exact ⟨_, _, hp.or_right hq, hf.mul hg⟩
  · exact ⟨_, _, hp.or_left, hf⟩

/-- Alternatives that leave nothing beyond their start leave nothing there together. -/
theorem any_behind {ps : List (Parser τ α)} (hreads : Reads text depth env (.any ps) w r)
    (h : ∀ p ∈ ps, ∃ r f, Runs text depth env p w r f ∧ Mark.Behind w f) :
    ∃ f, Runs text depth env (.any ps) w r f ∧ Mark.Behind w f := by
  suffices hany : ∃ r f, Runs text depth env (.any ps) w r f ∧ Mark.Behind w f by
    obtain ⟨_, f, hf, hbehind⟩ := hany
    exact ⟨f, ⟨hreads, hf.leaves⟩, hbehind⟩
  refine any_induction ⟨none, 1, fail, Mark.behind_one⟩ ?_ h
  rintro p q ⟨r, f, hf, hbehind⟩ ⟨r', g, hg, hbehind'⟩
  exact hf.or_behind hbehind hg hbehind'

/-! ### Repetitions -/

theorem many_nil (hends : ∀ s, exec text depth p.many env s ≠ .halted .tooDeep)
    (hp : Runs text depth env p w none f) : Runs text depth env p.many w (some ([], w)) f := by
  have hmore : Runs text depth (env.extend (exec text depth p.many env)) (p.weaken.cons .self) w none f :=
    hp.weaken.chain_none.map _
  rw [← mul_one f]
  exact recursive hends (hmore.or_right (pure []))

theorem many_cons {as : List α} (hends : ∀ s, exec text depth p.many env s ≠ .halted .tooDeep)
    (hp : Runs text depth env p w (some (a, w')) f) (hmany : Runs text depth env p.many w' (some (as, u)) g) :
    Runs text depth env p.many w (some (a :: as, u)) (f * g) :=
  recursive hends (or_left (hp.weaken.cons hmany.self))

end Runs

/-! ### Whole runs -/

/-- What a run expected furthest is what its mark says. -/
theorem runWith_furthest {d : Definitions τ} {p : Parser τ α} {input : String} {r : Option (α × List Char)} {m : Mark}
    (h : Runs input.toList (d.depth input.toList) (d.environment input.toList (d.depth input.toList)) p input.toList
      r m) : ∃ offset, (p.runWith d input).furthest = some ⟨offset, m.expected⟩ ∧
        offset + m.left = Text.byteLength input.toList := by
  have hstart : (({} : State)).rest? input.toList = some input.toList := Text.dropBytes?_zero _
  have hcarries : (({} : State)).Carries input.toList 1 := .nothing rfl
  have hend : ∀ t : State, t.Carries input.toList (1 * m) → ∃ offset, t.furthest = some ⟨offset, m.expected⟩ ∧
      offset + m.left = Text.byteLength input.toList := by
    intro t ht
    rw [one_mul] at ht
    generalize hm : (m : WithOne Mark) = f at ht
    cases ht with
    | nothing => exact absurd hm WithOne.coe_ne_one
    | @mark e m' hfurthest hoffset hexpected =>
      obtain rfl := WithOne.coe_inj.mp hm
      exact ⟨e.offset, by rw [hfurthest, ← hexpected], hoffset⟩
  unfold runWith reply
  rcases r with _ | ⟨a, u⟩
  · obtain ⟨t, ht, hmark⟩ := h.noMatch hstart hcarries
    rw [ht]
    exact hend t hmark
  · obtain ⟨t, ht, hrest, hmark⟩ := h.matched hstart hcarries
    rw [ht]
    simp only [Reply.outcome, hrest]
    exact hend t hmark

end Reckoner.Parser
