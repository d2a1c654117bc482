import Mathlib
import Reckoner.Proofs.Bound

/-! What a parser reads. Most parsers look only at what is left of the text, and it makes no difference to
    their answer where in the text that is and what was expected or traced before. `Reads` speaks of such
    answers as a function of the word that is left. The first half of this file says how readings are put
    together; the second half says what languages parsers recognize when they read every word they may come
    to in some way. -/

namespace Reckoner.Parser
open scoped Computability

variable {ι : Type} {τ : ι → Type} {α β : Type} {text : List Char} {depth : Nat} {env : Environment τ}

/-- Wherever `w` is left of the text, `p` yields the value and leaves the word that are given, or fails when
    none are. -/
def Reads (text : List Char) (depth : Nat) (env : Environment τ) (p : Parser τ α) (w : List Char) :
    Option (α × List Char) → Prop
  | some (value, u) => ∀ s, s.rest? text = some w →
      ∃ t, exec text depth p env s = .matched value t ∧ t.rest? text = some u
  | none => ∀ s, s.rest? text = some w → ∃ t, exec text depth p env s = .noMatch t

/-! ### Words of the text -/

section
variable {s : State} {w u : List Char}

theorem rest?_restore (h : s.rest? text = some w) (t : State) : (t.restore s.offset).rest? text = some w := h

theorem offset_add_byteLength (h : s.rest? text = some w) : s.offset + Text.byteLength w = Text.byteLength text := by
  obtain ⟨x, rfl, hoffset⟩ := Text.eq_append_of_dropBytes? h
  rw [Text.byteLength_append, hoffset]

theorem rest?_advance (h : s.rest? text = some (u ++ w)) :
    ∃ t, s.advance? text (Text.byteLength u) = some t ∧ t.rest? text = some w := by
  obtain ⟨x, hx, hoffset⟩ := Text.eq_append_of_dropBytes? h
  have hdrop : Text.dropBytes? text (s.offset + Text.byteLength u) = some w := by
    rw [Text.dropBytes?_eq_some_iff]
    exact ⟨x ++ u, by rw [hx, List.append_assoc], by rw [Text.byteLength_append, hoffset]⟩
  refine ⟨{ s with offset := s.offset + Text.byteLength u }, ?_, hdrop⟩
  unfold State.advance?
  rw [hdrop, Option.map_some]

end

namespace Reads
variable {p q : Parser τ α} {w w' u : List Char} {a : α} {r : Option (α × List Char)}

theorem literal_match {expected : String} :
    Reads text depth env (.literal expected) (expected.toList ++ u) (some (expected, u)) := by
  intro s hs
  obtain ⟨t, ht, hrest⟩ := rest?_advance hs
  have hstart : expected.toList.isPrefixOf (expected.toList ++ u) = true :=
    List.isPrefixOf_iff_prefix.mpr (List.prefix_append _ _)
  refine ⟨t, ?_, hrest⟩
  show matchLiteral expected text s = _
  simp only [matchLiteral, hs, hstart, ht, if_true]

theorem literal_mismatch {expected : String} (h : ¬ expected.toList <+: w) :
    Reads text depth env (.literal expected) w none := by
  intro s hs
  have hstart : expected.toList.isPrefixOf w = false := by
    rw [← Bool.not_eq_true, List.isPrefixOf_iff_prefix]
    exact h
  have hexec : matchLiteral expected text s = .noMatch (s.expect s!"'{expected}'") := by
    simp only [matchLiteral, hs, hstart, Bool.false_eq_true, if_false]
  exact ⟨_, hexec⟩

section
variable {expected : String} {c : Char} (hc : expected.toList = [c])
include hc

theorem char : Reads text depth env (.literal expected) (c :: u) (some (expected, u)) := by
  have hmatch : Reads text depth env (.literal expected) (expected.toList ++ u) (some (expected, u)) :=
    literal_match
  rwa [hc] at hmatch

theorem char_none (hw : w.head? ≠ some c) : Reads text depth env (.literal expected) w none := by
  refine literal_mismatch fun hstart => hw ?_
  obtain ⟨u, rfl⟩ := hstart
  rw [hc, List.singleton_append, List.head?_cons]

end

theorem pure (value : α) : Reads text depth env (.pure value) w (some (value, w)) := fun s hs => ⟨s, rfl, hs⟩

theorem fail : Reads text depth env (.fail : Parser τ α) w none := fun s _ => ⟨s, rfl⟩

theorem chain {f : α → Parser τ β} {r : Option (β × List Char)}
    (hp : Reads text depth env p w (some (a, w'))) (hf : Reads text depth env (f a) w' r) :
    Reads text depth env (.chain p f) w r := by
  cases r with
  | none =>
    intro s hs
    obtain ⟨t, ht, hrest⟩ := hp s hs
    obtain ⟨t', ht'⟩ := hf t hrest
    exact ⟨t'.restore s.offset, by simp only [exec_chain, ht, Reply.andThen_matched, ht', Reply.restore_noMatch]⟩
  | some r =>
    intro s hs
    obtain ⟨t, ht, hrest⟩ := hp s hs
    obtain ⟨t', ht', hrest'⟩ := hf t hrest
    exact ⟨t', by simp only [exec_chain, ht, Reply.andThen_matched, ht', Reply.restore_matched], hrest'⟩

theorem chain_none {f : α → Parser τ β} (hp : Reads text depth env p w none) :
    Reads text depth env (.chain p f) w none := by
  intro s hs
  obtain ⟨t, ht⟩ := hp s hs
  exact ⟨t, by simp only [exec_chain, ht, Reply.andThen_noMatch]⟩

theorem map (f : α → β) (hp : Reads text depth env p w r) :
    Reads text depth env (.map p f) w (r.map fun a => (f a.1, a.2)) := by
  cases r with
  | none =>
    intro s hs
    obtain ⟨t, ht⟩ := hp s hs
    exact ⟨t, by rw [exec_map, ht, Reply.map_noMatch]⟩
  | some r =>
    intro s hs
    obtain ⟨t, ht, hrest⟩ := hp s hs
    exact ⟨t, by rw [exec_map, ht, Reply.map_matched], hrest⟩

theorem map_some {f : α → β} {b : β} (hp : Reads text depth env p w (some (a, u))) (hb : f a = b) :
    Reads text depth env (.map p f) w (some (b, u)) := hb ▸ hp.map f

theorem or_left (hp : Reads text depth env p w (some (a, u))) :
    Reads text depth env (.or p q) w (some (a, u)) := by
  intro s hs
  obtain ⟨t, ht, hrest⟩ := hp s hs
  exact ⟨t, by rw [exec_or, ht, Reply.orElse_matched], hrest⟩

theorem or_right (hp : Reads text depth env p w none) (hq : Reads text depth env q w r) :
    Reads text depth env (.or p q) w r := by
  cases r with
  | none =>
    intro s hs
    obtain ⟨t, ht⟩ := hp s hs
    obtain ⟨t', ht'⟩ := hq _ (rest?_restore hs t)
    exact ⟨t', by rw [exec_or, ht, Reply.orElse_noMatch, ht']⟩
  | some r =>
    intro s hs
    obtain ⟨t, ht⟩ := hp s hs
    obtain ⟨t', ht', hrest⟩ := hq _ (rest?_restore hs t)
    exact ⟨t', by rw [exec_or, ht, Reply.orElse_noMatch, ht'], hrest⟩

theorem label (name : String) (hp : Reads text depth env p w r) :
    Reads text depth env (.label p name) w r := by
  cases r with
  | none =>
    intro s hs
    obtain ⟨t, ht⟩ := hp s hs
    exact ⟨_, by rw [exec_label, ht]; rfl⟩
  | some r =>
    intro s hs
    obtain ⟨t, ht, hrest⟩ := hp s hs
    exact ⟨t.record _, by rw [exec_label, ht]; rfl, hrest⟩

theorem of_label {name : String} (h : Reads text depth env (.label p name) w r) : Reads text depth env p w r := by
  cases r with
  | none =>
    intro s hs
    obtain ⟨t, ht⟩ := h s hs
    rw [exec_label] at ht
    cases hp : exec text depth p env s with
    | noMatch t' => exact ⟨t', rfl⟩
    | matched _ _ | halted _ =>
      rw [hp] at ht
      cases ht
  | some r =>
    intro s hs
    obtain ⟨t, ht, hrest⟩ := h s hs
    rw [exec_label] at ht
    cases hp : exec text depth p env s with
    | matched a t' =>
      rw [hp] at ht
      cases ht
      exact ⟨t', rfl, hrest⟩
    | noMatch _ | halted _ =>
      rw [hp] at ht
      cases ht

/-- What a parser reads depends only on what it answers. -/
theorem congr {κ : Type} {σ : κ → Type} {env' : Environment σ} {q : Parser σ α} (hp : Reads text depth env p w r)
    (hexec : ∀ s, exec text depth q env' s = exec text depth p env s) : Reads text depth env' q w r := by
  cases r with
  | none => exact fun s hs => (hp s hs).imp fun t ht => (hexec s).trans ht
  | some r => exact fun s hs => (hp s hs).imp fun t ht => ⟨(hexec s).trans ht.1, ht.2⟩

theorem weaken {self : State → Reply β} (hp : Reads text depth env p w r) :
    Reads text depth (env.extend self) p.weaken w r := by
  cases r <;> exact hp

/-- In the body of a recursive parser its handle reads what the whole parser reads. -/
theorem self (hp : Reads text depth env p w r) :
    Reads text depth (env.extend (exec text depth p env)) .self w r := by
  cases r <;> exact hp

theorem recursive {body : Parser (Extended α τ) α}
    (hends : ∀ s, exec text depth (.recursive body) env s ≠ .halted .tooDeep)
    (h : Reads text depth (env.extend (exec text depth (.recursive body) env)) body w r) :
    Reads text depth env (.recursive body) w r := h.congr fun s => exec_recursive_eq (hends s)

theorem seq {q : Parser τ β} {b : β} (hp : Reads text depth env p w (some (a, w')))
    (hq : Reads text depth env q w' (some (b, u))) :
    Reads text depth env (p.seq q) w (some ((a, b), u)) := hp.chain (hq.map _)

theorem keepLeft {q : Parser τ β} {b : β} (hp : Reads text depth env p w (some (a, w')))
    (hq : Reads text depth env q w' (some (b, u))) :
    Reads text depth env (p.keepLeft q) w (some (a, u)) := hp.chain (hq.map _)

theorem keepRight {q : Parser τ β} {r : Option (β × List Char)} (hp : Reads text depth env p w (some (a, w')))
    (hq : Reads text depth env q w' r) : Reads text depth env (p.keepRight q) w r := hp.chain hq

theorem cons {q : Parser τ (List α)} {as : List α} (hp : Reads text depth env p w (some (a, w')))
    (hq : Reads text depth env q w' (some (as, u))) :
    Reads text depth env (p.cons q) w (some (a :: as, u)) := (hp.seq hq).map _

theorem any_none {ps : List (Parser τ α)} (h : ∀ p ∈ ps, Reads text depth env p w none) :
    Reads text depth env (.any ps) w none := any_induction fail (fun _ _ => or_right) h

/-- When the alternatives agree as far as they match at all. -/
theorem any_some {ps : List (Parser τ α)} (hp : p ∈ ps) (hsome : Reads text depth env p w (some (a, u)))
    (h : ∀ q ∈ ps, Reads text depth env q w none ∨ Reads text depth env q w (some (a, u))) :
    Reads text depth env (.any ps) w (some (a, u)) := by
  cases ps with
  | nil => cases hp
  | cons q ps =>
    show Reads text depth env (ps.foldl .or q) w (some (a, u))
    induction ps generalizing p q with
    | nil => exact List.mem_singleton.mp hp ▸ hsome
    | cons q' ps ih =>
      have hq := h q (by simp)
      have hq' := h q' (by simp)
      have hor : Reads text depth env (.or q q') w none ∨ Reads text depth env (.or q q') w (some (a, u)) := by
        rcases hq with hq | hq
        · exact hq'.imp hq.or_right hq.or_right
        · exact Or.inr hq.or_left
      have hall : ∀ r ∈ Parser.or q q' :: ps,
          Reads text depth env r w none ∨ Reads text depth env r w (some (a, u)) := by
        intro r hr
        rcases List.mem_cons.mp hr with rfl | hr
        · exact hor
        · exact h r (by simp [hr])
      rcases List.mem_cons.mp hp with rfl | hp
      · exact ih hsome.or_left _ (List.mem_cons_self ..) hall
      rcases List.mem_cons.mp hp with rfl | hp
      · rcases hq with hq | hq
        · exact ih (hq.or_right hsome) _ (List.mem_cons_self ..) hall
        · exact ih hq.or_left _ (List.mem_cons_self ..) hall
      · exact ih hsome _ (List.mem_cons_of_mem _ hp) hall

/-- A last alternative is tried when no other one matches. -/
theorem any_append {ps : List (Parser τ α)} (h : Reads text depth env (.or (.any ps) q) w r) :
    Reads text depth env (.any (ps ++ [q])) w r := h.congr fun s => exec_any_concat text depth env s ps q

/-! ### Repetitions -/

theorem many_nil (hends : ∀ s, exec text depth p.many env s ≠ .halted .tooDeep)
    (hp : Reads text depth env p w none) : Reads text depth env p.many w (some ([], w)) := by
  refine recursive hends (or_right ?_ (pure []))
  exact (chain_none hp.weaken).map _

theorem many_cons {as : List α} (hends : ∀ s, exec text depth p.many env s ≠ .halted .tooDeep)
    (hp : Reads text depth env p w (some (a, w'))) (hmany : Reads text depth env p.many w' (some (as, u))) :
    Reads text depth env p.many w (some (a :: as, u)) :=
  recursive hends (or_left (hp.weaken.cons hmany.self))

end Reads

/-! ### Whole runs -/

theorem byteLength_lt_depth (d : Definitions τ) (text : List Char) : Text.byteLength text < d.depth text := by
  have hle : Text.byteLength text + 2 ≤ d.depth text := Nat.le_mul_of_pos_left _ (Nat.succ_pos _)
  omega

section
variable {d : Definitions τ} {p : Parser τ α} {input : String}

theorem runWith_of_reads {value : α} {u : List Char}
    (h : Reads input.toList (d.depth input.toList) (d.environment input.toList (d.depth input.toList)) p input.toList
      (some (value, u))) : (p.runWith d input).result = .matched value (String.ofList u) := by
  obtain ⟨t, ht, hrest⟩ := h {} (Text.dropBytes?_zero _)
  unfold runWith reply
  rw [ht]
  simp only [Reply.outcome, hrest]

theorem runWith_of_reads_none
    (h : Reads input.toList (d.depth input.toList) (d.environment input.toList (d.depth input.toList)) p input.toList
      none) : (p.runWith d input).result = .noMatch := by
  obtain ⟨t, ht⟩ := h {} (Text.dropBytes?_zero _)
  unfold runWith reply
  rw [ht]
  rfl

end

/-! ### Recognized languages -/

/-- `p` reads the word `w` in some way, and what it consumes when it matches is in the language `L`. -/
def Recognizes (text : List Char) (depth : Nat) (env : Environment τ) (p : Parser τ α) (L : Language Char)
    (w : List Char) : Prop :=
  ∃ r, Reads text depth env p w r ∧ ∀ a ∈ r, ∃ x ∈ L, w = x ++ a.2

namespace Recognizes
variable {p q : Parser τ α} {L L' M : Language Char} {w : List Char}

theorem mono (h : Recognizes text depth env p L w) (hL : L ≤ L') : Recognizes text depth env p L' w := by
  obtain ⟨r, hr, hx⟩ := h
  exact ⟨r, hr, fun a ha => (hx a ha).imp fun x hx => ⟨hL hx.1, hx.2⟩⟩

theorem literal (expected : String) :
    Recognizes text depth env (.literal expected) ({expected.toList} : Set (List Char)) w := by
  by_cases h : expected.toList <+: w
  · obtain ⟨u, rfl⟩ := h
    refine ⟨_, Reads.literal_match, fun a ha => ?_⟩
    cases ha
    exact ⟨_, rfl, rfl⟩
  · exact ⟨none, Reads.literal_mismatch h, fun a ha => by cases ha⟩

theorem pure (value : α) : Recognizes text depth env (.pure value) 1 w := by
  refine ⟨_, Reads.pure value, fun a ha => ?_⟩
  cases ha
  exact ⟨[], Language.nil_mem_one, rfl⟩

theorem chain {f : α → Parser τ β} (hp : Recognizes text depth env p L w)
    (hf : ∀ a x u, x ∈ L → w = x ++ u → Recognizes text depth env (f a) M u) :
    Recognizes text depth env (.chain p f) (L * M) w := by
  obtain ⟨r, hr, hx⟩ := hp
  rcases r with _ | ⟨a, u⟩
  · exact ⟨none, hr.chain_none, fun a ha => by cases ha⟩
  · obtain ⟨x, hxL, rfl⟩ := hx (a, u) rfl
    obtain ⟨r', hr', hy⟩ := hf a x u hxL rfl
    refine ⟨r', hr.chain hr', fun b hb => ?_⟩
    obtain ⟨y, hyM, rfl⟩ := hy b hb
    exact ⟨x ++ y, Language.append_mem_mul hxL hyM, (List.append_assoc _ _ _).symm⟩

theorem map (f : α → β) (hp : Recognizes text depth env p L w) : Recognizes text depth env (.map p f) L w := by
  obtain ⟨r, hr, hx⟩ := hp
  refine ⟨_, hr.map f, fun b hb => ?_⟩
  obtain ⟨a, ha, rfl⟩ := Option.map_eq_some_iff.mp hb
  exact hx a ha

theorem or (hp : Recognizes text depth env p L w) (hq : Recognizes text depth env q L w) :
    Recognizes text depth env (.or p q) L w := by
  obtain ⟨r, hr, hx⟩ := hp
  rcases r with _ | ⟨a, u⟩
  · obtain ⟨r', hr', hy⟩ := hq
    exact ⟨r', hr.or_right hr', hy⟩
  · exact ⟨_, hr.or_left, hx⟩

theorem label (name : String) (hp : Recognizes text depth env p L w) :
    Recognizes text depth env (.label p name) L w := by
  obtain ⟨r, hr, hx⟩ := hp
  exact ⟨r, hr.label name, hx⟩

theorem weaken {self : State → Reply β} (hp : Recognizes text depth env p L w) :
    Recognizes text depth (env.extend self) p.weaken L w := hp.imp fun _ h => ⟨h.1.weaken, h.2⟩

theorem self (hp : Recognizes text depth env p L w) :
    Recognizes text depth (env.extend (exec text depth p env)) .self L w := hp.imp fun _ h => ⟨h.1.self, h.2⟩

theorem recursive {body : Parser (Extended α τ) α}
    (hends : ∀ s, exec text depth (.recursive body) env s ≠ .halted .tooDeep)
    (h : Recognizes text depth (env.extend (exec text depth (.recursive body) env)) body L w) :
    Recognizes text depth env (.recursive body) L w := h.imp fun _ h => ⟨.recursive hends h.1, h.2⟩

theorem seq {q : Parser τ β} (hp : Recognizes text depth env p L w)
    (hq : ∀ x u, x ∈ L → w = x ++ u → Recognizes text depth env q M u) :
    Recognizes text depth env (p.seq q) (L * M) w := hp.chain fun _ x u hx hw => (hq x u hx hw).map _

theorem keepLeft {q : Parser τ β} (hp : Recognizes text depth env p L w)
    (hq : ∀ x u, x ∈ L → w = x ++ u → Recognizes text depth env q M u) :
    Recognizes text depth env (p.keepLeft q) (L * M) w := hp.chain fun _ x u hx hw => (hq x u hx hw).map _

theorem keepRight {q : Parser τ β} (hp : Recognizes text depth env p L w)
    (hq : ∀ x u, x ∈ L → w = x ++ u → Recognizes text depth env q M u) :
    Recognizes text depth env (p.keepRight q) (L * M) w := hp.chain fun _ => hq

theorem any {ps : List (Parser τ α)} (h : ∀ p ∈ ps, Recognizes text depth env p L w) :
    Recognizes text depth env (.any ps) L w :=
  any_induction ⟨none, Reads.fail, fun a ha => by cases ha⟩ (fun _ _ => .or) h

/-- A repetition of a parser that consumes something. -/
theorem many (hends : ∀ s, exec text depth p.many env s ≠ .halted .tooDeep)
    (hp : ∀ w, Recognizes text depth env p L w) (hL : [] ∉ L) (w : List Char) :
    Recognizes text depth env p.many L∗ w := by
  induction hlength : w.length using Nat.strong_induction_on generalizing w with
  | h n ih =>
    subst hlength
    refine recursive hends (or ?_ ((pure []).mono one_le_kstar))
    have hmore : Recognizes text depth (env.extend (exec text depth p.many env)) (p.weaken.cons .self) (L * L∗) w := by
      refine ((hp w).weaken.seq fun x u hx hw => ?_).map _
      have hne : x ≠ [] := fun h => hL (h ▸ hx)
      have hpos : 0 < x.length := List.length_pos_of_ne_nil hne
      have hshorter : u.length < w.length := by
        rw [hw, List.length_append]
        omega
      exact (ih u.length hshorter u rfl).self
    exact hmore.mono mul_kstar_le_kstar

end Recognizes
end Reckoner.Parser
