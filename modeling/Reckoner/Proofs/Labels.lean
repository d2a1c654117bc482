import Mathlib.Data.Option.Basic
import Reckoner.Proofs.Course

/-! Diagnostics never decide a match. What was expected or traced before a run has no part in its course, and a
    label adds steps to the course that leave the cursor where it is. So parsers without leaves match in the same
    way with and without their labels, wherever these stand in them. -/

namespace Reckoner.Parser

/-! ### Answers without diagnostics -/

/-- The state without what was expected and traced. -/
def State.bare (s : State) : State := { offset := s.offset }

/-- Whether there was a match, its value, and where the cursor was left. -/
def Reply.bare {α : Type} : Reply α → Reply α
  | .matched a s => .matched a s.bare
  | .noMatch s => .noMatch s.bare
  | .halted f => .halted f

/-! ### Parsers without labels -/

/-- `q` is `p` without some of its labels. -/
inductive Unlabelled : {ι : Type} → {τ : ι → Type} → {α : Type} → Parser τ α → Parser τ α → Prop where
  | literal {ι} {τ : ι → Type} (text : String) : Unlabelled (.literal text : Parser τ String) (.literal text)
  | pure {ι} {τ : ι → Type} {α} (value : α) : Unlabelled (.pure value : Parser τ α) (.pure value)
  | fail {ι} {τ : ι → Type} {α} : Unlabelled (.fail : Parser τ α) .fail
  | leaf {ι} {τ : ι → Type} {α} (action : List Char → State → Reply α) :
    Unlabelled (.leaf action : Parser τ α) (.leaf action)
  | chain {ι} {τ : ι → Type} {α β} {p q : Parser τ α} {f g : α → Parser τ β} (hp : Unlabelled p q)
    (hf : ∀ a, Unlabelled (f a) (g a)) : Unlabelled (.chain p f) (.chain q g)
  | map {ι} {τ : ι → Type} {α β} {p q : Parser τ α} (hp : Unlabelled p q) (f : α → β) :
    Unlabelled (.map p f) (.map q f)
  | or {ι} {τ : ι → Type} {α} {p p' q q' : Parser τ α} (hp : Unlabelled p p') (hq : Unlabelled q q') :
    Unlabelled (.or p q) (.or p' q')
  /-- A label that stays. -/
  | label {ι} {τ : ι → Type} {α} {p q : Parser τ α} (hp : Unlabelled p q) (name : String) :
    Unlabelled (.label p name) (.label q name)
  /-- A label that goes. -/
  | unlabel {ι} {τ : ι → Type} {α} {p q : Parser τ α} (hp : Unlabelled p q) (name : String) :
    Unlabelled (.label p name) q
  | lazy {ι} {τ : ι → Type} {α} {make make' : Unit → Parser τ α} (h : Unlabelled (make ()) (make' ())) :
    Unlabelled (.lazy make) (.lazy make')
  | handle {ι} {τ : ι → Type} (i : ι) : Unlabelled (.handle i : Parser τ (τ i)) (.handle i)
  | recursive {ι} {τ : ι → Type} {α} {p q : Parser (Extended α τ) α} (hp : Unlabelled p q) :
    Unlabelled (.recursive p : Parser τ α) (.recursive q)
  | weaken {ι} {τ : ι → Type} {α β} {p q : Parser τ α} (hp : Unlabelled p q) :
    Unlabelled (.weaken p : Parser (Extended β τ) α) (.weaken q)

variable {ι : Type} {τ : ι → Type} {α β : Type} {text : List Char} {depth : Nat}

theorem Unlabelled.leafFree {p q : Parser τ α} (h : Unlabelled p q) (hp : LeafFree p) : LeafFree q := by
  induction h with
  | literal _ | pure _ | fail | handle _ => trivial
  | leaf _ => exact hp.elim
  | chain _ _ ihp ihf => exact ⟨ihp hp.1, fun a => ihf a (hp.2 a)⟩
  | or _ _ ihp ihq => exact ⟨ihp hp.1, ihq hp.2⟩
  | map _ _ ih | label _ _ ih | unlabel _ _ ih | lazy _ ih | recursive _ ih | weaken _ ih => exact ih hp

/-- The definitions `e` are those of `d` without some of their labels. -/
def Definitions.Unlabelled (d e : Definitions τ) : Prop :=
  ∀ i, Option.Rel Parser.Unlabelled (d.parser? i) (e.parser? i)

theorem Definitions.Unlabelled.leafFree {d e : Definitions τ} (h : d.Unlabelled e) (hd : d.LeafFree) :
    e.LeafFree := by
  intro i q hq
  have hi := h i
  rw [hq] at hi
  cases hp : d.parser? i with
  | none =>
    rw [hp] at hi
    cases hi
  | some p =>
    rw [hp] at hi
    cases hi with
    | some hpq => exact hpq.leafFree (hd i p hp)

/-! ### Moves -/

/-- Whether the step may take the cursor elsewhere. -/
def Step.isMove : Step → Bool
  | .advance _ | .restore _ => true
  | .expect _ | .relabel _ _ | .record _ => false

theorem land_filter_isMove (steps : List Step) (x : Nat) : land (steps.filter Step.isMove) x = land steps x := by
  induction steps generalizing x with
  | nil => rfl
  | cons step steps ih => cases step <;> simp [List.filter_cons, Step.isMove, Step.move, ih]

/-- Both courses move the cursor in the same way and end alike. -/
structure Course.SameMoves (c c' : Course α) : Prop where
  ending : c'.ending = c.ending
  moves : c'.steps.filter Step.isMove = c.steps.filter Step.isMove

namespace Course.SameMoves
variable {c c' : Course α} {x : Nat}

theorem refl (c : Course α) : c.SameMoves c := ⟨rfl, rfl⟩

theorem land_eq (h : c.SameMoves c') (x : Nat) : land c'.steps x = land c.steps x := by
  rw [← land_filter_isMove, h.moves, land_filter_isMove]

theorem append {d d' : Course β} (h : c.SameMoves c') (hd : d.SameMoves d') :
    SameMoves (⟨d.ending, c.steps ++ d.steps⟩ : Course β) ⟨d'.ending, c'.steps ++ d'.steps⟩ :=
  ⟨hd.ending, by simp only [List.filter_append, h.moves, hd.moves]⟩

theorem andThen {next next' : α → Nat → Course β} (h : c.SameMoves c')
    (hnext : ∀ a y, (next a y).SameMoves (next' a y)) : (c.andThen x next).SameMoves (c'.andThen x next') := by
  have hland := h.land_eq x
  obtain ⟨ending, steps⟩ := c
  obtain ⟨ending', steps'⟩ := c'
  obtain rfl : ending' = ending := h.ending
  cases ending' with
  | matched a =>
    simp only at hland
    simp only [Course.andThen, hland]
    exact h.append (hnext a _)
  | noMatch | halted _ => exact ⟨rfl, h.moves⟩

theorem orElse {next next' : Course α} (h : c.SameMoves c') (hnext : next.SameMoves next') :
    (c.orElse next).SameMoves (c'.orElse next') := by
  obtain ⟨ending, steps⟩ := c
  obtain ⟨ending', steps'⟩ := c'
  obtain rfl : ending' = ending := h.ending
  cases ending' with
  | noMatch => exact h.append hnext
  | matched _ | halted _ => exact ⟨rfl, h.moves⟩

theorem after (h : c.SameMoves c') (step : Step) : (c.after step).SameMoves (c'.after step) :=
  ⟨h.ending, by simp only [Course.after, List.filter_cons, h.moves]⟩

theorem backTo (h : c.SameMoves c') (x : Nat) : (c.backTo x).SameMoves (c'.backTo x) := h.orElse (refl _)

theorem map (h : c.SameMoves c') (f : α → β) : (c.map f).SameMoves (c'.map f) := h.andThen fun _ _ => refl _

theorem label (c : Course α) (name : String) (x : Nat) : (c.label name x).SameMoves c := by
  obtain ⟨ending, steps⟩ := c
  cases ending <;> exact ⟨rfl, by simp [Course.label, Step.isMove]⟩

theorem symm (h : c.SameMoves c') : c'.SameMoves c := ⟨h.ending.symm, h.moves.symm⟩

theorem trans {c'' : Course α} (h : c.SameMoves c') (h' : c'.SameMoves c'') : c.SameMoves c'' :=
  ⟨h'.ending.trans h.ending, h'.moves.trans h.moves⟩

theorem bare_eq (h : c.SameMoves c') {s t : State} (hst : s.offset = t.offset) :
    (c.reply s).bare = (c'.reply t).bare := by
  have hbare : (perform c.steps s).bare = (perform c'.steps t).bare := by
    unfold State.bare
    rw [offset_perform, offset_perform, h.land_eq, hst]
  unfold Course.reply
  rw [h.ending]
  cases c.ending with
  | matched a => exact congrArg (Reply.matched a) hbare
  | noMatch => exact congrArg Reply.noMatch hbare
  | halted f => rfl

end Course.SameMoves

/-! ### Runs -/

theorem unroll_sameMoves {unfold unfold' : (Nat → Course α) → Nat → Course α}
    (h : ∀ self self' : Nat → Course α, (∀ x, (self x).SameMoves (self' x)) →
      ∀ x, (unfold self x).SameMoves (unfold' self' x)) :
    ∀ k x : Nat, (unroll k unfold x).SameMoves (unroll k unfold' x)
  | 0, _ => Course.SameMoves.refl _
  | k + 1, x => h _ _ (unroll_sameMoves h k) x

theorem Unlabelled.course {p q : Parser τ α} (h : Unlabelled p q) {env env' : CourseEnvironment τ}
    (henv : ∀ i x, (env i x).SameMoves (env' i x)) (x : Nat) :
    (Parser.course text depth p env x).SameMoves (Parser.course text depth q env' x) := by
  induction h generalizing x with
  | literal _ | pure _ | fail | leaf _ => exact Course.SameMoves.refl _
  | chain _ _ ihp ihf => exact (ihp henv x).andThen fun a y => (ihf a henv y).backTo x
  | map _ f ih => exact (ih henv x).map f
  | or _ _ ihp ihq => exact (ihp henv x).orElse ((ihq henv x).after _)
  | label _ name ih =>
    exact ((Course.SameMoves.label _ name x).trans (ih henv x)).trans (Course.SameMoves.label _ name x).symm
  | unlabel _ name ih => exact (Course.SameMoves.label _ name x).trans (ih henv x)
  | lazy _ ih => exact ih henv x
  | handle i => exact henv i x
  | recursive _ ih =>
    refine unroll_sameMoves (fun self self' hself y => ih (fun i z => ?_) y) depth x
    cases i with
    | none => exact hself z
    | some i => exact henv i z
  | weaken _ ih => exact ih (fun i => henv (some i)) x

theorem Definitions.Unlabelled.courses {d e : Definitions τ} (h : d.Unlabelled e) (i : ι) (x : Nat) :
    (d.courses text depth i x).SameMoves (e.courses text depth i x) := by
  induction depth generalizing i x with
  | zero => exact Course.SameMoves.refl _
  | succ depth ih =>
    have hi := h i
    simp only [Definitions.courses]
    generalize d.parser? i = p? at hi ⊢
    generalize e.parser? i = q? at hi ⊢
    cases hi with
    | none => exact Course.SameMoves.refl _
    | some hpq => exact hpq.course ih x

/-! ### The result -/

/-- Whether a parser without leaves matches, what it yields and where it leaves the cursor depends on where the
    cursor was and on nothing else in the state; nor does it depend on the labels in the parser and in the
    parsers that its handles stand for. -/
theorem bare_unlabelled {p : Parser τ α} {d : Definitions τ} (hp : LeafFree p) (hd : d.LeafFree) {s t : State}
    (hst : s.offset = t.offset) :
    let answer (p : Parser τ α) (d : Definitions τ) (s : State) : Reply α :=
      (exec text depth p (d.environment text depth) s).bare
    answer p d s = answer p d t ∧
      ∀ q e, Unlabelled p q → d.Unlabelled e → answer p d s = answer q e t := by
  intro answer
  have hcourse : ∀ {q e}, LeafFree q → Definitions.LeafFree e → ∀ s,
      answer q e s = ((course text depth q (e.courses text depth) s.offset).reply s).bare :=
    fun hq he s => congrArg Reply.bare (exec_eq_course hq he s)
  refine ⟨?_, fun q e hpq hde => ?_⟩
  · rw [hcourse hp hd, hcourse hp hd, hst]
    exact (Course.SameMoves.refl _).bare_eq hst
  · rw [hcourse hp hd, hcourse (hpq.leafFree hp) (hde.leafFree hd), hst]
    exact (hpq.course hde.courses t.offset).bare_eq hst

/-- Labels in a recursive parser behind a handle and in what a step goes on with are taken away; another one
    stays. What is expected is not the same, but where the cursor is left is. -/
theorem bare_unlabelled_nested :
    let text := ['(', 'b', 'a']
    let letter : Parser (fun _ : Unit => String) String := .or (.literal "a") (.literal "b")
    let enclosed (letter : Parser (fun _ : Unit => String) String) : Parser (fun _ : Unit => String) String :=
      .recursive (.or ((Parser.literal "(").keepRight .self) letter.weaken)
    let p := ((Parser.handle ()).label "first").chain fun a => (Parser.literal a).label "again"
    let q := ((Parser.handle ()).label "first").chain fun a => Parser.literal a
    let d := Definitions.empty.define () (enclosed (letter.label "letter"))
    let e := Definitions.empty.define () (enclosed letter)
    let reply p (d : Definitions fun _ : Unit => String) := exec text 4 p (d.environment text 4)
    LeafFree p ∧ d.LeafFree ∧ Unlabelled p q ∧ d.Unlabelled e ∧
      (reply p d {}).bare = (reply q e { furthest := some ⟨1, ["more"]⟩ }).bare ∧
      ((reply p d {}).outcome text).furthest = some ⟨2, ["again"]⟩ ∧
      ((reply q e { furthest := some ⟨1, ["more"]⟩ }).outcome text).furthest = some ⟨2, ["'b'"]⟩ := by
  intro text letter enclosed p q d e reply
  have hp : LeafFree p := ⟨trivial, fun _ => trivial⟩
  have hd : d.LeafFree := by
    rintro ⟨⟩ r hr
    obtain rfl : enclosed (letter.label "letter") = r := by
      simpa [d, Definitions.define, Definitions.empty] using hr
    exact ⟨⟨trivial, fun _ => trivial⟩, trivial, trivial⟩
  have hpq : Unlabelled p q := .chain (.label (.handle ()) "first") fun a => .unlabel (.literal a) "again"
  have hletter : Unlabelled (letter.label "letter") letter := .unlabel (.or (.literal "a") (.literal "b")) "letter"
  have hde : d.Unlabelled e := fun _ =>
    .some (.recursive (.or (.chain (.literal "(") fun _ => .handle none) (.weaken hletter)))
  have hp' : ((reply p d {}).outcome text).furthest = some ⟨2, ["again"]⟩ := by decide +kernel
  have hq' : ((reply q e { furthest := some ⟨1, ["more"]⟩ }).outcome text).furthest = some ⟨2, ["'b'"]⟩ := by
    decide +kernel
  exact ⟨hp, hd, hpq, hde, (bare_unlabelled hp hd rfl).2 q e hpq hde, hp', hq'⟩

end Reckoner.Parser
