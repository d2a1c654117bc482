import Reckoner.Evaluation
import Reckoner.Proofs.Position

/-! How far a parse looks ahead. A parser whose literals have one character at most asks of the text only what stands
    at the cursor, and whether it ends there. So long as nothing is missed at the end of the text, the text may go on
    in any way: the parse does the same, and what it leaves goes on so too. Whatever is missed is noted where it is
    missed, and the furthest offset is never less than that; so it is enough that this offset is before the end. -/

namespace Reckoner.Parser
variable {ι : Type} {τ : ι → Type} {α β : Type} {text more : List Char} {depth x : Nat}

/-! ### Parsers that look at one character at a time -/

/-- All literals of the parser have one character at most, and it has no leaves. -/
def Charwise : {ι : Type} → {τ : ι → Type} → {α : Type} → Parser τ α → Prop
  | _, _, _, .literal text => text.toList.length ≤ 1
  | _, _, _, .pure _ | _, _, _, .fail => True
  | _, _, _, .leaf _ => False
  | _, _, _, .chain p step => Charwise p ∧ ∀ a, Charwise (step a)
  | _, _, _, .map p _ => Charwise p
  | _, _, _, .or p q => Charwise p ∧ Charwise q
  | _, _, _, .label p _ => Charwise p
  | _, _, _, .lazy make => Charwise (make ())
  | _, τ, _, @Parser.handle _ .(τ) _ => True
  | _, _, _, .recursive body => Charwise body
  | _, _, _, .weaken p => Charwise p

/-- So have the parsers that define handles. -/
def Definitions.Charwise (d : Definitions τ) : Prop := ∀ i p, d.parser? i = some p → Parser.Charwise p

theorem Charwise.leafFree {p : Parser τ α} (hp : Charwise p) : LeafFree p := by
  induction p with
  | literal _ | pure _ | fail | handle _ => trivial
  | leaf _ => exact hp
  | chain p f ihp ihf => exact ⟨ihp hp.1, fun a => ihf a (hp.2 a)⟩
  | or p q ihp ihq => exact ⟨ihp hp.1, ihq hp.2⟩
  | lazy make ih => exact ih () hp
  | map p f ih | label p name ih | recursive body ih | weaken p ih => exact ih hp

theorem Definitions.Charwise.leafFree {d : Definitions τ} (hd : d.Charwise) : d.LeafFree :=
  fun i p hp => (hd i p hp).leafFree

theorem Charwise.any {ps : List (Parser τ α)} (h : ∀ p ∈ ps, Charwise p) : Charwise (.any ps) :=
  any_induction trivial (fun _ _ => And.intro) h

theorem Charwise.many {p : Parser τ α} (hp : Charwise p) : Charwise p.many := ⟨⟨hp, fun _ => trivial⟩, trivial⟩

theorem Charwise.many1 {p : Parser τ α} (hp : Charwise p) : Charwise p.many1 := ⟨hp, fun _ => hp.many⟩

/-! ### Courses on a text that goes on -/

/-- One of the steps, which begin with the cursor at `x`, notes something at `stop`. -/
def Notes (stop x : Nat) (steps : List Step) : Prop :=
  ∃ before what, before ++ [.expect what] <+: steps ∧ land before x = stop

theorem Notes.append {stop : Nat} {steps : List Step} (h : Notes stop x steps) (after : List Step) :
    Notes stop x (steps ++ after) := by
  obtain ⟨before, what, hbefore, hland⟩ := h
  exact ⟨before, what, hbefore.trans (List.prefix_append _ _), hland⟩

theorem Notes.behind {stop : Nat} {steps after : List Step} (h : Notes stop (land steps x) after) :
    Notes stop x (steps ++ after) := by
  obtain ⟨before, what, hbefore, hland⟩ := h
  refine ⟨steps ++ before, what, ?_, by rw [land_append, hland]⟩
  rw [List.append_assoc]
  exact (List.prefix_append_right_inj _).mpr hbefore

/-- What is noted at some place reaches at least as far. -/
theorem Notes.le_reach {stop : Nat} {steps : List Step} {s : State} (h : Notes stop s.offset steps) :
    .some stop ≤ (perform steps s).furthest.reach := by
  obtain ⟨before, what, ⟨after, rfl⟩, rfl⟩ := h
  rw [perform_append, reach_perform, perform_append]
  refine le_max_of_le_left ?_
  rw [perform_cons, perform_nil, Step.reach_perform, offset_perform]
  exact le_max_right _ _

/-- The run from `x` does the same in both cases, or something was missed at the end of the text in the first. -/
def Course.Keeps (text : List Char) (x : Nat) (c c' : Course α) : Prop :=
  Notes (Text.byteLength text) x c.steps ∨ c' = c

namespace Course.Keeps
variable {c c' : Course α}

theorem refl (c : Course α) : Keeps text x c c := Or.inr rfl

theorem andThen {next next' : α → Nat → Course β} (h : Keeps text x c c') (hsafe : Safe text 0 x c)
    (hnext : ∀ a y, Between text 0 y → Keeps text y (next a y) (next' a y)) :
    Keeps text x (c.andThen x next) (c'.andThen x next') := by
  have hland := hsafe.landing
  obtain ⟨ending, steps⟩ := c
  rcases h with hnotes | rfl
  · cases ending with
    | matched a => exact Or.inl (hnotes.append _)
    | noMatch | halted _ => exact Or.inl hnotes
  · cases ending with
    | matched a =>
      rcases hnext a _ hland with hnotes | heq
      · exact Or.inl hnotes.behind
      · refine Or.inr ?_
        simp only [Course.andThen, heq]
    | noMatch | halted _ => exact refl _

theorem orElse {next next' : Course α} (h : Keeps text x c c') (hnext : ∀ y, Keeps text y next next') :
    Keeps text x (c.orElse next) (c'.orElse next') := by
  obtain ⟨ending, steps⟩ := c
  rcases h with hnotes | rfl
  · cases ending with
    | noMatch => exact Or.inl (hnotes.append _)
    | matched _ | halted _ => exact Or.inl hnotes
  · cases ending with
    | noMatch =>
      rcases hnext (land steps x) with hnotes | rfl
      · exact Or.inl hnotes.behind
      · exact refl _
    | matched _ | halted _ => exact refl _

/-- What is done to a course by doing more after it. -/
theorem on (f : Course α → Course β) (hf : ∀ c, c.steps <+: (f c).steps) (h : Keeps text x c c') :
    Keeps text x (f c) (f c') := by
  rcases h with hnotes | rfl
  · obtain ⟨after, hafter⟩ := hf c
    exact Or.inl (hafter ▸ hnotes.append after)
  · exact refl _

theorem map (f : α → β) (h : Keeps text x c c') : Keeps text x (c.map f) (c'.map f) :=
  h.on _ fun c => by
    obtain ⟨ending, steps⟩ := c
    cases ending <;> simp [Course.map, Course.andThen]

theorem backTo (y : Nat) (h : Keeps text x c c') : Keeps text x (c.backTo y) (c'.backTo y) :=
  h.orElse fun _ => refl _

theorem label (name : String) (y : Nat) (h : Keeps text x c c') : Keeps text x (c.label name y) (c'.label name y) :=
  h.on (·.label name y) fun c => by
    obtain ⟨ending, steps⟩ := c
    cases ending <;> simp [Course.label]

/-- From elsewhere, with the cursor put back to `x` first. -/
theorem restore (h : Keeps text x c c') (y : Nat) : Keeps text y (c.after (.restore x)) (c'.after (.restore x)) := by
  rcases h with hnotes | rfl
  · have hbehind : Notes (Text.byteLength text) y ([.restore x] ++ c.steps) := Notes.behind hnotes
    exact Or.inl hbehind
  · exact refl _

/-- A literal of one character is missed at the end of the text, or because another character stands there. -/
theorem literal {expected : String} (hlength : expected.toList.length ≤ 1) (hx : Between text 0 x) :
    Keeps text x (.literal expected text x) (.literal expected (text ++ more) x) := by
  obtain ⟨rest, hrest⟩ := hx.cut
  obtain ⟨u, htext, hu⟩ := Text.eq_append_of_dropBytes? hrest
  have hrest' := Text.dropBytes?_append_of_eq_some hrest more
  simp only [Course.literal, hrest, hrest']
  by_cases hstart : expected.toList <+: rest
  · obtain ⟨w, rfl⟩ := hstart
    have hend : Text.dropBytes? text (x + Text.byteLength expected.toList) = some w := by
      rw [htext, ← hu, Text.dropBytes?_append_add, Text.dropBytes?_append]
    have hend' := Text.dropBytes?_append_of_eq_some hend more
    rw [if_pos (by simp), if_pos (by simp), hend, hend']
    exact refl _
  · rw [if_neg (by rwa [List.isPrefixOf_iff_prefix])]
    cases rest with
    | nil =>
      -- The text ends at the cursor.
      have hstop : x = Text.byteLength text := by rw [htext, List.append_nil, hu]
      exact Or.inl ⟨[], _, List.prefix_refl _, hstop⟩
    | cons c rest =>
      have hstart' : ¬ expected.toList <+: c :: rest ++ more := fun h =>
        hstart (List.prefix_of_prefix_length_le h (List.prefix_append _ _) (hlength.trans (by simp)))
      rw [if_neg (by rwa [List.isPrefixOf_iff_prefix])]
      exact refl _

end Course.Keeps

open Course

theorem unroll_keeps {unfold unfold' : (Nat → Course α) → Nat → Course α}
    (hsafe : ∀ self : Nat → Course α, (∀ x, Between text 0 x → Safe text 0 x (self x)) →
      ∀ x, Between text 0 x → Safe text 0 x (unfold self x))
    (h : ∀ self self' : Nat → Course α, (∀ x, Between text 0 x → Safe text 0 x (self x)) →
      (∀ x, Between text 0 x → Keeps text x (self x) (self' x)) →
      ∀ x, Between text 0 x → Keeps text x (unfold self x) (unfold' self' x)) :
    ∀ (k x : Nat), Between text 0 x → Keeps text x (unroll k unfold x) (unroll k unfold' x)
  | 0, _, _ => .refl _
  | k + 1, x, hx => h _ _ (unroll_safe hsafe k) (unroll_keeps hsafe h k) x hx

theorem Charwise.course_keeps {p : Parser τ α} (hp : Charwise p) {env env' : CourseEnvironment τ}
    (hsafe : env.Safe text) (henv : ∀ i x, Between text 0 x → Keeps text x (env i x) (env' i x))
    (hx : Between text 0 x) : Keeps text x (course text depth p env x) (course (text ++ more) depth p env' x) := by
  induction p generalizing x with
  | literal expected => exact .literal hp hx
  | pure _ | fail => exact .refl _
  | leaf _ => exact hp.elim
  | chain p f ihp ihf =>
    exact (ihp hp.1 hsafe henv hx).andThen (hp.1.leafFree.course_safe hsafe hx) fun a y hy =>
      (ihf a (hp.2 a) hsafe henv hy).backTo x
  | map p f ih => exact (ih hp hsafe henv hx).map f
  | or p q ihp ihq =>
    exact (ihp hp.1 hsafe henv hx).orElse fun y => (ihq hp.2 hsafe henv hx).restore y
  | label p name ih => exact (ih hp hsafe henv hx).label name x
  | lazy make ih => exact ih () hp hsafe henv hx
  | handle i => exact henv i x hx
  | recursive body ih =>
    have hbody : LeafFree body := leafFree (p := body) hp
    refine unroll_keeps (fun self hself y hy => hbody.course_safe (hsafe.extend hself) hy)
      (fun self self' hself hkeeps y hy => ih hp (hsafe.extend hself) (fun i z hz => ?_) hy)
      depth x hx
    cases i with
    | none => exact hkeeps z hz
    | some i => exact henv i z hz
  | weaken p ih => exact ih hp (fun i => hsafe (some i)) (fun i => henv (some i)) hx

theorem courses_keeps {d : Definitions τ} (hd : d.Charwise) (i : ι) (hx : Between text 0 x) :
    Keeps text x (d.courses text depth i x) (d.courses (text ++ more) depth i x) := by
  induction depth generalizing i x with
  | zero => exact .refl _
  | succ depth ih =>
    simp only [Definitions.courses]
    cases hp : d.parser? i with
    | none => exact .refl _
    | some p => exact (hd i p hp).course_keeps (hd.leafFree.safe_courses depth) (fun i x hx => ih i hx) hx

/-! ### Runs on a text that goes on -/

/-- The text that is left goes on with `more`, and nothing else changes. -/
def Outcome.followedBy (more : String) (o : Outcome α) : Outcome α where
  result := match o.result with
    | .matched a remaining => .matched a (remaining ++ more)
    | .noMatch => .noMatch
    | .halted fault => .halted fault
  furthest := o.furthest
  trace := o.trace

theorem Safe.outcome_append {c : Course α} {s : State} {input : String} (h : Safe input.toList 0 s.offset c)
    (more : String) :
    (c.reply s).outcome (input ++ more).toList = ((c.reply s).outcome input.toList).followedBy more := by
  obtain ⟨rest, hrest⟩ := h.landing.cut
  obtain ⟨ending, steps⟩ := c
  cases ending with
  | matched a =>
    have hleft : (perform steps s).rest? input.toList = some rest := by rw [State.rest?, offset_perform, hrest]
    have hleft' : (perform steps s).rest? (input ++ more).toList = some (rest ++ more.toList) := by
      rw [String.toList_append]
      exact Text.dropBytes?_append_of_eq_some hleft more.toList
    simp only [Course.reply, Reply.outcome, hleft, hleft', Outcome.followedBy, String.ofList_append,
      String.ofList_toList]
  | noMatch | halted _ => rfl

theorem Course.furthest_of_outcome {c : Course α} {s : State} {e : Expectation}
    (h : ((c.reply s).outcome text).furthest = some e) : (perform c.steps s).furthest = some e := by
  obtain ⟨ending, steps⟩ := c
  cases ending with
  | matched a =>
    simp only [Course.reply, Reply.outcome] at h
    split at h <;> exact h
  | noMatch => exact h
  | halted fault => cases h

/-- When the furthest expectation of a run is before the end of its input, the run is the same on every input that
    begins so. -/
theorem runWith_append {p : Parser τ α} {d : Definitions τ} (hp : Charwise p) (hd : d.Charwise) {input : String}
    {e : Expectation} (he : (p.runWith d input).furthest = some e) (hlt : e.offset < input.utf8ByteSize)
    (more : String) : p.runWith d (input ++ more) = (p.runWith d input).followedBy more := by
  -- Both runs have the bound of the longer one.
  let n := d.depth (input ++ more).toList
  obtain ⟨c, hc⟩ : ∃ c, c = course input.toList n p (d.courses input.toList n) 0 := ⟨_, rfl⟩
  have hn : d.depth input.toList ≤ n := depth_le_depth d (by simp)
  have hshort : p.runWith d input = (c.reply {}).outcome input.toList := by
    rw [runWith, hc, reply_eq_course (s := {}) hp.leafFree hd.leafFree (Text.dropBytes?_zero _) hn]
  have hlong : p.runWith d (input ++ more) =
      ((course (input ++ more).toList n p (d.courses (input ++ more).toList n) 0).reply {}).outcome
        (input ++ more).toList := by
    rw [runWith, reply, exec_eq_course hp.leafFree hd.leafFree]
  have hzero : Between input.toList 0 0 := Between.of_cut (Nat.le_refl 0) (Text.dropBytes?_zero _)
  have hsafe : Safe input.toList 0 0 c := hc ▸ hp.leafFree.course_safe (hd.leafFree.safe_courses n) hzero
  have hkeeps : Keeps input.toList 0 c
      (course (input ++ more).toList n p (d.courses (input ++ more).toList n) 0) := by
    rw [hc, String.toList_append]
    exact hp.course_keeps (hd.leafFree.safe_courses n) (fun i x hx => courses_keeps hd i hx) hzero
  rw [hshort] at he ⊢
  rcases hkeeps with hnotes | heq
  · have hreach := hnotes.le_reach (s := {})
    rw [furthest_of_outcome he, Text.byteLength_toList] at hreach
    exact absurd (WithBot.coe_le_coe.mp hreach) (Nat.not_le.mpr hlt)
  · rw [hlong, heq]
    exact hsafe.outcome_append (s := {}) more

end Reckoner.Parser

namespace Reckoner.Arithmetic
open Reckoner.Parser
variable {ι : Type} {τ : ι → Type}

/-! ### The rules of arithmetic -/

theorem charwise_digit : Charwise (digit : Parser τ String) := by
  show Charwise (Parser.any (digitTexts.map .literal))
  refine Charwise.any fun p hp => ?_
  obtain ⟨d, hd, rfl⟩ := List.mem_map.mp hp
  have hall : ∀ d ∈ digitTexts, d.toList.length ≤ 1 := by decide
  exact hall d hd

theorem charwise_spaces : Charwise (spaces : Parser τ String) := Charwise.many (p := .literal " ") (Nat.le_refl 1)

theorem charwise_number : Charwise (number : Parser τ Float) := by
  refine ⟨charwise_digit.many1, fun digits => ?_⟩
  beta_reduce
  cases Decimal.read? digits <;> trivial

theorem charwise_tail {operators : List Operator} {space : Parser τ String} {operand : Parser τ Float}
    (hsymbols : ∀ o ∈ operators, o.symbol.toList.length ≤ 1) (hspace : Charwise space) (hoperand : Charwise operand) :
    Charwise (tail operators space operand) := by
  refine Charwise.any fun p hp => ?_
  rcases List.mem_append.mp hp with hfurther | hnone
  · obtain ⟨o, ho, rfl⟩ := List.mem_map.mp hfurther
    exact ⟨⟨⟨⟨hspace, fun _ => hsymbols o ho⟩, fun _ => hspace⟩, fun _ => hoperand⟩, fun _ => trivial⟩
  · obtain rfl := List.mem_singleton.mp hnone
    trivial

theorem charwise_factor {expr number : Parser τ Float} {space : Parser τ String} (hexpr : Charwise expr)
    (hnumber : Charwise number) (hspace : Charwise space) : Charwise (factorOver expr number space) := by
  have hone : ∀ text ∈ ["(", ")", "-"], text.toList.length ≤ 1 := by decide
  refine Charwise.any fun p hp => ?_
  simp only [List.mem_cons, List.not_mem_nil, or_false] at hp
  rcases hp with rfl | rfl | rfl
  · exact ⟨⟨⟨⟨hone "(" (by simp), fun _ => hspace⟩, fun _ => hexpr⟩, fun _ => hspace⟩, fun _ => hone ")" (by simp)⟩
  · exact ⟨hone "-" (by simp), fun _ => trivial⟩
  · exact hnumber

theorem charwise_over {inner outer : List Operator} {number expr : Parser τ Float} {space : Parser τ String}
    (hinner : ∀ o ∈ inner, o.symbol.toList.length ≤ 1) (houter : ∀ o ∈ outer, o.symbol.toList.length ≤ 1)
    (hnumber : Charwise number) (hspace : Charwise space) (hexpr : Charwise expr) :
    Charwise (Rules.over inner outer number space expr).expr := by
  have hfactor := charwise_factor hexpr hnumber hspace
  have hterm : Charwise (Rules.over inner outer number space expr).term :=
    ⟨hfactor, fun _ => charwise_tail hinner hspace hfactor⟩
  exact ⟨hterm, fun _ => charwise_tail houter hspace hterm⟩

theorem charwise_expr : Charwise (expr : Parser τ Float) := by
  have hinner : ∀ o ∈ factorOperators, o.symbol.toList.length ≤ 1 := by simp [factorOperators]
  have houter : ∀ o ∈ termOperators, o.symbol.toList.length ≤ 1 := by simp [termOperators]
  exact charwise_over hinner houter charwise_number charwise_spaces
    (charwise_over hinner houter charwise_number charwise_spaces trivial)

/-- What stands behind the place where a parse got furthest has no influence on it: when that is before the end of
    the text, the parse of a longer text that begins so has the same answer, the same value and the same expectations,
    and leaves what it left and all that comes after it. -/
theorem parseExpression_append {text : String} {e : Expectation} (he : (parseExpression text).furthest = some e)
    (hlt : e.offset < text.utf8ByteSize) (more : String) :
    parseExpression (text ++ more) = (parseExpression text).followedBy more :=
  runWith_append charwise_expr (fun i => nomatch i) he hlt more

/-- The parse of `1+2 a` gets stuck at the letter, so an operator behind that is of no use. -/
theorem parseExpression_append_letter :
    (parseExpression "1+2 a").furthest = some ⟨4, ["' '", "'*'", "'/'", "'+'", "'-'"]⟩ ∧
      4 < "1+2 a".utf8ByteSize ∧
      parseExpression ("1+2 a" ++ "*3") = (parseExpression "1+2 a").followedBy "*3" := by
  have he : (parseExpression "1+2 a").furthest = some ⟨4, ["' '", "'*'", "'/'", "'+'", "'-'"]⟩ := by decide +kernel
  have hlt : 4 < "1+2 a".utf8ByteSize := by decide +kernel
  exact ⟨he, hlt, parseExpression_append he hlt "*3"⟩

end Reckoner.Arithmetic
