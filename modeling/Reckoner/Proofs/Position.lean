import Mathlib
import Reckoner.Proofs.Sufficiency

/-! A parse does not depend on where its text begins. Behind other text a parser without leaves does what it does on
    the text alone, with all positions moved by the length of what stands before. So the second part of a sequence
    does what it would do if it were run on the text that the first part left; only the furthest expectation is
    that of both parts. -/

namespace Reckoner.Parser
variable {ι : Type} {τ : ι → Type} {α β : Type} {pre text : List Char} {depth n x : Nat}

/-! ### Positions moved -/

/-- All positions moved by `n` bytes. -/
def Attempt.shift (n : Nat) : Attempt → Attempt
  | .matched rule start stop => .matched rule (n + start) (n + stop)
  | .failed rule start => .failed rule (n + start)

def Furthest.shift (n : Nat) (f : Furthest) : Furthest := f.map fun e => { e with offset := n + e.offset }

def State.shift (n : Nat) (s : State) : State where
  offset := n + s.offset
  furthest := s.furthest.shift n
  trace := s.trace.map (·.shift n)

def Reply.shift (n : Nat) : Reply α → Reply α
  | .matched a s => .matched a (s.shift n)
  | .noMatch s => .noMatch (s.shift n)
  | .halted f => .halted f

/-- The result stays as it is, with what was left of the text. -/
def Outcome.shift (n : Nat) (o : Outcome α) : Outcome α where
  result := o.result
  furthest := o.furthest.shift n
  trace := o.trace.map (·.shift n)

def Step.shift (n : Nat) : Step → Step
  | .advance size => .advance size
  | .restore offset => .restore (n + offset)
  | .expect what => .expect what
  | .relabel offset name => .relabel (n + offset) name
  | .record attempt => .record (attempt.shift n)

def Course.shift (n : Nat) (c : Course α) : Course α := ⟨c.ending, c.steps.map (·.shift n)⟩

/-! ### Steps -/

theorem note_shift (f : Furthest) (offset : Nat) (what : String) :
    (f.shift n).note (n + offset) what = (f.note offset what).shift n := by
  cases f with
  | none => rfl
  | some e =>
    simp only [Furthest.note, Furthest.shift, Option.map_some, Nat.add_lt_add_iff_left, Nat.add_left_cancel_iff]
    split_ifs <;> rfl

theorem relabel_shift (f : Furthest) (offset : Nat) (name : String) :
    (f.shift n).relabel (n + offset) name = (f.relabel offset name).shift n := by
  cases f with
  | none => rfl
  | some e =>
    simp only [Furthest.relabel, Furthest.shift, Option.map_some, Nat.add_lt_add_iff_left]
    split_ifs <;> rfl

theorem Step.perform_shift (step : Step) (s : State) :
    (step.shift n).perform (s.shift n) = (step.perform s).shift n := by
  cases step with
  | advance size => simp only [Step.shift, Step.perform, State.shift, Nat.add_assoc]
  | expect what => simp only [Step.shift, Step.perform, State.expect, State.shift, note_shift]
  | relabel offset name => simp only [Step.shift, Step.perform, State.relabel, State.shift, relabel_shift]
  | restore _ | record _ => rfl

theorem perform_shift (steps : List Step) (s : State) :
    perform (steps.map (·.shift n)) (s.shift n) = (perform steps s).shift n := by
  induction steps generalizing s with
  | nil => rfl
  | cons step steps ih => rw [List.map_cons, perform_cons, step.perform_shift, ih, perform_cons]

theorem land_shift (steps : List Step) (x : Nat) : land (steps.map (·.shift n)) (n + x) = n + land steps x := by
  have hperform := congrArg State.offset (perform_shift (n := n) steps { offset := x })
  simpa only [offset_perform, State.shift] using hperform

/-! ### Courses -/

namespace Course
variable (c next : Course α)

theorem reply_shift (s : State) : (c.shift n).reply (s.shift n) = (c.reply s).shift n := by
  obtain ⟨ending, steps⟩ := c
  cases ending <;> simp only [reply, shift, perform_shift, Reply.shift]

theorem andThen_shift {next next' : α → Nat → Course β} (h : ∀ a y, next' a (n + y) = (next a y).shift n) :
    (c.shift n).andThen (n + x) next' = (c.andThen x next).shift n := by
  obtain ⟨ending, steps⟩ := c
  cases ending with
  | matched a => simp only [andThen, shift, land_shift, h, List.map_append]
  | noMatch | halted _ => rfl

theorem orElse_shift : (c.shift n).orElse (next.shift n) = (c.orElse next).shift n := by
  obtain ⟨ending, steps⟩ := c
  cases ending with
  | noMatch => simp only [orElse, shift, List.map_append]
  | matched _ | halted _ => rfl

theorem after_restore_shift (x : Nat) : (c.shift n).after (.restore (n + x)) = (c.after (.restore x)).shift n := rfl

theorem backTo_shift (x : Nat) : (c.shift n).backTo (n + x) = (c.backTo x).shift n :=
  c.orElse_shift ⟨.noMatch, [.restore x]⟩

theorem map_shift (f : α → β) : (c.shift n).map f = (c.map f).shift n := by
  obtain ⟨ending, steps⟩ := c
  cases ending with
  | matched a => simp only [map, andThen, shift, List.append_nil]
  | noMatch | halted _ => rfl

theorem label_shift (name : String) (x : Nat) : (c.shift n).label name (n + x) = (c.label name x).shift n := by
  obtain ⟨ending, steps⟩ := c
  cases ending with
  | matched a =>
    simp only [label, shift, land_shift, List.map_append]
    rfl
  | noMatch =>
    simp only [label, shift, List.map_append]
    rfl
  | halted _ => rfl

theorem literal_shift (expected : String) (pre text : List Char) (x : Nat) :
    literal expected (pre ++ text) (Text.byteLength pre + x) =
      (literal expected text x).shift (Text.byteLength pre) := by
  simp only [literal, Nat.add_assoc, Text.dropBytes?_append_add]
  cases Text.dropBytes? text x with
  | none => rfl
  | some rest =>
    dsimp only
    split_ifs
    · cases Text.dropBytes? text (x + Text.byteLength expected.toList) <;> rfl
    · rfl

end Course

theorem unroll_shift {unfold unfold' : (Nat → Course α) → Nat → Course α}
    (h : ∀ self self' : Nat → Course α, (∀ x, self' (n + x) = (self x).shift n) →
      ∀ x, unfold' self' (n + x) = (unfold self x).shift n) :
    ∀ k x, unroll k unfold' (n + x) = (unroll k unfold x).shift n
  | 0, _ => rfl
  | k + 1, x => h _ _ (unroll_shift h k) x

/-- Behind `pre` a parser does what it does without it. -/
theorem LeafFree.course_shift {p : Parser τ α} (hp : LeafFree p) {env env' : CourseEnvironment τ}
    (henv : ∀ i x, env' i (Text.byteLength pre + x) = (env i x).shift (Text.byteLength pre)) (x : Nat) :
    course (pre ++ text) depth p env' (Text.byteLength pre + x) =
      (course text depth p env x).shift (Text.byteLength pre) := by
  induction p generalizing x with
  | literal expected => exact Course.literal_shift expected pre text x
  | pure _ | fail => rfl
  | leaf _ => exact hp.elim
  | chain p f ihp ihf =>
    simp only [course]
    rw [ihp hp.1 henv]
    refine Course.andThen_shift _ fun a y => ?_
    rw [ihf a (hp.2 a) henv, Course.backTo_shift]
  | map p f ih =>
    simp only [course]
    rw [ih hp henv, Course.map_shift]
  | or p q ihp ihq =>
    simp only [course]
    rw [ihp hp.1 henv, ihq hp.2 henv, Course.after_restore_shift, Course.orElse_shift]
  | label p name ih =>
    simp only [course]
    rw [ih hp henv, Course.label_shift]
  | lazy make ih => exact ih () hp henv x
  | handle i => exact henv i x
  | recursive body ih =>
    refine unroll_shift (fun self self' hself y => ih hp (fun i z => ?_) y) depth x
    cases i with
    | none => exact hself z
    | some i => exact henv i z
  | weaken p ih => exact ih hp (fun i => henv (some i)) x

theorem courses_shift {d : Definitions τ} (hd : d.LeafFree) (i : ι) (x : Nat) :
    d.courses (pre ++ text) depth i (Text.byteLength pre + x) =
      (d.courses text depth i x).shift (Text.byteLength pre) := by
  induction depth generalizing i x with
  | zero => rfl
  | succ depth ih =>
    simp only [Definitions.courses]
    cases hp : d.parser? i with
    | none => rfl
    | some p => exact (hd i p hp).course_shift ih x

/-! ### Runs -/

theorem Reply.outcome_shift (r : Reply α) (pre text : List Char) :
    (r.shift (Text.byteLength pre)).outcome (pre ++ text) = (r.outcome text).shift (Text.byteLength pre) := by
  cases r with
  | matched a s =>
    simp only [Reply.shift, Reply.outcome, State.shift, State.rest?, Text.dropBytes?_append_add]
    cases Text.dropBytes? text s.offset <;> simp [Outcome.shift]
  | noMatch s => simp [Reply.shift, Reply.outcome, State.shift, Outcome.shift]
  | halted f => rfl

section
variable {p : Parser τ α} {d : Definitions τ} {s : State} {w : List Char}

theorem depth_le_depth (d : Definitions τ) {text text' : List Char}
    (h : Text.byteLength text ≤ Text.byteLength text') : d.depth text ≤ d.depth text' :=
  Nat.mul_le_mul_left _ (Nat.add_le_add_right h 2)

/-- With any bound that suffices. -/
theorem reply_eq_course (hp : LeafFree p) (hd : d.LeafFree) (hs : s.rest? text = some w) (hn : d.depth text ≤ n) :
    p.reply d text s = (course text n p (d.courses text n) s.offset).reply s := by
  rw [← exec_eq_reply hp hd hs hn, exec_eq_course hp hd]

/-- The bound is larger behind `pre`, but the one for the text suffices. -/
theorem reply_shift (hp : LeafFree p) (hd : d.LeafFree) (hs : s.rest? text = some w) :
    p.reply d (pre ++ text) (s.shift (Text.byteLength pre)) = (p.reply d text s).shift (Text.byteLength pre) := by
  have hdepth : d.depth text ≤ d.depth (pre ++ text) := depth_le_depth d (by simp)
  rw [reply_eq_course hp hd hs hdepth, reply, exec_eq_course hp hd, ← Course.reply_shift,
    ← hp.course_shift (courses_shift hd)]
  rfl

end

/-! ### Reach -/

/-- The offset of the furthest expectation, or less than any offset when nothing is expected. -/
def Furthest.reach (f : Furthest) : WithBot Nat := f.map Expectation.offset

namespace Furthest
variable (f : Furthest) (offset : Nat) (what name : String)

theorem reach_shift : (f.shift n).reach = f.reach.map (n + ·) := by
  cases f <;> rfl

theorem reach_note : (f.note offset what).reach = max f.reach (.some offset) := by
  cases f with
  | none => exact (max_eq_right bot_le).symm
  | some e =>
    rcases Nat.lt_trichotomy offset e.offset with hlt | rfl | hgt
    · rw [note_of_lt hlt]
      exact (max_eq_left (WithBot.coe_le_coe.mpr hlt.le)).symm
    · by_cases hmem : what ∈ e.expected
      · rw [note_of_mem hmem]
        exact (max_self _).symm
      · rw [note_of_notMem hmem]
        exact (max_self _).symm
    · rw [note_of_gt hgt]
      exact (max_eq_right (WithBot.coe_le_coe.mpr hgt.le)).symm

theorem reach_relabel : (f.relabel offset name).reach = max f.reach (.some offset) := by
  cases f with
  | none => exact (max_eq_right bot_le).symm
  | some e =>
    rcases Nat.lt_or_ge offset e.offset with hlt | hle
    · rw [relabel_of_lt hlt]
      exact (max_eq_left (WithBot.coe_le_coe.mpr hlt.le)).symm
    · rw [relabel_of_le hle]
      exact (max_eq_right (WithBot.coe_le_coe.mpr hle)).symm

end Furthest

/-- How far a step reaches that is done with the cursor at `x`. -/
def Step.reach (x : Nat) : Step → WithBot Nat
  | .expect _ => .some x
  | .relabel offset _ => .some offset
  | .advance _ | .restore _ | .record _ => ⊥

theorem Step.reach_perform (step : Step) (s : State) :
    (step.perform s).furthest.reach = max s.furthest.reach (step.reach s.offset) := by
  cases step with
  | expect what => exact s.furthest.reach_note s.offset what
  | relabel offset name => exact s.furthest.reach_relabel offset name
  | advance _ | restore _ | record _ => exact (max_eq_left bot_le).symm

/-- The steps reach as far as they do when nothing was expected before, or as far as it was reached before. -/
theorem reach_perform (steps : List Step) (s : State) : (perform steps s).furthest.reach =
    max s.furthest.reach (perform steps { offset := s.offset }).furthest.reach := by
  induction steps using List.reverseRecOn with
  | nil => exact (max_eq_left bot_le).symm
  | append_singleton steps step ih =>
    have hlast : ∀ t, (perform (steps ++ [step]) t).furthest.reach =
        max (perform steps t).furthest.reach (step.reach (land steps t.offset)) := by
      intro t
      rw [perform_append, ← offset_perform]
      exact step.reach_perform _
    rw [hlast, hlast, ih, max_assoc]

/-! ### Sequences -/

section
variable {p : Parser τ α} {d : Definitions τ} {input rest : String} {a : α}

theorem Reply.outcome_restore (r : Reply α) (offset : Nat) : (r.restore offset).outcome text = r.outcome text := by
  cases r <;> rfl

theorem Course.outcome_of_offset (c : Course α) {s t : State} (h : t.offset = s.offset) :
    ((c.reply t).outcome text).result = ((c.reply s).outcome text).result := by
  obtain ⟨ending, steps⟩ := c
  cases ending with
  | matched a =>
    simp only [Course.reply, Reply.outcome, State.rest?, offset_perform, h]
    cases Text.dropBytes? text (land steps s.offset) <;> rfl
  | noMatch | halted _ => rfl

theorem Course.reach_outcome (c : Course α) (s : State) (h : ∀ f, c.ending ≠ .halted f) :
    ((c.reply s).outcome text).furthest.reach =
      max s.furthest.reach ((c.reply { offset := s.offset }).outcome text).furthest.reach := by
  obtain ⟨ending, steps⟩ := c
  cases ending with
  | matched a =>
    simp only [Course.reply, Reply.outcome, State.rest?, offset_perform]
    cases Text.dropBytes? text (land steps s.offset) <;> exact reach_perform steps s
  | noMatch => exact reach_perform steps s
  | halted f => exact absurd rfl (h f)

theorem reply_append (hp : LeafFree p) (hd : d.LeafFree) (pre input : String) :
    p.reply d (pre ++ input).toList { offset := pre.utf8ByteSize } =
      (p.reply d input.toList {}).shift pre.utf8ByteSize := by
  rw [String.toList_append, ← Text.byteLength_toList pre]
  exact reply_shift (s := {}) hp hd (Text.dropBytes?_zero _)

theorem outcome_append (hp : LeafFree p) (hd : d.LeafFree) (pre input : String) :
    (p.reply d (pre ++ input).toList { offset := pre.utf8ByteSize }).outcome (pre ++ input).toList =
      (p.runWith d input).shift pre.utf8ByteSize := by
  rw [reply_append hp hd, ← Text.byteLength_toList pre, String.toList_append, Reply.outcome_shift]
  rfl

/-- Started where `consumed` ends, in a state in which something may be expected already, a parser has the result that
    it has on the rest, and the furthest expectation is that of before or that of the run on the rest. -/
theorem outcome_after {q : Parser τ β} (hq : LeafFree q) (hd : d.LeafFree) (consumed rest : String) {t : State}
    (ht : t.offset = consumed.utf8ByteSize) :
    ((q.reply d (consumed ++ rest).toList t).outcome (consumed ++ rest).toList).result = (q.runWith d rest).result ∧
      ((∀ fault, (q.runWith d rest).result ≠ .halted fault) →
        ((q.reply d (consumed ++ rest).toList t).outcome (consumed ++ rest).toList).furthest.reach =
          max t.furthest.reach ((q.runWith d rest).furthest.reach.map (consumed.utf8ByteSize + ·))) := by
  have hbare := outcome_append hq hd consumed rest
  rw [← ht] at hbare ⊢
  -- What is done from there does not depend on what was expected before.
  obtain ⟨c, hc⟩ : ∃ c : Course β, ∀ s : State, s.offset = t.offset →
      q.reply d (consumed ++ rest).toList s = c.reply s :=
    ⟨_, fun s hs => hs ▸ exec_eq_course hq hd s⟩
  rw [hc { offset := t.offset } rfl] at hbare
  rw [hc t rfl]
  have hresult : ((c.reply t).outcome (consumed ++ rest).toList).result = (q.runWith d rest).result := by
    have hsame : ((c.reply t).outcome (consumed ++ rest).toList).result =
        ((c.reply { offset := t.offset }).outcome (consumed ++ rest).toList).result := c.outcome_of_offset rfl
    rw [hsame, hbare]
    rfl
  refine ⟨hresult, fun hends => ?_⟩
  have hending : ∀ f, c.ending ≠ .halted f := by
    intro f hf
    refine hends f ?_
    rw [← hresult, Course.reply, hf]
    rfl
  rw [c.reach_outcome t hending, hbare]
  exact congrArg _ (Furthest.reach_shift _)

theorem runWith_chain (p : Parser τ α) (f : α → Parser τ β) (d : Definitions τ) (input : String) :
    (p.chain f).runWith d input =
      ((p.reply d input.toList {}).andThen fun a t => (f a).reply d input.toList t).outcome input.toList := by
  unfold runWith
  have hchain : (p.chain f).reply d input.toList {} = (p.reply d input.toList {}).andThen fun a t =>
      ((f a).reply d input.toList t).restore 0 := rfl
  rw [hchain]
  cases p.reply d input.toList {} with
  | matched a t => exact Reply.outcome_restore _ 0
  | noMatch _ | halted _ => rfl

/-- Behind other text a parser without leaves gives the same answer, with all positions moved by the length of that
    text, and the same text is left. A sequence has no match when its first part has none; otherwise it has the result
    of its second part on the text that the first one left, and the furthest expectation is the further one of the two
    parts. -/
theorem position_independent {p : Parser τ α} {d : Definitions τ} (hp : LeafFree p) (hd : d.LeafFree)
    (pre input : String) :
    (p.reply d (pre ++ input).toList { offset := pre.utf8ByteSize } =
        (p.reply d input.toList {}).shift pre.utf8ByteSize ∧
      (p.reply d (pre ++ input).toList { offset := pre.utf8ByteSize }).outcome (pre ++ input).toList =
        (p.runWith d input).shift pre.utf8ByteSize) ∧
    ∀ {β : Type} (f : α → Parser τ β), (∀ a, LeafFree (f a)) →
      ((p.runWith d input).result = .noMatch → ((p.chain f).runWith d input).result = .noMatch) ∧
      ∀ a rest, (p.runWith d input).result = .matched a rest → ∃ consumed, input = consumed ++ rest ∧
        ((p.chain f).runWith d input).result = ((f a).runWith d rest).result ∧
        ((∀ fault, ((f a).runWith d rest).result ≠ .halted fault) →
          ((p.chain f).runWith d input).furthest.reach =
            max (p.runWith d input).furthest.reach
              (((f a).runWith d rest).furthest.reach.map (consumed.utf8ByteSize + ·))) := by
  refine ⟨⟨reply_append hp hd pre input, outcome_append hp hd pre input⟩, fun f hf => ⟨fun hnone => ?_, ?_⟩⟩
  · obtain ⟨t, ht⟩ := reply_of_noMatch hnone
    rw [runWith_chain, ht]
    rfl
  · intro a rest hmatched
    obtain ⟨t, ht, hrest⟩ := reply_of_matched hmatched
    obtain ⟨consumed, rfl, hsize⟩ := exists_consumed hrest
    have hfurthest : (p.runWith d (consumed ++ rest)).furthest = t.furthest := by
      rw [runWith, ht, Reply.outcome, hrest]
    refine ⟨consumed, rfl, ?_⟩
    rw [runWith_chain, ht, hfurthest]
    exact outcome_after (hf a) hd consumed rest hsize.symm

/-- Letters are counted by way of a handle, and the number of them has to follow after one `z`. -/
theorem position_independent_letters :
    let letters : Parser (fun _ : Unit => Nat) Nat :=
      .or (((Parser.literal "é").keepRight (.handle ())).map (· + 1)) (.pure 0)
    let d := Definitions.empty.define () (letters.label "letters")
    let number (n : Nat) : Parser (fun _ : Unit => Nat) String :=
      ((Parser.literal "z").keepRight (.literal (toString n))).label "number"
    LeafFree (.handle () : Parser (fun _ : Unit => Nat) Nat) ∧ d.LeafFree ∧
      ((Parser.handle ()).runWith d "ééz!").result = .matched 2 "z!" ∧
      ((Parser.handle ()).reply d "xééz!".toList { offset := 1 }).outcome "xééz!".toList =
        ⟨.matched 2 "z!", some ⟨5, ["'é'"]⟩,
          [.matched "letters" 5 5, .matched "letters" 3 5, .matched "letters" 1 5]⟩ ∧
      (((Parser.handle ()).chain number).runWith d "ééz!").result = .noMatch ∧
      (((Parser.handle ()).chain number).runWith d "ééz!").furthest.reach = .some 5 := by
  intro letters d number
  have hd : d.LeafFree := by
    rintro ⟨⟩ q hq
    obtain rfl : letters.label "letters" = q := by simpa [d, Definitions.define, Definitions.empty] using hq
    exact ⟨⟨trivial, fun _ => trivial⟩, trivial⟩
  have hp : LeafFree (.handle () : Parser (fun _ : Unit => Nat) Nat) := trivial
  have hnumber : ∀ n, LeafFree (number n) := fun n => ⟨trivial, fun _ => trivial⟩
  have hmatched : ((Parser.handle ()).runWith d "ééz!").result = .matched 2 "z!" := by decide +kernel
  obtain ⟨⟨-, hmoved⟩, hchain⟩ := position_independent hp hd "x" "ééz!"
  obtain ⟨consumed, hinput, hresult, hreach⟩ := (hchain number hnumber).2 2 "z!" hmatched
  have hsize : consumed.utf8ByteSize = 4 := by
    have hsum := congrArg String.utf8ByteSize hinput
    rw [String.utf8ByteSize_append] at hsum
    have hwhole : "ééz!".utf8ByteSize = 6 := by decide +kernel
    have hrest : "z!".utf8ByteSize = 2 := by decide +kernel
    omega
  have hrest : (number 2).runWith d "z!" = ⟨.noMatch, some ⟨1, ["'2'"]⟩, [.failed "number" 0]⟩ := by decide +kernel
  have hfirst : ((Parser.handle ()).runWith d "ééz!").furthest = some ⟨4, ["'é'"]⟩ := by decide +kernel
  refine ⟨hp, hd, hmatched, hmoved.trans (by decide +kernel), hresult.trans (by rw [hrest]), ?_⟩
  rw [hreach (by simp [hrest]), hrest, hfirst, hsize]
  rfl

end

end Reckoner.Parser
