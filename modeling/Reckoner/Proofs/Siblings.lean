import Reckoner.Proofs.History

/-! What alternatives expect together. When both parts of a choice fail, the choice expects what the one expects that
    got further. Where they got equally far it expects what both of them do, unless a rule of the second part failed just
    there: the name of that rule takes the place of all that was expected, by the first part too. So the order of
    alternatives makes no difference for how far the choice gets, and only such a rule makes it one for what is expected. -/

namespace Reckoner.Parser
variable {ι : Type} {τ : ι → Type} {α β : Type}

/-! ### Events one after the other -/

theorem sinceReplaced_append (xs ys : List Event) :
    sinceReplaced (xs ++ ys) = if ys.any (·.replaces) then sinceReplaced ys else sinceReplaced xs ++ ys := by
  induction ys using List.reverseRecOn with
  | nil => simp
  | append_singleton ys y ih =>
    rw [← List.append_assoc]
    cases hy : y.replaces with
    | true =>
      rw [sinceReplaced_concat_of_replaces hy, sinceReplaced_concat_of_replaces hy]
      simp [hy]
    | false =>
      rw [sinceReplaced_concat hy, sinceReplaced_concat hy, ih]
      simp only [List.any_append, List.any_cons, List.any_nil, hy, Bool.or_false]
      split <;> simp

section
variable {xs ys : List Event} {e : Expectation}

theorem textsOf_append_of_replaces (h : ∃ y ∈ ys, y.replaces = true) : textsOf (xs ++ ys) = textsOf ys := by
  rw [textsOf, sinceReplaced_append, if_pos (List.any_eq_true.mpr h)]
  rfl

theorem mem_textsOf_append (h : ¬∃ y ∈ ys, y.replaces = true) {what : String} :
    what ∈ textsOf (xs ++ ys) ↔ what ∈ textsOf xs ∨ what ∈ textsOf ys := by
  have hany : ¬ys.any (·.replaces) = true := by rwa [List.any_eq_true]
  have hys : sinceReplaced ys = ys := by simpa [hany, sinceReplaced] using sinceReplaced_append [] ys
  simp only [textsOf, sinceReplaced_append, if_neg hany, hys, List.mem_eraseDups, List.map_append, List.mem_append]

theorem furthestOf_eq_some_iff : furthestOf xs = some e ↔ (∃ x ∈ xs, x.offset = e.offset) ∧
    (∀ x ∈ xs, x.offset ≤ e.offset) ∧ textsOf (xs.filter (·.offset = e.offset)) = e.expected := by
  obtain ⟨offset, expected⟩ := e
  rw [furthestOf, Option.map_eq_some_iff]
  constructor
  · rintro ⟨m, hmax, hm⟩
    cases hm
    exact ⟨by simpa using (List.max?_eq_some_iff.mp hmax).1, by simpa using (List.max?_eq_some_iff.mp hmax).2, rfl⟩
  · rintro ⟨hmem, hle, htexts⟩
    have hmax : (xs.map (·.offset)).max? = some offset :=
      List.max?_eq_some_iff.mpr ⟨by simpa using hmem, by simpa using hle⟩
    exact ⟨offset, hmax, congrArg (Expectation.mk offset) htexts⟩

theorem furthestOf_append_of_gt (hxs : furthestOf xs = some e) (h : ∀ y ∈ ys, y.offset < e.offset) :
    furthestOf (xs ++ ys) = some e := by
  obtain ⟨⟨x, hx, hoffset⟩, hle, htexts⟩ := furthestOf_eq_some_iff.mp hxs
  have hnil : ys.filter (·.offset = e.offset) = [] := by simpa using fun y hy => (h y hy).ne
  refine furthestOf_eq_some_iff.mpr ⟨⟨x, List.mem_append_left _ hx, hoffset⟩, ?_, ?_⟩
  · exact List.forall_mem_append.mpr ⟨hle, fun y hy => (h y hy).le⟩
  · rw [List.filter_append, hnil, List.append_nil, htexts]

theorem furthestOf_append_of_lt (hys : furthestOf ys = some e) (h : ∀ x ∈ xs, x.offset < e.offset) :
    furthestOf (xs ++ ys) = some e := by
  obtain ⟨⟨y, hy, hoffset⟩, hle, htexts⟩ := furthestOf_eq_some_iff.mp hys
  have hnil : xs.filter (·.offset = e.offset) = [] := by simpa using fun x hx => (h x hx).ne
  refine furthestOf_eq_some_iff.mpr ⟨⟨y, List.mem_append_right _ hy, hoffset⟩, ?_, ?_⟩
  · exact List.forall_mem_append.mpr ⟨fun x hx => (h x hx).le, hle⟩
  · rw [List.filter_append, hnil, List.nil_append, htexts]

end

/-- `R` is expected when `Q` is expected after `P`; `replaced` says that the place where `Q` is expected saw a rule fail
    that put its name in place of all that was expected there before. -/
structure Joined (replaced : Prop) (P Q R : Expectation) : Prop where
  offset : R.offset = max P.offset Q.offset
  eq_first : Q.offset < P.offset → R = P
  eq_second : P.offset < Q.offset → R = Q
  eq_of_replaced : P.offset = Q.offset → replaced → R = Q
  mem_iff : P.offset = Q.offset → ¬replaced → ∀ what, what ∈ R.expected ↔ what ∈ P.expected ∨ what ∈ Q.expected

namespace Joined
variable {replaced replaced' : Prop} {P Q R R' : Expectation} {what : String}

theorem of_lt (h : P.offset < Q.offset) : Joined replaced P Q Q where
  offset := (Nat.max_eq_right h.le).symm
  eq_first hgt := absurd h hgt.asymm
  eq_second _ := rfl
  eq_of_replaced _ _ := rfl
  mem_iff heq := absurd heq h.ne

theorem of_gt (h : Q.offset < P.offset) : Joined replaced P Q P where
  offset := (Nat.max_eq_left h.le).symm
  eq_first _ := rfl
  eq_second hlt := absurd h hlt.asymm
  eq_of_replaced heq := absurd heq h.ne'
  mem_iff heq := absurd heq h.ne'

/-- What is expected last is never replaced. -/
theorem mem_of_second (h : Joined replaced P Q R) (hle : P.offset ≤ Q.offset) (hwhat : what ∈ Q.expected) :
    what ∈ R.expected := by
  rcases Nat.lt_or_eq_of_le hle with hlt | heq
  · rwa [h.eq_second hlt]
  · by_cases hreplaced : replaced
    · rwa [h.eq_of_replaced heq hreplaced]
    · exact (h.mem_iff heq hreplaced what).mpr (Or.inr hwhat)

theorem offset_eq (h : Joined replaced P Q R) (h' : Joined replaced' Q P R') : R.offset = R'.offset := by
  rw [h.offset, h'.offset, Nat.max_comm]

/-- The order makes no difference but for rules that failed where both are expected. -/
theorem mem_iff_mem (h : Joined replaced P Q R) (h' : Joined replaced' Q P R')
    (hreplaced : P.offset = Q.offset → ¬replaced ∧ ¬replaced') : what ∈ R.expected ↔ what ∈ R'.expected := by
  rcases Nat.lt_trichotomy P.offset Q.offset with hlt | heq | hgt
  · rw [h.eq_second hlt, h'.eq_first hlt]
  · obtain ⟨hfirst, hsecond⟩ := hreplaced heq
    rw [h.mem_iff heq hfirst, h'.mem_iff heq.symm hsecond, or_comm]
  · rw [h.eq_first hgt, h'.eq_second hgt]

end Joined

/-- What is expected after both lists of events, from what is expected after each of them alone. -/
theorem furthestOf_append {xs ys : List Event} {P Q : Expectation} (hP : furthestOf xs = some P)
    (hQ : furthestOf ys = some Q) : ∃ R, furthestOf (xs ++ ys) = some R ∧
      Joined (∃ y ∈ ys, y.offset = Q.offset ∧ y.replaces = true) P Q R := by
  obtain ⟨-, hxs, hPtexts⟩ := furthestOf_eq_some_iff.mp hP
  obtain ⟨⟨y, hy, hyQ⟩, hys, hQtexts⟩ := furthestOf_eq_some_iff.mp hQ
  rcases Nat.lt_trichotomy P.offset Q.offset with hlt | heq | hgt
  · exact ⟨Q, furthestOf_append_of_lt hQ fun x hx => (hxs x hx).trans_lt hlt, .of_lt hlt⟩
  · let here (events : List Event) := events.filter (·.offset = Q.offset)
    have hreplaces : (∃ e ∈ here ys, e.replaces = true) ↔ ∃ e ∈ ys, e.offset = Q.offset ∧ e.replaces = true := by
      simp [here, and_assoc]
    have hR : furthestOf (xs ++ ys) = some ⟨Q.offset, textsOf (here xs ++ here ys)⟩ := by
      refine furthestOf_eq_some_iff.mpr ⟨⟨y, List.mem_append_right _ hy, hyQ⟩, ?_, ?_⟩
      · exact List.forall_mem_append.mpr ⟨fun x hx => (hxs x hx).trans_eq heq, hys⟩
      · rw [List.filter_append]
    refine ⟨_, hR, ?_, fun h => absurd heq h.ne', fun h => absurd heq h.ne, fun _ h => ?_, fun _ h what => ?_⟩
    · exact (max_eq_right heq.le).symm
    · rw [textsOf_append_of_replaces (hreplaces.mpr h), hQtexts]
    · rw [mem_textsOf_append (hreplaces.not.mpr h), hQtexts, ← hPtexts, heq]
  · exact ⟨P, furthestOf_append_of_gt hP fun y hy => (hys y hy).trans_lt hgt, .of_gt hgt⟩

/-! ### Rules that fail

A run names a rule in place of what was expected just where it adds the failure of that rule to the trace. -/

/-- For each rule that failed, its name took the place of what was expected where it started, and no other name did. -/
def Paired (steps : List Step) : Prop := ∀ name x, .relabel x name ∈ steps ↔ .record (.failed name x) ∈ steps

section
variable {steps steps' : List Step}

theorem paired_nil : Paired [] := fun _ _ => by simp

theorem Paired.append (h : Paired steps) (h' : Paired steps') : Paired (steps ++ steps') := fun name x => by
  simp only [List.mem_append, h name x, h' name x]

theorem paired_restore (x : Nat) : Paired [.restore x] := fun _ _ => by simp

namespace Course
variable {c next : Course α} {x : Nat}

theorem paired_andThen {f : α → Nat → Course β} (hc : Paired c.steps) (hf : ∀ a y, Paired (f a y).steps) :
    Paired (c.andThen x f).steps := by
  obtain ⟨ending, steps⟩ := c
  cases ending with
  | matched a => exact hc.append (hf a _)
  | noMatch | halted _ => exact hc

theorem paired_orElse (hc : Paired c.steps) (hnext : Paired next.steps) : Paired (c.orElse next).steps := by
  obtain ⟨ending, steps⟩ := c
  cases ending with
  | noMatch => exact hc.append hnext
  | matched _ | halted _ => exact hc

theorem paired_label (hc : Paired c.steps) (name : String) : Paired (c.label name x).steps := by
  obtain ⟨ending, steps⟩ := c
  cases ending with
  | matched _ => exact hc.append fun _ _ => by simp
  | noMatch => exact hc.append fun _ _ => by simp [and_comm]
  | halted _ => exact hc

theorem paired_literal (expected : String) (text : List Char) : Paired (literal expected text x).steps := by
  unfold literal
  split
  · exact paired_nil
  · split
    · split <;> exact fun _ _ => by simp
    · exact fun _ _ => by simp

end Course

theorem paired_unroll {unfold : (Nat → Course α) → Nat → Course α}
    (h : ∀ self, (∀ x, Paired (self x).steps) → ∀ x, Paired (unfold self x).steps) :
    ∀ k x, Paired (unroll k unfold x).steps
  | 0, _ => paired_nil
  | k + 1, x => h _ (paired_unroll h k) x

theorem paired_course {text : List Char} {depth : Nat} (p : Parser τ α) {env : CourseEnvironment τ}
    (henv : ∀ i x, Paired (env i x).steps) (x : Nat) : Paired (course text depth p env x).steps := by
  induction p generalizing x with
  | literal expected => exact Course.paired_literal expected text
  | pure _ | fail => exact paired_nil
  | leaf action =>
    simp only [course]
    split
    · exact paired_restore _
    · exact paired_restore _
    · exact paired_nil
  | chain p f ihp ihf =>
    exact Course.paired_andThen (ihp henv x) fun a y => Course.paired_orElse (ihf a henv y) (paired_restore x)
  | map p f ih => exact Course.paired_andThen (ih henv x) fun _ _ => paired_nil
  | or p q ihp ihq => exact Course.paired_orElse (ihp henv x) ((paired_restore x).append (ihq henv x))
  | label p name ih => exact Course.paired_label (ih henv x) name
  | lazy make ih => exact ih () henv x
  | handle i => exact henv i x
  | recursive body ih =>
    refine paired_unroll (fun self hself y => ih (fun i z => ?_) y) depth x
    cases i with
    | none => exact hself z
    | some i => exact henv i z
  | weaken p ih => exact ih (fun i => henv (some i)) x

theorem paired_courses {text : List Char} {depth : Nat} (d : Definitions τ) (i : ι) (x : Nat) :
    Paired (d.courses text depth i x).steps := by
  induction depth generalizing i x with
  | zero => exact paired_nil
  | succ depth ih =>
    simp only [Definitions.courses]
    cases d.parser? i with
    | none => exact paired_nil
    | some p => exact paired_course p ih x

theorem exists_replaces_iff {x y : Nat} :
    (∃ e ∈ history steps y, e.offset = x ∧ e.replaces = true) ↔ ∃ name, .relabel x name ∈ steps := by
  induction steps generalizing y with
  | nil => simp [history]
  | cons step steps ih =>
    simp only [history, List.mem_append, or_and_right, exists_or, ih, List.mem_cons]
    refine or_congr ?_ Iff.rfl
    cases step <;> simp [Step.event?, @eq_comm _ x]

theorem mem_trace_perform {attempt : Attempt} {s : State} :
    attempt ∈ (perform steps s).trace ↔ .record attempt ∈ steps ∨ attempt ∈ s.trace := by
  induction steps generalizing s with
  | nil => simp
  | cons step steps ih =>
    rw [perform_cons, ih, List.mem_cons, or_assoc, or_left_comm]
    refine or_congr Iff.rfl ?_
    cases step <;> simp [Step.perform, State.restore, State.expect, State.relabel, State.record]

end

/-! ### Runs of choices -/

section
variable {p q : Parser τ α} {d : Definitions τ} {input : String}

/-- The course of a run over `input`. -/
def runCourse (p : Parser τ α) (d : Definitions τ) (input : String) : Course α :=
  course input.toList (d.depth input.toList) p (d.courses input.toList (d.depth input.toList)) 0

/-- The name of a rule that failed at `offset` is in the trace of the run. -/
def FailedAt (offset : Nat) (outcome : Outcome α) : Prop := ∃ name, .failed name offset ∈ outcome.trace

theorem reply_eq_runCourse (hp : LeafFree p) (hd : d.LeafFree) :
    p.reply d input.toList {} = (runCourse p d input).reply {} := exec_eq_course hp hd {}

theorem ending_runCourse (hp : LeafFree p) (hd : d.LeafFree) (h : (p.runWith d input).result = .noMatch) :
    (runCourse p d input).ending = .noMatch := by
  obtain ⟨t, ht⟩ := reply_of_noMatch h
  rw [reply_eq_runCourse hp hd, Course.reply] at ht
  cases hending : (runCourse p d input).ending with
  | noMatch => rfl
  | matched _ | halted _ =>
    rw [hending] at ht
    cases ht

theorem runWith_of_ending (hp : LeafFree p) (hd : d.LeafFree) (h : (runCourse p d input).ending = .noMatch) :
    p.runWith d input = ⟨.noMatch, furthestOf (history (runCourse p d input).steps 0),
      (perform (runCourse p d input).steps {}).trace.reverse⟩ := by
  rw [runWith, reply_eq_runCourse hp hd, Course.reply, h, ← furthest_perform_fresh]
  rfl

theorem failedAt_runWith_iff (hp : LeafFree p) (hd : d.LeafFree) (h : (runCourse p d input).ending = .noMatch) {x : Nat} :
    FailedAt x (p.runWith d input) ↔ ∃ e ∈ history (runCourse p d input).steps 0, e.offset = x ∧ e.replaces = true := by
  have hpaired : Paired (runCourse p d input).steps := paired_course p (paired_courses d) 0
  simp only [FailedAt, runWith_of_ending hp hd h, List.mem_reverse, mem_trace_perform, exists_replaces_iff, ← hpaired _ x]
  simp

/-- Both parts run from the start, so the events of the second one come after those of the first. -/
theorem runCourse_or (hp : (runCourse p d input).ending = .noMatch) (hq : (runCourse q d input).ending = .noMatch) :
    (runCourse (.or p q) d input).ending = .noMatch ∧ history (runCourse (.or p q) d input).steps 0 =
      history (runCourse p d input).steps 0 ++ history (runCourse q d input).steps 0 := by
  have hor : runCourse (.or p q) d input = ⟨.noMatch, (runCourse p d input).steps ++
      .restore 0 :: (runCourse q d input).steps⟩ := by
    show (runCourse p d input).orElse ((runCourse q d input).after (.restore 0)) = _
    simp only [Course.orElse, Course.after, hp, hq]
  rw [hor, history_append]
  exact ⟨rfl, rfl⟩

/-- What the choice expects, from what its two parts do. -/
theorem exists_joined (hp : LeafFree p) (hq : LeafFree q) (hd : d.LeafFree) {P Q : Expectation}
    (hpfailed : (p.runWith d input).result = .noMatch) (hqfailed : (q.runWith d input).result = .noMatch)
    (hP : (p.runWith d input).furthest = some P) (hQ : (q.runWith d input).furthest = some Q) :
    ∃ R, ((Parser.or p q).runWith d input).result = .noMatch ∧ ((Parser.or p q).runWith d input).furthest = some R ∧
      Joined (FailedAt Q.offset (q.runWith d input)) P Q R := by
  have hpending := ending_runCourse hp hd hpfailed
  have hqending := ending_runCourse hq hd hqfailed
  obtain ⟨hending, hhistory⟩ := runCourse_or hpending hqending
  rw [runWith_of_ending hp hd hpending] at hP
  rw [runWith_of_ending hq hd hqending] at hQ
  obtain ⟨R, hR, hjoined⟩ := furthestOf_append hP hQ
  rw [runWith_of_ending (p := .or p q) ⟨hp, hq⟩ hd hending, hhistory, hR]
  refine ⟨R, rfl, rfl, ?_⟩
  rw [failedAt_runWith_iff hq hd hqending]
  exact hjoined

/-- When both parts of a choice fail, so does the choice. It expects what the part does that got further, and where
    they got equally far what both do; but where a rule of the second part failed there, that leaves only what the second
    part expects. The other order gets as far, and expects the same unless they got equally far and a rule of either of
    them failed there. What the second part expects is never lost to the first, whatever rules that has. -/
theorem alternatives_expected (hp : LeafFree p) (hq : LeafFree q) (hd : d.LeafFree) {P Q : Expectation}
    (hpfailed : (p.runWith d input).result = .noMatch) (hqfailed : (q.runWith d input).result = .noMatch)
    (hP : (p.runWith d input).furthest = some P) (hQ : (q.runWith d input).furthest = some Q) :
    let pq := (Parser.or p q).runWith d input
    let qp := (Parser.or q p).runWith d input
    let hidden := FailedAt P.offset (p.runWith d input) ∨ FailedAt Q.offset (q.runWith d input)
    ∃ R R', pq.result = .noMatch ∧ pq.furthest = some R ∧ Joined (FailedAt Q.offset (q.runWith d input)) P Q R ∧
      qp.result = .noMatch ∧ qp.furthest = some R' ∧ Joined (FailedAt P.offset (p.runWith d input)) Q P R' ∧
      R.offset = R'.offset ∧
      (¬(P.offset = Q.offset ∧ hidden) → ∀ what, what ∈ R.expected ↔ what ∈ R'.expected) ∧
      (P.offset ≤ Q.offset → ∀ what ∈ Q.expected, what ∈ R.expected) := by
  intro pq qp hidden
  obtain ⟨R, hfailed, hR, hjoined⟩ := exists_joined hp hq hd hpfailed hqfailed hP hQ
  obtain ⟨R', hfailed', hR', hjoined'⟩ := exists_joined hq hp hd hqfailed hpfailed hQ hP
  refine ⟨R, R', hfailed, hR, hjoined, hfailed', hR', hjoined', hjoined.offset_eq hjoined', fun hshown what => ?_,
    fun hle what hwhat => hjoined.mem_of_second hle hwhat⟩
  exact hjoined.mem_iff_mem hjoined' fun heq =>
    ⟨fun hreplaced => hshown ⟨heq, Or.inr hreplaced⟩, fun hreplaced => hshown ⟨heq, Or.inl hreplaced⟩⟩

end

/-- The rule for a letter fails where the sign is expected. It hides the sign when it comes second, and not when it comes
    first. -/
theorem alternatives_expected_sign :
    let sign : Closed String := (Parser.literal "1").keepRight (.literal "+")
    let letter : Closed String := (Parser.literal "1").keepRight ((Parser.literal "a").label "letter")
    ((Parser.or sign letter).run "1?").furthest = some ⟨1, ["letter"]⟩ ∧
      ∃ R, ((Parser.or letter sign).run "1?").furthest = some R ∧ R.offset = 1 ∧
        ∀ what, what ∈ R.expected ↔ what = "letter" ∨ what = "'+'" := by
  intro sign letter
  have hsign : sign.run "1?" = ⟨.noMatch, some ⟨1, ["'+'"]⟩, []⟩ := by decide +kernel
  have hletter : letter.run "1?" = ⟨.noMatch, some ⟨1, ["letter"]⟩, [.failed "letter" 1]⟩ := by decide +kernel
  have hshown : ¬FailedAt 1 (sign.run "1?") := by simp [FailedAt, hsign]
  have hreplaced : FailedAt 1 (letter.run "1?") := by simp [FailedAt, hletter]
  obtain ⟨R, R', -, hR, hjoined, -, hR', hjoined', -⟩ :=
    alternatives_expected (p := sign) (q := letter) ⟨trivial, fun _ => trivial⟩ ⟨trivial, fun _ => trivial⟩
      Definitions.leafFree_empty (congrArg Outcome.result hsign) (congrArg Outcome.result hletter)
      (congrArg Outcome.furthest hsign) (congrArg Outcome.furthest hletter)
  refine ⟨hR.trans (congrArg some (hjoined.eq_of_replaced rfl hreplaced)), R', hR', hjoined'.offset, fun what => ?_⟩
  simpa using hjoined'.mem_iff rfl hshown what

/-- Both letters are looked for at the start, but only the one with a name is expected when it comes second. -/
theorem alternatives_expected_hidden :
    let a : Closed String := .literal "a"
    let b : Closed String := (Parser.literal "b").label "letter"
    let P : Expectation := ⟨0, ["'a'"]⟩
    let Q : Expectation := ⟨0, ["letter"]⟩
    let R : Expectation := ⟨0, ["letter"]⟩
    let R' : Expectation := ⟨0, ["letter", "'a'"]⟩
    LeafFree a ∧ LeafFree b ∧ (a.run "c").result = .noMatch ∧ (b.run "c").result = .noMatch ∧
      (a.run "c").furthest = some P ∧ (b.run "c").furthest = some Q ∧ P.offset = Q.offset ∧
      ((Parser.or a b).run "c").furthest = some R ∧ ((Parser.or b a).run "c").furthest = some R' ∧
      (¬∀ what, what ∈ R.expected ↔ what ∈ P.expected ∨ what ∈ Q.expected) ∧
      ¬∀ what, what ∈ R.expected ↔ what ∈ R'.expected := by
  intro a b P Q R R'
  refine ⟨trivial, trivial, by decide +kernel, by decide +kernel, by decide +kernel, by decide +kernel, rfl,
    by decide +kernel, by decide +kernel, fun h => ?_, fun h => ?_⟩
  · have hmem : "'a'" ∈ R.expected := (h "'a'").mpr (by decide)
    revert hmem
    decide
  · have hmem : "'a'" ∈ R.expected := (h "'a'").mpr (by decide)
    revert hmem
    decide

end Reckoner.Parser
