import Mathlib.Data.List.Induction
import Reckoner.Proofs.Course

/-! The cursor is always valid. From a place between two characters of the text a run of a parser without
    leaves only ever puts the cursor at such places, and at none before its start: a literal that matches ends
    where a character ends, and all else goes back to a place where the cursor has been. So no part of the text
    is asked for that does not exist, and what is expected is expected at such places too. -/

namespace Reckoner.Parser
variable {ι : Type} {τ : ι → Type} {α β : Type} {text : List Char} {depth start x : Nat}

/-! ### Places -/

/-- `x` is between two characters of the text, or at one of its ends, and not before `start`. -/
structure Between (text : List Char) (start x : Nat) : Prop where
  start_le : start ≤ x
  le_length : x ≤ Text.byteLength text
  cut : ∃ rest, Text.dropBytes? text x = some rest

theorem Between.of_cut {rest : List Char} (h : start ≤ x) (hx : Text.dropBytes? text x = some rest) :
    Between text start x := by
  obtain ⟨u, htext, hu⟩ := Text.eq_append_of_dropBytes? hx
  refine ⟨h, ?_, rest, hx⟩
  rw [htext, Text.byteLength_append]
  omega

/-- Of two cuts the one that is further on leaves a last part of what the other one leaves. -/
theorem suffix_of_dropBytes? {w u : List Char} {x y : Nat} (hx : Text.dropBytes? text x = some w)
    (hy : Text.dropBytes? text y = some u) (hxy : x ≤ y) : u <:+ w := by
  obtain ⟨v, htext, hv⟩ := Text.eq_append_of_dropBytes? hx
  obtain ⟨v', htext', hv'⟩ := Text.eq_append_of_dropBytes? hy
  rcases List.append_eq_append_iff.mp (htext.symm.trans htext') with ⟨z, -, hw⟩ | ⟨z, hz, hw⟩
  · exact ⟨z, hw.symm⟩
  · -- The cuts are at the same place.
    have hlength := congrArg Text.byteLength hz
    rw [Text.byteLength_append] at hlength
    have hnil : z = [] := by
      have := Text.length_le_byteLength z
      exact List.length_eq_zero_iff.mp (by omega)
    rw [hw, hnil]
    exact List.suffix_rfl

/-! ### Courses -/

/-- The steps, done with the cursor at `x`, put it at valid places only, relabel at such places only, and do not
    end because the cursor is at no such place. -/
structure Safe (text : List Char) (start x : Nat) (c : Course α) : Prop where
  lands : ∀ before, before <+: c.steps → Between text start (land before x)
  relabels : ∀ offset name, .relabel offset name ∈ c.steps → Between text start offset
  ending : c.ending ≠ .halted .badOffset

namespace Safe
variable {c : Course α}

theorem landing (h : Safe text start x c) : Between text start (land c.steps x) := h.lands _ (List.prefix_refl _)

theorem stay {ending : Ending α} (hx : Between text start x) (hending : ending ≠ .halted .badOffset) :
    Safe text start x ⟨ending, []⟩ where
  lands before hbefore := by
    rw [List.prefix_nil.mp hbefore]
    exact hx
  relabels offset name h := by cases h
  ending := hending

/-- Steps followed by those of a course from where they lead. -/
theorem append {d : Course β} {ending : Ending β} (hc : Safe text start x c)
    (hd : Safe text start (land c.steps x) d) (hending : ending = d.ending) :
    Safe text start x ⟨ending, c.steps ++ d.steps⟩ where
  lands before hbefore := by
    rcases List.prefix_or_prefix_of_prefix hbefore (List.prefix_append c.steps d.steps) with h | ⟨after, rfl⟩
    · exact hc.lands before h
    · rw [land_append]
      exact hd.lands after ((List.prefix_append_right_inj _).mp hbefore)
  relabels offset name h := by
    rcases List.mem_append.mp h with h | h
    · exact hc.relabels offset name h
    · exact hd.relabels offset name h
  ending := hending ▸ hd.ending

theorem ends {ending : Ending β} (h : Safe text start x c) (hending : ending ≠ .halted .badOffset) :
    Safe text start x ⟨ending, c.steps⟩ := ⟨h.lands, h.relabels, hending⟩

/-- A step that leads from one valid place to another, and then a course from there. -/
theorem after (step : Step) {d : Course α} (hx : Between text start x) (hd : Safe text start (step.move x) d)
    (hstep : ∀ offset name, step = .relabel offset name → Between text start offset) :
    Safe text start x (d.after step) where
  lands before hbefore := by
    rcases List.prefix_cons_iff.mp hbefore with rfl | ⟨more, rfl, hmore⟩
    · exact hx
    · exact hd.lands more hmore
  relabels offset name h := by
    rcases List.mem_cons.mp h with h | h
    · exact hstep offset name h.symm
    · exact hd.relabels offset name h
  ending := hd.ending

theorem single {step : Step} {ending : Ending α} (hx : Between text start x) (hmove : Between text start (step.move x))
    (hstep : ∀ offset name, step = .relabel offset name → Between text start offset)
    (hending : ending ≠ .halted .badOffset) : Safe text start x ⟨ending, [step]⟩ :=
  after step hx (stay hmove hending) hstep

theorem andThen {next : α → Nat → Course β} (hc : Safe text start x c)
    (hnext : ∀ a y, Between text start y → Safe text start y (next a y)) :
    Safe text start x (c.andThen x next) := by
  have hland := hc.landing
  have hending := hc.ending
  obtain ⟨ending, steps⟩ := c
  cases ending with
  | matched a => exact hc.append (hnext a _ hland) rfl
  | noMatch => exact hc.ends (by simp)
  | halted f => exact hc.ends (by simpa using hending)

theorem orElse {next : Course α} (hc : Safe text start x c)
    (hnext : ∀ y, Between text start y → Safe text start y next) : Safe text start x (c.orElse next) := by
  have hland := hc.landing
  have hending := hc.ending
  obtain ⟨ending, steps⟩ := c
  cases ending with
  | matched a => exact hc.ends (by simp)
  | noMatch => exact hc.append (hnext _ hland) rfl
  | halted f => exact hc.ends (by simpa using hending)

theorem map (f : α → β) (hc : Safe text start x c) : Safe text start x (c.map f) := by
  have hland := hc.landing
  have hending := hc.ending
  obtain ⟨ending, steps⟩ := c
  cases ending with
  | matched a => exact hc.append (stay hland (by simp)) rfl
  | noMatch => exact hc.ends (by simp)
  | halted f => exact hc.ends (by simpa using hending)

theorem restore {d : Course α} {y : Nat} (hx : Between text start x) (hd : Safe text start y d) :
    Safe text start x (d.after (.restore y)) :=
  after (.restore y) hx hd (by simp)

theorem backTo {y : Nat} (hc : Safe text start x c) (hy : Between text start y) : Safe text start x (c.backTo y) :=
  hc.orElse fun _ hz => single hz hy (by simp) (by simp)

theorem label (name : String) {y : Nat} (hc : Safe text start x c) (hy : Between text start y) :
    Safe text start x (c.label name y) := by
  have hland := hc.landing
  have hending := hc.ending
  obtain ⟨ending, steps⟩ := c
  cases ending with
  | matched a =>
    have hrecord : Safe text start (land steps x)
        (⟨.matched a, [.record (.matched name y (land steps y))]⟩ : Course α) :=
      single hland hland (by simp) (by simp)
    exact hc.append hrecord rfl
  | noMatch =>
    have hrelabel : Safe text start (land steps x) (⟨.noMatch, [.relabel y name]⟩ : Course α) :=
      single hland hland (by rintro _ _ ⟨⟩; exact hy) (by simp)
    have hrecord : Safe text start (land steps x)
        (⟨.noMatch, [.record (.failed name y), .relabel y name]⟩ : Course α) :=
      after (.record (.failed name y)) hland hrelabel (by simp)
    exact hc.append hrecord rfl
  | halted f => exact hc.ends (by simpa using hending)

/-- A literal that matches is all of what it passes over, so it ends between two characters. -/
theorem literal (expected : String) (hx : Between text start x) :
    Safe text start x (.literal expected text x) := by
  obtain ⟨rest, hrest⟩ := hx.cut
  unfold Course.literal
  simp only [hrest]
  split
  · next hstart =>
    obtain ⟨u, rfl⟩ := List.isPrefixOf_iff_prefix.mp hstart
    obtain ⟨v, htext, hv⟩ := Text.eq_append_of_dropBytes? hrest
    have hend : Text.dropBytes? text (x + Text.byteLength expected.toList) = some u :=
      Text.dropBytes?_eq_some_iff.mpr
        ⟨v ++ expected.toList, by rw [htext, List.append_assoc], by rw [Text.byteLength_append, hv]⟩
    simp only [hend]
    have hland : Between text start (x + Text.byteLength expected.toList) :=
      Between.of_cut (Nat.le_trans hx.start_le (Nat.le_add_right _ _)) hend
    exact single hx hland (by simp) (by simp)
  · exact single hx hx (by simp) (by simp)

end Safe

/-! ### Runs -/

theorem unroll_safe {unfold : (Nat → Course α) → Nat → Course α}
    (h : ∀ self : Nat → Course α, (∀ x, Between text start x → Safe text start x (self x)) →
      ∀ x, Between text start x → Safe text start x (unfold self x)) :
    ∀ (k x : Nat), Between text start x → Safe text start x (unroll k unfold x)
  | 0, _, hx => Safe.stay hx (by simp)
  | k + 1, x, hx => h _ (unroll_safe h k) x hx

theorem LeafFree.course_safe {p : Parser τ α} (hp : LeafFree p) {env : CourseEnvironment τ}
    (henv : ∀ i x, Between text start x → Safe text start x (env i x)) {x : Nat} (hx : Between text start x) :
    Safe text start x (course text depth p env x) := by
  induction p generalizing x with
  | literal expected => exact Safe.literal expected hx
  | pure _ | fail => exact Safe.stay hx (by simp)
  | leaf _ => exact hp.elim
  | chain p f ihp ihf => exact (ihp hp.1 henv hx).andThen fun a y hy => (ihf a (hp.2 a) henv hy).backTo hx
  | map p f ih => exact (ih hp henv hx).map f
  | or p q ihp ihq => exact (ihp hp.1 henv hx).orElse fun y hy => Safe.restore hy (ihq hp.2 henv hx)
  | label p name ih => exact (ih hp henv hx).label name hx
  | lazy make ih => exact ih () hp henv hx
  | handle i => exact henv i x hx
  | recursive body ih =>
    refine unroll_safe (fun self hself y hy => ih hp (fun i z hz => ?_) hy) depth x hx
    cases i with
    | none => exact hself z hz
    | some i => exact henv i z hz
  | weaken p ih => exact ih hp (fun i => henv (some i)) hx

theorem courses_safe {d : Definitions τ} (hd : d.LeafFree) (i : ι) {x : Nat} (hx : Between text start x) :
    Safe text start x (d.courses text depth i x) := by
  induction depth generalizing i x with
  | zero => exact Safe.stay hx (by simp)
  | succ depth ih =>
    simp only [Definitions.courses]
    cases hp : d.parser? i with
    | none => exact Safe.stay hx (by simp)
    | some p => exact (hd i p hp).course_safe (fun i x hx => ih i hx) hx

/-! ### Expectations -/

/-- What is expected in `t` was expected in `s` already, or is expected at a valid place that is not before the
    cursor of `s`. -/
def ExpectsBetween (text : List Char) (s t : State) : Prop :=
  ∀ e, t.furthest = some e → s.furthest = some e ∨ Between text s.offset e.offset

theorem offset_of_note {f : Furthest} {e : Expectation} {offset : Nat} {what : String}
    (h : f.note offset what = some e) : f = some e ∨ e.offset = offset := by
  unfold Furthest.note at h
  grind

theorem offset_of_relabel {f : Furthest} {e : Expectation} {offset : Nat} {name : String}
    (h : f.relabel offset name = some e) : f = some e ∨ e.offset = offset := by
  unfold Furthest.relabel at h
  grind

theorem ExpectsBetween.perform {s t : State} {step : Step} (h : ExpectsBetween text s t)
    (hcursor : Between text s.offset t.offset)
    (hrelabel : ∀ offset name, step = .relabel offset name → Between text s.offset offset) :
    ExpectsBetween text s (step.perform t) := by
  intro e he
  cases step with
  | advance _ | restore _ | record _ => exact h e he
  | expect what =>
    rcases offset_of_note he with hkept | hnew
    · exact h e hkept
    · exact Or.inr (hnew ▸ hcursor)
  | relabel offset name =>
    rcases offset_of_relabel he with hkept | hnew
    · exact h e hkept
    · exact Or.inr (hnew ▸ hrelabel offset name rfl)

theorem Safe.expectsBetween {s : State} {c : Course α} (hc : Safe text s.offset s.offset c) {before : List Step}
    (hbefore : before <+: c.steps) : ExpectsBetween text s (perform before s) := by
  -- The last step is taken off, since it is judged by where the steps before it lead.
  induction before using List.reverseRecOn with
  | nil => exact fun e he => Or.inl he
  | append_singleton before step ih =>
    have hshorter : before <+: c.steps := (List.prefix_append before [step]).trans hbefore
    have hmem : step ∈ c.steps := hbefore.subset (by simp)
    rw [perform_append]
    refine (ih hshorter).perform ?_ fun offset name hstep => hc.relabels offset name (hstep ▸ hmem)
    rw [offset_perform]
    exact hc.lands before hshorter

/-! ### The result -/

theorem Safe.result {s : State} {w : List Char} {c : Course α} (hc : Safe text s.offset s.offset c)
    (hs : s.rest? text = some w) :
    ((c.reply s).outcome text).result ≠ .halted .badOffset ∧
      ∀ a remaining, ((c.reply s).outcome text).result = .matched a remaining → remaining.toList <:+ w := by
  have hland := hc.landing
  have hending := hc.ending
  obtain ⟨ending, steps⟩ := c
  cases ending with
  | matched a =>
    obtain ⟨u, hu⟩ := hland.cut
    have hrest : (perform steps s).rest? text = some u := by rw [State.rest?, offset_perform, hu]
    simp only [Course.reply, Reply.outcome, hrest]
    refine ⟨by simp, fun b remaining h => ?_⟩
    cases h
    rw [String.toList_ofList]
    exact suffix_of_dropBytes? hs hu hland.start_le
  | noMatch => simp [Course.reply, Reply.outcome]
  | halted f => simpa [Course.reply, Reply.outcome] using hending

/-- In a run of a parser without leaves that starts between two characters of the text, the cursor is between two
    of its characters at every moment, and never before the start; the same is true of every place where
    something comes to be expected. The run does not fail for want of such a place, and what is left after a match
    is a last part of what was left at the start. -/
theorem cursor_between {p : Parser τ α} {d : Definitions τ} (hp : LeafFree p) (hd : d.LeafFree) {s : State}
    {w : List Char} (hs : s.rest? text = some w) :
    let run := course text depth p (d.courses text depth) s.offset
    let reply := exec text depth p (d.environment text depth) s
    reply = run.reply s ∧
      (∀ before, before <+: run.steps →
        Between text s.offset (perform before s).offset ∧ ExpectsBetween text s (perform before s)) ∧
      (∀ offset name, .relabel offset name ∈ run.steps → Between text s.offset offset) ∧
      (reply.outcome text).result ≠ .halted .badOffset ∧
      ∀ a remaining, (reply.outcome text).result = .matched a remaining → remaining.toList <:+ w := by
  intro run reply
  have hrun : Safe text s.offset s.offset run :=
    hp.course_safe (fun i x hx => courses_safe hd i hx) (Between.of_cut (Nat.le_refl _) hs)
  have hreply : reply = run.reply s := exec_eq_course hp hd s
  refine ⟨hreply, fun before hbefore => ⟨?_, hrun.expectsBetween hbefore⟩, hrun.relabels, ?_⟩
  · rw [offset_perform]
    exact hrun.lands before hbefore
  · rw [hreply]
    exact hrun.result hs

/-- The empty literal and letters of two bytes, repeated by way of a handle, and a branch that is given up. -/
theorem cursor_between_letters :
    let text := ['x', 'é', 'é', 'z']
    let letters : Parser (fun _ : Unit => Unit) Unit :=
      .or (((Parser.literal "é").keepRight (.literal "")).chain fun _ => .handle ()) (.pure ())
    let d := Definitions.empty.define () (letters.label "letters")
    let p : Parser (fun _ : Unit => Unit) Unit := .or ((Parser.handle ()).keepLeft (.literal "zz")) (.handle ())
    let reply := exec text 5 p (d.environment text 5) { offset := 1 }
    LeafFree p ∧ d.LeafFree ∧
      (reply.outcome text).result = .matched () "z" ∧ (reply.outcome text).furthest = some ⟨5, ["'é'", "'zz'"]⟩ ∧
      ∀ before, before <+: (course text 5 p (d.courses text 5) 1).steps →
        Between text 1 (perform before { offset := 1 }).offset := by
  intro text letters d p reply
  have hd : d.LeafFree := by
    rintro ⟨⟩ q hq
    obtain rfl : letters.label "letters" = q := by simpa [d, Definitions.define, Definitions.empty] using hq
    exact ⟨⟨⟨trivial, fun _ => trivial⟩, fun _ => trivial⟩, trivial⟩
  have hp : LeafFree p := ⟨⟨trivial, fun _ => trivial⟩, trivial⟩
  have hresult : (reply.outcome text).result = .matched () "z" := by decide +kernel
  have hfurthest : (reply.outcome text).furthest = some ⟨5, ["'é'", "'zz'"]⟩ := by decide +kernel
  refine ⟨hp, hd, hresult, hfurthest, fun before hbefore => ?_⟩
  have hs : State.rest? { offset := 1 } text = some ['é', 'é', 'z'] := rfl
  exact ((cursor_between hp hd hs).2.1 before hbefore).1

end Reckoner.Parser
