import Reckoner.Proofs.Position
import Reckoner.Workbench.Cursor

/-! What the furthest expectation says of everything that was noted. Notes and names of rules come in any order, and at
    offsets that go forth and back with the cursor. What is kept of them has a closed form (`furthestOf`): the largest
    offset, with the texts that came there since the last rule that failed there, each of them once. -/

namespace Reckoner.Parser

/-! ### Lists -/

theorem eraseDups_concat (texts : List String) (what : String) :
    (texts ++ [what]).eraseDups = if what ∈ texts then texts.eraseDups else texts.eraseDups ++ [what] := by
  rw [List.eraseDups_append]
  by_cases h : what ∈ texts <;> simp [List.removeAll, List.eraseDups_cons, h]

theorem nodup_eraseDups (texts : List String) : texts.eraseDups.Nodup := by
  induction texts using List.reverseRecOn with
  | nil => exact List.nodup_nil
  | append_singleton texts what ih =>
    rw [eraseDups_concat]
    split
    · exact ih
    · next h =>
      rw [← List.concat_eq_append]
      exact ih.concat fun hmem => h (List.mem_eraseDups.mp hmem)

theorem max?_concat (offsets : List Nat) (offset : Nat) :
    (offsets ++ [offset]).max? = some (offsets.max?.elim offset (max · offset)) := by
  cases offsets with
  | nil => rfl
  | cons x offsets =>
    rw [List.cons_append, List.max?_cons', List.foldl_append, List.max?_cons']
    rfl

/-! ### Events -/

/-- Something that was expected at `offset`: a note, or the name of a rule that failed there, which takes the place of
    all that was expected there before. -/
structure Event where
  offset : Nat
  what : String
  replaces : Bool
  deriving DecidableEq, Repr

/-- What is expected after the event. -/
def Event.apply (e : Event) (f : Furthest) : Furthest :=
  if e.replaces then f.relabel e.offset e.what else f.note e.offset e.what

/-- What is expected after the events, one after the other. -/
def Furthest.after (f : Furthest) (events : List Event) : Furthest := events.foldl (fun f e => e.apply f) f

/-- The event that the step is when it is done with the cursor at `x`. -/
def Step.event? (x : Nat) : Step → Option Event
  | .expect what => some ⟨x, what, false⟩
  | .relabel offset name => some ⟨offset, name, true⟩
  | .advance _ | .restore _ | .record _ => none

/-- The events among the steps, in their order, when the cursor is at `x` before them. -/
def history : List Step → Nat → List Event
  | [], _ => []
  | step :: steps, x => (step.event? x).toList ++ history steps (step.move x)

section
variable (f : Furthest) (events more : List Event) (e : Event)

@[simp] theorem after_nil : f.after [] = f := rfl

@[simp] theorem after_cons : f.after (e :: events) = (e.apply f).after events := rfl

@[simp] theorem after_append : f.after (events ++ more) = (f.after events).after more := List.foldl_append

theorem Event.apply_of_lt {expected : List String} {offset : Nat} (h : e.offset < offset) :
    e.apply (some ⟨offset, expected⟩) = some ⟨offset, expected⟩ := by
  unfold Event.apply
  split
  · exact Furthest.relabel_of_lt h
  · exact Furthest.note_of_lt h

theorem Event.apply_of_gt {expected : List String} {offset : Nat} (h : offset < e.offset) :
    e.apply (some ⟨offset, expected⟩) = some ⟨e.offset, [e.what]⟩ := by
  unfold Event.apply
  split
  · exact Furthest.relabel_of_le h.le
  · exact Furthest.note_of_gt h

theorem Event.apply_none : e.apply none = some ⟨e.offset, [e.what]⟩ := by
  unfold Event.apply
  split <;> rfl

theorem Event.apply_of_replaces {f : Furthest} (he : e.replaces = true) (h : f.reach ≤ .some e.offset) :
    e.apply f = some ⟨e.offset, [e.what]⟩ := by
  cases f with
  | none => exact e.apply_none
  | some x =>
    rw [Event.apply, if_pos he]
    exact Furthest.relabel_of_le (WithBot.coe_le_coe.mp h)

theorem Event.apply_self (he : e.replaces = false) (expected : List String) : e.apply (some ⟨e.offset, expected⟩) =
    some ⟨e.offset, if e.what ∈ expected then expected else expected ++ [e.what]⟩ := by
  rw [Event.apply, he, if_neg Bool.false_ne_true]
  by_cases h : e.what ∈ expected
  · rw [if_pos h]
    exact Furthest.note_of_mem h
  · rw [if_neg h]
    exact Furthest.note_of_notMem h

theorem Event.reach_apply : (e.apply f).reach = max f.reach (.some e.offset) := by
  unfold Event.apply
  split
  · exact f.reach_relabel e.offset e.what
  · exact f.reach_note e.offset e.what

end

theorem history_append (steps steps' : List Step) (x : Nat) :
    history (steps ++ steps') x = history steps x ++ history steps' (land steps x) := by
  induction steps generalizing x with
  | nil => rfl
  | cons step steps ih => rw [List.cons_append, history, history, ih, List.append_assoc, land_cons]

/-- Steps change the expectation by their events and in no other way. -/
theorem furthest_perform (steps : List Step) (s : State) :
    (perform steps s).furthest = s.furthest.after (history steps s.offset) := by
  induction steps generalizing s with
  | nil => rfl
  | cons step steps ih =>
    rw [perform_cons, ih, step.offset_perform, history, after_append]
    cases step <;> rfl

/-! ### The closed form -/

/-- The events from the last one on that replaces; all of them when none does. -/
def sinceReplaced : List Event → List Event
  | [] => []
  | e :: events => if events.any (·.replaces) then sinceReplaced events else e :: events

/-- The texts of the events, without those that were replaced; each text once, where it came first. -/
def textsOf (events : List Event) : List String := ((sinceReplaced events).map (·.what)).eraseDups

/-- The furthest offset of the events, with what was expected there. -/
def furthestOf (events : List Event) : Furthest :=
  (events.map (·.offset)).max?.map fun offset => ⟨offset, textsOf (events.filter (·.offset = offset))⟩

section
variable {events : List Event} {e : Event}

theorem sinceReplaced_ne_nil (h : events ≠ []) : sinceReplaced events ≠ [] := by
  induction events with
  | nil => exact absurd rfl h
  | cons e events ih =>
    rw [sinceReplaced]
    split
    · next hany => exact ih fun hnil => by simp [hnil] at hany
    · exact List.cons_ne_nil _ _

theorem sinceReplaced_concat_of_replaces (h : e.replaces = true) : sinceReplaced (events ++ [e]) = [e] := by
  induction events with
  | nil => rfl
  | cons x events ih => simp [sinceReplaced, h, ih]

theorem sinceReplaced_concat (h : e.replaces = false) :
    sinceReplaced (events ++ [e]) = sinceReplaced events ++ [e] := by
  induction events with
  | nil => rfl
  | cons x events ih =>
    simp only [List.cons_append, sinceReplaced, List.any_append, List.any_cons, List.any_nil, h, Bool.or_false, ih]
    split <;> rfl

theorem textsOf_singleton (e : Event) : textsOf [e] = [e.what] := by
  simp [textsOf, sinceReplaced, List.eraseDups_cons]

theorem textsOf_concat_of_replaces (h : e.replaces = true) : textsOf (events ++ [e]) = [e.what] := by
  rw [textsOf, sinceReplaced_concat_of_replaces h, List.map_singleton]
  exact List.eraseDups_cons

theorem textsOf_concat (h : e.replaces = false) : textsOf (events ++ [e]) =
    if e.what ∈ textsOf events then textsOf events else textsOf events ++ [e.what] := by
  unfold textsOf
  rw [sinceReplaced_concat h, List.map_append, List.map_singleton, eraseDups_concat]
  simp only [List.mem_eraseDups]

theorem textsOf_ne_nil (h : events ≠ []) : textsOf events ≠ [] := by
  obtain ⟨e, he⟩ := List.exists_mem_of_ne_nil _ (sinceReplaced_ne_nil h)
  exact List.ne_nil_of_mem (List.mem_eraseDups.mpr (List.mem_map_of_mem he))

/-- One more event changes the closed form as it changes what is expected. -/
theorem furthestOf_concat (events : List Event) (e : Event) :
    furthestOf (events ++ [e]) = e.apply (furthestOf events) := by
  unfold furthestOf
  rw [List.map_append, List.map_singleton, max?_concat]
  cases hmax : (events.map (·.offset)).max? with
  | none =>
    obtain rfl : events = [] := by simpa using hmax
    simp only [Option.elim_none, Option.map_some, Option.map_none, Event.apply_none]
    rw [List.nil_append, List.filter_cons_of_pos (by simp), List.filter_nil, textsOf_singleton]
  | some m =>
    have hle : ∀ x ∈ events, x.offset ≤ m := by simpa using (List.max?_eq_some_iff.mp hmax).2
    simp only [Option.elim_some, Option.map_some]
    rw [List.filter_append]
    -- The event is behind the furthest ones, among them, or beyond them.
    rcases Nat.lt_trichotomy e.offset m with hlt | rfl | hgt
    · rw [Nat.max_eq_left hlt.le, Event.apply_of_lt e hlt, List.filter_singleton]
      simp [hlt.ne]
    · rw [Nat.max_self, List.filter_cons_of_pos (by simp), List.filter_nil]
      cases he : e.replaces with
      | true => rw [textsOf_concat_of_replaces he, Event.apply_of_replaces e he (le_refl _)]
      | false => rw [textsOf_concat he, Event.apply_self e he]
    · have hnil : events.filter (·.offset = e.offset) = [] := by
        simpa using fun x hx => (Nat.lt_of_le_of_lt (hle x hx) hgt).ne
      rw [Nat.max_eq_right hgt.le, Event.apply_of_gt e hgt, hnil, List.nil_append, List.filter_cons_of_pos (by simp),
        List.filter_nil, textsOf_singleton]

/-- What is expected after the events is what the closed form says. -/
theorem after_eq_furthestOf (events : List Event) : Furthest.after none events = furthestOf events := by
  induction events using List.reverseRecOn with
  | nil => rfl
  | append_singleton events e ih =>
    rw [after_append, ih, furthestOf_concat]
    rfl

/-- Events behind others are without effect. -/
theorem furthestOf_filter {offset : Nat} (h : events.filter (offset ≤ ·.offset) ≠ []) :
    furthestOf (events.filter (offset ≤ ·.offset)) = furthestOf events := by
  obtain ⟨m, hmax⟩ : ∃ m, ((events.filter (offset ≤ ·.offset)).map (·.offset)).max? = some m :=
    Option.isSome_iff_exists.mp (List.isSome_max?_of_ne_nil (by simpa using h))
  obtain ⟨hmem, hall⟩ := List.max?_eq_some_iff.mp hmax
  obtain ⟨x, ⟨hx, hoffset⟩, rfl⟩ : ∃ x, (x ∈ events ∧ offset ≤ x.offset) ∧ x.offset = m := by simpa using hmem
  have hle : ∀ y ∈ events, offset ≤ y.offset → y.offset ≤ x.offset := fun y hy hle =>
    hall _ (List.mem_map_of_mem (List.mem_filter.mpr ⟨hy, by simpa using hle⟩))
  have hmax' : (events.map (·.offset)).max? = some x.offset := by
    refine List.max?_eq_some_iff.mpr ⟨List.mem_map_of_mem hx, ?_⟩
    simpa using fun y hy => (Nat.le_total offset y.offset).elim (hle y hy) fun hlt => hlt.trans hoffset
  have hfilter : (events.filter (offset ≤ ·.offset)).filter (·.offset = x.offset) =
      events.filter (·.offset = x.offset) := by
    rw [List.filter_filter]
    refine List.filter_congr fun y _ => ?_
    by_cases hy : y.offset = x.offset <;> simp [hy, hoffset]
  simp only [furthestOf, hmax, hmax', Option.map_some, hfilter]

end

/-! ### Steps and their history -/

theorem furthest_perform_fresh (steps : List Step) : (perform steps {}).furthest = furthestOf (history steps 0) :=
  (furthest_perform steps {}).trans (after_eq_furthestOf _)

/-- Whatever is done to a fresh state, what is expected furthest has a closed form. Nothing is expected when there was
    no note and no rule that failed; otherwise it is the largest offset of these with the texts that came there from
    the last rule on that failed there, each in the place where it came first. So there is always some text, none
    comes twice, the offset never gets smaller, and what happened at smaller offsets makes no difference. -/
theorem furthest_closed_form (steps : List Step) :
    let events := history steps 0
    let f := (perform steps {}).furthest
    (f = none ↔ events = []) ∧
    (∀ e, f = some e →
      (events.map (·.offset)).max? = some e.offset ∧
      e.expected = ((sinceReplaced (events.filter (·.offset = e.offset))).map (·.what)).eraseDups ∧
      e.expected ≠ [] ∧ e.expected.Nodup ∧
      ∀ steps', (history steps' 0).filter (e.offset ≤ ·.offset) = events.filter (e.offset ≤ ·.offset) →
        (perform steps' {}).furthest = f) ∧
    ∀ later, f.reach ≤ (perform (steps ++ later) {}).furthest.reach := by
  intro events f
  have hf : f = furthestOf events := furthest_perform_fresh steps
  refine ⟨?_, fun e he => ?_, fun later => ?_⟩
  · simp [hf, furthestOf]
  · obtain ⟨m, hmax, rfl⟩ := Option.map_eq_some_iff.mp (hf.symm.trans he)
    obtain ⟨x, hx, rfl⟩ : ∃ x ∈ events, x.offset = m := by simpa using (List.max?_eq_some_iff.mp hmax).1
    have hmem : x ∈ events.filter (x.offset ≤ ·.offset) := List.mem_filter.mpr ⟨hx, by simp⟩
    have hnil : events.filter (·.offset = x.offset) ≠ [] :=
      List.ne_nil_of_mem (List.mem_filter.mpr ⟨hx, by simp⟩)
    refine ⟨hmax, rfl, textsOf_ne_nil hnil, nodup_eraseDups _, fun steps' hsteps' => ?_⟩
    rw [furthest_perform_fresh, ← furthestOf_filter (hsteps' ▸ List.ne_nil_of_mem hmem), hsteps',
      furthestOf_filter (List.ne_nil_of_mem hmem), ← hf]
  · rw [perform_append, reach_perform later]
    exact le_max_left f.reach _

/-- Notes at 2, at 0 and at 2 again, with a rule that failed at 2 between them, and one that failed at 1 and comes too
    late. Without what came at smaller offsets the same is expected. -/
theorem furthest_closed_form_back_and_forth :
    let steps : List Step := [.advance 2, .expect "a", .restore 0, .expect "b", .relabel 2 "rule", .advance 2,
      .expect "c", .expect "rule", .expect "c", .relabel 1 "late"]
    let steps' : List Step := [.restore 2, .expect "a", .relabel 2 "rule", .expect "c", .expect "rule", .expect "c"]
    let e : Expectation := ⟨2, ["rule", "c"]⟩
    (perform steps {}).furthest = some e ∧
      (history steps' 0).filter (2 ≤ ·.offset) = (history steps 0).filter (2 ≤ ·.offset) ∧
      (perform steps' {}).furthest = (perform steps {}).furthest := by
  intro steps steps' e
  have he : (perform steps {}).furthest = some e := by decide
  have hsteps' : (history steps' 0).filter (2 ≤ ·.offset) = (history steps 0).filter (2 ≤ ·.offset) := by decide
  obtain ⟨-, hexpectation, -⟩ := furthest_closed_form steps
  obtain ⟨-, -, -, -, hsame⟩ := hexpectation e he
  exact ⟨he, hsteps', hsame steps' hsteps'⟩

end Reckoner.Parser

namespace Reckoner.Workbench
open Reckoner.Parser

/-! ### States driven by hand -/

/-- What the move does to a state, unless it runs a parser. -/
def Move.steps : Move → List Parser.Step
  | .rest | .parse _ => []
  | .advance size => [.advance size]
  | .restore offset => [.restore offset]
  | .expect what => [.expect what]
  | .relabel offset name => [.relabel offset name]

variable {rules : Rulebook} {text : List Char} {answer : Answer} {s t : State}

theorem Move.eq_perform {move : Move} (hmove : ∀ recipe, move ≠ .parse recipe)
    (h : move.apply rules text s = .ok (answer, t)) : t = perform move.steps s := by
  cases move with
  | parse recipe => exact absurd rfl (hmove recipe)
  | restore _ | expect _ | relabel _ _ =>
    cases h
    rfl
  | rest =>
    simp only [Move.apply] at h
    split at h <;> cases h
    rfl
  | advance size =>
    simp only [Move.apply] at h
    split at h <;> cases h
    next hadvance =>
      obtain ⟨_, -, rfl⟩ := Option.map_eq_some_iff.mp hadvance
      rfl

theorem exists_steps_of_mem_drive {moves : List Move} (hmoves : ∀ recipe, .parse recipe ∉ moves)
    (h : .ok (answer, t) ∈ drive rules text s moves) :
    ∃ done, done <+: moves ∧ t = perform (done.flatMap Move.steps) s := by
  induction moves generalizing s with
  | nil => cases h
  | cons move moves ih =>
    have hmove : ∀ recipe, move ≠ .parse recipe := fun recipe heq => hmoves recipe (heq ▸ List.mem_cons_self)
    simp only [drive] at h
    split at h
    · next a u happly =>
      have hu : u = perform move.steps s := Move.eq_perform hmove happly
      rcases List.mem_cons.mp h with heq | h
      · cases heq
        exact ⟨[move], by simp, by rw [hu]; simp⟩
      · obtain ⟨done, hdone, rfl⟩ := ih (fun recipe hmem => hmoves recipe (List.mem_cons_of_mem _ hmem)) h
        exact ⟨move :: done, by simpa using hdone, by rw [hu, List.flatMap_cons, perform_append]⟩
    · simp at h

/-- In each state that a fresh one is driven to without running a parser, what is expected has the closed form. -/
theorem furthest_drive {moves : List Move} (hmoves : ∀ recipe, .parse recipe ∉ moves)
    (h : .ok (answer, t) ∈ drive rules text {} moves) :
    ∃ done, done <+: moves ∧ t.furthest = furthestOf (history (done.flatMap Move.steps) 0) := by
  obtain ⟨done, hdone, rfl⟩ := exists_steps_of_mem_drive hmoves h
  exact ⟨done, hdone, furthest_perform_fresh _⟩

end Reckoner.Workbench
