import Reckoner.Proofs.History

/-! Trying again is idle. A parser without leaves that failed does the same when it is run once more from the same
    place, and what it expects then is expected already: what was put in place of other texts is put there again, and
    what was not replaced is still there. -/

namespace Reckoner.Parser
variable {ι : Type} {τ : ι → Type} {α : Type} {text : List Char} {depth : Nat}

/-! ### Events that come again -/

section
variable {f : Furthest} {events : List Event} {e : Event}

theorem reach_le_after (f : Furthest) (events : List Event) : f.reach ≤ (f.after events).reach := by
  induction events generalizing f with
  | nil => exact le_refl _
  | cons e events ih =>
    refine le_trans ?_ (ih (e.apply f))
    rw [e.reach_apply]
    exact le_max_left _ _

theorem offset_le_after (h : e ∈ events) : .some e.offset ≤ (f.after events).reach := by
  obtain ⟨before, later, rfl⟩ := List.append_of_mem h
  rw [after_append, after_cons]
  refine le_trans ?_ (reach_le_after _ later)
  rw [e.reach_apply]
  exact le_max_right _ _

theorem reach_after_le {bound : WithBot Nat} (hf : f.reach ≤ bound) (h : ∀ e ∈ events, .some e.offset ≤ bound) :
    (f.after events).reach ≤ bound := by
  induction events generalizing f with
  | nil => exact hf
  | cons e events ih =>
    refine ih ?_ fun x hx => h x (List.mem_cons_of_mem _ hx)
    rw [e.reach_apply]
    exact max_le hf (h e List.mem_cons_self)

theorem after_of_idle (h : ∀ e ∈ events, e.apply f = f) : f.after events = f := by
  induction events with
  | nil => rfl
  | cons e events ih =>
    rw [after_cons, h e List.mem_cons_self]
    exact ih fun x hx => h x (List.mem_cons_of_mem _ hx)

/-- An event that is not behind what is expected is part of it. -/
theorem Event.exists_apply (e : Event) (h : (e.apply f).reach ≤ .some e.offset) :
    ∃ expected, e.apply f = some ⟨e.offset, expected⟩ ∧ e.what ∈ expected := by
  cases f with
  | none => exact ⟨_, e.apply_none, List.mem_singleton_self _⟩
  | some x =>
    obtain ⟨offset, expected⟩ := x
    rcases Nat.lt_trichotomy e.offset offset with hlt | rfl | hgt
    · rw [e.apply_of_lt hlt] at h
      exact absurd (WithBot.coe_le_coe.mp h) (Nat.not_le.mpr hlt)
    · cases he : e.replaces with
      | true => exact ⟨_, e.apply_of_replaces he (le_refl _), List.mem_singleton_self _⟩
      | false =>
        refine ⟨_, e.apply_self he expected, ?_⟩
        split
        · assumption
        · exact List.mem_concat_self
    · exact ⟨_, e.apply_of_gt hgt, List.mem_singleton_self _⟩

/-- A text stays as long as no rule fails there and nothing is expected further on. -/
theorem mem_expected_after {offset : Nat} {expected expected' : List String} {what : String} (hwhat : what ∈ expected)
    (h : ∀ e ∈ events, e.offset = offset → e.replaces = false)
    (hafter : Furthest.after (some ⟨offset, expected⟩) events = some ⟨offset, expected'⟩) : what ∈ expected' := by
  induction events generalizing expected with
  | nil =>
    cases hafter
    exact hwhat
  | cons e events ih =>
    have hevents : ∀ x ∈ events, x.offset = offset → x.replaces = false := fun x hx => h x (List.mem_cons_of_mem _ hx)
    rw [after_cons] at hafter
    rcases Nat.lt_trichotomy e.offset offset with hlt | rfl | hgt
    · rw [e.apply_of_lt hlt] at hafter
      exact ih hwhat hevents hafter
    · rw [e.apply_self (h e List.mem_cons_self rfl)] at hafter
      refine ih ?_ hevents hafter
      split
      · exact hwhat
      · exact List.mem_append_left _ hwhat
    · have hle := reach_le_after (e.apply (some ⟨offset, expected⟩)) events
      rw [hafter, e.reach_apply] at hle
      exact absurd (WithBot.coe_le_coe.mp ((le_max_right _ _).trans hle)) (Nat.not_le.mpr hgt)

/-- What was expected before makes no difference from a rule on that fails where nothing was expected beyond. -/
theorem after_replaced {before later : List Event} (he : e.replaces = true) (hf : f.reach ≤ .some e.offset)
    (hbefore : ∀ x ∈ before, x.offset ≤ e.offset) :
    f.after (before ++ e :: later) = Furthest.after (some ⟨e.offset, [e.what]⟩) later := by
  have hreach : (f.after before).reach ≤ .some e.offset :=
    reach_after_le hf fun x hx => WithBot.coe_le_coe.mpr (hbefore x hx)
  rw [after_append, after_cons, e.apply_of_replaces he hreach]

/-- Where no event replaces at the furthest offset, each of them is behind it or its text is still there, so that it
    changes nothing when it comes again. -/
theorem apply_after_of_note {offset : Nat} {expected : List String} (h : f.after events = some ⟨offset, expected⟩)
    (hreplaces : ∀ x ∈ events, x.offset = offset → x.replaces = false) (he : e ∈ events) :
    e.apply (some ⟨offset, expected⟩) = some ⟨offset, expected⟩ := by
  have hle : e.offset ≤ offset := WithBot.coe_le_coe.mp ((offset_le_after he).trans_eq (congrArg Furthest.reach h))
  rcases Nat.lt_or_eq_of_le hle with hlt | rfl
  · exact e.apply_of_lt hlt
  · obtain ⟨before, later, rfl⟩ := List.append_of_mem he
    rw [after_append, after_cons] at h
    obtain ⟨expected', happly, hwhat⟩ := e.exists_apply ((reach_le_after _ later).trans_eq (congrArg Furthest.reach h))
    rw [happly] at h
    have hlater : ∀ x ∈ later, x.offset = e.offset → x.replaces = false := fun x hx =>
      hreplaces x (List.mem_append_right _ (List.mem_cons_of_mem _ hx))
    rw [e.apply_self (hreplaces e he rfl), if_pos (mem_expected_after hwhat hlater h)]

/-- The same events once more change nothing. -/
theorem after_after (f : Furthest) (events : List Event) : (f.after events).after events = f.after events := by
  have hreach : ∀ e ∈ events, .some e.offset ≤ (f.after events).reach := fun e he => offset_le_after he
  cases hf : f.after events with
  | none =>
    rw [hf] at hreach
    exact after_of_idle fun e he => absurd (hreach e he) (WithBot.not_coe_le_bot _)
  | some x =>
    obtain ⟨offset, expected⟩ := x
    rw [hf] at hreach
    by_cases hreplaced : ∃ e ∈ events, e.offset = offset ∧ e.replaces = true
    · -- From there on both times go the same way.
      obtain ⟨e, he, rfl, hreplaces⟩ := hreplaced
      obtain ⟨before, later, rfl⟩ := List.append_of_mem he
      have hbefore : ∀ x ∈ before, x.offset ≤ e.offset := fun x hx =>
        WithBot.coe_le_coe.mp (hreach x (List.mem_append_left _ hx))
      have hfirst : f.reach ≤ .some e.offset := (reach_le_after f _).trans_eq (congrArg Furthest.reach hf)
      rw [after_replaced hreplaces hfirst hbefore] at hf
      rw [after_replaced hreplaces (le_refl _) hbefore, hf]
    · have hnotes : ∀ x ∈ events, x.offset = offset → x.replaces = false := fun x hx hoffset => by
        simpa using fun hreplaces => hreplaced ⟨x, hx, hoffset, hreplaces⟩
      exact after_of_idle fun e he => apply_after_of_note hf hnotes he

end

/-! ### Runs that are tried again -/

/-- The state without its trace. -/
def State.untraced (s : State) : State := { s with trace := [] }

/-- The answer, but for the attempts that were made: whether there was a match, its value, where the cursor was left and
    what is expected. -/
def Reply.untraced : Reply α → Reply α
  | .matched a s => .matched a s.untraced
  | .noMatch s => .noMatch s.untraced
  | .halted f => .halted f

/-- The steps once more, from where they began, lead to the same place and leave nothing new. -/
theorem perform_again (steps : List Step) (s : State) :
    (perform steps ((perform steps s).restore s.offset)).untraced = (perform steps s).untraced := by
  have hfurthest : (perform steps ((perform steps s).restore s.offset)).furthest = (perform steps s).furthest := by
    rw [furthest_perform steps ((perform steps s).restore s.offset)]
    simp only [State.restore, furthest_perform steps s, after_after]
  simp only [State.untraced, offset_perform, hfurthest]
  rfl

/-- A parser without leaves with itself as its alternative answers what it answers alone, also in what it expects and
    whatever was expected before; only the attempts are made twice. -/
theorem exec_or_self {p : Parser τ α} {d : Definitions τ} (hp : LeafFree p) (hd : d.LeafFree) (s : State) :
    (exec text depth (.or p p) (d.environment text depth) s).untraced =
      (exec text depth p (d.environment text depth) s).untraced := by
  -- Both runs have the same course, since they start at the same place.
  let c : Course α := course text depth p (d.courses text depth) s.offset
  have hcourse : ∀ t, t.offset = s.offset → exec text depth p (d.environment text depth) t = c.reply t := by
    intro t ht
    rw [exec_eq_course hp hd, ht]
  rw [exec_or, hcourse s rfl]
  cases hending : c.ending with
  | matched a => simp only [Course.reply, hending, Reply.orElse_matched]
  | halted fault => simp only [Course.reply, hending, Reply.orElse_halted]
  | noMatch =>
    have hfailed : ∀ t, c.reply t = .noMatch (perform c.steps t) := fun t => by rw [Course.reply, hending]
    rw [hfailed, Reply.orElse_noMatch, hcourse ((perform c.steps s).restore s.offset) rfl, hfailed]
    exact congrArg Reply.noMatch (perform_again c.steps s)

/-- Letters are counted by way of a handle, and the number of them has to follow after one `z`. The rule for it takes
    the place of what was expected there before the first time, and of its own literal the second time. -/
theorem exec_or_self_count :
    let letters : Parser (fun _ : Unit => Nat) Nat :=
      .or (((Parser.literal "é").keepRight (.handle ())).map (· + 1)) (.pure 0)
    let d := Definitions.empty.define () (letters.label "letters")
    let p := (Parser.handle ()).chain fun n =>
      (Parser.literal "z").keepRight ((Parser.literal (toString n)).label "count")
    let text := ['é', 'é', 'z', '!']
    let s : State := { furthest := some ⟨5, ["'y'"]⟩ }
    LeafFree p ∧ d.LeafFree ∧
      (exec text 5 (.or p p) (d.environment text 5) s).untraced = (exec text 5 p (d.environment text 5) s).untraced ∧
      ((exec text 5 p (d.environment text 5) s).outcome text).furthest = some ⟨5, ["count"]⟩ := by
  intro letters d p text s
  have hp : LeafFree p := ⟨trivial, fun _ => ⟨trivial, fun _ => trivial⟩⟩
  have hd : d.LeafFree := by
    rintro ⟨⟩ q hq
    obtain rfl : letters.label "letters" = q := by simpa [d, Definitions.define, Definitions.empty] using hq
    exact ⟨⟨trivial, fun _ => trivial⟩, trivial⟩
  exact ⟨hp, hd, exec_or_self hp hd s, by decide +kernel⟩

end Reckoner.Parser
