/-! What a parse expected where it got furthest. Every failed attempt to match a text is noted at its
    offset; notes behind the furthest offset are dropped, notes at it are collected, and a note beyond it
    starts afresh. A rule that fails where it started puts its own name in place of all of these. -/

namespace Reckoner.Parser

/-- What would have let a parse go on at `offset`, in the order in which it was looked for. -/
structure Expectation where
  offset : Nat
  expected : List String
  deriving DecidableEq, Repr

/-- The expectation at the furthest offset at which something was expected, if there is one. -/
abbrev Furthest := Option Expectation

namespace Furthest

/-- Notes that `what` was expected at `offset`. -/
def note (f : Furthest) (offset : Nat) (what : String) : Furthest :=
  match f with
  | none => some ⟨offset, [what]⟩
  | some e =>
    if offset < e.offset then some e
    else if offset = e.offset then
      if what ∈ e.expected then some e else some ⟨offset, e.expected ++ [what]⟩
    else some ⟨offset, [what]⟩

/-- Puts `name` in place of all that was expected at `offset`, unless the parse got further. -/
def relabel (f : Furthest) (offset : Nat) (name : String) : Furthest :=
  match f with
  | none => some ⟨offset, [name]⟩
  | some e => if offset < e.offset then some e else some ⟨offset, [name]⟩

section
variable {e : Expectation} {offset : Nat} {what name : String}

@[simp] theorem note_none : note none offset what = some ⟨offset, [what]⟩ := rfl

theorem note_of_lt (h : offset < e.offset) : note (some e) offset what = some e := by
  simp [note, h]

theorem note_of_mem (h : what ∈ e.expected) : note (some e) e.offset what = some e := by
  simp [note, h]

theorem note_of_notMem (h : what ∉ e.expected) :
    note (some e) e.offset what = some ⟨e.offset, e.expected ++ [what]⟩ := by
  simp [note, h]

theorem note_of_gt (h : e.offset < offset) : note (some e) offset what = some ⟨offset, [what]⟩ := by
  simp [note, show ¬offset < e.offset by omega, show offset ≠ e.offset by omega]

@[simp] theorem relabel_none : relabel none offset name = some ⟨offset, [name]⟩ := rfl

theorem relabel_of_lt (h : offset < e.offset) : relabel (some e) offset name = some e := by
  simp [relabel, h]

theorem relabel_of_le (h : e.offset ≤ offset) : relabel (some e) offset name = some ⟨offset, [name]⟩ := by
  simp [relabel, Nat.not_lt.mpr h]

end

end Furthest
end Reckoner.Parser
