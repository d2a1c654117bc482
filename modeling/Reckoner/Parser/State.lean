import Reckoner.Parser.Furthest
import Reckoner.Text.Bytes

/-! The state of a parse and what a parser answers. The state holds the cursor, which is a byte offset
    into the text that is parsed, the furthest expectation, and a trace of the labelled rules that were
    tried. A failure carries its state too: what was expected must survive it, and so does the cursor,
    which only some parsers put back. -/

namespace Reckoner.Parser

/-- What became of one attempt at a labelled rule. -/
inductive Attempt where
  | matched (rule : String) (start stop : Nat)
  | failed (rule : String) (start : Nat)
  deriving DecidableEq, Repr

/-- The state of one parse; `trace` holds the attempts made so far, latest first. -/
structure State where
  offset : Nat := 0
  furthest : Furthest := none
  trace : List Attempt := []
  deriving DecidableEq, Repr

namespace State
variable (s : State) (text : List Char)

/-- The part of `text` that has not been consumed yet; `none` when the cursor is not between two
    characters of `text`. -/
def rest? : Option (List Char) := Text.dropBytes? text s.offset

/-- Moves the cursor over `size` bytes; `none` when it would not land between two characters. -/
def advance? (size : Nat) : Option State :=
  (Text.dropBytes? text (s.offset + size)).map fun _ => { s with offset := s.offset + size }

/-- Puts the cursor at `offset`, wherever that is. -/
def restore (offset : Nat) : State := { s with offset }

/-- Notes that `what` would have matched at the cursor. -/
def expect (what : String) : State := { s with furthest := s.furthest.note s.offset what }

/-- Puts `name` in place of all that was expected at `offset`. -/
def relabel (offset : Nat) (name : String) : State := { s with furthest := s.furthest.relabel offset name }

/-- Adds an attempt to the trace. -/
def record (attempt : Attempt) : State := { s with trace := attempt :: s.trace }

end State

/-! ### Replies -/

/-- Why a parse was given up without an answer. -/
inductive Fault where
  /-- The cursor was not between two characters of the text. -/
  | badOffset
  /-- Recursion went deeper than the bound of the run. -/
  | tooDeep
  deriving DecidableEq, Repr

/-- What a parser answers, with the state that it leaves. -/
inductive Reply (α : Type) where
  | matched (value : α) (state : State)
  | noMatch (state : State)
  | halted (fault : Fault)

namespace Reply
variable {α β : Type}

/-- Goes on after a match. -/
def andThen (r : Reply α) (next : α → State → Reply β) : Reply β :=
  match r with
  | .matched a s => next a s
  | .noMatch s => .noMatch s
  | .halted f => .halted f

/-- Goes on after a failure. -/
def orElse (r : Reply α) (next : State → Reply α) : Reply α :=
  match r with
  | .matched a s => .matched a s
  | .noMatch s => next s
  | .halted f => .halted f

def map (f : α → β) (r : Reply α) : Reply β := r.andThen fun a s => .matched (f a) s

/-- Puts the cursor of a failure at `offset`. -/
def restore (r : Reply α) (offset : Nat) : Reply α := r.orElse fun s => .noMatch (s.restore offset)

/-- The answer of the rule `name`, tried at `start`, when the answer of its body is `r`. -/
def label (r : Reply α) (name : String) (start : Nat) : Reply α :=
  match r with
  | .matched a s => .matched a (s.record (.matched name start s.offset))
  | .noMatch s => .noMatch ((s.record (.failed name start)).relabel start name)
  | .halted f => .halted f

section
variable {a : α} {s : State} {fault : Fault} {next : α → State → Reply β} {other : State → Reply α}
  {f : α → β} {offset : Nat} {name : String}

@[simp] theorem andThen_matched : (matched a s).andThen next = next a s := rfl
@[simp] theorem andThen_noMatch : (noMatch s : Reply α).andThen next = noMatch s := rfl
@[simp] theorem andThen_halted : (halted fault : Reply α).andThen next = halted fault := rfl

@[simp] theorem orElse_matched : (matched a s).orElse other = matched a s := rfl
@[simp] theorem orElse_noMatch : (noMatch s).orElse other = other s := rfl
@[simp] theorem orElse_halted : (halted fault).orElse other = halted fault := rfl

@[simp] theorem map_matched : (matched a s).map f = matched (f a) s := rfl
@[simp] theorem map_noMatch : (noMatch s : Reply α).map f = noMatch s := rfl
@[simp] theorem map_halted : (halted fault : Reply α).map f = halted fault := rfl

@[simp] theorem restore_matched : (matched a s).restore offset = matched a s := rfl
@[simp] theorem restore_noMatch : (noMatch s : Reply α).restore offset = noMatch (s.restore offset) := rfl
@[simp] theorem restore_halted : (halted fault : Reply α).restore offset = halted fault := rfl

end

end Reply
end Reckoner.Parser
