import Reckoner.Parser.Exec

/-! The laws of sequences. They hold of all that a run leaves, the cursor of a failure and the diagnostics included,
    and for parsers that fail without putting the cursor back. However sequences are grouped, the cursor is put back
    to where the whole was started, and only when something failed that came after the first part. One law needs more:
    a sequence that begins with a value puts the cursor back, whatever comes next. -/

namespace Reckoner.Parser
variable {ι : Type} {τ : ι → Type} {α β γ : Type}

/-! ### Replies -/

namespace Reply
variable (r : Reply α) (x y : Nat)

theorem andThen_assoc (next : α → State → Reply β) (last : β → State → Reply γ) :
    (r.andThen next).andThen last = r.andThen fun a s => (next a s).andThen last := by
  cases r <;> rfl

theorem andThen_matched_self : r.andThen .matched = r := by
  cases r <;> rfl

theorem restore_restore : (r.restore x).restore y = r.restore y := by
  cases r <;> rfl

theorem restore_andThen (next : α → State → Reply β) :
    (r.andThen next).restore x = (r.restore x).andThen fun a s => (next a s).restore x := by
  cases r <;> rfl

/-- Putting the cursor back changes nothing where it was put back already. -/
theorem restore_eq_self_iff : r.restore x = r ↔ ∀ s, r = .noMatch s → s.offset = x := by
  cases r with
  | matched _ _ | halted _ => simp
  | noMatch s =>
    constructor
    · rintro h t ⟨⟩
      exact (congrArg State.offset (noMatch.inj h)).symm
    · intro h
      rw [← h s rfl]
      rfl

end Reply

/-! ### Parsers that answer alike -/

/-- Both parsers answer alike, on every text, at every bound, between any handles and in every state. -/
def Alike (p q : Parser τ α) : Prop :=
  ∀ (text : List Char) (depth : Nat) (env : Environment τ) (s : State), exec text depth p env s = exec text depth q env s

namespace Alike
variable {p q r : Parser τ α}

theorem symm (h : Alike p q) : Alike q p := fun text depth env s => (h text depth env s).symm

theorem trans (h : Alike p q) (h' : Alike q r) : Alike p r := fun text depth env s =>
  (h text depth env s).trans (h' text depth env s)

instance : Trans (Alike : Parser τ α → Parser τ α → Prop) (Alike : Parser τ α → Parser τ α → Prop)
    (Alike : Parser τ α → Parser τ α → Prop) := ⟨trans⟩

theorem chain (p : Parser τ α) {f g : α → Parser τ β} (h : ∀ a, Alike (f a) (g a)) :
    Alike (.chain p f) (.chain p g) := fun text depth env s => by
  simp only [exec_chain, h _ text depth env]

end Alike

/-! ### Laws -/

section
variable (p : Parser τ α) (f : α → Parser τ β) (g : β → Parser τ γ) (q : Parser τ β) (r : Parser τ γ)

theorem chain_chain : Alike ((p.chain f).chain g) (p.chain fun a => (f a).chain g) := fun text depth env s => by
  simp only [exec_chain, Reply.andThen_assoc, Reply.restore_andThen, Reply.restore_restore]

theorem chain_pure : Alike (p.chain .pure) p := fun _ _ _ _ => Reply.andThen_matched_self _

theorem map_eq_chain (h : α → β) : Alike (p.map h) (p.chain fun a => .pure (h a)) := fun _ _ _ _ => rfl

/-- A sequence that begins with a value answers as its second part does just where this puts the cursor back. -/
theorem pure_chain_iff {text : List Char} {depth : Nat} {env : Environment τ} {s : State} (a : α) :
    exec text depth ((Parser.pure a).chain f) env s = exec text depth (f a) env s ↔
      ∀ t, exec text depth (f a) env s = .noMatch t → t.offset = s.offset :=
  Reply.restore_eq_self_iff _ _

/-- What is done to a value may be done by what comes next. -/
theorem map_chain (h : α → β) (g : β → Parser τ γ) : Alike ((p.map h).chain g) (p.chain fun a => g (h a)) :=
  fun text depth env s => by
    simp only [exec_chain, exec_map, Reply.map, Reply.andThen_assoc, Reply.andThen_matched]

/-! The others follow from these, without another look at runs. -/

theorem chain_map (h : β → γ) : Alike ((p.chain f).map h) (p.chain fun a => (f a).map h) :=
  calc Alike ((p.chain f).map h) ((p.chain f).chain fun b => .pure (h b)) := map_eq_chain _ h
    Alike _ (p.chain fun a => (f a).chain fun b => .pure (h b)) := chain_chain p f _
    Alike _ (p.chain fun a => (f a).map h) := .chain p fun a => (map_eq_chain (f a) h).symm

theorem map_map (h : α → β) (k : β → γ) : Alike ((p.map h).map k) (p.map fun a => k (h a)) :=
  calc Alike ((p.map h).map k) ((p.map h).chain fun b => .pure (k b)) := map_eq_chain _ k
    Alike _ (p.chain fun a => .pure (k (h a))) := map_chain p h _
    Alike _ (p.map fun a => k (h a)) := (map_eq_chain p _).symm

theorem map_self : Alike (p.map fun a => a) p := (map_eq_chain p _).trans (chain_pure p)

/-- What is done to the two values of a sequence may be done by its second part. -/
theorem seq_map (h : α × β → γ) : Alike ((p.seq q).map h) (p.chain fun a => q.map fun b => h (a, b)) :=
  calc Alike ((p.seq q).map h) (p.chain fun a => (q.map fun b => (a, b)).map h) := chain_map p _ h
    Alike _ (p.chain fun a => q.map fun b => h (a, b)) := .chain p fun _ => map_map q _ h

theorem keepLeft_eq_map : Alike (p.keepLeft q) ((p.seq q).map Prod.fst) := (seq_map p q Prod.fst).symm

theorem keepRight_eq_map : Alike (p.keepRight q) ((p.seq q).map Prod.snd) :=
  calc Alike (p.keepRight q) (p.chain fun _ => q.map fun b => b) := .chain p fun _ => (map_self q).symm
    Alike _ ((p.seq q).map Prod.snd) := (seq_map p q Prod.snd).symm

theorem seq_seq : Alike (((p.seq q).seq r).map fun v => (v.1.1, v.1.2, v.2)) (p.seq (q.seq r)) :=
  calc
    Alike (((p.seq q).seq r).map fun v => (v.1.1, v.1.2, v.2))
        ((p.seq q).chain fun v => r.map fun c => (v.1, v.2, c)) := seq_map _ r _
    Alike _ (p.chain fun a => (q.map fun b => (a, b)).chain fun v => r.map fun c => (v.1, v.2, c)) := chain_chain p _ _
    Alike _ (p.chain fun a => q.chain fun b => r.map fun c => (a, b, c)) := .chain p fun _ => map_chain q _ _
    Alike _ (p.chain fun a => (q.seq r).map fun v => (a, v)) := .chain p fun _ => (seq_map q r _).symm

end

/-- Sequences obey the laws of a monad in all that a run leaves: they may be grouped in any way, a value at the end
    adds nothing, and what is done to a value is a sequence with a value at its end. A value at the beginning adds
    nothing just where the second part puts the cursor back when it fails. A sequence that keeps one of its values is
    the one that yields both, with the other one dropped, and sequences that yield all their values may be grouped in
    any way too. -/
theorem chain_lawful (p : Parser τ α) (f : α → Parser τ β) (g : β → Parser τ γ) (q : Parser τ β) (r : Parser τ γ) :
    Alike ((p.chain f).chain g) (p.chain fun a => (f a).chain g) ∧
    Alike (p.chain .pure) p ∧
    (∀ h : α → β, Alike (p.map h) (p.chain fun a => .pure (h a))) ∧
    (∀ (a : α) (text : List Char) (depth : Nat) (env : Environment τ) (s : State),
      exec text depth ((Parser.pure a).chain f) env s = exec text depth (f a) env s ↔
        ∀ t, exec text depth (f a) env s = .noMatch t → t.offset = s.offset) ∧
    Alike (p.keepLeft q) ((p.seq q).map Prod.fst) ∧
    Alike (p.keepRight q) ((p.seq q).map Prod.snd) ∧
    Alike (((p.seq q).seq r).map fun v => (v.1.1, v.1.2, v.2)) (p.seq (q.seq r)) :=
  ⟨chain_chain p f g, chain_pure p, map_eq_chain p, fun a _ _ _ _ => pure_chain_iff f a, keepLeft_eq_map p q,
    keepRight_eq_map p q, seq_seq p q r⟩

/-- A step that fails and leaves the cursor further on: behind a value it does not stay there. Where the step is a
    literal, the value makes no difference. -/
theorem chain_lawful_leak :
    let leak : Parser (fun i : Empty => nomatch i) String := .leaf fun _ s => .noMatch (s.restore (s.offset + 2))
    let step (far : Bool) : Parser (fun i : Empty => nomatch i) String := if far then leak else .literal "c"
    let run (p : Parser (fun i : Empty => nomatch i) String) := exec ['a', 'b'] 0 p (fun i => nomatch i) {}
    run (step true) = .noMatch { offset := 2 } ∧
      run ((Parser.pure true).chain step) ≠ run (step true) ∧
      run (step false) = .noMatch { furthest := some ⟨0, ["'c'"]⟩ } ∧
      run ((Parser.pure false).chain step) = run (step false) := by
  intro leak step run
  obtain ⟨-, -, -, hvalue, -⟩ := chain_lawful (.pure true) step .pure (.literal "c") (.literal "d")
  have hleak : run (step true) = .noMatch { offset := 2 } := rfl
  have hliteral : run (step false) = .noMatch { furthest := some ⟨0, ["'c'"]⟩ } := rfl
  refine ⟨hleak, fun hsame => ?_, hliteral, (hvalue false _ _ _ _).mpr fun t ht => ?_⟩
  · have hoffset : 2 = 0 := (hvalue true _ _ _ _).mp hsame _ hleak
    cases hoffset
  · cases hliteral.symm.trans ht
    rfl

end Reckoner.Parser
