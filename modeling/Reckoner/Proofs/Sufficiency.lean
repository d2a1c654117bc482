import Mathlib.Data.Finset.Card
import Mathlib.Data.Finset.Prod
import Mathlib.Data.Finset.Range
import Mathlib.Order.Monotone.Basic
import Reckoner.Proofs.Bound
import Reckoner.Proofs.Cursor

/-! The bound of a run suffices. A parser without leaves does the same at a position whenever it comes there, so a
    run that comes back to a handle at a position where the handle is still running never ends. Runs that end have
    each handle running at most once at each position, and there are only so many of these: they are not cut off
    by the bound that a run has, and what is cut off by it is cut off by every other bound. -/

namespace Reckoner.Parser
variable {ι : Type} {τ : ι → Type} {α β : Type} {text : List Char} {depth depth' start x : Nat}

/-! ### Courses that are cut off -/

namespace Course

/-- The course was cut off for going too deep. -/
def Cut (c : Course α) : Prop := c.ending = .halted .tooDeep

/-- `c'` is the same course as `c`, unless that was cut off. -/
def Below (c c' : Course α) : Prop := c.Cut ∨ c' = c

namespace Below
variable {c c' c'' : Course α}

theorem refl (c : Course α) : Below c c := Or.inr rfl

theorem trans (h : Below c c') (h' : Below c' c'') : Below c c'' := by
  rcases h with hcut | rfl
  · exact Or.inl hcut
  · exact h'

theorem eq (h : Below c c') (hc : ¬ c.Cut) : c' = c := h.resolve_left hc

/-- What follows a match has to agree only from the valid place that it starts at. -/
theorem andThen {next next' : α → Nat → Course β} (h : Below c c') (hsafe : Safe text start x c)
    (hnext : ∀ a y, Between text start y → Below (next a y) (next' a y)) :
    Below (c.andThen x next) (c'.andThen x next') := by
  have hland := hsafe.landing
  obtain ⟨ending, steps⟩ := c
  rcases h with hcut | rfl
  · obtain rfl : ending = .halted .tooDeep := hcut
    exact Or.inl rfl
  · cases ending with
    | matched a =>
      rcases hnext a _ hland with hcut | heq
      · exact Or.inl hcut
      · refine Or.inr ?_
        simp only [Course.andThen, heq]
    | noMatch | halted _ => exact refl _

theorem orElse {next next' : Course α} (h : Below c c') (hnext : Below next next') :
    Below (c.orElse next) (c'.orElse next') := by
  obtain ⟨ending, steps⟩ := c
  rcases h with hcut | rfl
  · obtain rfl : ending = .halted .tooDeep := hcut
    exact Or.inl rfl
  · cases ending with
    | noMatch =>
      rcases hnext with hcut | rfl
      · exact Or.inl hcut
      · exact refl _
    | matched _ | halted _ => exact refl _

/-- What is done to a course keeps the order when it leaves a course that was cut off so. -/
theorem on (f : Course α → Course β) (hf : ∀ c, c.Cut → (f c).Cut) (h : Below c c') : Below (f c) (f c') := by
  rcases h with hcut | rfl
  · exact Or.inl (hf c hcut)
  · exact refl _

theorem map (f : α → β) (h : Below c c') : Below (c.map f) (c'.map f) :=
  h.on _ fun c hc => by simp only [Cut, Course.map, Course.andThen, show c.ending = _ from hc]

theorem after (step : Step) (h : Below c c') : Below (c.after step) (c'.after step) :=
  h.on (·.after step) fun _ hc => hc

theorem backTo (y : Nat) (h : Below c c') : Below (c.backTo y) (c'.backTo y) := h.orElse (refl _)

theorem label (name : String) (y : Nat) (h : Below c c') : Below (c.label name y) (c'.label name y) :=
  h.on (·.label name y) fun c hc => by simp only [Cut, Course.label, show c.ending = _ from hc]

end Below
end Course

open Course

/-! ### Stages

A course at one bound is made of courses at the bound below it, at finitely many places. -/

section
variable {κ : Type} {γ : κ → Type} (stages : Nat → (k : κ) → Course (γ k)) (places : Finset κ)

/-- The places from which the course is not cut off at stage `n`. -/
noncomputable def settled (n : Nat) : Finset κ := open Classical in places.filter fun k => ¬ (stages n k).Cut

theorem mem_settled {n : Nat} {k : κ} : k ∈ settled stages places n ↔ k ∈ places ∧ ¬ (stages n k).Cut :=
  open Classical in Finset.mem_filter

variable {stages places} (hmono : ∀ n, ∀ k ∈ places, Below (stages n k) (stages (n + 1) k))
include hmono

theorem below_of_le {m n : Nat} (hmn : m ≤ n) {k : κ} (hk : k ∈ places) : Below (stages m k) (stages n k) := by
  induction n, hmn using Nat.le_induction with
  | base => exact .refl _
  | succ n _ ih => exact ih.trans (hmono n k hk)

theorem settled_mono : Monotone (settled stages places) := by
  intro m n hmn k hk
  obtain ⟨hk, hcut⟩ := (mem_settled stages places).mp hk
  exact (mem_settled stages places).mpr ⟨hk, by rwa [(below_of_le hmono hmn hk).eq hcut]⟩

/-- When nothing new is settled, the stage before answers as the next one does. -/
theorem below_of_settled_eq {n : Nat} (h : settled stages places n = settled stages places (n + 1)) :
    ∀ k ∈ places, Below (stages (n + 1) k) (stages n k) := by
  intro k hk
  by_cases hcut : (stages (n + 1) k).Cut
  · exact Or.inl hcut
  · have hkn : k ∈ settled stages places n := h ▸ (mem_settled stages places).mpr ⟨hk, hcut⟩
    exact Or.inr ((hmono n k hk).eq ((mem_settled stages places).mp hkn).2).symm

variable (hstep : ∀ n, (∀ k ∈ places, Below (stages (n + 1) k) (stages n k)) →
  ∀ k ∈ places, Below (stages (n + 2) k) (stages (n + 1) k))
include hstep

theorem settled_eq_succ {n : Nat} (h : settled stages places n = settled stages places (n + 1)) :
    settled stages places (n + 1) = settled stages places (n + 2) := by
  refine Finset.Subset.antisymm (settled_mono hmono (n + 1).le_succ) fun k hk => ?_
  obtain ⟨hk, hcut⟩ := (mem_settled stages places).mp hk
  have hback := hstep n (below_of_settled_eq hmono h) k hk
  exact (mem_settled stages places).mpr ⟨hk, by rwa [← hback.eq hcut] at hcut⟩

/-- As long as something new is settled at each stage, no more stages are needed than there are places. -/
theorem card_settled_eq {n : Nat} (hn : places.card ≤ n) :
    (settled stages places n).card = (settled stages places places.card).card := by
  let count (n : Nat) : Nat := (settled stages places n).card
  have hcount : ∀ n, count n = count (n + 1) → count (n + 1) = count (n + 2) := by
    intro n hn
    have hstill : settled stages places n = settled stages places (n + 1) :=
      Finset.eq_of_subset_of_card_le (settled_mono hmono n.le_succ) hn.ge
    exact congrArg Finset.card (settled_eq_succ hmono hstep hstill)
  have hle : ∀ n, count n ≤ places.card := fun n =>
    Finset.card_le_card fun k hk => ((mem_settled stages places).mp hk).1
  exact Nat.stabilises_of_monotone (fun m n hmn => Finset.card_le_card (settled_mono hmono hmn)) hle hcount hn

theorem below_of_card_le {m n : Nat} (hn : places.card ≤ n) {k : κ} (hk : k ∈ places) :
    Below (stages m k) (stages n k) := by
  by_cases hcut : (stages m k).Cut
  · exact Or.inl hcut
  · rcases Nat.le_total m n with hmn | hnm
    · exact below_of_le hmono hmn hk
    · have hsame : settled stages places n = settled stages places m := by
        refine Finset.eq_of_subset_of_card_le (settled_mono hmono hnm) ?_
        rw [card_settled_eq hmono hstep hn, card_settled_eq hmono hstep (hn.trans hnm)]
      have hkn : k ∈ settled stages places n := hsame ▸ (mem_settled stages places).mpr ⟨hk, hcut⟩
      exact Or.inr ((below_of_le hmono hnm hk).eq ((mem_settled stages places).mp hkn).2).symm

end

/-- The valid places of the text. -/
noncomputable def places (text : List Char) : Finset Nat :=
  open Classical in (Finset.range (Text.byteLength text + 1)).filter (Between text 0)

theorem mem_places : x ∈ places text ↔ Between text 0 x := by
  classical
  refine Finset.mem_filter.trans ⟨fun h => h.2, fun h => ⟨Finset.mem_range.mpr ?_, h⟩⟩
  exact Nat.lt_succ_of_le h.le_length

theorem card_places_le (text : List Char) : (places text).card ≤ Text.byteLength text + 1 := by
  classical
  exact (Finset.card_filter_le _ _).trans (Finset.card_range _).le

/-! ### Parsers -/

/-- The handles keep the cursor at valid places. -/
def CourseEnvironment.Safe (text : List Char) (env : CourseEnvironment τ) : Prop :=
  ∀ i x, Between text 0 x → Parser.Safe text 0 x (env i x)

/-- From a valid place the handles do the same in both environments, unless they are cut off in the first one. -/
def CourseEnvironment.Below (text : List Char) (env env' : CourseEnvironment τ) : Prop :=
  ∀ i x, Between text 0 x → Course.Below (env i x) (env' i x)

section
variable {env env' : CourseEnvironment τ} {self self' : Nat → Course α}

theorem CourseEnvironment.Below.refl (env : CourseEnvironment τ) : env.Below text env :=
  fun _ _ _ => Course.Below.refl _

theorem CourseEnvironment.Safe.extend (h : env.Safe text)
    (hself : ∀ x, Between text 0 x → Parser.Safe text 0 x (self x)) : (env.extend self).Safe text := by
  intro i
  cases i with
  | none => exact hself
  | some i => exact h i

theorem CourseEnvironment.Below.extend (h : env.Below text env')
    (hself : ∀ x, Between text 0 x → Course.Below (self x) (self' x)) :
    (env.extend self).Below text (env'.extend self') := by
  intro i
  cases i with
  | none => exact hself
  | some i => exact h i

end

/-- What `p` does at one bound it does at every larger one, and also at a smaller one that is above the length of the
    text, unless it is cut off at the first. -/
def Settles (text : List Char) (p : Parser τ α) : Prop :=
  ∀ ⦃depth depth' : Nat⦄ ⦃env env' : CourseEnvironment τ⦄, env.Safe text → env'.Safe text → env.Below text env' →
    depth ≤ depth' ∨ Text.byteLength text < depth' → ∀ ⦃x⦄, Between text 0 x →
    Course.Below (course text depth p env x) (course text depth' p env' x)

/-- The recursive parser's course in the body of which it may run `n` times within itself. -/
abbrev rounds (text : List Char) (depth : Nat) (body : Parser (Extended α τ) α) (env : CourseEnvironment τ) (n : Nat) :
    Nat → Course α :=
  unroll n fun self => course text depth body (env.extend self)

section
variable {body : Parser (Extended α τ) α} {env env' : CourseEnvironment τ}

theorem LeafFree.rounds_safe (hbody : LeafFree body) (henv : env.Safe text) (n : Nat) (hx : Between text 0 x) :
    Safe text 0 x (rounds text depth body env n x) :=
  unroll_safe (fun _ hself _ hy => hbody.course_safe (henv.extend hself) hy) n x hx

theorem Settles.rounds_below (h : Settles text body) (hbody : LeafFree body) (henv : env.Safe text)
    (henv' : env'.Safe text) (hbelow : env.Below text env')
    (hdepth : depth ≤ depth' ∨ Text.byteLength text < depth') :
    ∀ (m n : Nat), m ≤ n → ∀ {x}, Between text 0 x →
      Course.Below (rounds text depth body env m x) (rounds text depth' body env' n x)
  | 0, _, _, _, _ => Or.inl rfl
  | m + 1, n + 1, hmn, _, hx =>
    h (henv.extend fun _ hy => hbody.rounds_safe henv m hy) (henv'.extend fun _ hy => hbody.rounds_safe henv' n hy)
      (hbelow.extend fun _ hy =>
        h.rounds_below hbody henv henv' hbelow hdepth m n (Nat.le_of_succ_le_succ hmn) hy) hdepth hx

/-- The body settles, so the recursive parser does: each stage that is not the last settles a place of the text. -/
theorem Settles.recursive (h : Settles text body) (hbody : LeafFree body) :
    Settles text (.recursive body : Parser τ α) := by
  intro depth depth' env env' henv henv' hbelow hdepth x hx
  have hle : ∀ m n, m ≤ n → ∀ {y}, Between text 0 y →
      Course.Below (rounds text depth' body env' m y) (rounds text depth' body env' n y) :=
    h.rounds_below hbody henv' henv' (.refl env') (Or.inl (Nat.le_refl _))
  have hacross : Course.Below (rounds text depth body env depth x) (rounds text depth' body env' depth x) :=
    h.rounds_below hbody henv henv' hbelow hdepth depth depth (Nat.le_refl _) hx
  refine hacross.trans ?_
  rcases hdepth with hdepth | hdepth
  · exact hle depth depth' hdepth hx
  · have hsafe : ∀ n, (env'.extend (rounds text depth' body env' n)).Safe text := fun n =>
      henv'.extend fun _ hy => hbody.rounds_safe henv' n hy
    have hmono : ∀ n, ∀ y ∈ places text, Course.Below (rounds text depth' body env' n y)
        (rounds text depth' body env' (n + 1) y) := fun n y hy => hle n (n + 1) n.le_succ (mem_places.mp hy)
    refine below_of_card_le hmono (fun n hback y hy => ?_) ((card_places_le text).trans hdepth) (mem_places.mpr hx)
    have hself : (env'.extend (rounds text depth' body env' (n + 1))).Below text
        (env'.extend (rounds text depth' body env' n)) :=
      CourseEnvironment.Below.extend (.refl env') fun z hz => hback z (mem_places.mpr hz)
    exact h (hsafe _) (hsafe _) hself (Or.inl (Nat.le_refl _)) (mem_places.mp hy)

end

theorem LeafFree.settles {p : Parser τ α} (hp : LeafFree p) : Settles text p := by
  induction p with
  | leaf _ => exact hp.elim
  | recursive body ih => exact Settles.recursive (ih hp) hp
  | lazy make ih => exact ih () hp
  | literal _ | pure _ | fail => exact fun _ _ _ _ _ _ _ _ _ _ => .refl _
  | handle i => exact fun _ _ _ _ _ _ hbelow _ x hx => hbelow i x hx
  | chain p f ihp ihf =>
    intro depth depth' env env' henv henv' hbelow hdepth x hx
    exact (ihp hp.1 henv henv' hbelow hdepth hx).andThen (hp.1.course_safe henv hx) fun a y hy =>
      (ihf a (hp.2 a) henv henv' hbelow hdepth hy).backTo x
  | map p f ih =>
    intro depth depth' env env' henv henv' hbelow hdepth x hx
    exact (ih hp henv henv' hbelow hdepth hx).map f
  | or p q ihp ihq =>
    intro depth depth' env env' henv henv' hbelow hdepth x hx
    exact (ihp hp.1 henv henv' hbelow hdepth hx).orElse ((ihq hp.2 henv henv' hbelow hdepth hx).after (.restore x))
  | label p name ih =>
    intro depth depth' env env' henv henv' hbelow hdepth x hx
    exact (ih hp henv henv' hbelow hdepth hx).label name x
  | weaken p ih =>
    intro depth depth' env env' henv henv' hbelow hdepth x hx
    exact ih hp (fun i => henv (some i)) (fun i => henv' (some i)) (fun i => hbelow (some i)) hdepth hx

/-! ### Definitions -/

section
variable {d : Definitions τ} {m n : Nat}

theorem courses_of_notMem {i : ι} (hi : i ∉ d.defined) (hn : 0 < n) (x : Nat) :
    d.courses text n i x = ⟨.noMatch, []⟩ := by
  obtain ⟨n, rfl⟩ := Nat.exists_eq_add_of_lt hn
  have hnone : d.parser? i = none := by
    by_contra hsome
    exact hi (d.mem_defined i (Option.isSome_iff_ne_none.mpr hsome))
  simp only [Definitions.courses, hnone]

theorem Definitions.LeafFree.safe_courses (hd : d.LeafFree) (n : Nat) : (d.courses text n).Safe text :=
  fun i _ hx => courses_safe hd i hx

theorem Definitions.LeafFree.courses_succ_below (hd : d.LeafFree) (hdepth : m ≤ n ∨ Text.byteLength text < n)
    (h : (d.courses text m).Below text (d.courses text n)) :
    (d.courses text (m + 1)).Below text (d.courses text (n + 1)) := by
  intro i x hx
  simp only [Definitions.courses]
  cases hp : d.parser? i with
  | none => exact .refl _
  | some p => exact (hd i p hp).settles (hd.safe_courses m) (hd.safe_courses n) h hdepth hx

theorem Definitions.LeafFree.courses_le (hd : d.LeafFree) (hmn : m ≤ n) :
    (d.courses text m).Below text (d.courses text n) := by
  induction m generalizing n with
  | zero => exact fun _ _ _ => Or.inl rfl
  | succ m ih =>
    obtain ⟨n, rfl⟩ := Nat.exists_eq_add_of_le' hmn
    exact hd.courses_succ_below (Or.inl (Nat.le_add_left m n)) (ih (Nat.le_add_left m n))

/-- Each stage that is not the last settles a handle at a place of the text. -/
theorem Definitions.LeafFree.courses_below (hd : d.LeafFree) (hn : d.depth text ≤ n) :
    (d.courses text m).Below text (d.courses text n) := by
  classical
  -- The stages begin above the length of the text, where the bounds within a parser do not matter any more.
  let base := Text.byteLength text + 1
  have hbound : base + d.defined.length * base ≤ n := by
    refine Nat.le_trans ?_ hn
    rw [Definitions.depth, Nat.add_comm, ← Nat.succ_mul]
    exact Nat.mul_le_mul (Nat.le_refl _) (Nat.le_succ _)
  obtain ⟨n, rfl⟩ := Nat.exists_eq_add_of_le (Nat.le_trans (Nat.le_add_right _ _) hbound)
  intro i x hx
  refine (hd.courses_le (Nat.le_add_left m base) i x hx).trans ?_
  by_cases hi : i ∈ d.defined
  · have hcard : (d.defined.toFinset ×ˢ places text).card ≤ n := by
      rw [Finset.card_product]
      exact (Nat.mul_le_mul (List.toFinset_card_le d.defined) (card_places_le text)).trans
        (Nat.le_of_add_le_add_left hbound)
    let stages (n : Nat) (k : ι × Nat) : Course (τ k.1) := d.courses text (base + n) k.1 k.2
    have hmem : ∀ k ∈ d.defined.toFinset ×ˢ places text, Between text 0 k.2 := fun k hk =>
      mem_places.mp (Finset.mem_product.mp hk).2
    have hmono : ∀ n, ∀ k ∈ d.defined.toFinset ×ˢ places text, Course.Below (stages n k) (stages (n + 1) k) :=
      fun n k hk => hd.courses_le (Nat.le_succ _) k.1 k.2 (hmem k hk)
    have hix : (i, x) ∈ d.defined.toFinset ×ˢ places text :=
      Finset.mem_product.mpr ⟨List.mem_toFinset.mpr hi, mem_places.mpr hx⟩
    refine below_of_card_le hmono (fun n hback k hk => ?_) hcard hix
    have hagain : (d.courses text (base + n + 1)).Below text (d.courses text (base + n)) := by
      intro j y hy
      by_cases hj : j ∈ d.defined
      · exact hback (j, y) (Finset.mem_product.mpr ⟨List.mem_toFinset.mpr hj, mem_places.mpr hy⟩)
      · rw [courses_of_notMem hj (by omega), courses_of_notMem hj (by omega)]
        exact .refl _
    exact hd.courses_succ_below (Or.inr (by omega)) hagain k.1 k.2 (hmem k hk)
  · rw [courses_of_notMem hi (by omega), courses_of_notMem hi (by omega)]
    exact .refl _

/-! ### Runs -/

variable {p : Parser τ α} {s : State} {w : List Char} {r : Reply α}

theorem reply_of_below {c c' : Course α} (h : Course.Below c c') (hr : c.reply s ≠ .halted .tooDeep) :
    c'.reply s = c.reply s := by
  rcases h with hcut | rfl
  · have hhalted : c.reply s = .halted .tooDeep := by rw [Course.reply, hcut]
    exact absurd hhalted hr
  · rfl

/-- What a run answers at any bound is what it answers at the bound for the text, and from there on the bound makes no
    difference at all. -/
theorem exec_settles (hp : LeafFree p) (hd : d.LeafFree) (hs : s.rest? text = some w)
    (hn : d.depth text ≤ n) (hr : exec text m p (d.environment text m) s ≠ .halted .tooDeep) :
    exec text n p (d.environment text n) s = exec text m p (d.environment text m) s := by
  rw [exec_eq_course hp hd] at hr ⊢
  rw [exec_eq_course hp hd]
  have hlength : Text.byteLength text < n := by
    refine Nat.lt_of_lt_of_le (Nat.lt_of_lt_of_le (Nat.lt_add_of_pos_right (Nat.succ_pos 1)) ?_) hn
    exact Nat.le_mul_of_pos_left _ (Nat.succ_pos _)
  exact reply_of_below (hp.settles (hd.safe_courses m) (hd.safe_courses n) (hd.courses_below hn) (Or.inr hlength)
    (Between.of_cut (Nat.zero_le _) hs)) hr

/-- A larger bound than that for the text changes nothing, not even whether the run is cut off. -/
theorem exec_eq_reply (hp : LeafFree p) (hd : d.LeafFree) (hs : s.rest? text = some w) (hn : d.depth text ≤ n) :
    exec text n p (d.environment text n) s = p.reply d text s := by
  by_cases hcut : exec text n p (d.environment text n) s = .halted .tooDeep
  · by_contra hne
    rw [hcut] at hne
    exact hne (hcut.symm.trans (exec_settles hp hd hs hn (Ne.symm hne)))
  · exact (exec_settles hp hd hs (Nat.le_refl _) hcut).symm

/-- A run ends with an answer when it does so at the bound for the text. -/
theorem answers_iff_reply (hp : LeafFree p) (hd : d.LeafFree) (hs : s.rest? text = some w) :
    Answers d text p s r ↔ r ≠ .halted .tooDeep ∧ p.reply d text s = r := by
  constructor
  · rintro ⟨hr, m, rfl⟩
    exact ⟨hr, exec_settles hp hd hs (Nat.le_refl _) hr⟩
  · rintro ⟨hr, hreply⟩
    exact ⟨hr, d.depth text, hreply⟩

end

end Reckoner.Parser
